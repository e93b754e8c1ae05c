import OrangeOs.Lib.NamedGraph

/-! # Finite trees of names

A tree says for every path which node is there, if any; only inner nodes have
others below them, and no two paths share a node. A node is added below an inner
one, and a node with nothing below it is removed. A rooted graph with finitely
many nodes, seen from its root, is such a tree.
-/

namespace NamedGraph

open Function

variable {I N : Type*}

structure Node (I : Type*) where
  id : I
  inner : Bool
deriving DecidableEq

@[ext] structure PathTree (I N : Type*) where
  node : List N → Option (Node I)
  root : ∃ i, node [] = some ⟨i, true⟩
  below : ∀ {p c n}, node (p ++ [c]) = some n → ∃ i, node p = some ⟨i, true⟩
  finite : {p | node p ≠ none}.Finite
  distinct : ∀ {p q n m}, node p = some n → node q = some m → n.id = m.id → p = q

def PathTree.Bare (t : PathTree I N) (p : List N) : Prop := ∀ c, t.node (p ++ [c]) = none

section Change

variable [DecidableEq N]

/-- A new node below an inner one, under a name that is free there. -/
def PathTree.add (t : PathTree I N) (p : List N) (c : N) (n : Node I)
    (hp : ∃ i, t.node p = some ⟨i, true⟩) (hfree : t.node (p ++ [c]) = none)
    (hfresh : ∀ q m, t.node q = some m → m.id ≠ n.id) : PathTree I N where
  node := update t.node (p ++ [c]) (some n)
  root := by
    rw [update_of_ne (by simp)]
    exact t.root
  below := by
    intro q d m hm
    have hkeep : ∃ i, t.node q = some ⟨i, true⟩ := by
      by_cases heq : q ++ [d] = p ++ [c]
      · rwa [(List.append_inj' heq rfl).1]
      · rw [update_of_ne heq] at hm
        exact t.below hm
    obtain ⟨i, hi⟩ := hkeep
    refine ⟨i, ?_⟩
    rw [update_of_ne, hi]
    rintro rfl
    rw [hfree] at hi
    cases hi
  finite := by
    refine (t.finite.insert (p ++ [c])).subset ?_
    intro q hq
    by_cases heq : q = p ++ [c]
    · exact Or.inl heq
    · rw [Set.mem_ofPred_eq, update_of_ne heq] at hq
      exact Or.inr hq
  distinct := by
    intro q r m k hm hk hid
    by_cases hq : q = p ++ [c]
    · rw [hq, update_self] at hm
      obtain rfl := Option.some.inj hm
      by_cases hr : r = p ++ [c]
      · rw [hq, hr]
      · rw [update_of_ne hr] at hk
        exact absurd hid.symm (hfresh r k hk)
    · rw [update_of_ne hq] at hm
      by_cases hr : r = p ++ [c]
      · rw [hr, update_self] at hk
        obtain rfl := Option.some.inj hk
        exact absurd hid (hfresh q m hm)
      · rw [update_of_ne hr] at hk
        exact t.distinct hm hk hid

/-- The node at a path with nothing below it is taken away. -/
def PathTree.remove (t : PathTree I N) (p : List N) (c : N) (hbare : t.Bare (p ++ [c])) :
    PathTree I N where
  node := update t.node (p ++ [c]) none
  root := by
    rw [update_of_ne (by simp)]
    exact t.root
  below := by
    intro q d m hm
    have hm : t.node (q ++ [d]) = some m := by
      by_cases heq : q ++ [d] = p ++ [c]
      · rw [heq, update_self] at hm
        cases hm
      · rwa [update_of_ne heq] at hm
    obtain ⟨i, hi⟩ := t.below hm
    refine ⟨i, ?_⟩
    rw [update_of_ne, hi]
    rintro rfl
    rw [hbare d] at hm
    cases hm
  finite := by
    refine t.finite.subset ?_
    intro q hq
    by_cases heq : q = p ++ [c]
    · rw [Set.mem_ofPred_eq, heq, update_self] at hq
      exact absurd rfl hq
    · rwa [Set.mem_ofPred_eq, update_of_ne heq] at hq
  distinct := by
    have hold : ∀ {q m}, update t.node (p ++ [c]) none q = some m →
        t.node q = some m := by
      intro q m hm
      by_cases heq : q = p ++ [c]
      · rw [heq, update_self] at hm
        cases hm
      · rwa [update_of_ne heq] at hm
    intro q r m k hm hk hid
    exact t.distinct (hold hm) (hold hk) hid

end Change

/-- The tree a rooted graph shows from its root; `inner` says which of its nodes
may have others below them. -/
def Rooted.tree {G : PointedGraph I N} (hG : Rooted G) (inner : I → Bool) {U : Set I} (hU : U.Finite)
    (hmem : ∀ p x, G.walk p = some x → x ∈ U) (hroot : inner G.root = true)
    (hinner : ∀ {x c y}, G.child x c = some y → inner x = true) : PathTree I N where
  node p := (G.walk p).map fun x => ⟨x, inner x⟩
  root := ⟨G.root, by simp [hroot]⟩
  below := by
    intro p c n hn
    obtain ⟨y, hy, -⟩ := Option.map_eq_some_iff.mp hn
    obtain ⟨x, hx, hc⟩ := PointedGraph.walk_snoc_some hy
    exact ⟨x, by rw [hx, Option.map_some, hinner hc]⟩
  finite := by
    refine (hG.finite hU hmem).subset fun p hp hnone => hp ?_
    simp [hnone]
  distinct := by
    intro p q n m hn hm hid
    obtain ⟨x, hx, rfl⟩ := Option.map_eq_some_iff.mp hn
    obtain ⟨y, hy, rfl⟩ := Option.map_eq_some_iff.mp hm
    obtain rfl : x = y := hid
    exact hG.walk_injective hx hy

end NamedGraph
