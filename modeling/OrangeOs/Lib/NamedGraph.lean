import Mathlib.Data.List.Induction
import Mathlib.Data.Set.Finite.Basic
import Mathlib.Data.Finite.Prod

/-! # Rooted graphs with named edges

A graph has a root and at most one edge of each name out of a node; a path is a
list of names walked from the root. When every node has at most one edge into it
and the root has none, a node is reached by one path only, so the graph seen from
its root is a tree. Adding an edge to a leaf, or taking one away, then changes
the walk of exactly one path.
-/

namespace NamedGraph

open List

variable {I N : Type*}

structure PointedGraph (I N : Type*) where
  root : I
  child : I → N → Option I

def PointedGraph.walkFrom (G : PointedGraph I N) : I → List N → Option I
  | x, [] => some x
  | x, c :: p => (G.child x c).bind fun y => G.walkFrom y p

def PointedGraph.walk (G : PointedGraph I N) (p : List N) : Option I := G.walkFrom G.root p

@[simp] theorem PointedGraph.walk_nil (G : PointedGraph I N) : G.walk [] = some G.root := rfl

theorem PointedGraph.walkFrom_append (G : PointedGraph I N) (x : I) (p q : List N) :
    G.walkFrom x (p ++ q) = (G.walkFrom x p).bind fun y => G.walkFrom y q := by
  induction p generalizing x with
  | nil => rfl
  | cons c p ih =>
    simp only [cons_append, walkFrom]
    cases G.child x c with
    | none => rfl
    | some y => exact ih y

theorem PointedGraph.walk_snoc (G : PointedGraph I N) (p : List N) (c : N) :
    G.walk (p ++ [c]) = (G.walk p).bind fun x => G.child x c := by
  rw [walk, walkFrom_append]
  congr 1
  funext y
  simp [walkFrom]

/-- At most one edge into every node, none into the root. -/
structure Rooted (G : PointedGraph I N) : Prop where
  once : ∀ {x y z c d}, G.child x c = some z → G.child y d = some z → x = y ∧ c = d
  root : ∀ {x c}, G.child x c ≠ some G.root

theorem PointedGraph.walk_snoc_some {G : PointedGraph I N} {p : List N} {c : N} {z : I}
    (h : G.walk (p ++ [c]) = some z) : ∃ x, G.walk p = some x ∧ G.child x c = some z := by
  rw [G.walk_snoc] at h
  exact Option.bind_eq_some_iff.mp h

theorem Rooted.walk_injective {G : PointedGraph I N} (hG : Rooted G) {p q : List N} {x : I}
    (hp : G.walk p = some x) (hq : G.walk q = some x) : p = q := by
  induction p using reverseRecOn generalizing q x with
  | nil =>
    obtain rfl := Option.some.inj hp
    cases q using reverseRecOn with
    | nil => rfl
    | append_singleton q d =>
      obtain ⟨y, -, hy⟩ := PointedGraph.walk_snoc_some hq
      exact absurd hy hG.root
  | append_singleton p c ih =>
    obtain ⟨y, hyp, hy⟩ := PointedGraph.walk_snoc_some hp
    cases q using reverseRecOn with
    | nil =>
      obtain rfl := Option.some.inj hq
      exact absurd hy hG.root
    | append_singleton q d =>
      obtain ⟨z, hzq, hz⟩ := PointedGraph.walk_snoc_some hq
      obtain ⟨rfl, rfl⟩ := hG.once hy hz
      rw [ih hyp hzq]

theorem Rooted.finite {G : PointedGraph I N} (hG : Rooted G) {U : Set I} (hU : U.Finite)
    (hmem : ∀ p x, G.walk p = some x → x ∈ U) : {p | G.walk p ≠ none}.Finite := by
  refine Set.Finite.of_injOn (f := G.walk) (t := some '' U) ?_ ?_ (hU.image some)
  · intro p hp
    obtain ⟨x, hx⟩ := Option.ne_none_iff_exists'.mp hp
    exact ⟨x, hmem p x hx, hx.symm⟩
  · intro p hp q _ heq
    obtain ⟨x, hx⟩ := Option.ne_none_iff_exists'.mp hp
    exact hG.walk_injective hx (heq ▸ hx)

/-- `H` is `G` up to the edge named `c` out of `d`, which leads to a leaf in either
graph that has it. -/
structure Relinked (G H : PointedGraph I N) (d : I) (c : N) : Prop where
  root : H.root = G.root
  other : ∀ x b, ¬(x = d ∧ b = c) → H.child x b = G.child x b
  leafOld : ∀ {i} b, G.child d c = some i → G.child i b = none
  leafNew : ∀ {i} b, H.child d c = some i → H.child i b = none

theorem Relinked.walk {G H : PointedGraph I N} {d : I} {c : N} (h : Relinked G H d c) (hG : Rooted G)
    {q : List N} (hq : G.walk q = some d) [DecidableEq (List N)] (p : List N) :
    H.walk p = if p = q ++ [c] then H.child d c else G.walk p := by
  induction p using reverseRecOn with
  | nil => rw [if_neg (by simp), PointedGraph.walk_nil, PointedGraph.walk_nil, h.root]
  | append_singleton p b ih =>
    rw [H.walk_snoc, G.walk_snoc, ih]
    by_cases hhere : p = q ++ [c]
    · -- the edge leads to a leaf before and after, so nothing is below it
      have hlong : p ++ [b] ≠ q ++ [c] := by
        intro heq
        have := congrArg length heq
        rw [hhere] at this
        simp at this
      rw [if_pos hhere, if_neg hlong, hhere, G.walk_snoc, hq, Option.bind_some]
      have hnew : (H.child d c).bind (fun x => H.child x b) = none :=
        Option.bind_eq_none_iff.mpr fun i hi => h.leafNew b hi
      have hold : (G.child d c).bind (fun x => G.child x b) = none :=
        Option.bind_eq_none_iff.mpr fun i hi => h.leafOld b hi
      rw [hnew, hold]
    · rw [if_neg hhere]
      by_cases heq : p ++ [b] = q ++ [c]
      · obtain ⟨rfl, hbc⟩ := append_inj' heq rfl
        obtain rfl : b = c := by simpa using hbc
        rw [if_pos rfl, hq, Option.bind_some]
      · rw [if_neg heq]
        cases hp : G.walk p with
        | none => rfl
        | some y =>
          refine h.other y b ?_
          rintro ⟨rfl, rfl⟩
          exact heq (by rw [hG.walk_injective hp hq])

end NamedGraph
