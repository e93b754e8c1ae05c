import Mathlib.Data.List.Nodup

/-! # Linked lists

Nodes that hold pointers to their neighbours. `Linked next prev p head xs` says that from
`head` the pointers lead through the nodes `xs` and no others, and that the back pointer of
the first is `p`; `Path next head xs` says so of a list without back pointers. The rules below are
for the pointer updates that insert and remove a node. A circular list is given by its nodes from
any of them on.
-/

namespace Links

open List

variable {ι : Type*}

def Linked (next prev : ι → Option ι) : Option ι → Option ι → List ι → Prop
  | _, head, [] => head = none
  | p, head, x :: xs => head = some x ∧ prev x = p ∧ Linked next prev (some x) (next x) xs

/-- The nodes met from `head` on, `n` at most. -/
def walk (next : ι → Option ι) : Nat → Option ι → List ι
  | 0, _ => []
  | _ + 1, none => []
  | n + 1, some x => x :: walk next n (next x)

variable {next prev next' prev' : ι → Option ι} {p head : Option ι} {xs : List ι}

variable {x y : ι} {l r : List ι}

/-! ## Singly linked lists -/

def Path (next : ι → Option ι) : Option ι → List ι → Prop
  | head, [] => head = none
  | head, x :: xs => head = some x ∧ Path next (next x) xs

theorem Path.walk_eq (h : Path next head xs) {n : Nat} (hn : xs.length ≤ n) :
    walk next n head = xs := by
  induction xs generalizing head n with
  | nil =>
    have hnone : head = none := h
    subst hnone
    cases n <;> rfl
  | cons x xs ih =>
    obtain ⟨rfl, hrest⟩ := h
    cases n with
    | zero => simp at hn
    | succ n => rw [walk, ih hrest (by simpa using hn)]

theorem Path.congr (h : Path next head xs) (hnext : ∀ x ∈ xs, next' x = next x) :
    Path next' head xs := by
  induction xs generalizing head with
  | nil => exact h
  | cons x xs ih =>
    obtain ⟨hhead, hrest⟩ := h
    refine ⟨hhead, ?_⟩
    rw [hnext x mem_cons_self]
    exact ih hrest fun y hy => hnext y (mem_cons_of_mem x hy)

theorem Path.head_eq (h : Path next head xs) : head = xs.head? := by
  cases xs with
  | nil => exact h
  | cons x xs => exact h.1

theorem Path.head_ne (h : Path next head xs) (hx : x ∉ xs) : head ≠ some x := by
  rw [h.head_eq]
  exact fun heq => hx (mem_of_mem_head? heq)

theorem Path.next_eq (h : Path next head (l ++ x :: r)) : next x = r.head? := by
  induction l generalizing head with
  | nil => exact h.2.head_eq
  | cons y l ih => exact ih h.2

/-! ## Lists with back pointers -/

section

variable (h : Linked next prev p head xs)
include h

theorem Linked.path : Path next head xs := by
  induction xs generalizing p head with
  | nil => exact h
  | cons x xs ih => exact ⟨h.1, ih h.2.2⟩

theorem Linked.congr (hnext : ∀ x ∈ xs, next' x = next x)
    (hprev : ∀ x ∈ xs, prev' x = prev x) : Linked next' prev' p head xs := by
  induction xs generalizing p head with
  | nil => exact h
  | cons x xs ih =>
    obtain ⟨hhead, hp, hrest⟩ := h
    refine ⟨hhead, (hprev x mem_cons_self).trans hp, ?_⟩
    rw [hnext x mem_cons_self]
    exact ih hrest (fun y hy => hnext y (mem_cons_of_mem x hy))
      fun y hy => hprev y (mem_cons_of_mem x hy)

omit h in
theorem Linked.prev_eq (h : Linked next prev p head (l ++ x :: r)) : prev x = l.getLast?.or p := by
  induction l generalizing p head with
  | nil => exact h.2.1
  | cons y l ih =>
    rw [ih h.2.2]
    cases l with
    | nil => rfl
    | cons z l => simp [getLast?_cons]

theorem Linked.next_mem (hx : x ∈ xs) (hy : next x = some y) : y ∈ xs := by
  obtain ⟨l, r, rfl⟩ := append_of_mem hx
  rw [h.path.next_eq] at hy
  exact mem_append_right _ (mem_cons_of_mem x (mem_of_mem_head? hy))

theorem Linked.prev_of_next (hx : x ∈ xs) (hy : next x = some y) : prev y = some x := by
  obtain ⟨l, r, rfl⟩ := append_of_mem hx
  rw [h.path.next_eq] at hy
  cases r with
  | nil => cases hy
  | cons z r =>
    cases hy
    have hassoc : l ++ x :: y :: r = (l ++ [x]) ++ y :: r := by simp
    rw [hassoc] at h
    rw [h.prev_eq, getLast?_concat]
    rfl

end

/-! ## Updates -/

theorem last_cons (hx : x ∈ l) : (y :: l).getLast? = l.getLast? := by
  cases l with
  | nil => cases hx
  | cons z l => rw [getLast?_cons_cons]

variable [DecidableEq ι]

theorem last_self {a b : Option ι} (hy : y ∉ l) :
    (if (y :: l).getLast? = some y then a else b) = if l = [] then a else b := by
  cases l with
  | nil => simp
  | cons z l =>
    rw [getLast?_cons_cons, if_neg, if_neg (cons_ne_nil z l)]
    exact fun hlast => hy (mem_of_getLast? hlast)

theorem Linked.rebase (h : Linked next prev p head xs) (hnodup : xs.Nodup) {q : Option ι}
    (hnext : ∀ x ∈ xs, next' x = next x)
    (hprev : ∀ x ∈ xs, prev' x = if head = some x then q else prev x) :
    Linked next' prev' q head xs := by
  cases xs with
  | nil => exact h
  | cons x xs =>
    obtain ⟨hhead, -, hrest⟩ := h
    obtain ⟨hx, -⟩ := nodup_cons.mp hnodup
    refine ⟨hhead, by rw [hprev x mem_cons_self, if_pos hhead], ?_⟩
    rw [hnext x mem_cons_self]
    refine hrest.congr (fun y hy => hnext y (mem_cons_of_mem x hy)) fun y hy => ?_
    rw [hprev y (mem_cons_of_mem x hy), if_neg]
    rintro hy'
    rw [hhead] at hy'
    cases hy'
    exact hx hy

theorem Linked.push (h : Linked next prev p head xs) (hnodup : (x :: xs).Nodup)
    (hx : next' x = head) (hpx : prev' x = p) (hnext : ∀ y ∈ xs, next' y = next y)
    (hprev : ∀ y ∈ xs, prev' y = if head = some y then some x else prev y) :
    Linked next' prev' p (some x) (x :: xs) := by
  refine ⟨rfl, hpx, ?_⟩
  rw [hx]
  exact h.rebase (nodup_cons.mp hnodup).2 hnext hprev

theorem Linked.insertAfter (h : Linked next prev p head (l ++ x :: r))
    (hnodup : (l ++ x :: y :: r).Nodup) (hx : next' x = some y) (hpx : prev' x = prev x)
    (hy : next' y = next x) (hpy : prev' y = some x)
    (hl : ∀ z ∈ l, next' z = next z ∧ prev' z = prev z) (hr : ∀ z ∈ r, next' z = next z)
    (hpr : ∀ z ∈ r, prev' z = if next x = some z then some y else prev z) :
    Linked next' prev' p head (l ++ x :: y :: r) := by
  induction l generalizing p head with
  | nil =>
    obtain ⟨hhead, hp, hrest⟩ := h
    obtain ⟨-, hyr⟩ := nodup_cons.mp hnodup
    refine ⟨hhead, hpx.trans hp, hx, hpy, ?_⟩
    rw [hy]
    exact hrest.rebase (nodup_cons.mp hyr).2 hr hpr
  | cons z l ih =>
    obtain ⟨hhead, hp, hrest⟩ := h
    obtain ⟨hnz, hpz⟩ := hl z mem_cons_self
    refine ⟨hhead, hpz.trans hp, ?_⟩
    rw [hnz]
    exact ih hrest (nodup_cons.mp hnodup).2 fun w hw => hl w (mem_cons_of_mem z hw)

theorem Linked.unlink (h : Linked next prev p head (l ++ x :: r)) (hnodup : (l ++ x :: r).Nodup)
    (hl : ∀ y ∈ l, next' y = (if l.getLast? = some y then next x else next y) ∧ prev' y = prev y)
    (hr : ∀ y ∈ r, next' y = next y)
    (hpr : ∀ y ∈ r, prev' y = if next x = some y then prev x else prev y) :
    Linked next' prev' p (if l = [] then next x else head) (l ++ r) := by
  induction l generalizing p head with
  | nil =>
    obtain ⟨-, hp, hrest⟩ := h
    rw [if_pos rfl]
    refine hrest.rebase (nodup_cons.mp hnodup).2 hr fun y hy => ?_
    rw [hpr y hy, hp]
  | cons y l ih =>
    obtain ⟨hhead, hp, hrest⟩ := h
    obtain ⟨hy, hnodup'⟩ := nodup_cons.mp hnodup
    obtain ⟨hny, hpy⟩ := hl y mem_cons_self
    have htail := ih hrest hnodup' fun z hz => by
      obtain ⟨h1, h2⟩ := hl z (mem_cons_of_mem y hz)
      exact ⟨by rw [h1, last_cons hz], h2⟩
    refine ⟨hhead, hpy.trans hp, ?_⟩
    rw [hny, last_self fun hmem => hy (mem_append_left _ hmem)]
    exact htail

/-! ## Updates of singly linked lists -/

theorem Path.snoc (h : Path next head xs) (hnodup : xs.Nodup) (hy : next' y = none)
    (hnext : ∀ x ∈ xs, next' x = if xs.getLast? = some x then some y else next x) :
    Path next' (if xs = [] then some y else head) (xs ++ [y]) := by
  induction xs generalizing head with
  | nil => exact ⟨rfl, hy⟩
  | cons x xs ih =>
    obtain ⟨hhead, hrest⟩ := h
    obtain ⟨hx, hnodup'⟩ := nodup_cons.mp hnodup
    rw [if_neg (cons_ne_nil x xs)]
    refine ⟨hhead, ?_⟩
    rw [hnext x mem_cons_self, last_self hx]
    refine ih hrest hnodup' fun z hz => ?_
    rw [hnext z (mem_cons_of_mem x hz), last_cons hz]

theorem Path.unlink (h : Path next head (l ++ x :: r)) (hnodup : (l ++ x :: r).Nodup)
    (hl : ∀ y ∈ l, next' y = if l.getLast? = some y then next x else next y)
    (hr : ∀ y ∈ r, next' y = next y) : Path next' (if l = [] then next x else head) (l ++ r) := by
  induction l generalizing head with
  | nil => exact h.2.congr hr
  | cons y l ih =>
    obtain ⟨hhead, hrest⟩ := h
    obtain ⟨hy, hnodup'⟩ := nodup_cons.mp hnodup
    refine ⟨hhead, ?_⟩
    rw [hl y mem_cons_self, last_self fun hmem => hy (mem_append_left _ hmem)]
    refine ih hrest hnodup' fun z hz => ?_
    rw [hl z (mem_cons_of_mem y hz), last_cons hz]

/-! ## Circular lists -/

/-- The nodes of a circular list from the one after `x` on, up to `x`. -/
def behind (ring : List ι) (x : ι) : List ι :=
  (ring.dropWhile (· != x)).drop 1 ++ ring.takeWhile (· != x)

theorem mem_behind {ring : List ι} (hy : y ∈ ring) (hne : y ≠ x) : y ∈ behind ring x := by
  unfold behind
  rw [mem_append]
  rw [← takeWhile_append_dropWhile (p := (· != x)) (l := ring), mem_append] at hy
  rcases hy with hy | hy
  · exact Or.inr hy
  · refine Or.inl ?_
    cases hdrop : ring.dropWhile (· != x) with
    | nil =>
      rw [hdrop] at hy
      cases hy
    | cons z rest =>
      have hz : z = x := by
        have := head?_dropWhile_not (· != x) ring
        rw [hdrop] at this
        simpa using this
      rw [hdrop] at hy
      exact (mem_cons.mp hy).resolve_left fun heq => hne (heq.trans hz)

end Links
