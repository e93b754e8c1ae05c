import Mathlib.Data.List.Nodup

/-! # Circular lists

Nodes with one pointer each. `Leads next stop x xs` says that from `x` the pointers lead through
`xs`, in this order, and then to `stop`; a ring seen from `x` is `Leads next x x xs`. `lap` is the
walk of a loop that starts at a node and ends when the pointer is `stop` again.
-/

namespace Cycles

open List

variable {ι : Type*}

def Leads (next : ι → Option ι) (stop : ι) : ι → List ι → Prop
  | x, [] => next x = some stop
  | x, y :: ys => next x = some y ∧ Leads next stop y ys

variable {next next' : ι → Option ι} {stop stop' x y : ι} {xs l r : List ι}

theorem leads_append : Leads next stop x (l ++ y :: r) ↔ Leads next y x l ∧ Leads next stop y r := by
  induction l generalizing x with
  | nil => exact Iff.rfl
  | cons z l ih => simp only [cons_append, Leads, ih, and_assoc]

theorem Leads.rotate (h : Leads next x x (l ++ y :: r)) : Leads next y y (r ++ x :: l) := by
  obtain ⟨hl, hr⟩ := leads_append.mp h
  exact leads_append.mpr ⟨hr, hl⟩

theorem Leads.congr (h : Leads next stop x xs) (hnext : ∀ z ∈ x :: xs, next' z = next z) :
    Leads next' stop x xs := by
  induction xs generalizing x with
  | nil => exact (hnext x mem_cons_self).trans h
  | cons y ys ih =>
    refine ⟨(hnext x mem_cons_self).trans h.1, ?_⟩
    exact ih h.2 fun z hz => hnext z (mem_cons_of_mem x hz)

theorem Leads.next_mem (h : Leads next x x xs) (hy : y ∈ x :: xs) {z : ι} (hz : next y = some z) :
    z ∈ x :: xs := by
  have hfirst : ∀ {y : ι} {ys : List ι}, Leads next x y ys → next y = some z → z ∈ x :: ys := by
    intro y ys h hz
    cases ys with
    | nil => exact Option.some.inj (hz.symm.trans h) ▸ mem_cons_self
    | cons w ws => exact Option.some.inj (hz.symm.trans h.1) ▸ mem_cons_of_mem _ mem_cons_self
  rcases mem_cons.mp hy with rfl | hy
  · exact hfirst h hz
  · obtain ⟨l, r, rfl⟩ := append_of_mem hy
    have hmem := hfirst (leads_append.mp h).2 hz
    grind

/-- The last node before `stop`. -/
def last (x : ι) (xs : List ι) : ι := xs.getLast?.getD x

@[simp] theorem last_nil : last x [] = x := rfl

@[simp] theorem last_cons : last x (y :: xs) = last y xs := by
  cases xs with
  | nil => rfl
  | cons z xs =>
    have hsome : (z :: xs).getLast? = some ((z :: xs).getLast (by simp)) :=
      getLast?_eq_some_getLast (by simp)
    simp [last, getLast?_cons, hsome]

theorem last_mem : last x xs ∈ x :: xs := by
  induction xs generalizing x with
  | nil => simp
  | cons y ys ih =>
    rw [last_cons]
    exact mem_cons_of_mem x ih

theorem Leads.next_last (h : Leads next stop x xs) : next (last x xs) = some stop := by
  induction xs generalizing x with
  | nil => exact h
  | cons y ys ih =>
    rw [last_cons]
    exact ih h.2

theorem Leads.retarget (h : Leads next stop x xs) (hnodup : (x :: xs).Nodup)
    (hlast : next' (last x xs) = some stop')
    (hnext : ∀ z ∈ x :: xs, z ≠ last x xs → next' z = next z) : Leads next' stop' x xs := by
  induction xs generalizing x with
  | nil => exact hlast
  | cons y ys ih =>
    rw [last_cons] at hlast hnext
    have hx : x ≠ last y ys := fun heq =>
      (nodup_cons.mp hnodup).1 (by rw [heq]; exact last_mem)
    refine ⟨(hnext x mem_cons_self hx).trans h.1, ?_⟩
    refine ih h.2 (nodup_cons.mp hnodup).2 hlast fun z hz => ?_
    exact hnext z (mem_cons_of_mem x hz)

theorem Leads.snoc (h : Leads next stop x xs) (hnodup : (x :: xs).Nodup)
    (hlast : next' (last x xs) = some y) (hy : next' y = some stop)
    (hnext : ∀ z ∈ x :: xs, z ≠ last x xs → next' z = next z) :
    Leads next' stop x (xs ++ [y]) :=
  leads_append.mpr ⟨h.retarget hnodup hlast hnext, hy⟩

theorem Leads.remove (h : Leads next stop x (l ++ y :: r)) (hnodup : (x :: (l ++ y :: r)).Nodup)
    (hlast : next' (last x l) = next y)
    (hnext : ∀ z ∈ x :: (l ++ r), z ≠ last x l → next' z = next z) :
    Leads next' stop x (l ++ r) := by
  obtain ⟨hl, hr⟩ := leads_append.mp h
  have hnodupl : (x :: l).Nodup :=
    hnodup.sublist ((sublist_append_left l (y :: r)).cons_cons x)
  have hkeep : ∀ z ∈ x :: l, z ≠ last x l → next' z = next z := fun z hz hne => by
    refine hnext z ?_ hne
    rcases mem_cons.mp hz with rfl | hz
    · exact mem_cons_self
    · exact mem_cons_of_mem x (mem_append_left r hz)
  cases r with
  | nil =>
    have hstop : next y = some stop := hr
    rw [append_nil]
    exact hl.retarget hnodupl (hlast.trans hstop) hkeep
  | cons z r =>
    refine leads_append.mpr ⟨hl.retarget hnodupl (hlast.trans hr.1) hkeep, ?_⟩
    refine hr.2.congr fun w hw => hnext w ?_ ?_
    · exact mem_cons_of_mem x (mem_append_right l hw)
    · -- the nodes behind the removed one are not before it
      rintro rfl
      have hdisj : (x :: l).Disjoint (y :: z :: r) :=
        (nodup_append'.mp (show ((x :: l) ++ y :: z :: r).Nodup from hnodup)).2.2
      exact hdisj last_mem (mem_cons_of_mem y hw)

/-! ## Walks -/

variable [DecidableEq ι]

/-- The nodes passed from `x` until the pointer is `stop`, `n` at most. -/
def lap (next : ι → Option ι) (stop : ι) : Nat → ι → List ι
  | 0, _ => []
  | n + 1, x => x :: match next x with
    | none => []
    | some y => if y = stop then [] else lap next stop n y

theorem Leads.lap_eq (h : Leads next stop x xs) (hstop : stop ∉ xs) {n : Nat}
    (hn : xs.length < n) : lap next stop n x = x :: xs := by
  induction xs generalizing x n with
  | nil =>
    obtain ⟨n, rfl⟩ := Nat.exists_eq_succ_of_ne_zero (by omega : n ≠ 0)
    have hx : next x = some stop := h
    simp [lap, hx]
  | cons y ys ih =>
    obtain ⟨n, rfl⟩ := Nat.exists_eq_succ_of_ne_zero (by omega : n ≠ 0)
    have hy : y ≠ stop := fun heq => hstop (by simp [heq])
    rw [lap, h.1]
    simp only [if_neg hy]
    rw [ih h.2 (fun hmem => hstop (mem_cons_of_mem y hmem)) (by simpa using hn)]

/-- The first node that points to `stop` or to `y` is the one at the end of the walk. -/
theorem Leads.find_last (h : Leads next e x l) (he : e = stop ∨ e = y) (hy : y ∉ l)
    (hstop : stop ∉ l) (r : List ι) :
    (x :: (l ++ r)).find? (fun z => decide (next z = some stop ∨ next z = some y)) =
      some (last x l) := by
  induction l generalizing x with
  | nil =>
    have hx : next x = some e := h
    simp [hx, he]
  | cons z l ih =>
    obtain ⟨hzy, hy⟩ := not_or.mp (mt mem_cons.mpr hy)
    obtain ⟨hzs, hstop⟩ := not_or.mp (mt mem_cons.mpr hstop)
    have hx : next x = some z := h.1
    rw [last_cons, ← ih h.2 hy hstop]
    simp [hx, Ne.symm hzs, Ne.symm hzy]

end Cycles
