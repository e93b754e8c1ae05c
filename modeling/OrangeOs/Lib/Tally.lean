import Mathlib.Data.List.Nodup
import Mathlib.Data.List.Count

/-! # Counting pointers

How many keys of a table point to an object, and how one update of the table changes that. It is
what a reference count has to keep up with.
-/

namespace OrangeOs

open List

variable {ι α : Type*} [DecidableEq α]

/-- The number of keys that point to `a`. -/
def pointing (keys : List ι) (ptr : ι → Option α) (a : α) : Nat :=
  keys.countP fun i => ptr i = some a

theorem pointing_cons (i : ι) (keys : List ι) (ptr : ι → Option α) (a : α) :
    pointing (i :: keys) ptr a = pointing keys ptr a + (ptr i).toList.count a := by
  unfold pointing
  rw [countP_cons]
  cases ptr i with
  | none => simp
  | some b => by_cases h : b = a <;> simp [h]

theorem pointing_append (keys keys' : List ι) (ptr : ι → Option α) (a : α) :
    pointing (keys ++ keys') ptr a = pointing keys ptr a + pointing keys' ptr a :=
  countP_append

theorem pointing_congr {keys : List ι} {ptr ptr' : ι → Option α}
    (h : ∀ i ∈ keys, ptr' i = ptr i) (a : α) : pointing keys ptr' a = pointing keys ptr a := by
  apply countP_congr
  intro i hi
  rw [h i hi]

theorem pointing_eq_zero {keys : List ι} {ptr : ι → Option α} {a : α} :
    pointing keys ptr a = 0 ↔ ∀ i ∈ keys, ptr i ≠ some a := by
  simp [pointing, countP_eq_zero]

theorem pointing_ne_zero {keys : List ι} {ptr : ι → Option α} {i : ι} {a : α} (hi : i ∈ keys)
    (h : ptr i = some a) : pointing keys ptr a ≠ 0 :=
  fun hzero => pointing_eq_zero.mp hzero i hi h

theorem pointing_update {keys : List ι} (hkeys : keys.Nodup) {i : ι} (hi : i ∈ keys)
    (ptr ptr' : ι → Option α) (h : ∀ j ∈ keys, j ≠ i → ptr' j = ptr j) (a : α) :
    pointing keys ptr' a + (ptr i).toList.count a =
      pointing keys ptr a + (ptr' i).toList.count a := by
  induction keys with
  | nil => cases hi
  | cons k keys ih =>
    obtain ⟨hk, hrest⟩ := nodup_cons.mp hkeys
    rw [pointing_cons, pointing_cons]
    by_cases hik : i = k
    · subst hik
      have hsame : ∀ j ∈ keys, ptr' j = ptr j := fun j hj =>
        h j (mem_cons_of_mem i hj) fun heq => hk (heq ▸ hj)
      rw [pointing_congr hsame]
      omega
    · have hi' := (mem_cons.mp hi).resolve_left hik
      have hkeep := h k mem_cons_self (Ne.symm hik)
      have := ih hrest hi' fun j hj => h j (mem_cons_of_mem k hj)
      rw [hkeep]
      omega

theorem pointing_range {m n : Nat} (hmn : m ≤ n) {ptr : Nat → Option α}
    (h : ∀ i, m ≤ i → ptr i = none) (a : α) :
    pointing (range n) ptr a = pointing (range m) ptr a := by
  obtain ⟨d, rfl⟩ := Nat.exists_eq_add_of_le hmn
  rw [range_add, pointing_append, Nat.add_eq_left, pointing_eq_zero]
  intro i hi
  obtain ⟨k, -, rfl⟩ := mem_map.mp hi
  simp [h (m + k) (Nat.le_add_right m k)]

theorem countP_eraseP_lookup {κ β : Type*} [BEq κ] [LawfulBEq κ] {k : κ} {b : β}
    {l : List (κ × β)} (h : l.lookup k = some b) (p : κ × β → Bool) :
    (l.eraseP fun e => e.1 == k).countP p + (if p (k, b) then 1 else 0) = l.countP p := by
  induction l with
  | nil => cases h
  | cons e l ih =>
    rw [lookup_cons] at h
    by_cases he : k == e.1
    · rw [he] at h
      cases h
      obtain rfl := eq_of_beq he
      rw [eraseP_cons_of_pos (by simp), countP_cons]
    · rw [Bool.not_eq_true] at he
      rw [he] at h
      have hne : (e.1 == k) = false := by
        rw [beq_eq_false_iff_ne] at he ⊢
        exact he.symm
      rw [eraseP_cons_of_neg (by simp [hne]), countP_cons, countP_cons, ← ih h]
      omega

end OrangeOs
