import Mathlib.Data.List.Induction
import Mathlib.Data.List.GetD

/-! # Sparse arrays

Arrays of unbounded length that hold a blank value wherever nothing was written:
writing a piece lays it over the old values and extends the size to its end,
truncating empties the array. What a sequence of writes and truncations leaves is
also described by looking back from the newest: the value at an offset is that of
the last piece covering it since the last truncation.
-/

namespace SparseArray

open List

variable {α : Type*}

/-- The piece `data` laid over `f` from `pos` on; `z` is the blank value. -/
def overlay (z : α) (f : Nat → α) (pos : Nat) (data : List α) (o : Nat) : α :=
  if pos ≤ o ∧ o < pos + data.length then data.getD (o - pos) z else f o

theorem overlay_nil (z : α) (f : Nat → α) (pos : Nat) : overlay z f pos [] = f := by
  funext o
  exact if_neg (by simp)

theorem overlay_append (z : α) (f : Nat → α) (pos : Nat) (a b : List α) :
    overlay z (overlay z f pos a) (pos + a.length) b = overlay z f pos (a ++ b) := by
  funext o
  unfold overlay
  rw [length_append]
  by_cases h1 : pos + a.length ≤ o ∧ o < pos + a.length + b.length
  · rw [if_pos h1, if_pos (by omega), getD_append_right _ _ _ _ (by omega)]
    congr 1
    omega
  · rw [if_neg h1]
    by_cases h2 : pos ≤ o ∧ o < pos + a.length
    · rw [if_pos h2, if_pos (by omega), getD_append _ _ _ _ (by omega)]
    · rw [if_neg h2, if_neg (by omega)]

theorem range_map_overlay (z : α) (f : Nat → α) {n pos : Nat} (hpos : pos ≤ n) (data : List α) :
    (range (max n (pos + data.length))).map (overlay z f pos data) =
      ((range n).map f).take pos ++ data ++ ((range n).map f).drop (pos + data.length) := by
  refine ext_getElem (by simp; omega) fun k hk _ => ?_
  rw [getElem_map, getElem_range]
  unfold overlay
  by_cases hlow : k < pos
  · rw [if_neg (by omega), getElem_append_left (by simp; omega),
      getElem_append_left (by simp; omega)]
    simp
  · by_cases hmid : k < pos + data.length
    · rw [if_pos ⟨by omega, hmid⟩, getElem_append_left (by simp; omega),
        getElem_append_right (by simp; omega), getD_eq_getElem _ _ (by omega)]
      congr 1
      simp
      omega
    · rw [if_neg (by omega), getElem_append_right (by simp; omega)]
      simp only [getElem_drop, getElem_map, getElem_range]
      congr 1
      simp
      omega

/-- An array with the blank value `z` from its size on. -/
@[ext] structure Sparse (z : α) where
  size : Nat
  get : Nat → α
  beyond : ∀ o, size ≤ o → get o = z

variable {z : α}

def Sparse.empty : Sparse z := ⟨0, fun _ => z, fun _ _ => rfl⟩

def Sparse.write (s : Sparse z) (pos : Nat) (data : List α) : Sparse z where
  size := max s.size (pos + data.length)
  get := overlay z s.get pos data
  beyond o ho := by
    rw [overlay, if_neg (by omega)]
    exact s.beyond o (by omega)

inductive Event (α : Type*) where
  | write (pos : Nat) (data : List α)
  | truncate

def Sparse.apply (s : Sparse z) : Event α → Sparse z
  | .write pos data => s.write pos data
  | .truncate => .empty

def Sparse.replay (s : Sparse z) (h : List (Event α)) : Sparse z := h.foldl Sparse.apply s

/-! ## Looking back -/

/-- The value at `o` after a history, newest event first. -/
def valueAt (z : α) (base : Nat → α) : List (Event α) → Nat → α
  | [], o => base o
  | .truncate :: _, _ => z
  | .write pos data :: h, o =>
    if pos ≤ o ∧ o < pos + data.length then data.getD (o - pos) z else valueAt z base h o

/-- The largest end of a piece since the last truncation, newest event first. -/
def endAt (base : Nat) : List (Event α) → Nat
  | [] => base
  | .truncate :: _ => 0
  | .write pos data :: h => max (endAt base h) (pos + data.length)

theorem Sparse.replay_get (s : Sparse z) (h : List (Event α)) :
    (s.replay h).get = valueAt z s.get h.reverse := by
  induction h using reverseRecOn with
  | nil => rfl
  | append_singleton h e ih =>
    rw [replay, foldl_append, reverse_append]
    change ((s.replay h).apply e).get = valueAt z s.get (e :: h.reverse)
    cases e with
    | write pos data =>
      funext o
      rw [valueAt, ← ih]
      rfl
    | truncate => rfl

theorem Sparse.replay_size (s : Sparse z) (h : List (Event α)) :
    (s.replay h).size = endAt s.size h.reverse := by
  induction h using reverseRecOn with
  | nil => rfl
  | append_singleton h e ih =>
    rw [replay, foldl_append, reverse_append]
    change ((s.replay h).apply e).size = endAt s.size (e :: h.reverse)
    cases e with
    | write pos data =>
      rw [endAt, ← ih]
      rfl
    | truncate => rfl

end SparseArray
