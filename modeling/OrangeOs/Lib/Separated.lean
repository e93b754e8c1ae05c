import Mathlib.Data.List.TakeWhile

/-! # Separated texts

A list cut at every separator, without the empty pieces: the maximal runs of other elements.
-/

namespace Separated

open List

variable {α : Type*} [DecidableEq α] {sep : α}

def pieces (sep : α) (l : List α) : List (List α) := (l.splitOn sep).filter (· ≠ [])

theorem pieces_cons (l : List α) : pieces sep (sep :: l) = pieces sep l := by
  have hsplit : (sep :: l).splitOn sep = [] :: l.splitOn sep :=
    splitOnP_append_cons [] l (beq_self_eq_true sep)
  simp [pieces, hsplit]

theorem pieces_dropWhile (l : List α) : pieces sep (l.dropWhile (· = sep)) = pieces sep l := by
  induction l with
  | nil => rfl
  | cons x l ih =>
    by_cases hx : x = sep
    · rw [dropWhile_cons_of_pos (by simpa using hx), ih, hx, pieces_cons]
    · rw [dropWhile_cons_of_neg (by simpa using hx)]

theorem pieces_eq_nil {l : List α} (h : l.dropWhile (· = sep) = []) : pieces sep l = [] := by
  rw [← pieces_dropWhile, h]
  rfl

theorem pieces_append (sep : α) (piece rest : List α) (hne : piece ≠ []) (hpiece : sep ∉ piece)
    (hrest : ∀ x ∈ rest.head?, x = sep) :
    pieces sep (piece ++ rest) = piece :: pieces sep rest := by
  have hall : ∀ x ∈ piece, (x == sep) = false := fun x hx =>
    beq_eq_false_iff_ne.mpr fun heq => hpiece (heq ▸ hx)
  cases rest with
  | nil => simp [pieces, splitOn, splitOnP_eq_singleton hall, hne]
  | cons x rest =>
    obtain rfl := hrest x rfl
    rw [pieces_cons]
    simp [pieces, splitOn, splitOnP_append_cons_of_forall_mem hall x (by simp), hne]

theorem pieces_first {l p : List α} {x : α} (hp : l.dropWhile (· = sep) = x :: p) :
    pieces sep l = (x :: p).takeWhile (· ≠ sep) :: pieces sep ((x :: p).dropWhile (· ≠ sep)) := by
  have hx : x ≠ sep := by
    have := head_dropWhile_not (· = sep) (by rw [hp]; exact cons_ne_nil x p)
    simpa [hp] using this
  have hsplit := pieces_append sep ((x :: p).takeWhile (· ≠ sep))
    ((x :: p).dropWhile (· ≠ sep)) ?_ ?_ ?_
  · rwa [takeWhile_append_dropWhile, ← hp, pieces_dropWhile, hp] at hsplit
  · simp [hx]
  · exact fun hmem => by simpa using mem_takeWhile_imp hmem
  · intro y hy
    have := head?_dropWhile_not (fun c => decide (c ≠ sep)) (x :: p)
    rw [Option.mem_def.mp hy] at this
    simpa using this

end Separated
