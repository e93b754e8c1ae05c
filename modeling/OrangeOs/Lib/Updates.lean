import Mathlib.Logic.Function.Basic

/-! # Updates at one index

A table of records is changed one record at a time, and most fields of the record stay as they are.
-/

namespace Updates

open Function

variable {ι α γ : Type*} [DecidableEq ι] {s : ι → α} {i : ι} {a : α}

/-- What an update keeps of the record at its index, it keeps of every record. -/
theorem proj (g : α → γ) (h : g a = g (s i)) (j : ι) : g (update s i a j) = g (s j) := by
  rw [update_apply]
  split
  · next heq => rw [heq, h]
  · rfl

end Updates
