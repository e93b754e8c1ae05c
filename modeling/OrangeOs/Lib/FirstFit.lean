import Mathlib.Logic.Basic

/-! # First fit

The search for `count` places in a row that are all free: one pass with the length and the
start of the current run of free places, which ends at the first run that is long enough.
-/

namespace FirstFit

/-- The pass over the `k` places from `i` on, after a run of `run` free places that began at
`start`. -/
def scan (free : Nat → Bool) (count : Nat) : Nat → Nat → Nat → Nat → Option Nat
  | 0, _, _, _ => none
  | k + 1, i, run, start =>
    if free i then
      let start := if run = 0 then i else start
      if run + 1 = count then some start else scan free count k (i + 1) (run + 1) start
    else scan free count k (i + 1) 0 start

def search (free : Nat → Bool) (count total : Nat) : Option Nat := scan free count total 0 0 0

/-- `count` free places in a row from `s` on. -/
def Fits (free : Nat → Bool) (count s : Nat) : Prop := ∀ j, j < count → free (s + j) = true

/-- Where the pass stands before place `i`: the run is the longest that ends there, and no
earlier one was long enough. -/
structure At (free : Nat → Bool) (count i run start : Nat) : Prop where
  short : run < count
  le : run ≤ i
  begins : 0 < run → start = i - run
  inside : ∀ j, i - run ≤ j → j < i → free j = true
  longest : run < i → free (i - run - 1) = false
  none : ∀ s, s + count ≤ i → ¬Fits free count s

variable {free : Nat → Bool} {count : Nat}

theorem At.init (h : 0 < count) : At free count 0 0 0 where
  short := h
  le := Nat.le_refl 0
  begins := by omega
  inside := by omega
  longest := by omega
  none := by omega

theorem At.grow {i run start : Nat} (h : At free count i run start) (hi : free i = true)
    (hshort : run + 1 < count) : At free count (i + 1) (run + 1) (if run = 0 then i else start) where
  short := hshort
  le := Nat.succ_le_succ h.le
  begins _ := by
    have hbegins := h.begins
    split <;> omega
  inside j h1 h2 := by
    by_cases hj : j = i
    · rw [hj, hi]
    · exact h.inside j (by omega) (by omega)
  longest hlt := by
    have hprev := h.longest (by omega)
    rwa [show i + 1 - (run + 1) - 1 = i - run - 1 by omega]
  none s hs := by
    by_cases hle : s + count ≤ i
    · exact h.none s hle
    · -- the place before the run lies in the range
      intro hfits
      have hbefore := hfits (i - run - 1 - s) (by omega)
      rw [show s + (i - run - 1 - s) = i - run - 1 by omega, h.longest (by omega)] at hbefore
      cases hbefore

theorem At.reset {i run start : Nat} (h : At free count i run start) (hi : free i = false) :
    At free count (i + 1) 0 start where
  short := by
    have := h.short
    omega
  le := Nat.zero_le _
  begins := by omega
  inside := by omega
  longest _ := hi
  none s hs := by
    have hcount := h.short
    by_cases hle : s + count ≤ i
    · exact h.none s hle
    · intro hfits
      have hlast := hfits (i - s) (by omega)
      rw [show s + (i - s) = i by omega, hi] at hlast
      cases hlast

theorem scan_spec {k i run start : Nat} (h : At free count i run start) :
    match scan free count k i run start with
    | some s => s + count ≤ i + k ∧ Fits free count s
    | none => ∀ s, s + count ≤ i + k → ¬Fits free count s := by
  induction k generalizing i run start with
  | zero => exact h.none
  | succ k ih =>
    have hnext : i + 1 + k = i + (k + 1) := by omega
    by_cases hi : free i = true
    · by_cases hdone : run + 1 = count
      · have hstart : (if run = 0 then i else start) = i - run := by
          have hbegins := h.begins
          split <;> omega
        have hle := h.le
        simp only [scan, if_pos hi, if_pos hdone, hstart]
        refine ⟨by omega, fun j hj => ?_⟩
        by_cases hlast : i - run + j = i
        · rw [hlast, hi]
        · exact h.inside _ (by omega) (by omega)
      · have hshort := h.short
        have hrest := ih (h.grow hi (by omega))
        simp only [scan, if_pos hi, if_neg hdone]
        rwa [hnext] at hrest
    · have hrest := ih (h.reset (by simpa using hi))
      simp only [scan, if_neg hi]
      rwa [hnext] at hrest

theorem search_spec (free : Nat → Bool) {count : Nat} (h : 0 < count) (total : Nat) :
    match search free count total with
    | some s => s + count ≤ total ∧ Fits free count s
    | none => ∀ s, s + count ≤ total → ¬Fits free count s := by
  have hinit : At free count 0 0 0 := At.init h
  have hscan := scan_spec (k := total) hinit
  simpa [search] using hscan

end FirstFit
