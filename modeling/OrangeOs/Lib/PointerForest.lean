import Mathlib.Data.List.Induction
import Mathlib.Data.Set.Basic
import Mathlib.Logic.Function.Basic

/-! # Forests of blocks linked by pointers

A store gives every root name a pointer and every block a numbered array of
pointers; pointer zero is null. A position is a root name together with the
list of entry indices followed from it, and a shape says which positions exist
(how deep each root may go, which indices a block has).

Everything is stated through the value found at each position. An update that
changes one position changes the whole value map at that position only, so the
laws that matter (no block at two positions, every block owned) follow from the
pointwise description and never from a traversal.
-/

namespace PointerForest

open Function List

variable {R : Type*}

/-- Root pointers and block entries; zero is the null pointer. -/
structure Store (R : Type*) where
  root : R → Nat
  entry : Nat → Nat → Nat

/-- Follow entry indices from a block; a null pointer stays null. -/
def follow (entry : Nat → Nat → Nat) : Nat → List Nat → Nat
  | b, [] => b
  | b, i :: path => if b = 0 then 0 else follow entry (entry b i) path

variable (entry : Nat → Nat → Nat)

@[simp] theorem follow_nil (b : Nat) : follow entry b [] = b := rfl

@[simp] theorem follow_null (path : List Nat) : follow entry 0 path = 0 := by
  cases path <;> simp [follow]

theorem follow_append (b : Nat) (p q : List Nat) :
    follow entry b (p ++ q) = follow entry (follow entry b p) q := by
  induction p generalizing b with
  | nil => rfl
  | cons i p ih =>
    by_cases hb : b = 0
    · simp [hb]
    · simp [follow, hb, ih]

theorem follow_snoc (b : Nat) (p : List Nat) (i : Nat) :
    follow entry b (p ++ [i]) =
      if follow entry b p = 0 then 0 else entry (follow entry b p) i := by
  rw [follow_append]
  rfl

/-- The block found at a position, zero when the position is empty. -/
def Store.at (F : Store R) (r : R) (p : List Nat) : Nat := follow F.entry (F.root r) p

@[simp] theorem Store.at_nil (F : Store R) (r : R) : F.at r [] = F.root r := rfl

theorem Store.at_snoc (F : Store R) (r : R) (p : List Nat) (i : Nat) :
    F.at r (p ++ [i]) = if F.at r p = 0 then 0 else F.entry (F.at r p) i :=
  follow_snoc F.entry (F.root r) p i

theorem Store.at_append (F : Store R) (r : R) (p q : List Nat) :
    F.at r (p ++ q) = follow F.entry (F.at r p) q :=
  follow_append F.entry (F.root r) p q

variable {p : List Nat} {r : R} {F G : Store R}

theorem Store.at_append_of_null (F : Store R) (q : List Nat) (h : F.at r p = 0) :
    F.at r (p ++ q) = 0 := by
  rw [F.at_append, h, follow_null]

/-- Which positions exist; every prefix of a position is one. -/
structure Shape (R : Type*) where
  ok : R → List Nat → Prop
  ok_of_snoc : ∀ {r p i}, ok r (p ++ [i]) → ok r p

theorem Shape.ok_of_append (S : Shape R) (q : List Nat) (h : S.ok r (p ++ q)) : S.ok r p := by
  induction q using reverseRecOn with
  | nil => simpa using h
  | append_singleton q i ih =>
    rw [← append_assoc] at h
    exact ih (S.ok_of_snoc h)

/-- Some position of the shape holds the block `b`. -/
def Store.Holds (F : Store R) (S : Shape R) (b : Nat) : Prop :=
  ∃ r p, S.ok r p ∧ F.at r p = b

/-- No block is found at two positions. -/
def Store.Unshared (F : Store R) (S : Shape R) : Prop :=
  ∀ {r p r' p'}, S.ok r p → S.ok r' p' → F.at r p ≠ 0 → F.at r p = F.at r' p' → r = r' ∧ p = p'

variable {S : Shape R}

theorem Store.at_congr_root (hroot : S.ok r [] → G.root r = F.root r)
    (hentry : ∀ p i, S.ok r (p ++ [i]) → F.at r p ≠ 0 →
      G.entry (F.at r p) i = F.entry (F.at r p) i) (hp : S.ok r p) : G.at r p = F.at r p := by
  induction p using reverseRecOn with
  | nil => exact hroot hp
  | append_singleton p i ih =>
    have hsame := ih (S.ok_of_snoc hp)
    rw [G.at_snoc, F.at_snoc, hsame]
    split
    · rfl
    · exact hentry p i hp ‹_›

theorem Store.at_congr (hroot : ∀ r, S.ok r [] → G.root r = F.root r)
    (hentry : ∀ r p i, S.ok r (p ++ [i]) → F.at r p ≠ 0 →
      G.entry (F.at r p) i = F.entry (F.at r p) i) (hp : S.ok r p) : G.at r p = F.at r p :=
  Store.at_congr_root (hroot r) (hentry r) hp

/-! ## Attaching one block -/

section Attach

variable [DecidableEq R] {r₀ : R} {p₀ : List Nat} {n : Nat}

/-- `G` is `F` with the block `n`, whose own entries are null, put at the empty
position `(r₀, p₀)`. -/
structure Attached (F G : Store R) (S : Shape R) (r₀ : R) (p₀ : List Nat) (n : Nat) : Prop where
  null : F.at r₀ p₀ = 0
  root : ∀ r, S.ok r [] → G.root r = if r = r₀ ∧ [] = p₀ then n else F.root r
  entry : ∀ r p i, S.ok r (p ++ [i]) → F.at r p ≠ 0 →
    G.entry (F.at r p) i = if r = r₀ ∧ p ++ [i] = p₀ then n else F.entry (F.at r p) i
  blank : ∀ i, S.ok r₀ (p₀ ++ [i]) → G.entry n i = 0
  parent : ∀ p i, p₀ = p ++ [i] → F.at r₀ p ≠ 0

theorem Attached.at_eq (h : Attached F G S r₀ p₀ n) (hp : S.ok r p) :
    G.at r p = if r = r₀ ∧ p = p₀ then n else F.at r p := by
  induction p using reverseRecOn with
  | nil => simpa [eq_comm] using h.root r hp
  | append_singleton p i ih =>
    have hprev := ih (S.ok_of_snoc hp)
    rw [G.at_snoc, hprev]
    by_cases hhere : r = r₀ ∧ p = p₀
    · -- one step below the new block: its entries are null, and so was the old subtree
      obtain ⟨rfl, rfl⟩ := hhere
      have hbelow : F.at r (p ++ [i]) = 0 := F.at_append_of_null [i] h.null
      simp [h.blank i hp, hbelow]
    · rw [if_neg hhere, F.at_snoc]
      by_cases hzero : F.at r p = 0
      · have hne : ¬(r = r₀ ∧ p ++ [i] = p₀) := by
          rintro ⟨rfl, hp0⟩
          exact h.parent p i hp0.symm hzero
        simp [hzero, hne]
      · simp only [if_neg hzero]
        exact h.entry r p i hp hzero

theorem Attached.at_old (h : Attached F G S r₀ p₀ n) (hp : S.ok r p) (hne : F.at r p ≠ 0) :
    G.at r p = F.at r p := by
  rw [h.at_eq hp, if_neg]
  rintro ⟨rfl, rfl⟩
  exact hne h.null

theorem Attached.unshared (h : Attached F G S r₀ p₀ n) (hF : F.Unshared S) (hn : ¬F.Holds S n) :
    G.Unshared S := by
  intro r p r' p' hp hp' hne heq
  rw [h.at_eq hp] at hne heq
  rw [h.at_eq hp'] at heq
  split at heq
  · split at heq
    · next h1 h2 => exact ⟨h1.1.trans h2.1.symm, h1.2.trans h2.2.symm⟩
    · exact absurd ⟨r', p', hp', heq.symm⟩ hn
  · next h1 =>
    rw [if_neg h1] at hne
    split at heq
    · exact absurd ⟨r, p, hp, heq⟩ hn
    · exact hF hp hp' hne heq

end Attach

theorem Attached.of_root [DecidableEq R] {r₀ : R} {n : Nat} (hnull : F.root r₀ = 0)
    (hroot : G.root = update F.root r₀ n) (hentry : ∀ r p i, S.ok r (p ++ [i]) → F.at r p ≠ 0 →
      G.entry (F.at r p) i = F.entry (F.at r p) i) (hblank : ∀ i, G.entry n i = 0) :
    Attached F G S r₀ [] n where
  null := hnull
  root r _ := by
    rw [hroot, update_apply]
    simp
  entry r p i hp hne := by
    rw [if_neg (by simp)]
    exact hentry r p i hp hne
  blank i _ := hblank i
  parent p i h := by simp at h

/-- Storing a pointer in entry `i` of the block at `(r₀, p)` attaches below that
position, because the block is found nowhere else. -/
theorem Attached.of_entry [DecidableEq R] {r₀ : R} {i n : Nat} (hF : F.Unshared S)
    (hp : S.ok r₀ (p ++ [i])) (hparent : F.at r₀ p ≠ 0) (hnull : F.entry (F.at r₀ p) i = 0)
    (hroot : G.root = F.root) (hentry : ∀ r q j, S.ok r (q ++ [j]) → F.at r q ≠ 0 →
      G.entry (F.at r q) j =
        if F.at r q = F.at r₀ p ∧ j = i then n else F.entry (F.at r q) j)
    (hblank : ∀ j, G.entry n j = 0) : Attached F G S r₀ (p ++ [i]) n where
  null := by rw [F.at_snoc, if_neg hparent, hnull]
  root r _ := by
    rw [if_neg (by simp), hroot]
  entry r q j hq hne := by
    rw [hentry r q j hq hne]
    have hiff : (F.at r q = F.at r₀ p ∧ j = i) ↔ (r = r₀ ∧ q ++ [j] = p ++ [i]) := by
      constructor
      · rintro ⟨hsame, rfl⟩
        obtain ⟨rfl, rfl⟩ := hF (S.ok_of_snoc hq) (S.ok_of_snoc hp) hne hsame
        exact ⟨rfl, rfl⟩
      · rintro ⟨rfl, hpath⟩
        obtain ⟨rfl, hj⟩ := append_inj' hpath rfl
        exact ⟨rfl, by simpa using hj⟩
    simp only [hiff]
  blank j _ := hblank j
  parent q j h := by
    obtain ⟨rfl, _⟩ := append_inj' h rfl
    exact hparent

/-! ## Dropping a set of roots -/

theorem Store.at_of_cleared {keep : R → Prop} [DecidablePred keep]
    (hroot : ∀ r, S.ok r [] → G.root r = if keep r then F.root r else 0)
    (hentry : ∀ r p i, S.ok r (p ++ [i]) → keep r → F.at r p ≠ 0 →
      G.entry (F.at r p) i = F.entry (F.at r p) i) (hp : S.ok r p) :
    G.at r p = if keep r then F.at r p else 0 := by
  induction p using reverseRecOn with
  | nil => exact hroot r hp
  | append_singleton p i ih =>
    have hprev := ih (S.ok_of_snoc hp)
    rw [G.at_snoc, F.at_snoc, hprev]
    by_cases hk : keep r
    · simp only [if_pos hk]
      split
      · rfl
      · exact hentry r p i hp hk ‹_›
    · simp [hk]

theorem Store.Unshared.of_sub (hF : F.Unshared S)
    (hsub : ∀ r p, S.ok r p → G.at r p ≠ 0 → G.at r p = F.at r p) : G.Unshared S := by
  intro r p r' p' hp hp' hne heq
  have h1 := hsub r p hp hne
  have h2 := hsub r' p' hp' (by rwa [← heq])
  exact hF hp hp' (by rwa [← h1]) (by rw [← h1, ← h2, heq])

end PointerForest
