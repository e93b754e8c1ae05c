import Mathlib.Data.Nat.Bitwise
import Mathlib.Tactic.Ring

/-! # Little-endian fields and bitmaps inside byte blocks

A block is a total map from byte offsets to bytes. Fixed-width fields are read
and written in little-endian order, and a bitmap is the same block read one bit
at a time. Every law below is of the form "write then read": the field just
written comes back, and a field at a disjoint offset is untouched.
-/

namespace Bytes

open Function

/-- A byte block, addressed by byte offset. -/
abbrev Block := Nat → UInt8

/-- The block `memset` to zero. -/
def zero : Block := fun _ => 0

@[simp] theorem zero_apply (k : Nat) : zero k = 0 := rfl

/-! ## Little-endian fields -/

/-- The little-endian number in the `n` bytes from `off` on. -/
def readLE : Nat → Block → Nat → Nat
  | 0, _, _ => 0
  | n + 1, b, off => (b off).toNat + 256 * readLE n b (off + 1)

/-- Store the low `n` bytes of `v` from `off` on. -/
def writeLE (n : Nat) (b : Block) (off v : Nat) : Block := fun k =>
  if off ≤ k ∧ k < off + n then UInt8.ofNat (v / 256 ^ (k - off)) else b k

theorem readLE_lt (n : Nat) (b : Block) (off : Nat) : readLE n b off < 256 ^ n := by
  induction n generalizing off with
  | zero => simp [readLE]
  | succ n ih =>
    have hb : (b off).toNat < 256 := (b off).toNat_lt
    have hr := ih (off + 1)
    rw [readLE, Nat.pow_succ]
    omega

variable {off n off' k m : Nat} {b : Block}

theorem readLE_congr {b' : Block} (h : ∀ k, off ≤ k → k < off + n → b k = b' k) :
    readLE n b off = readLE n b' off := by
  induction n generalizing off with
  | zero => rfl
  | succ n ih =>
    rw [readLE, readLE, h off (by omega) (by omega),
      ih (fun k h1 h2 => h k (by omega) (by omega))]

@[simp] theorem readLE_zero (n off : Nat) : readLE n zero off = 0 := by
  induction n generalizing off with
  | zero => rfl
  | succ n ih => simp [readLE, ih]

/-- Bytes `off + j ..` of a stored value are the higher digits of that value. -/
private theorem readLE_of_digits {v : Nat}
    (h : ∀ j, j < n → b (off + j) = UInt8.ofNat (v / 256 ^ j)) : readLE n b off = v % 256 ^ n := by
  induction n generalizing off v with
  | zero => simp [readLE, Nat.mod_one]
  | succ n ih =>
    have hhead := h 0 (by omega)
    have htail : readLE n b (off + 1) = v / 256 % 256 ^ n := by
      apply ih
      intro j hj
      have hj' := h (j + 1) (by omega)
      rw [show off + 1 + j = off + (j + 1) by omega, hj', Nat.pow_succ,
        Nat.mul_comm, Nat.div_div_eq_div_mul]
    simp only [Nat.add_zero, Nat.pow_zero, Nat.div_one] at hhead
    have hbyte : (UInt8.ofNat v).toNat = v % 256 := by simp
    rw [readLE, hhead, htail, hbyte, Nat.pow_succ, Nat.mul_comm (256 ^ n) 256, Nat.mod_mul]

theorem readLE_writeLE (n : Nat) (b : Block) (off v : Nat) :
    readLE n (writeLE n b off v) off = v % 256 ^ n := by
  apply readLE_of_digits
  intro j hj
  simp [writeLE, hj]

theorem readLE_writeLE_of_lt (b : Block) (off : Nat) {v : Nat} (hv : v < 256 ^ n) :
    readLE n (writeLE n b off v) off = v := by
  rw [readLE_writeLE, Nat.mod_eq_of_lt hv]

theorem writeLE_of_outside (b : Block) (v : Nat) (h : k < off ∨ off + n ≤ k) :
    writeLE n b off v k = b k := by
  unfold writeLE
  rw [if_neg (by omega)]

theorem readLE_writeLE_of_disjoint (b : Block) (v : Nat) (h : off' + m ≤ off ∨ off + n ≤ off') :
    readLE m (writeLE n b off v) off' = readLE m b off' :=
  readLE_congr fun _ h1 h2 => writeLE_of_outside b v (by omega)

/-- Store `n` consecutive 32-bit words, word `i` being `f i`. -/
def writeWords (n : Nat) (b : Block) (off : Nat) (f : Nat → Nat) : Block := fun k =>
  if off ≤ k ∧ k < off + 4 * n then UInt8.ofNat (f ((k - off) / 4) / 256 ^ ((k - off) % 4)) else b k

theorem writeWords_of_outside (b : Block) (f : Nat → Nat) (h : k < off ∨ off + 4 * n ≤ k) :
    writeWords n b off f k = b k := by
  unfold writeWords
  rw [if_neg (by omega)]

theorem readLE_writeWords (b : Block) (off : Nat) (f : Nat → Nat) {i : Nat} (hi : i < n) :
    readLE 4 (writeWords n b off f) (off + 4 * i) = f i % 256 ^ 4 := by
  apply readLE_of_digits
  intro j hj
  unfold writeWords
  rw [if_pos (by omega), show (off + 4 * i + j - off) / 4 = i by omega,
    show (off + 4 * i + j - off) % 4 = j by omega]

theorem readLE_writeWords_of_disjoint (b : Block) (f : Nat → Nat)
    (h : off' + m ≤ off ∨ off + 4 * n ≤ off') :
    readLE m (writeWords n b off f) off' = readLE m b off' :=
  readLE_congr fun _ h1 h2 => writeWords_of_outside b f (by omega)

/-! ## Byte ranges -/

/-- Copy `data` over the bytes from `off` on. -/
def splice (b : Block) (off : Nat) (data : List UInt8) : Block := fun k =>
  if off ≤ k ∧ k < off + data.length then data.getD (k - off) 0 else b k

/-- The `n` bytes from `off` on. -/
def slice (b : Block) (off n : Nat) : List UInt8 := (List.range n).map fun j => b (off + j)

@[simp] theorem slice_length (b : Block) (off n : Nat) : (slice b off n).length = n := by
  simp [slice]

theorem splice_of_outside (b : Block) (data : List UInt8) (h : k < off ∨ off + data.length ≤ k) :
    splice b off data k = b k := by
  unfold splice
  rw [if_neg (by omega)]

theorem splice_inside (b : Block) (off : Nat) (data : List UInt8) {j : Nat} (hj : j < data.length) :
    splice b off data (off + j) = data[j] := by
  unfold splice
  rw [if_pos (by omega)]
  simp [hj]

theorem slice_congr {b' : Block} (h : ∀ k, off ≤ k → k < off + n → b k = b' k) :
    slice b off n = slice b' off n := by
  apply List.map_congr_left
  intro j hj
  exact h (off + j) (by omega) (by simpa using hj)

theorem slice_add (b : Block) (off m n : Nat) :
    slice b off (m + n) = slice b off m ++ slice b (off + m) n := by
  unfold slice
  rw [List.range_add, List.map_append, List.map_map]
  congr 2
  funext t
  simp only [comp_apply]
  congr 1
  omega

theorem slice_splice (b : Block) (off : Nat) (data : List UInt8) :
    slice (splice b off data) off data.length = data := by
  apply List.ext_getElem (by simp)
  intro j h1 h2
  simp [slice, splice_inside b off data h2]

theorem readLE_splice_of_disjoint (data : List UInt8)
    (h : off' + m ≤ off ∨ off + data.length ≤ off') :
    readLE m (splice b off data) off' = readLE m b off' :=
  readLE_congr fun _ h1 h2 => splice_of_outside b data (by omega)

/-! ## Bitmaps -/

/-- Bit `i` of a block, counted from the low bit of byte zero. -/
def bit (b : Block) (i : Nat) : Bool := (b (i / 8)).toNat.testBit (i % 8)

/-- `block[i / 8] |= 1 << (i % 8)`. -/
def setBit (b : Block) (i : Nat) : Block :=
  update b (i / 8) (UInt8.ofNat ((b (i / 8)).toNat ||| 2 ^ (i % 8)))

/-- `block[i / 8] &= ~(1 << (i % 8))`. -/
def clearBit (b : Block) (i : Nat) : Block :=
  update b (i / 8) (UInt8.ofNat ((b (i / 8)).toNat &&& (255 ^^^ 2 ^ (i % 8))))

@[simp] theorem bit_zero (i : Nat) : bit zero i = false := by simp [bit]

theorem bit_ones (i : Nat) : bit (fun _ => 0xFF) i = true := by
  change Nat.testBit (2 ^ 8 - 1) (i % 8) = true
  rw [Nat.testBit_two_pow_sub_one]
  exact decide_eq_true (Nat.mod_lt i (by decide))

theorem eq_of_bit_eq {a b : Block} (h : ∀ i, bit a i = bit b i) : a = b := by
  funext k
  refine UInt8.toNat_inj.mp (Nat.eq_of_testBit_eq fun j => ?_)
  by_cases hj : j < 8
  · have hbit := h (8 * k + j)
    unfold bit at hbit
    rwa [show (8 * k + j) / 8 = k by omega, show (8 * k + j) % 8 = j by omega] at hbit
  · have hlt : ∀ x : UInt8, x.toNat < 2 ^ j := fun x =>
      Nat.lt_of_lt_of_le x.toNat_lt (Nat.pow_le_pow_right (by decide) (Nat.le_of_not_lt hj))
    rw [Nat.testBit_lt_two_pow (hlt _), Nat.testBit_lt_two_pow (hlt _)]

private theorem same_bit_iff (i j : Nat) (hbyte : j / 8 = i / 8) : j = i ↔ j % 8 = i % 8 := by
  omega

private theorem pow_mod_lt (i : Nat) : 2 ^ (i % 8) < 256 :=
  Nat.pow_lt_pow_right (by decide) (show i % 8 < 8 by omega)

theorem bit_setBit (b : Block) (i j : Nat) : bit (setBit b i) j = (decide (j = i) || bit b j) := by
  unfold bit setBit
  by_cases hbyte : j / 8 = i / 8
  · have hlt : (b (i / 8)).toNat ||| 2 ^ (i % 8) < 2 ^ 8 :=
      Nat.or_lt_two_pow (b (i / 8)).toNat_lt (pow_mod_lt i)
    rw [hbyte, update_self, UInt8.toNat_ofNat', Nat.mod_eq_of_lt hlt, Nat.testBit_or,
      Nat.testBit_two_pow, Bool.or_comm]
    congr 1
    simpa [eq_comm] using same_bit_iff i j hbyte
  · rw [update_of_ne hbyte]
    have hne : j ≠ i := fun h => hbyte (by rw [h])
    simp [hne]

theorem bit_clearBit (b : Block) (i j : Nat) :
    bit (clearBit b i) j = (!decide (j = i) && bit b j) := by
  unfold bit clearBit
  by_cases hbyte : j / 8 = i / 8
  · have hlt : (b (i / 8)).toNat &&& (255 ^^^ 2 ^ (i % 8)) < 2 ^ 8 :=
      Nat.lt_of_le_of_lt Nat.and_le_left (b (i / 8)).toNat_lt
    have hj : j % 8 < 8 := by omega
    have hones : Nat.testBit 255 (j % 8) = true := by
      have := Nat.testBit_two_pow_sub_one 8 (j % 8)
      simpa [hj] using this
    rw [hbyte, update_self, UInt8.toNat_ofNat', Nat.mod_eq_of_lt hlt, Nat.testBit_and,
      Nat.testBit_xor, hones, Nat.testBit_two_pow, Bool.and_comm]
    congr 1
    rw [Bool.true_xor]
    congr 1
    simpa [eq_comm] using same_bit_iff i j hbyte
  · rw [update_of_ne hbyte]
    have hne : j ≠ i := fun h => hbyte (by rw [h])
    simp [hne]

end Bytes
