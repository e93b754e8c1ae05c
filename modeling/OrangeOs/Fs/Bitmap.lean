import OrangeOs.Fs.Volume

/-! # Bitmap allocation and release

What `bitmap_allocate`, `bitmap_free` and `alloc_data_block` do to the two
bitmaps of a mounted volume, as one equation on bits and one frame each. The
callers never look at bitmap bytes again.
-/

namespace OrangeOs.Fs

open Bytes

/-! ## Scanning -/

/-- The volume after the scan has taken bit `i`. -/
def bitmapSet (v : Volume) (base i : Nat) : Volume :=
  v.store (bitmapBlock v.sb base i)
    (setBit (v.disk (bitmapBlock v.sb base i)) (i % (v.sb.blockSize * 8)))

theorem bitmapScan_spec (v : Volume) (base i n : Nat)
    (hin : ∀ j, i ≤ j → j < i + n → bitmapBlock v.sb base j < v.sb.totalBlocks) :
    (bitmapScan v base i n = (-1, v) ∧ ∀ j, i ≤ j → j < i + n → bitmapBit v base j = true) ∨
    ∃ j, i ≤ j ∧ j < i + n ∧ bitmapBit v base j = false ∧
      (∀ k, i ≤ k → k < j → bitmapBit v base k = true) ∧
      bitmapScan v base i n = (i32 j, bitmapSet v base j) := by
  induction n generalizing i with
  | zero => exact Or.inl ⟨rfl, fun j h1 h2 => by omega⟩
  | succ n ih =>
    have hget := cacheGet_of_lt (hin i (by omega) (by omega))
    cases hbit : bitmapBit v base i with
    | false =>
      refine Or.inr ⟨i, by omega, by omega, hbit, fun k h1 h2 => by omega, ?_⟩
      unfold bitmapBit at hbit
      simp [bitmapScan, hget, hbit, bitmapSet]
    | true =>
      have hstep : bitmapScan v base i (n + 1) = bitmapScan v base (i + 1) n := by
        unfold bitmapBit at hbit
        simp [bitmapScan, hget, hbit]
      rw [hstep]
      rcases ih (i + 1) (fun j h1 h2 => hin j (by omega) (by omega)) with ⟨he, hall⟩ | hsome
      · refine Or.inl ⟨he, fun j h1 h2 => ?_⟩
        rcases Nat.eq_or_lt_of_le h1 with rfl | hlt
        · exact hbit
        · exact hall j hlt (by omega)
      · obtain ⟨j, h1, h2, hfree, hbelow, he⟩ := hsome
        refine Or.inr ⟨j, by omega, by omega, hfree, fun k hk1 hk2 => ?_, he⟩
        rcases Nat.eq_or_lt_of_le hk1 with rfl | hlt
        · exact hbit
        · exact hbelow k hlt hk2

variable {i b x : Nat}

theorem i32_of_lt (h : x < 2 ^ 31) : i32 x = x := by
  unfold i32
  rw [Int.bmod_eq_of_le] <;> omega

theorem i32_toNat_of_nonneg (hx : x < 2 ^ 32) (h : 0 ≤ i32 x) : x < 2 ^ 31 ∧ (i32 x).toNat = x := by
  have hlt : x < 2 ^ 31 := by
    unfold i32 at h
    rw [Int.bmod_def] at h
    split at h <;> omega
  rw [i32_of_lt hlt]
  exact ⟨hlt, Int.toNat_natCast x⟩

/-! ## Bits after an update -/

section Bits

variable {v : Volume} {base j : Nat}

private theorem bitmapBlock_eq_iff (hsize : v.sb.blockSize = 4096)
    (hi : base + i / 32768 < 2 ^ 32) (hj : base + j / 32768 < 2 ^ 32) :
    bitmapBlock v.sb base j = bitmapBlock v.sb base i ↔ j / 32768 = i / 32768 := by
  simp only [bitmapBlock, hsize, u32_of_lt hi, u32_of_lt hj]
  omega

theorem bitmapBit_bitmapSet (hsize : v.sb.blockSize = 4096) (hi : base + i / 32768 < 2 ^ 32)
    (hj : base + j / 32768 < 2 ^ 32) :
    bitmapBit (bitmapSet v base i) base j = (decide (j = i) || bitmapBit v base j) := by
  have hblk := bitmapBlock_eq_iff (v := v) hsize hi hj
  simp only [bitmapBit, bitmapSet, Volume.store_sb]
  by_cases h : bitmapBlock v.sb base j = bitmapBlock v.sb base i
  · have hdiv := hblk.mp h
    rw [h, Volume.store_same, bit_setBit, hsize]
    congr 1
    simp only [decide_eq_decide]
    omega
  · have hne : j ≠ i := fun he => h (by rw [he])
    rw [Volume.store_of_ne _ _ h]
    simp [hne]

theorem bitmapBit_bitmapFree (hsize : v.sb.blockSize = 4096) (hi : base + i / 32768 < 2 ^ 32)
    (hj : base + j / 32768 < 2 ^ 32) (hin : bitmapBlock v.sb base i < v.sb.totalBlocks) :
    bitmapBit (bitmapFree v base i) base j = (!decide (j = i) && bitmapBit v base j) := by
  have hblk := bitmapBlock_eq_iff (v := v) hsize hi hj
  simp only [bitmapBit, bitmapFree, cacheGet_of_lt hin, Volume.store_sb]
  by_cases h : bitmapBlock v.sb base j = bitmapBlock v.sb base i
  · have hdiv := hblk.mp h
    rw [h, Volume.store_same, bit_clearBit, hsize]
    congr 2
    simp only [decide_eq_decide]
    omega
  · have hne : j ≠ i := fun he => h (by rw [he])
    rw [Volume.store_of_ne _ _ h]
    simp [hne]

end Bits

/-! ## The two bitmaps of a mounted volume -/

section Mounted

variable {v : Volume} (hm : Mounted v.sb)
include hm

theorem imap_no_wrap (hi : i < v.sb.totalInodes) : v.sb.imapStart + i / 32768 < 2 ^ 32 := by
  have h1 := hm.imap_end
  have h2 := hm.bmap_end
  have h3 := hm.inode_end
  have h4 := hm.data_lt
  have h5 := hm.total_lt
  have h6 := hm.imap_room
  omega

theorem bmap_no_wrap (hb : b < v.sb.totalBlocks) : v.sb.bmapStart + b / 32768 < 2 ^ 32 := by
  have h2 := hm.bmap_end
  have h3 := hm.inode_end
  have h4 := hm.data_lt
  have h5 := hm.total_lt
  have h6 := hm.bmap_room
  omega

theorem bitmapBlock_imap_lt (hi : i < v.sb.totalInodes) :
    bitmapBlock v.sb v.sb.imapStart i < v.sb.totalBlocks :=
  Nat.lt_trans (region_lt hm (Or.inl (bitmapBlock_imap hm hi).2)) hm.data_lt

theorem bitmapBlock_bmap_lt (hb : b < v.sb.totalBlocks) :
    bitmapBlock v.sb v.sb.bmapStart b < v.sb.totalBlocks :=
  Nat.lt_trans (region_lt hm (Or.inr (Or.inl (bitmapBlock_bmap hm hb).2))) hm.data_lt

theorem bitmapFree_bmap_frame (hb : b < v.sb.totalBlocks) :
    Frame (bmapRegion v.sb) v (bitmapFree v v.sb.bmapStart b) := by
  rw [bitmapFree, cacheGet_of_lt (bitmapBlock_bmap_lt hm hb)]
  exact Frame.store v _ (bitmapBlock_bmap hm hb).2

theorem bmapBit_bitmapFree (hb : b < v.sb.totalBlocks) (hx : x < v.sb.totalBlocks) :
    bmapBit (bitmapFree v v.sb.bmapStart b) x = (!decide (x = b) && bmapBit v x) := by
  have hsb := (bitmapFree_bmap_frame hm hb).sb
  rw [bmapBit, hsb, bmapBit]
  exact bitmapBit_bitmapFree hm.blockSize (bmap_no_wrap hm hb) (bmap_no_wrap hm hx)
    (bitmapBlock_bmap_lt hm hb)

theorem bitmapFree_imap_frame (hi : i < v.sb.totalInodes) :
    Frame (imapRegion v.sb) v (bitmapFree v v.sb.imapStart i) := by
  rw [bitmapFree, cacheGet_of_lt (bitmapBlock_imap_lt hm hi)]
  exact Frame.store v _ (bitmapBlock_imap hm hi).2

theorem bmapBit_bitmapFree_imap (hi : i < v.sb.totalInodes) {b : Nat} (hb : b < v.sb.totalBlocks) :
    bmapBit (bitmapFree v v.sb.imapStart i) b = bmapBit v b :=
  bmapBit_frame hm (bitmapFree_imap_frame hm hi)
    (fun _ hy hreg => (imapRegion_disjoint hm hreg).1 hy) hb

theorem imapBit_bitmapFree (hi : i < v.sb.totalInodes) (hx : x < v.sb.totalInodes) :
    imapBit (bitmapFree v v.sb.imapStart i) x = (!decide (x = i) && imapBit v x) := by
  have hsb := (bitmapFree_imap_frame hm hi).sb
  rw [imapBit, hsb, imapBit]
  exact bitmapBit_bitmapFree hm.blockSize (imap_no_wrap hm hi) (imap_no_wrap hm hx)
    (bitmapBlock_imap_lt hm hi)

/-- Inode allocation takes the first clear bit from `first` on, or fails and
changes nothing. Inode numbers stay below 2^31 here, so the `int` is exact. -/
theorem bitmapAllocate_imap (first : Nat) (hinodes : v.sb.totalInodes ≤ 2 ^ 31) :
    (bitmapAllocate v v.sb.imapStart first v.sb.totalInodes = (-1, v) ∧
      ∀ i, first ≤ i → i < v.sb.totalInodes → imapBit v i = true) ∨
    ∃ (i : Nat) (w : Volume),
      bitmapAllocate v v.sb.imapStart first v.sb.totalInodes = ((i : Int), w) ∧
      first ≤ i ∧ i < v.sb.totalInodes ∧ imapBit v i = false ∧
      Frame (imapRegion v.sb) v w ∧
      ∀ x, x < v.sb.totalInodes → imapBit w x = (decide (x = i) || imapBit v x) := by
  rcases bitmapScan_spec v v.sb.imapStart first (v.sb.totalInodes - first)
    (fun j h1 h2 => bitmapBlock_imap_lt hm (by omega)) with ⟨he, hall⟩ | hsome
  · exact Or.inl ⟨he, fun i h1 h2 => hall i h1 (by omega)⟩
  · obtain ⟨i, h1, h2, hfree, -, he⟩ := hsome
    have hi : i < v.sb.totalInodes := by omega
    refine Or.inr ⟨i, bitmapSet v v.sb.imapStart i, ?_, h1, hi, hfree,
      Frame.store v _ (bitmapBlock_imap hm hi).2, ?_⟩
    · rw [bitmapAllocate, he, i32_of_lt (by omega)]
    · intro x hx
      exact bitmapBit_bitmapSet hm.blockSize (imap_no_wrap hm hi) (imap_no_wrap hm hx)

end Mounted

/-! ## Data blocks -/

/-- A successful `alloc_data_block`: block `b` was free, is now marked and zero,
and nothing else changed. -/
structure Allocated (v w : Volume) (b : Nat) : Prop where
  lo : v.sb.firstDataBlock ≤ b
  hi : b < v.sb.totalBlocks
  free : bmapBit v b = false
  frame : Frame (fun x => bmapRegion v.sb x ∨ x = b) v w
  bits : ∀ x, x < v.sb.totalBlocks → bmapBit w x = (decide (x = b) || bmapBit v x)
  blank : w.disk b = zero

theorem Allocated.lt_word {v w : Volume} (ha : Allocated v w b) (hm : Mounted v.sb) :
    b < 2 ^ 32 := Nat.lt_trans ha.hi hm.total_lt

/-- A failed `alloc_data_block`: at most further bits of the block bitmap are
set, none is cleared. -/
structure AllocFailed (v w : Volume) : Prop where
  frame : Frame (bmapRegion v.sb) v w
  bits : ∀ x, x < v.sb.totalBlocks → bmapBit v x = true → bmapBit w x = true

theorem allocDataBlock_spec {v : Volume} (hm : Mounted v.sb) :
    (∃ w, allocDataBlock v = (none, w) ∧ AllocFailed v w) ∨
    ∃ b w, allocDataBlock v = (some b, w) ∧ Allocated v w b := by
  have htotal := hm.total_lt
  rcases bitmapScan_spec v v.sb.bmapStart v.sb.firstDataBlock
    (v.sb.totalBlocks - v.sb.firstDataBlock)
    (fun j h1 h2 => bitmapBlock_bmap_lt hm (by omega)) with ⟨he, -⟩ | hsome
  · refine Or.inl ⟨v, ?_, Frame.refl _ v, fun x _ h => h⟩
    simp [allocDataBlock, bitmapAllocate, he]
  · obtain ⟨b, h1, h2, hfree, -, he⟩ := hsome
    have hb : b < v.sb.totalBlocks := by omega
    have hset : Frame (bmapRegion v.sb) v (bitmapSet v v.sb.bmapStart b) :=
      Frame.store v _ (bitmapBlock_bmap hm hb).2
    have hbits : ∀ x, x < v.sb.totalBlocks →
        bmapBit (bitmapSet v v.sb.bmapStart b) x = (decide (x = b) || bmapBit v x) := fun x hx =>
      bitmapBit_bitmapSet hm.blockSize (bmap_no_wrap hm hb) (bmap_no_wrap hm hx)
    by_cases hneg : i32 b < 0
    · refine Or.inl ⟨bitmapSet v v.sb.bmapStart b, ?_, hset, fun x hx h => ?_⟩
      · simp [allocDataBlock, bitmapAllocate, he, hneg]
      · rw [hbits x hx, h, Bool.or_true]
    · obtain ⟨-, hnat⟩ := i32_toNat_of_nonneg (x := b) (by omega) (by omega)
      refine Or.inr ⟨b, (bitmapSet v v.sb.bmapStart b).store b zero, ?_, h1, hb, hfree, ?_, ?_,
        Volume.store_same _ _ _⟩
      · have hget : cacheGet (bitmapSet v v.sb.bmapStart b) b =
            some ((bitmapSet v v.sb.bmapStart b).disk b) := cacheGet_of_lt hb
        simp [allocDataBlock, bitmapAllocate, he, hneg, hnat, hget]
      · exact (hset.mono fun x hx => Or.inl hx).trans (Frame.store _ zero (Or.inr rfl))
      · intro x hx
        rw [← hbits x hx]
        -- the zeroed block lies in the data area, so no bitmap bit moved
        refine bmapBit_frame (v := bitmapSet v v.sb.bmapStart b) hm
          (Frame.store _ zero rfl : Frame (· = b) _ _) ?_ hx
        intro y hy heq
        exact (bmapRegion_disjoint hm hy).2.2 (by unfold dataRegion; omega)

/-! ## The lowest clear bit -/

section Lowest

variable {v : Volume} {base first limit : Nat}

/-- Bits below `limit` belong to one of the two bitmaps. -/
def InBitmap (sb : SuperBlock) (base limit : Nat) : Prop :=
  base = sb.imapStart ∧ limit ≤ sb.totalInodes ∨ base = sb.bmapStart ∧ limit ≤ sb.totalBlocks

def LowestClear (v : Volume) (base first limit i : Nat) : Prop :=
  first ≤ i ∧ i < limit ∧ bitmapBit v base i = false ∧
    ∀ k, first ≤ k → k < i → bitmapBit v base k = true

/-- What `bitmap_allocate` is for; `bitmap_free` takes it back. -/
structure Allocates (v : Volume) (base first limit : Nat) : Prop where
  found : ∀ i, LowestClear v base first limit i →
    (bitmapAllocate v base first limit).1 = i ∧
    (∀ x < limit, bitmapBit (bitmapAllocate v base first limit).2 base x =
      (decide (x = i) || bitmapBit v base x)) ∧
    (∀ b, b ≠ bitmapBlock v.sb base i → (bitmapAllocate v base first limit).2.disk b = v.disk b) ∧
    bitmapFree (bitmapAllocate v base first limit).2 base i = v
  full : (∀ i, first ≤ i → i < limit → bitmapBit v base i = true) →
    bitmapAllocate v base first limit = (-1, v)

theorem bitmapFree_bitmapSet (hbit : bitmapBit v base i = false)
    (hin : bitmapBlock v.sb base i < v.sb.totalBlocks) :
    bitmapFree (bitmapSet v base i) base i = v := by
  have hblock : clearBit (setBit (v.disk (bitmapBlock v.sb base i)) (i % (v.sb.blockSize * 8)))
      (i % (v.sb.blockSize * 8)) = v.disk (bitmapBlock v.sb base i) := by
    refine eq_of_bit_eq fun j => ?_
    rw [bit_clearBit, bit_setBit]
    by_cases hj : j = i % (v.sb.blockSize * 8)
    · rw [hj, decide_eq_true rfl, Bool.not_true, Bool.false_and]
      exact hbit.symm
    · simp [hj]
  have hin' : bitmapBlock (bitmapSet v base i).sb base i < (bitmapSet v base i).sb.totalBlocks := hin
  rw [bitmapFree, cacheGet_of_lt hin']
  change (bitmapSet v base i).store (bitmapBlock v.sb base i) (clearBit ((bitmapSet v base i).disk
    (bitmapBlock v.sb base i)) (i % (v.sb.blockSize * 8))) = v
  rw [bitmapSet, Volume.store_same, hblock]
  simp [Volume.store]

section Init

variable {startLba : Nat} {disk : Nat → Block} (h : fsInit startLba disk = some v)
  (hmap : InBitmap v.sb base limit)
include h hmap

theorem InBitmap.access (hi : i < limit) : base + i / 32768 < 2 ^ 32 ∧
    bitmapBlock v.sb base i < v.sb.totalBlocks ∧ i < 2 ^ 32 := by
  have hm := (fsInit_some h).2
  have htotal := hm.total_lt
  have hinodes : v.sb.totalInodes < 2 ^ 32 := by
    unfold fsInit at h
    dsimp only at h
    split at h
    · obtain rfl := Option.some.inj h
      exact readLE_lt ..
    · cases h
  rcases hmap with ⟨rfl, hle⟩ | ⟨rfl, hle⟩
  · exact ⟨imap_no_wrap hm (by omega), bitmapBlock_imap_lt hm (by omega), by omega⟩
  · exact ⟨bmap_no_wrap hm (by omega), bitmapBlock_bmap_lt hm (by omega), by omega⟩

theorem LowestClear.allocate (hlow : LowestClear v base first limit i) :
    bitmapAllocate v base first limit = (i32 i, bitmapSet v base i) := by
  obtain ⟨h1, h2, hclear, hbelow⟩ := hlow
  rcases bitmapScan_spec v base first (limit - first)
    (fun j _ hj => (hmap.access h (by omega)).2.1) with ⟨-, hall⟩ | ⟨j, hj1, hj2, hfree, hfirst, he⟩
  · rw [hall i h1 (by omega)] at hclear
    cases hclear
  · have hij : j = i := by
      rcases Nat.lt_trichotomy j i with hlt | heq | hgt
      · rw [hbelow j hj1 hlt] at hfree
        cases hfree
      · exact heq
      · rw [hfirst i h1 hgt] at hclear
        cases hclear
    rw [bitmapAllocate, he, hij]

/-- `bitmap_allocate` gets what it is for on every volume and bitmap, unless the lowest clear bit is
one that the `int` result cannot express. -/
theorem bitmap_allocate_finds_free_iff (first : Nat) :
    Allocates v base first limit ↔ ∀ i, LowestClear v base first limit i → i < 2 ^ 31 := by
  have hsize := (fsInit_some h).2.blockSize
  constructor
  · intro ha i hlow
    have hres := (ha.found i hlow).1
    rw [hlow.allocate h hmap] at hres
    exact (i32_toNat_of_nonneg (hmap.access h hlow.2.1).2.2 (by omega)).1
  · intro hlow
    refine ⟨fun i hi => ?_, fun hfull => ?_⟩
    · obtain ⟨hwrap, hin, -⟩ := hmap.access h hi.2.1
      have hint := i32_of_lt (hlow i hi)
      rw [hi.allocate h hmap, hint]
      refine ⟨rfl, fun x hx => ?_, fun b hb => ?_, ?_⟩
      · exact bitmapBit_bitmapSet hsize hwrap (hmap.access h hx).1
      · exact v.store_of_ne _ hb
      · exact bitmapFree_bitmapSet hi.2.2.1 hin
    · rcases bitmapScan_spec v base first (limit - first)
        (fun j _ hj => (hmap.access h (by omega)).2.1) with ⟨he, -⟩ | ⟨j, hj1, hj2, hfree, -⟩
      · exact he
      · rw [hfull j hj1 (by omega)] at hfree
        cases hfree

end Init

theorem bitmap_allocate_finds_free_iff_huge :
    Allocates hugeVolume hugeSb.imapStart 0 hugeSb.totalInodes ↔
      ∀ i, LowestClear hugeVolume hugeSb.imapStart 0 hugeSb.totalInodes i → i < 2 ^ 31 :=
  bitmap_allocate_finds_free_iff fsInit_huge (Or.inl ⟨rfl, Nat.le_refl _⟩) 0

theorem lowestClear_huge :
    LowestClear hugeVolume hugeSb.bmapStart hugeSb.firstDataBlock hugeSb.totalBlocks (2 ^ 31) := by
  refine ⟨by decide, by decide, by decide +kernel, fun k _ hk => ?_⟩
  have hblock : bitmapBlock hugeSb hugeSb.bmapStart k = 3 + k / 32768 := by
    refine u32_of_lt ?_
    change 3 + k / 32768 < 2 ^ 32
    omega
  have hdisk : hugeVolume.disk (3 + k / 32768) = fun _ => 0xFF := by
    unfold hugeVolume
    dsimp only
    rw [if_neg (by omega), if_pos (by omega)]
  change bit (hugeVolume.disk (bitmapBlock hugeSb hugeSb.bmapStart k)) _ = true
  rw [hblock, hdisk, bit_ones]

theorem allocDataBlock_of_neg {r : Int} {w : Volume}
    (h : bitmapAllocate v v.sb.bmapStart v.sb.firstDataBlock v.sb.totalBlocks = (r, w)) (hr : r < 0) :
    allocDataBlock v = (none, w) := by
  unfold allocDataBlock
  rw [h]
  exact if_pos hr

/-- The scan finds block `2 ^ 31` free and sets its bit, but `alloc_data_block` takes the number for
an error. -/
theorem bitmap_allocate_loses_bit :
    fsInit 1000 hugeVolume.disk = some hugeVolume ∧
    LowestClear hugeVolume hugeSb.bmapStart hugeSb.firstDataBlock hugeSb.totalBlocks (2 ^ 31) ∧
    (bitmapAllocate hugeVolume hugeSb.bmapStart hugeSb.firstDataBlock hugeSb.totalBlocks).1 < 0 ∧
    (allocDataBlock hugeVolume).1 = none ∧ bmapBit (allocDataBlock hugeVolume).2 (2 ^ 31) = true := by
  have hall : bitmapAllocate hugeVolume hugeSb.bmapStart hugeSb.firstDataBlock hugeSb.totalBlocks =
      (i32 (2 ^ 31), bitmapSet hugeVolume hugeSb.bmapStart (2 ^ 31)) :=
    lowestClear_huge.allocate fsInit_huge (Or.inr ⟨rfl, Nat.le_refl _⟩)
  have hneg : i32 (2 ^ 31) < 0 := by decide
  have halloc : allocDataBlock hugeVolume = (none, bitmapSet hugeVolume hugeSb.bmapStart (2 ^ 31)) :=
    allocDataBlock_of_neg hall hneg
  refine ⟨fsInit_huge, lowestClear_huge, by rw [hall]; exact hneg, by rw [halloc], ?_⟩
  rw [halloc]
  change bitmapBit (bitmapSet hugeVolume hugeSb.bmapStart (2 ^ 31)) hugeSb.bmapStart (2 ^ 31) = true
  rw [bitmapBit_bitmapSet rfl (by decide) (by decide), decide_eq_true rfl, Bool.true_or]

end Lowest

end OrangeOs.Fs
