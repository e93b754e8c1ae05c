import OrangeOs.Fs.Ownership
import Mathlib.Data.Finset.Card

/-! # Free space and exact growth

Which data blocks are free, and exactly which positions, bits and blocks a creating
lookup changes before it ends or an allocation fails. A block whose number does not fit
the `int` that `bitmap_allocate` returns is marked and then taken for a failure.
-/

namespace OrangeOs.Fs

open Function

/-- Every block number is a nonnegative `int`. -/
def SmallVolume (sb : SuperBlock) : Prop := sb.totalBlocks ≤ 2 ^ 31

def freeSet (v : Volume) : Finset Nat :=
  (Finset.range v.sb.totalBlocks).filter fun b => v.sb.firstDataBlock ≤ b ∧ bmapBit v b = false

def freeBlocks (v : Volume) : Nat := (freeSet v).card

variable {v w : Volume} {n b : Nat} {p path : List Nat} {r : Nat × Nat} {tab tab' : Table}

theorem mem_freeSet :
    b ∈ freeSet v ↔ b < v.sb.totalBlocks ∧ v.sb.firstDataBlock ≤ b ∧ bmapBit v b = false := by
  simp [freeSet]

theorem freeSet_congr (hsb : w.sb = v.sb)
    (hbits : ∀ x, x < v.sb.totalBlocks → bmapBit w x = bmapBit v x) : freeSet w = freeSet v := by
  ext b
  rw [mem_freeSet, mem_freeSet, hsb]
  constructor
  · intro h
    exact ⟨h.1, h.2.1, (hbits b h.1).symm.trans h.2.2⟩
  · intro h
    exact ⟨h.1, h.2.1, (hbits b h.1).trans h.2.2⟩

theorem freeSet_anti (hsb : w.sb = v.sb)
    (hbits : ∀ x, x < v.sb.totalBlocks → bmapBit v x = true → bmapBit w x = true) :
    freeSet w ⊆ freeSet v := by
  intro b hb
  rw [mem_freeSet, hsb] at hb
  rw [mem_freeSet]
  refine ⟨hb.1, hb.2.1, ?_⟩
  by_contra hset
  have := hbits b hb.1 (by simpa using hset)
  rw [hb.2.2] at this
  exact absurd this (by simp)

theorem Allocated.freeSet_eq (ha : Allocated v w n) : freeSet w = (freeSet v).erase n := by
  ext b
  rw [mem_freeSet, Finset.mem_erase, mem_freeSet, ha.frame.sb]
  constructor
  · intro h
    have hb := ha.bits b h.1
    rw [h.2.2] at hb
    simp only [Bool.false_eq, Bool.or_eq_false_iff, decide_eq_false_iff_not] at hb
    exact ⟨hb.1, h.1, h.2.1, hb.2⟩
  · intro h
    refine ⟨h.2.1, h.2.2.1, ?_⟩
    rw [ha.bits b h.2.1, h.2.2.2]
    simp [h.1]

theorem Allocated.freeBlocks_eq (ha : Allocated v w n) : freeBlocks w + 1 = freeBlocks v := by
  rw [freeBlocks, ha.freeSet_eq]
  exact Finset.card_erase_add_one (mem_freeSet.mpr ⟨ha.hi, ha.lo, ha.free⟩)

/-- An allocation fails when no block is free, or when every free one has a number beyond
`int`; then one of them is marked. -/
theorem allocDataBlock_none (hm : Mounted v.sb) (h : allocDataBlock v = (none, w)) :
    w.sb = v.sb ∧ ((w = v ∧ freeSet v = ∅) ∨
      (∃ x ∈ freeSet v, bmapBit w x = true) ∧ ∀ x ∈ freeSet v, 2 ^ 31 ≤ x) := by
  rcases bitmapScan_spec v v.sb.bmapStart v.sb.firstDataBlock
    (v.sb.totalBlocks - v.sb.firstDataBlock)
    (fun j h1 h2 => bitmapBlock_bmap_lt hm (by omega)) with
      ⟨he, hfull⟩ | ⟨b, h1, h2, hfree, hbelow, he⟩
  · simp only [allocDataBlock, bitmapAllocate, he, Int.reduceNeg, Int.reduceLT, if_true] at h
    cases h
    refine ⟨rfl, Or.inl ⟨rfl, Finset.eq_empty_iff_forall_notMem.mpr fun b hb => ?_⟩⟩
    rw [mem_freeSet] at hb
    have hset : bmapBit v b = true := hfull b hb.2.1 (by omega)
    rw [hb.2.2] at hset
    cases hset
  · have hlt : b < v.sb.totalBlocks := by omega
    have hneg : i32 b < 0 := by
      by_contra hpos
      have hget : cacheGet (bitmapSet v v.sb.bmapStart b) b =
        some ((bitmapSet v v.sb.bmapStart b).disk b) := cacheGet_of_lt hlt
      have htotal := hm.total_lt
      obtain ⟨-, hnat⟩ := i32_toNat_of_nonneg (x := b) (by omega) (by omega)
      simp [allocDataBlock, bitmapAllocate, he, hpos, hnat, hget] at h
    have hbig : 2 ^ 31 ≤ b := by
      by_contra hsmall
      rw [i32_of_lt (by omega)] at hneg
      omega
    simp only [allocDataBlock, bitmapAllocate, he, if_pos hneg] at h
    cases h
    refine ⟨rfl, Or.inr ⟨⟨b, mem_freeSet.mpr ⟨hlt, h1, hfree⟩, ?_⟩, fun x hx => ?_⟩⟩
    · exact (bitmapBit_bitmapSet hm.blockSize (bmap_no_wrap hm hlt) (bmap_no_wrap hm hlt)).trans
        (by simp)
    · -- the scan takes the lowest of them
      rw [mem_freeSet] at hx
      by_contra hxlt
      have hset : bmapBit v x = true := hbelow x hx.2.1 (by omega)
      rw [hx.2.2] at hset
      cases hset

theorem allocDataBlock_int (hm : Mounted v.sb) (h : allocDataBlock v = (some n, w)) :
    n < 2 ^ 31 := by
  have htotal := hm.total_lt
  rcases bitmapScan_spec v v.sb.bmapStart v.sb.firstDataBlock
    (v.sb.totalBlocks - v.sb.firstDataBlock)
    (fun j h1 h2 => bitmapBlock_bmap_lt hm (by omega)) with ⟨he, -⟩ | ⟨b, h1, h2, -, -, he⟩
  · simp [allocDataBlock, bitmapAllocate, he] at h
  · simp only [allocDataBlock, bitmapAllocate, he] at h
    split at h
    · cases h
    · next hpos =>
      obtain ⟨hlt, hnat⟩ := i32_toNat_of_nonneg (x := b) (by omega) (not_lt.mp hpos)
      rw [hnat] at h
      split at h
      · cases h
      · cases h
        exact hlt

theorem allocDataBlock_full (hm : Mounted v.sb) (hfull : freeBlocks v = 0) :
    allocDataBlock v = (none, v) := by
  rcases allocDataBlock_spec hm with ⟨w, he, -⟩ | ⟨b, w, -, ha⟩
  · rcases (allocDataBlock_none hm he).2 with ⟨rfl, -⟩ | ⟨⟨x, hx, -⟩, -⟩
    · exact he
    · rw [Finset.card_eq_zero.mp hfull] at hx
      cases hx
  · have := ha.freeBlocks_eq
    omega

theorem allocDataBlock_enough (hm : Mounted v.sb) (hsmall : SmallVolume v.sb)
    (hfree : 0 < freeBlocks v) : ∃ b w, allocDataBlock v = (some b, w) ∧ Allocated v w b := by
  rcases allocDataBlock_spec hm with ⟨w, he, -⟩ | h
  · rcases (allocDataBlock_none hm he).2 with ⟨-, hempty⟩ | ⟨⟨x, hx, -⟩, hfar⟩
    · rw [freeBlocks, hempty] at hfree
      cases hfree
    · have hlt := (mem_freeSet.mp hx).1
      have hge := hfar x hx
      unfold SmallVolume at hsmall
      omega
  · exact h

/-! ## What a lookup changes -/

/-- Growth along one index path: the positions on it, the blocks taken for them and index
blocks above its end are all that changes, and every new bit is a new block there. -/
structure Extends (r : Nat × Nat) (path : List Nat) (v : Volume) (tab : Table) (w : Volume)
    (tab' : Table) : Prop where
  grow : Grow v tab w tab'
  only : ∀ {r' p'}, indexShape.ok r' p' → ¬(r' = r ∧ p' <+: path) →
    blockAt w tab' r' p' = blockAt v tab r' p'
  bits : ∀ x, x < v.sb.totalBlocks → bmapBit w x = true → bmapBit v x = true ∨
    ∃ p', p' <+: path ∧ blockAt v tab r p' = 0 ∧ blockAt w tab' r p' = x ∧ x ≠ 0
  disk : ∀ b, ¬bmapRegion v.sb b → (b ∈ freeSet v → b ∈ freeSet w) →
    (∀ p', p' <+: path → p' ≠ path → blockAt v tab r p' ≠ b) → w.disk b = v.disk b
  int : ∀ b ∈ freeSet v, 2 ^ 31 ≤ b → b ∈ freeSet w

theorem indexShape_ok_initial (hpath : indexShape.ok r path) (h : p <+: path) :
    indexShape.ok r p := by
  obtain ⟨q, rfl⟩ := h
  exact indexShape.ok_of_append q hpath

theorem Extends.refl (ho : Owned v tab) : Extends r path v tab v tab where
  grow := Grow.refl ho
  only _ _ := rfl
  bits _ _ h := Or.inl h
  disk _ _ _ _ := rfl
  int _ hb _ := hb

theorem Extends.trans {u : Volume} {ta tb tc : Table} (hpath : indexShape.ok r path)
    (h1 : Extends r path u ta v tb) (h2 : Extends r path v tb w tc) :
    Extends r path u ta w tc where
  grow := h1.grow.trans h2.grow
  only hp hne := (h2.only hp hne).trans (h1.only hp hne)
  bits x hx hw := by
    rcases h2.bits x (by rwa [h1.grow.frame.sb]) hw with hv | ⟨p, hp, h0, hat, hx0⟩
    · rcases h1.bits x hx hv with hu | ⟨p, hp, h0, hat, hx0⟩
      · exact Or.inl hu
      · refine Or.inr ⟨p, hp, h0, ?_, hx0⟩
        rw [h2.grow.keep (indexShape_ok_initial hpath hp) (by rwa [hat]), hat]
    · refine Or.inr ⟨p, hp, ?_, hat, hx0⟩
      by_contra hne
      rw [h1.grow.keep (indexShape_ok_initial hpath hp) hne] at h0
      exact hne h0
  disk b hreg hfree hindex := by
    have hkept : b ∈ freeSet u → b ∈ freeSet v := fun hmem =>
      freeSet_anti h2.grow.frame.sb h2.grow.bits (hfree hmem)
    have hkept' : b ∈ freeSet v → b ∈ freeSet w := fun hmem =>
      hfree (freeSet_anti h1.grow.frame.sb h1.grow.bits hmem)
    rw [h2.disk b (by rwa [h1.grow.frame.sb]) hkept' ?_, h1.disk b hreg hkept hindex]
    intro p hp hne heq
    have hok := indexShape_ok_initial hpath hp
    by_cases h0 : blockAt u ta r p = 0
    · -- the index block there is new, so it was free and is not any more
      have hb0 : blockAt v tb r p ≠ 0 := by
        rw [heq]
        intro hb
        exact hindex p hp hne (h0.trans hb.symm)
      have hlo := h1.grow.owned.lo hok hb0
      have hhi := h1.grow.owned.hi hok hb0
      rw [heq, h1.grow.frame.sb] at hlo hhi
      have hfresh := h1.grow.fresh hok h0 hb0
      have hmark := h1.grow.owned.marked hok hb0
      rw [heq] at hfresh hmark
      have hstill := (mem_freeSet.mp (hkept (mem_freeSet.mpr ⟨hhi, hlo, hfresh⟩))).2.2
      rw [hmark] at hstill
      cases hstill
    · rw [h1.grow.keep hok h0] at heq
      exact hindex p hp hne heq
  int b hb hbig := h2.int b (h1.int b hb hbig) hbig

theorem Extends.of_allocated {u : Volume} (ha : Allocated v w n) (hint : n < 2 ^ 31)
    (hg : Grow v tab u tab') (hn : n ≠ 0) (hok : indexShape.ok r p) (hp : p <+: path)
    (hnull : blockAt v tab r p = 0)
    (hat : blockAt u tab' r p = n) (hbits : ∀ x, x < v.sb.totalBlocks → bmapBit u x = bmapBit w x)
    (hdisk : ∀ b, (∀ p', p' <+: path → p' ≠ path → blockAt v tab r p' ≠ b) →
      u.disk b = w.disk b) : Extends r path v tab u tab' := by
  have hnew : ∀ x, x < v.sb.totalBlocks → bmapBit u x = true → x = n ∨ bmapBit v x = true := by
    intro x hx hset
    rw [hbits x hx, ha.bits x hx] at hset
    simpa using hset
  refine ⟨hg, ?_, ?_, ?_, ?_⟩
  · intro r' p' hp' hne
    by_cases h0 : blockAt v tab r' p' = 0
    · by_contra hchanged
      have hu0 : blockAt u tab' r' p' ≠ 0 := fun h => hchanged (h.trans h0.symm)
      have hlt := hg.owned.hi hp' hu0
      rw [hg.frame.sb] at hlt
      rcases hnew _ hlt (hg.owned.marked hp' hu0) with heq | hmark
      · obtain ⟨rfl, rfl⟩ := hg.owned.unshared hp' hok hu0 (heq.trans hat.symm)
        exact hne ⟨rfl, hp⟩
      · rw [hg.fresh hp' h0 hu0] at hmark
        exact absurd hmark (by simp)
    · exact hg.keep hp' h0
  · intro x hx hset
    rcases hnew x hx hset with rfl | hmark
    · exact Or.inr ⟨p, hp, hnull, hat, hn⟩
    · exact Or.inl hmark
  · intro b hreg hfree hindex
    rw [hdisk b hindex]
    refine ha.frame.disk b ?_
    rintro (h | rfl)
    · exact hreg h
    · have hstill := (mem_freeSet.mp (hfree (mem_freeSet.mpr ⟨ha.hi, ha.lo, ha.free⟩))).2.2
      rw [hbits _ ha.hi, ha.bits _ ha.hi] at hstill
      simp at hstill
  · intro b hb hbig
    obtain ⟨hhi, hlo, hfree⟩ := mem_freeSet.mp hb
    refine mem_freeSet.mpr ⟨hg.frame.sb ▸ hhi, hg.frame.sb ▸ hlo,
      Bool.eq_false_iff.mpr fun hset => ?_⟩
    rcases hnew b hhi hset with rfl | hmark
    · exact absurd hint (Nat.not_lt.mpr hbig)
    · rw [hfree] at hmark
      cases hmark

section Lookup

/-- A lookup with result `out` ended in `u`, or an allocation there failed. -/
def EndsIn (out : Option Nat) (u w : Volume) : Prop :=
  if out = none then allocDataBlock u = (none, w) else w = u

theorem ensureEntry_extends {k : Nat} (create : Bool) (hm : Mounted v.sb)
    (ho : Owned v tab) (hb : blockAt v tab r p = b) (hb0 : b ≠ 0)
    (hpath : indexShape.ok r path) (hp : p ++ [k] <+: path) :
    ∃ u, Extends r path v tab u tab ∧
      EndsIn (ensureEntry v b k create).1 u (ensureEntry v b k create).2 := by
  subst hb
  have hok := indexShape_ok_initial hpath hp
  have hp0 := indexShape.ok_of_snoc hok
  have hpre : p <+: path := (List.prefix_append p [k]).trans hp
  have hshort : p ≠ path := by
    rintro rfl
    have := hp.length_le
    simp at this
  have hget := cacheGet_of_lt (ho.hi hp0 hb0)
  by_cases hcreate : indexEntry (v.disk (blockAt v tab r p)) k = 0 ∧ create = true
  · rcases allocDataBlock_spec hm with ⟨w, he, -⟩ | ⟨n, w, he, ha⟩
    · simp only [ensureEntry, hget, if_pos hcreate, he]
      exact ⟨v, Extends.refl ho, he⟩
    · have hg := ho.grow_entry hm ha hok hb0 hcreate.1
      simp only [ensureEntry, hget, if_pos hcreate, he]
      refine ⟨_, Extends.of_allocated ha (allocDataBlock_int hm he) hg (ha.ne_zero hm) hok hp
        ?_ ?_ ?_ ?_, rfl⟩
      · rw [blockAt_snoc, if_neg hb0, hcreate.1]
      · rw [blockAt_snoc, hg.keep hp0 hb0, if_neg hb0, Volume.store_same,
          indexEntry_set _ _ _ (ha.lt_word hm), if_pos rfl]
      · intro x hx
        have hmw : Mounted w.sb := by
          rw [ha.frame.sb]
          exact hm
        refine bmapBit_frame hmw (Frame.store w _ rfl : Frame (· = blockAt v tab r p) _ _) ?_
          (by rwa [ha.frame.sb])
        intro b hreg heq
        rw [ha.frame.sb] at hreg
        exact (bmapRegion_disjoint hm hreg).2.2 (heq ▸ ho.lo hp0 hb0)
      · intro b hindex
        exact w.store_of_ne _ (Ne.symm (hindex p hpre hshort))
  · simp only [ensureEntry, hget, if_neg hcreate]
    exact ⟨v, Extends.refl ho, rfl⟩

theorem walkIndex_extends (create : Bool) (rest : List Nat) (hm : Mounted v.sb)
    (ho : Owned v tab) (hb : blockAt v tab r p = b)
    (hb0 : create = true → b ≠ 0) (hpath : indexShape.ok r (p ++ rest)) :
    ∃ u, Extends r (p ++ rest) v tab u tab ∧
      EndsIn (walkIndex create v b rest).1 u (walkIndex create v b rest).2 := by
  induction rest generalizing v p b with
  | nil => exact ⟨v, Extends.refl ho, rfl⟩
  | cons k rest ih =>
    by_cases hnull : b = 0
    · simp only [walkIndex, if_pos hnull]
      exact ⟨v, Extends.refl ho, rfl⟩
    · have hsplit : p ++ k :: rest = (p ++ [k]) ++ rest := by simp
      have hpre : p ++ [k] <+: p ++ k :: rest := hsplit ▸ List.prefix_append _ _
      obtain ⟨y, hext, hend⟩ := ensureEntry_extends (k := k) create hm ho hb hnull hpath hpre
      obtain ⟨child, u, he, hr⟩ := ensureEntry_spec create hm ho hb hnull
        (indexShape_ok_initial hpath hpre)
      rw [he] at hend
      simp only [walkIndex, if_neg hnull, he]
      cases child with
      | none => exact ⟨y, hext, hend⟩
      | some c =>
        obtain rfl : u = y := hend
        have hc0 : create = true → c ≠ 0 := fun hc h0 => hr.made hc (by rw [h0])
        obtain ⟨z, hrest, hlast⟩ := ih (hr.grow.frame.sb ▸ hm) hr.grow.owned (hr.found c rfl).symm
          hc0 (hsplit ▸ hpath)
        rw [← hsplit] at hrest
        exact ⟨z, hext.trans hpath hrest, hlast⟩

end Lookup

section Blocks

variable {i index : Nat} {ino ino' : Inode} {out : Option Nat} (hm : Mounted v.sb)
  (ho : Owned v tab) (hi : tab i = some ino) (hindex : index < fsMaxFileBlocks)
include hm ho hi hindex

theorem inodeDataBlock_extends (create : Bool)
    (h : inodeDataBlock v ino index create = (out, ino', w)) :
    ∃ u, Extends (i, (locate index).1) (locate index).2 v tab u (update tab i (some ino')) ∧
      EndsIn out u w := by
  rw [inodeDataBlock_of_lt v ino create hindex] at h
  have hpath := (locate_isLeaf hindex i).1
  generalize (locate index).1 = j at h hpath ⊢
  generalize (locate index).2 = path at h hpath ⊢
  have hsame : update tab i (some ino) = tab := by
    rw [← hi, update_eq_self]
  unfold lookupSlot at h
  split at h
  next hcreate =>
    rcases allocDataBlock_spec hm with ⟨y, he, -⟩ | ⟨n, u, he, ha⟩
    · rw [he] at h
      cases h
      rw [hsame]
      exact ⟨v, Extends.refl ho, he⟩
    · have hg := ho.grow_root hm ha hi hpath.1 hcreate.1
      have hhere : blockAt u (update tab i (some (ino.setRoot j n))) (i, j) [] = n := by
        simp [pointers, Inode.root_setRoot (ha.lt_word hm) ino hpath.1]
      have hroot : Extends (i, j) path v tab u
          (update tab i (some (ino.setRoot j n))) := by
        refine Extends.of_allocated ha (allocDataBlock_int hm he) hg (ha.ne_zero hm)
          (indexShape_ok_initial hpath List.nil_prefix) List.nil_prefix ?_ hhere (fun _ _ => rfl)
          fun _ _ => rfl
        simp [pointers, hi, hcreate.1]
      obtain ⟨z, hrest, hend⟩ := walkIndex_extends (p := []) create path (hg.frame.sb ▸ hm) hg.owned
        hhere (fun _ => ha.ne_zero hm) hpath
      rw [he] at h
      cases h
      exact ⟨z, hroot.trans hpath hrest, hend⟩
  next hcreate =>
    cases h
    rw [hsame]
    exact walkIndex_extends (p := []) create path hm ho (by simp [pointers, hi])
      (fun hc h0 => hcreate ⟨h0, hc⟩) hpath

theorem inodeDataBlock_takes (hfree : freeBlocks v ≠ 0)
    (h : inodeDataBlock v ino index true = (none, ino', w)) :
    w.sb = v.sb ∧ ∃ x ∈ freeSet v, bmapBit w x = true := by
  obtain ⟨u, hext, hend⟩ := inodeDataBlock_extends hm ho hi hindex true h
  have hmu : Mounted u.sb := hext.grow.frame.sb ▸ hm
  obtain ⟨y, hy⟩ := Finset.card_ne_zero.mp hfree
  have hsub := freeSet_anti hext.grow.frame.sb hext.grow.bits
  obtain ⟨hsb, hcases⟩ := allocDataBlock_none hmu hend
  refine ⟨hsb.trans hext.grow.frame.sb, ?_⟩
  rcases hcases with ⟨rfl, hempty⟩ | ⟨⟨x, hx, hset⟩, -⟩
  · refine ⟨y, hy, ?_⟩
    by_contra hclear
    obtain ⟨hhi, hlo, -⟩ := mem_freeSet.mp hy
    have hmem : y ∈ freeSet w := mem_freeSet.mpr ⟨hext.grow.frame.sb ▸ hhi,
      hext.grow.frame.sb ▸ hlo, Bool.eq_false_iff.mpr hclear⟩
    rw [hempty] at hmem
    cases hmem
  · exact ⟨x, hsub hx, hset⟩

end Blocks

section Full

variable (hfull : allocDataBlock v = (none, v))
include hfull

theorem walkIndex_full (b : Nat) (path : List Nat) : (walkIndex true v b path).2 = v := by
  induction path generalizing b with
  | nil => rfl
  | cons k path ih =>
    have he : (ensureEntry v b k true).2 = v := by
      unfold ensureEntry
      split
      · rfl
      · split
        · rw [hfull]
        · rfl
    rw [walkIndex]
    rcases hentry : ensureEntry v b k true with ⟨_ | c, u⟩
    · split
      · rfl
      · rw [hentry] at he
        exact he
    · rw [hentry] at he
      obtain rfl : u = v := he
      split
      · rfl
      · exact ih c

theorem inodeDataBlock_full (ino : Inode) (index : Nat) :
    (inodeDataBlock v ino index true).2 = (ino, v) := by
  by_cases hindex : index < fsMaxFileBlocks
  · rw [inodeDataBlock_of_lt v ino true hindex, lookupSlot]
    split
    · rw [hfull]
    · exact Prod.ext rfl (walkIndex_full hfull _ _)
  · rw [inodeDataBlock, if_pos (Nat.le_of_not_lt hindex)]

end Full

end OrangeOs.Fs
