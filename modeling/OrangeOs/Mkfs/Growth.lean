import OrangeOs.Mkfs.Build
import OrangeOs.Fs.View

/-! # Building the image block by block

An image under construction, with the block bitmap still in memory, is a volume.
On that volume the builder's allocator meets the specification of the kernel's,
so its index lookups grow the volume in the kernel's sense. Since the builder
gives up at the first failure it also keeps what the kernel does not: every
block it ever marked is in use.
-/

namespace OrangeOs.Mkfs

open Bytes Fs Function

/-- The image as a volume, the bitmap in memory in place of the one on disk. -/
def Image.volume (sb : SuperBlock) (img : Image) : Volume where
  sb := sb
  disk b :=
    if bmapRegion sb b then fun k => img.bmap ((b - sb.bmapStart) * 4096 + k) else img.disk b
  openRefs _ := 0

variable {i b n : Nat} {img img' : Image}

section Volume

variable {sb : SuperBlock} (hm : Mounted sb)
include hm

theorem Image.bmapBit_volume {x : Nat} (hx : x < sb.totalBlocks) :
    bmapBit (img.volume sb) x = bit img.bmap x := by
  obtain ⟨hblock, hregion⟩ := bitmapBlock_bmap hm hx
  have hsize : sb.blockSize * 8 = 32768 := by rw [hm.blockSize]
  have hdisk : (img.volume sb).disk (bitmapBlock sb sb.bmapStart x) =
      fun k => img.bmap ((bitmapBlock sb sb.bmapStart x - sb.bmapStart) * 4096 + k) := if_pos hregion
  change bit ((img.volume sb).disk (bitmapBlock sb sb.bmapStart x)) (x % (sb.blockSize * 8)) = _
  rw [hdisk, hblock, hsize]
  have hbyte : (sb.bmapStart + x / 32768 - sb.bmapStart) * 4096 + x % 32768 / 8 = x / 8 := by omega
  have hbit : x % 32768 % 8 = x % 8 := by omega
  simp only [bit, hbyte, hbit]

theorem Image.volume_disk (hb : sb.firstDataBlock ≤ b) : (img.volume sb).disk b = img.disk b :=
  if_neg fun h => (bmapRegion_disjoint hm h).2.2 hb

theorem volume_writeBlock (hb : sb.firstDataBlock ≤ b) (d : Block) :
    (writeBlock img b d).volume sb = (img.volume sb).store b d := by
  unfold Image.volume writeBlock Volume.store
  congr 1
  funext x
  by_cases hx : x = b
  · subst hx
    rw [update_self, if_neg fun h => (bmapRegion_disjoint hm h).2.2 hb]
    exact update_self x d img.disk
  · dsimp only
    rw [update_of_ne hx, update_of_ne hx]

end Volume

/-! ## The invariant -/

/-- Blocks below `next` and no others are marked, every one of them from the data
area on is at a position of a current inode, and nothing has been written below
the data area. -/
structure Built (sb : SuperBlock) (img : Image) (tab : Table) : Prop where
  next_lo : sb.firstDataBlock ≤ img.next
  next_hi : img.next ≤ sb.totalBlocks
  bits : ∀ x, x < sb.totalBlocks → bit img.bmap x = decide (x < img.next)
  low : ∀ b, b < sb.firstDataBlock → img.disk b = zero
  owned : Owned (img.volume sb) tab
  held : ∀ x, sb.firstDataBlock ≤ x → x < img.next → (pointers (img.volume sb) tab).Holds indexShape x

theorem Built.step {sb : SuperBlock} {tab tab' : Table} (hm : Mounted sb) (hb : Built sb img tab)
    (hlt : img.next < sb.totalBlocks) (hnext : img'.next = img.next + 1)
    (hbmap : img'.bmap = setBit img.bmap img.next)
    (hlow : ∀ b, b < sb.firstDataBlock → img'.disk b = img.disk b)
    (hgrow : Grow (img.volume sb) tab (img'.volume sb) tab')
    (hnew : (pointers (img'.volume sb) tab').Holds indexShape img.next) : Built sb img' tab' where
  next_lo := by
    have := hb.next_lo
    omega
  next_hi := by omega
  bits x hx := by
    rw [hbmap, bit_setBit, hb.bits x hx, hnext, ← Bool.decide_or]
    exact decide_eq_decide.mpr (by omega)
  low b hlt' := (hlow b hlt').trans (hb.low b hlt')
  owned := hgrow.owned
  held x h1 h2 := by
    by_cases hx : x = img.next
    · exact hx ▸ hnew
    · obtain ⟨r, p, hp, heq⟩ := hb.held x h1 (by omega)
      have hpos := hm.data_pos
      have hne : blockAt (img.volume sb) tab r p ≠ 0 := by
        rw [blockAt, heq]
        omega
      exact ⟨r, p, hp, (hgrow.keep hp hne).trans heq⟩

/-! ## Lookup with allocation -/

/-- The image right after `alloc_image_block`. -/
def Image.allocated (img : Image) : Image :=
  writeBlock { img with next := img.next + 1, bmap := setBit img.bmap img.next } img.next zero

theorem allocImageBlock_some {total : Nat} (h : allocImageBlock total img = some (n, img')) :
    n = img.next ∧ img.next < total ∧ img' = img.allocated := by
  unfold allocImageBlock at h
  split at h
  · cases h
  · obtain ⟨rfl, rfl⟩ := Prod.mk.inj (Option.some.inj h)
    exact ⟨rfl, by omega, rfl⟩

/-- The lookup of a position: the image has grown to one in which block `n` is
there. -/
structure Extended (sb : SuperBlock) (img : Image) (tab : Table) (img' : Image) (tab' : Table)
    (r : Nat × Nat) (p : List Nat) (n : Nat) : Prop where
  built : Built sb img' tab'
  grow : Grow (img.volume sb) tab (img'.volume sb) tab'
  here : blockAt (img'.volume sb) tab' r p = n
  ne_zero : n ≠ 0

section Lookup

variable {sb : SuperBlock} {tab : Table} (hm : Mounted sb)
include hm

theorem Built.allocated (hb : Built sb img tab) (hlt : img.next < sb.totalBlocks) :
    Allocated (img.volume sb) (img.allocated.volume sb) img.next where
  lo := hb.next_lo
  hi := hlt
  free := by
    rw [Image.bmapBit_volume hm hlt, hb.bits _ hlt]
    simp
  frame := by
    refine ⟨rfl, rfl, fun b hnot => ?_⟩
    obtain ⟨h1, h2⟩ : ¬bmapRegion sb b ∧ b ≠ img.next := not_or.mp hnot
    change (if bmapRegion sb b then _ else update img.disk img.next zero b) = _
    rw [if_neg h1, update_of_ne h2]
    exact (if_neg h1).symm
  bits x hx := by
    rw [Image.bmapBit_volume hm hx, Image.bmapBit_volume hm hx]
    exact bit_setBit img.bmap img.next x
  blank := by
    rw [Image.volume_disk hm hb.next_lo]
    exact update_self _ _ _

omit hm in
theorem Built.low_allocated (hb : Built sb img tab) (hlt : b < sb.firstDataBlock) :
    img.allocated.disk b = img.disk b := by
  have := hb.next_lo
  exact update_of_ne (by omega) _ _

theorem ensureSlot_spec {j : Nat} {ino ino' : Inode} (hb : Built sb img tab) (hi : tab i = some ino)
    (hj : j < 14) (h : ensureSlot sb.totalBlocks img ino j = some (n, ino', img')) :
    Extended sb img tab img' (update tab i (some ino')) (i, j) [] n ∧
      ino'.info = ino.info := by
  unfold ensureSlot at h
  by_cases h0 : ino.root j = 0
  · rw [if_pos h0, Option.map_eq_some_iff] at h
    obtain ⟨⟨m, img1⟩, halloc, heq⟩ := h
    obtain ⟨rfl, hlt, rfl⟩ := allocImageBlock_some halloc
    obtain ⟨rfl, rfl, rfl⟩ : img.next = n ∧ ino.setRoot j img.next = ino' ∧ img.allocated = img' := by
      simpa using heq
    have ha := hb.allocated hm hlt
    have hgrow := hb.owned.grow_root hm ha hi hj h0
    have hhere : blockAt (img.allocated.volume sb)
        (update tab i (some (ino.setRoot j img.next))) (i, j) [] = img.next := by
      simp [pointers, Inode.root_setRoot (ha.lt_word hm) ino hj]
    refine ⟨⟨hb.step hm hlt rfl rfl (fun b hb' => hb.low_allocated hb') hgrow
      ⟨(i, j), [], ⟨hj, by simp, by simp⟩, hhere⟩, hgrow, hhere, ha.ne_zero hm⟩, ?_⟩
    simp [Inode.info]
  · rw [if_neg h0] at h
    obtain ⟨rfl, rfl, rfl⟩ : ino.root j = n ∧ ino = ino' ∧ img = img' := by simpa using h
    have hsame : update tab i (some ino) = tab := by
      rw [← hi, update_eq_self]
    rw [hsame]
    exact ⟨⟨hb, Grow.refl hb.owned, by simp [pointers, hi], h0⟩, rfl⟩

theorem Extended.entry {img0 img1 : Image} {tab0 : Table} {r : Nat × Nat} {p : List Nat} {k : Nat}
    (he : Extended sb img0 tab0 img tab r p b) (hp : indexShape.ok r (p ++ [k]))
    (h : ensureIndexEntry sb.totalBlocks img b k = some (n, img1)) :
    Extended sb img0 tab0 img1 tab r (p ++ [k]) n := by
  obtain ⟨hb, hgrow, rfl, hne⟩ := he
  have hp0 := indexShape.ok_of_snoc hp
  have hlo : sb.firstDataBlock ≤ _ := hb.owned.lo hp0 hne
  have hhi : _ < sb.totalBlocks := hb.owned.hi hp0 hne
  have hk : ¬1024 ≤ k := by
    have := hp.2.2 k (by simp)
    omega
  have hentry := blockAt_snoc (img.volume sb) tab r p k
  rw [if_neg hne] at hentry
  generalize hblock : blockAt (img.volume sb) tab r p = b at *
  have hread : ∀ img : Image, readBlock sb.totalBlocks img b = some (img.disk b) := fun img =>
    if_pos hhi
  simp only [ensureIndexEntry, getIndex, setIndex, if_neg hk, hread, Option.map_some,
    Option.bind_eq_bind, Option.bind_some] at h
  rw [Image.volume_disk hm hlo] at hentry
  split at h
  next h0 =>
    obtain ⟨⟨m, img2⟩, halloc, heq⟩ := Option.bind_eq_some_iff.mp h
    obtain ⟨rfl, hlt, rfl⟩ := allocImageBlock_some halloc
    obtain ⟨rfl, rfl⟩ : img.next = n ∧ writeBlock img.allocated b
        (setIndexEntry (img.allocated.disk b) k img.next) = img1 := by
      simpa using heq
    have ha := hb.allocated hm hlt
    have hgrow' := hb.owned.grow_entry hm ha hp (by rwa [hblock])
      (by rw [hblock, Image.volume_disk hm hlo, h0])
    rw [hblock, Image.volume_disk hm hlo, ← volume_writeBlock hm hlo] at hgrow'
    have hhere : blockAt ((writeBlock img.allocated b
        (setIndexEntry (img.allocated.disk b) k img.next)).volume sb) tab r (p ++ [k]) =
          img.next := by
      rw [blockAt_snoc, hgrow'.keep hp0 (by rwa [hblock]), hblock, if_neg hne,
        volume_writeBlock hm hlo, Volume.store_same, indexEntry_set _ _ _ (ha.lt_word hm),
        if_pos rfl]
    refine ⟨hb.step hm hlt rfl rfl (fun x hx => ?_) hgrow' ⟨r, p ++ [k], hp, hhere⟩,
      hgrow.trans hgrow', hhere, ha.ne_zero hm⟩
    rw [← hb.low_allocated hx]
    exact update_of_ne (by omega) _ _
  next h0 =>
    obtain ⟨rfl, rfl⟩ : indexEntry (img.disk b) k = n ∧ img = img1 := by simpa using h
    exact ⟨hb, hgrow, hentry, h0⟩

/-- The builder's four ranges are the kernel's: file block `index` is at the
position where the kernel looks for it. -/
theorem inodeDataBlock_spec {index : Nat} {ino ino' : Inode} (hb : Built sb img tab)
    (hi : tab i = some ino)
    (h : inodeDataBlock sb.totalBlocks img ino index = some (n, ino', img')) :
    Extended sb img tab img' (update tab i (some ino')) (i, (locate index).1)
      (locate index).2 n ∧ ino'.info = ino.info := by
  have hleaf := (locate_isLeaf (inodeDataBlock_lt h) i).1
  have hlt := inodeDataBlock_lt h
  unfold fsMaxFileBlocks at hlt
  unfold inodeDataBlock at h
  rw [if_neg (by unfold fsMaxFileBlocks; omega)] at h
  unfold locate at hleaf ⊢
  by_cases h1 : index < 11
  · rw [if_pos h1] at h hleaf ⊢
    exact ensureSlot_spec hm hb hi hleaf.1 h
  rw [if_neg h1] at h hleaf ⊢
  by_cases h2 : index - 11 < 1024
  · rw [if_pos h2] at h hleaf ⊢
    obtain ⟨⟨root, ino1, img1⟩, hslot, h⟩ := Option.bind_eq_some_iff.mp h
    obtain ⟨⟨child, img2⟩, hentry, h⟩ := Option.bind_eq_some_iff.mp h
    obtain ⟨rfl, rfl, rfl⟩ : child = n ∧ ino1 = ino' ∧ img2 = img' := by simpa using h
    obtain ⟨he, hinfo⟩ := ensureSlot_spec hm hb hi (by decide) hslot
    exact ⟨he.entry hm hleaf hentry, hinfo⟩
  rw [if_neg h2] at h hleaf ⊢
  by_cases h3 : index - 11 - 1024 < 1024 * 1024
  · rw [if_pos h3] at h hleaf ⊢
    obtain ⟨⟨root, ino1, img1⟩, hslot, h⟩ := Option.bind_eq_some_iff.mp h
    obtain ⟨⟨child, img2⟩, hentry, h⟩ := Option.bind_eq_some_iff.mp h
    obtain ⟨⟨child', img3⟩, hentry', h⟩ := Option.bind_eq_some_iff.mp h
    obtain ⟨rfl, rfl, rfl⟩ : child' = n ∧ ino1 = ino' ∧ img3 = img' := by simpa using h
    obtain ⟨he, hinfo⟩ := ensureSlot_spec hm hb hi (by decide) hslot
    have he1 := he.entry hm (indexShape.ok_of_append [_] hleaf) hentry
    exact ⟨he1.entry hm hleaf hentry', hinfo⟩
  rw [if_neg h3, if_neg (by omega)] at h
  rw [if_neg h3] at hleaf ⊢
  obtain ⟨⟨root, ino1, img1⟩, hslot, h⟩ := Option.bind_eq_some_iff.mp h
  obtain ⟨⟨child, img2⟩, hentry, h⟩ := Option.bind_eq_some_iff.mp h
  obtain ⟨⟨child', img3⟩, hentry', h⟩ := Option.bind_eq_some_iff.mp h
  obtain ⟨⟨child'', img4⟩, hentry'', h⟩ := Option.bind_eq_some_iff.mp h
  obtain ⟨rfl, rfl, rfl⟩ : child'' = n ∧ ino1 = ino' ∧ img4 = img' := by simpa using h
  obtain ⟨he, hinfo⟩ := ensureSlot_spec hm hb hi (by decide) hslot
  have he1 := he.entry hm (indexShape.ok_of_append [_, _] hleaf) hentry
  have he2 := he1.entry hm (indexShape.ok_of_append [_] hleaf) hentry'
  exact ⟨he2.entry hm hleaf hentry'', hinfo⟩

end Lookup

/-! ## Copying a file -/

theorem Built.write {sb : SuperBlock} {tab : Table} {k : Nat} (hm : Mounted sb)
    (hb : Built sb img tab) (hk : k < fsMaxFileBlocks)
    (hat : blockAt (img.volume sb) tab (i, (locate k).1) (locate k).2 = b) (hne : b ≠ 0)
    (d : Block) :
    Built sb (writeBlock img b d) tab ∧ ∀ j l, l < fsMaxFileBlocks →
      leaf ((writeBlock img b d).volume sb) tab j l =
        if j = i ∧ l = k then d else leaf (img.volume sb) tab j l := by
  have hlo : sb.firstDataBlock ≤ b := hat ▸ hb.owned.lo (locate_isLeaf hk i).1 (hat ▸ hne)
  obtain ⟨hframe, howned, hleaf⟩ := hb.owned.store_leaf hm hk hat hne d
  have hval := hb.owned.store_leaf_at hk hat d
  rw [← volume_writeBlock hm hlo] at howned hleaf hval
  refine ⟨⟨hb.next_lo, hb.next_hi, hb.bits, fun x hx => ?_, howned, fun x h1 h2 => ?_⟩, hleaf⟩
  · rw [← hb.low x hx]
    exact update_of_ne (by omega) _ _
  · obtain ⟨r, p, hp, heq⟩ := hb.held x h1 h2
    exact ⟨r, p, hp, (hval r p hp).trans heq⟩

end OrangeOs.Mkfs
