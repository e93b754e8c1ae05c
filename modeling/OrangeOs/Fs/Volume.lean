import OrangeOs.Fs.Layout

/-! # The mounted volume as a plain block map

The state of `kernel/fs.c` once the superblock has been read: the superblock,
the contents of every block and the open-reference table. `cacheGet` is the
block lookup without the cache in front of it: it refuses a block number beyond
the volume and otherwise yields the block. Bitmap and inode-table access follow
the source, `uint32_t` wrap-around included.
-/

namespace OrangeOs.Fs

open Bytes

structure Volume where
  sb : SuperBlock
  disk : Nat → Block
  openRefs : Nat → UInt32

/-- The layout `fs_init` accepts, as the arithmetic facts the rest relies on. -/
structure Mounted (sb : SuperBlock) : Prop where
  blockSize : sb.blockSize = 4096
  root_lt : fsRootInode < sb.totalInodes
  imap_lo : 2 ≤ sb.imapStart
  imap_end : sb.imapStart + sb.imapBlocks ≤ sb.bmapStart
  bmap_end : sb.bmapStart + sb.bmapBlocks ≤ sb.inodeStart
  inode_end : sb.inodeStart + sb.inodeBlocks ≤ sb.firstDataBlock
  data_lt : sb.firstDataBlock < sb.totalBlocks
  imap_room : sb.totalInodes ≤ sb.imapBlocks * 32768
  bmap_room : sb.totalBlocks ≤ sb.bmapBlocks * 32768
  inode_room : sb.totalInodes ≤ sb.inodeBlocks * 56
  total_lt : sb.totalBlocks < 2 ^ 32

/-! ## Mounting -/

def fsAtaLba48Max : Nat := 0x0000FFFFFFFFFFFF

/-- `FS_MAX_BLOCKS_LBA48`, for an `FS_START_LBA` that LBA48 can address. -/
def fsMaxBlocksLba48 (startLba : Nat) : Nat := (fsAtaLba48Max - startLba + 1) / 8

/-- The test of `fs_init`. -/
def accepted (startLba : Nat) (sb : SuperBlock) : Prop :=
  sb.magic = fsMagic ∧ sb.version = fsFormatVersion ∧ sb.blockSize = 4096 ∧
  fsRootInode < sb.totalInodes ∧ sb.firstDataBlock < sb.totalBlocks ∧
  sb.totalBlocks ≤ fsMaxBlocksLba48 startLba ∧ 2 ≤ sb.imapStart ∧
  sb.imapStart + sb.imapBlocks ≤ sb.bmapStart ∧ sb.bmapStart + sb.bmapBlocks ≤ sb.inodeStart ∧
  sb.inodeStart + sb.inodeBlocks ≤ sb.firstDataBlock ∧ sb.firstDataBlock < sb.totalBlocks ∧
  (sb.totalInodes + 32768 - 1) / 32768 ≤ sb.imapBlocks ∧
  (sb.totalBlocks + 32768 - 1) / 32768 ≤ sb.bmapBlocks ∧
  (sb.totalInodes + 56 - 1) / 56 ≤ sb.inodeBlocks

instance (startLba : Nat) (sb : SuperBlock) : Decidable (accepted startLba sb) :=
  inferInstanceAs (Decidable (_ ∧ _))

/-- `fs_init` on an empty cache. `SIZE_MAX` exceeds any table of open references
and the table's `kmalloc` is taken to succeed. -/
def fsInit (startLba : Nat) (disk : Nat → Block) : Option Volume :=
  let sb := SuperBlock.read (disk 1)
  if accepted startLba sb then some { sb := sb, disk := disk, openRefs := fun _ => 0 } else none

theorem Mounted.of_accepted {startLba : Nat} {sb : SuperBlock} (h : accepted startLba sb)
    (htotal : sb.totalBlocks < 2 ^ 32) : Mounted sb := by
  obtain ⟨-, -, h3, h4, h5, -, h7, h8, h9, h10, -, h12, h13, h14⟩ := h
  exact ⟨h3, h4, h7, h8, h9, h10, h5, by omega, by omega, by omega, htotal⟩

theorem fsInit_some {startLba : Nat} {disk : Nat → Block} {v : Volume}
    (h : fsInit startLba disk = some v) : accepted startLba v.sb ∧ Mounted v.sb := by
  unfold fsInit at h
  dsimp only at h
  split at h
  · next hacc =>
    obtain rfl := Option.some.inj h
    exact ⟨hacc, .of_accepted hacc (readLE_lt ..)⟩
  · cases h

theorem Mounted.data_pos {sb : SuperBlock} (hm : Mounted sb) : 2 ≤ sb.firstDataBlock := by
  have h1 := hm.imap_lo
  have h2 := hm.imap_end
  have h3 := hm.bmap_end
  have h4 := hm.inode_end
  omega

/-! ## Blocks -/

def cacheGet (v : Volume) (block : Nat) : Option Block :=
  if v.sb.totalBlocks ≤ block then none else some (v.disk block)

/-- The block contents after a write through the pointer `cache_get` returned. -/
def Volume.store (v : Volume) (block : Nat) (data : Block) : Volume :=
  { v with disk := Function.update v.disk block data }

@[simp] theorem Volume.store_sb (v : Volume) (b : Nat) (d : Block) : (v.store b d).sb = v.sb := rfl

@[simp] theorem Volume.store_same (v : Volume) (b : Nat) (d : Block) : (v.store b d).disk b = d := by
  simp [Volume.store]

variable {b nr : Nat} {v w : Volume} {P : Nat → Prop}

theorem Volume.store_of_ne (v : Volume) {x : Nat} (d : Block) (h : x ≠ b) :
    (v.store b d).disk x = v.disk x := by
  simp [Volume.store, h]

theorem cacheGet_of_lt (h : b < v.sb.totalBlocks) :
    cacheGet v b = some (v.disk b) := if_neg (by omega)

/-- `block_lba`. -/
def blockLba (startLba block : Nat) : Nat := (startLba + block * 8) % 2 ^ 64

/-! ## Bitmaps -/

/-- The block that holds a bit of the bitmap starting at `base`. -/
def bitmapBlock (sb : SuperBlock) (base i : Nat) : Nat := u32 (base + i / (sb.blockSize * 8))

/-- One bit of the bitmap starting at block `base`. -/
def bitmapBit (v : Volume) (base i : Nat) : Bool :=
  bit (v.disk (bitmapBlock v.sb base i)) (i % (v.sb.blockSize * 8))

/-- `(int)bit`. -/
def i32 (x : Nat) : Int := Int.bmod x (2 ^ 32)

/-- The scan of `bitmap_allocate` over the `n` bits from `i` on. -/
def bitmapScan (v : Volume) (base : Nat) : Nat → Nat → Int × Volume
  | _, 0 => (-1, v)
  | i, n + 1 =>
    match cacheGet v (bitmapBlock v.sb base i) with
    | none => (-1, v)
    | some block =>
      if bit block (i % (v.sb.blockSize * 8)) then bitmapScan v base (i + 1) n
      else (i32 i, v.store (bitmapBlock v.sb base i) (setBit block (i % (v.sb.blockSize * 8))))

def bitmapAllocate (v : Volume) (base first limit : Nat) : Int × Volume :=
  bitmapScan v base first (limit - first)

def bitmapFree (v : Volume) (base i : Nat) : Volume :=
  match cacheGet v (bitmapBlock v.sb base i) with
  | none => v
  | some block => v.store (bitmapBlock v.sb base i) (clearBit block (i % (v.sb.blockSize * 8)))

/-- `alloc_data_block`; `none` stands for its `-1`. The bit stays set when the
`int` result of `bitmap_allocate` came out negative. -/
def allocDataBlock (v : Volume) : Option Nat × Volume :=
  let (block, v) := bitmapAllocate v v.sb.bmapStart v.sb.firstDataBlock v.sb.totalBlocks
  if block < 0 then (none, v)
  else
    match cacheGet v block.toNat with
    | none => (none, bitmapFree v v.sb.bmapStart block.toNat)
    | some _ => (some block.toNat, v.store block.toNat zero)

def imapBit (v : Volume) (i : Nat) : Bool := bitmapBit v v.sb.imapStart i

def bmapBit (v : Volume) (b : Nat) : Bool := bitmapBit v v.sb.bmapStart b

/-! ## The inode table -/

def inodeBlock (v : Volume) (nr : Nat) : Nat := u32 (v.sb.inodeStart + nr / 56)

def validInode (v : Volume) (nr : Nat) : Prop := 0 < nr ∧ nr < v.sb.totalInodes

instance (v : Volume) (nr : Nat) : Decidable (validInode v nr) :=
  inferInstanceAs (Decidable (_ ∧ _))

/-- The inode stored in slot `nr` of the table. -/
def inodeAt (v : Volume) (nr : Nat) : Inode := Inode.read (v.disk (inodeBlock v nr)) (nr % 56)

def fsGetInode (v : Volume) (nr : Nat) : Option Inode :=
  if validInode v nr then (cacheGet v (inodeBlock v nr)).map fun block => Inode.read block (nr % 56)
  else none

def fsPutInode (v : Volume) (nr : Nat) (ino : Inode) : Option Volume :=
  if validInode v nr then
    (cacheGet v (inodeBlock v nr)).map fun block =>
      v.store (inodeBlock v nr) (Inode.write block (nr % 56) ino)
  else none

/-! ## Regions and frames -/

def imapRegion (sb : SuperBlock) (b : Nat) : Prop :=
  sb.imapStart ≤ b ∧ b < sb.imapStart + sb.imapBlocks

def bmapRegion (sb : SuperBlock) (b : Nat) : Prop :=
  sb.bmapStart ≤ b ∧ b < sb.bmapStart + sb.bmapBlocks

def inodeRegion (sb : SuperBlock) (b : Nat) : Prop :=
  sb.inodeStart ≤ b ∧ b < sb.inodeStart + sb.inodeBlocks

instance (sb : SuperBlock) (b : Nat) : Decidable (bmapRegion sb b) :=
  inferInstanceAs (Decidable (_ ∧ _))

instance (sb : SuperBlock) (b : Nat) : Decidable (inodeRegion sb b) :=
  inferInstanceAs (Decidable (_ ∧ _))

def dataRegion (sb : SuperBlock) (b : Nat) : Prop := sb.firstDataBlock ≤ b

/-- `w` is `v` with at most the blocks in `P` changed. -/
structure Frame (P : Nat → Prop) (v w : Volume) : Prop where
  sb : w.sb = v.sb
  openRefs : w.openRefs = v.openRefs
  disk : ∀ b, ¬P b → w.disk b = v.disk b

theorem Frame.refl (P : Nat → Prop) (v : Volume) : Frame P v v := ⟨rfl, rfl, fun _ _ => rfl⟩

theorem Frame.trans {u : Volume} (h1 : Frame P u v) (h2 : Frame P v w) : Frame P u w :=
  ⟨h2.sb.trans h1.sb, h2.openRefs.trans h1.openRefs,
    fun b hb => (h2.disk b hb).trans (h1.disk b hb)⟩

theorem Frame.mono {Q : Nat → Prop} (h : Frame P v w) (hPQ : ∀ b, P b → Q b) :
    Frame Q v w := ⟨h.sb, h.openRefs, fun b hb => h.disk b fun hP => hb (hPQ b hP)⟩

theorem Frame.store (v : Volume) (d : Block) (hb : P b) : Frame P v (v.store b d) :=
  ⟨rfl, rfl, fun _ hx => v.store_of_ne d fun h => hx (h ▸ hb)⟩

section Regions

variable {sb : SuperBlock} (hm : Mounted sb)
include hm

theorem bitmapBlock_imap {i : Nat} (hi : i < sb.totalInodes) :
    bitmapBlock sb sb.imapStart i = sb.imapStart + i / 32768 ∧
      imapRegion sb (bitmapBlock sb sb.imapStart i) := by
  have h1 := hm.imap_end
  have h2 := hm.bmap_end
  have h3 := hm.inode_end
  have h4 := hm.data_lt
  have h5 := hm.total_lt
  have h6 := hm.imap_room
  have hval : bitmapBlock sb sb.imapStart i = sb.imapStart + i / 32768 := by
    rw [bitmapBlock, hm.blockSize]
    exact u32_of_lt (by omega)
  rw [hval]
  exact ⟨rfl, by omega, by omega⟩

theorem bitmapBlock_bmap (hb : b < sb.totalBlocks) :
    bitmapBlock sb sb.bmapStart b = sb.bmapStart + b / 32768 ∧
      bmapRegion sb (bitmapBlock sb sb.bmapStart b) := by
  have h2 := hm.bmap_end
  have h3 := hm.inode_end
  have h4 := hm.data_lt
  have h5 := hm.total_lt
  have h6 := hm.bmap_room
  have hval : bitmapBlock sb sb.bmapStart b = sb.bmapStart + b / 32768 := by
    rw [bitmapBlock, hm.blockSize]
    exact u32_of_lt (by omega)
  rw [hval]
  exact ⟨rfl, by omega, by omega⟩

theorem region_lt (h : imapRegion sb b ∨ bmapRegion sb b ∨ inodeRegion sb b) :
    b < sb.firstDataBlock := by
  have h1 := hm.imap_end
  have h2 := hm.bmap_end
  have h3 := hm.inode_end
  unfold imapRegion bmapRegion inodeRegion at h
  omega

theorem imapRegion_disjoint (h : imapRegion sb b) :
    ¬bmapRegion sb b ∧ ¬inodeRegion sb b ∧ ¬dataRegion sb b := by
  have h1 := hm.imap_end
  have h2 := hm.bmap_end
  have h3 := hm.inode_end
  unfold imapRegion at h
  unfold bmapRegion inodeRegion dataRegion
  omega

theorem bmapRegion_disjoint (h : bmapRegion sb b) :
    ¬imapRegion sb b ∧ ¬inodeRegion sb b ∧ ¬dataRegion sb b := by
  have h1 := hm.imap_end
  have h2 := hm.bmap_end
  have h3 := hm.inode_end
  unfold bmapRegion at h
  unfold imapRegion inodeRegion dataRegion
  omega

theorem inodeRegion_disjoint (h : inodeRegion sb b) :
    ¬imapRegion sb b ∧ ¬bmapRegion sb b ∧ ¬dataRegion sb b := by
  have h1 := hm.imap_end
  have h2 := hm.bmap_end
  have h3 := hm.inode_end
  unfold inodeRegion at h
  unfold imapRegion bmapRegion dataRegion
  omega

end Regions

section Views

variable (hm : Mounted v.sb)
include hm

theorem inodeBlock_region (h : nr < v.sb.totalInodes) :
    inodeBlock v nr = v.sb.inodeStart + nr / 56 ∧ inodeRegion v.sb (inodeBlock v nr) := by
  have h3 := hm.inode_end
  have h4 := hm.data_lt
  have h5 := hm.total_lt
  have h6 := hm.inode_room
  have hval : inodeBlock v nr = v.sb.inodeStart + nr / 56 := u32_of_lt (by omega)
  rw [hval]
  exact ⟨rfl, by omega, by omega⟩

theorem imapBit_frame (h : Frame P v w) (hP : ∀ b, imapRegion v.sb b → ¬P b) {i : Nat}
    (hi : i < v.sb.totalInodes) : imapBit w i = imapBit v i := by
  have hb := (bitmapBlock_imap hm hi).2
  simp only [imapBit, bitmapBit, h.sb]
  rw [h.disk _ (hP _ hb)]

theorem bmapBit_frame (h : Frame P v w) (hP : ∀ b, bmapRegion v.sb b → ¬P b)
    (hb : b < v.sb.totalBlocks) : bmapBit w b = bmapBit v b := by
  have hr := (bitmapBlock_bmap hm hb).2
  simp only [bmapBit, bitmapBit, h.sb]
  rw [h.disk _ (hP _ hr)]

theorem inodeAt_frame (h : Frame P v w) (hP : ∀ b, inodeRegion v.sb b → ¬P b)
    (hn : nr < v.sb.totalInodes) : inodeAt w nr = inodeAt v nr := by
  have hr := (inodeBlock_region hm hn).2
  have hb : inodeBlock w nr = inodeBlock v nr := by simp [inodeBlock, h.sb]
  rw [inodeAt, inodeAt, hb, h.disk _ (hP _ hr)]

/-! ## Inode access -/

theorem fsGetInode_eq (h : validInode v nr) : fsGetInode v nr = some (inodeAt v nr) := by
  have hr := (inodeBlock_region hm h.2).2
  have hlt := region_lt hm (Or.inr (Or.inr hr))
  have hd := hm.data_lt
  rw [fsGetInode, if_pos h, cacheGet_of_lt (by omega)]
  rfl

theorem fsGetInode_some {ino : Inode} (h : fsGetInode v nr = some ino) :
    validInode v nr ∧ ino = inodeAt v nr := by
  by_cases hvalid : validInode v nr
  · rw [fsGetInode_eq hm hvalid] at h
    exact ⟨hvalid, (Option.some.inj h).symm⟩
  · rw [fsGetInode, if_neg hvalid] at h
    cases h

theorem fsPutInode_eq (h : validInode v nr) (ino : Inode) :
    fsPutInode v nr ino =
      some (v.store (inodeBlock v nr) (Inode.write (v.disk (inodeBlock v nr)) (nr % 56) ino)) := by
  have hr := (inodeBlock_region hm h.2).2
  have hlt := region_lt hm (Or.inr (Or.inr hr))
  have hd := hm.data_lt
  rw [fsPutInode, if_pos h, cacheGet_of_lt (by omega)]
  rfl

theorem fsPutInode_spec (h : validInode v nr) (ino : Inode) :
    ∃ w, fsPutInode v nr ino = some w ∧ Frame (inodeRegion v.sb) v w ∧
      ∀ i, i < v.sb.totalInodes → inodeAt w i = if i = nr then ino else inodeAt v i := by
  have hr := (inodeBlock_region hm h.2)
  refine ⟨_, fsPutInode_eq hm h ino, Frame.store v _ hr.2, ?_⟩
  intro i hi
  have hri := inodeBlock_region hm hi
  by_cases heq : i = nr
  · subst heq
    rw [if_pos rfl, inodeAt]
    change Inode.read ((v.store _ _).disk (inodeBlock v i)) (i % 56) = ino
    rw [Volume.store_same, Inode.read_write]
  · rw [if_neg heq, inodeAt, inodeAt]
    change Inode.read ((v.store _ _).disk (inodeBlock v i)) (i % 56) = _
    by_cases hblk : inodeBlock v i = inodeBlock v nr
    · have hdiv : i / 56 = nr / 56 := by omega
      have hslot : i % 56 ≠ nr % 56 := by omega
      rw [hblk, Volume.store_same, Inode.read_write_of_ne _ _ hslot]
    · rw [Volume.store_of_ne _ _ hblk]

theorem fsPutInode_frame {ino : Inode} (h : validInode v nr) (hput : fsPutInode v nr ino = some w) :
    Frame (inodeRegion v.sb) v w := by
  obtain ⟨w', hput', hframe, -⟩ := fsPutInode_spec hm h ino
  cases hput.symm.trans hput'
  exact hframe

end Views

/-! ## What mounting checks -/

/-- The regions lie apart, every access to the metadata stays in its own region, and no 32-bit
computation on the way wraps. -/
structure Laid (startLba : Nat) (v : Volume) : Prop where
  between : ∀ b, imapRegion v.sb b ∨ bmapRegion v.sb b ∨ inodeRegion v.sb b →
    1 < b ∧ b < v.sb.firstDataBlock
  apart : ∀ b, ¬(imapRegion v.sb b ∧ bmapRegion v.sb b) ∧ ¬(imapRegion v.sb b ∧ inodeRegion v.sb b) ∧
    ¬(bmapRegion v.sb b ∧ inodeRegion v.sb b)
  inode : ∀ nr, validInode v nr → inodeBlock v nr = v.sb.inodeStart + nr / 56 ∧
    inodeRegion v.sb (inodeBlock v nr) ∧ (nr % 56 + 1) * 72 ≤ 4096
  capacity : u32 (v.sb.blockSize * 8) = v.sb.blockSize * 8
  imap : ∀ i < v.sb.totalInodes,
    bitmapBlock v.sb v.sb.imapStart i = v.sb.imapStart + i / (v.sb.blockSize * 8) ∧
      imapRegion v.sb (bitmapBlock v.sb v.sb.imapStart i)
  bmap : ∀ b < v.sb.totalBlocks,
    bitmapBlock v.sb v.sb.bmapStart b = v.sb.bmapStart + b / (v.sb.blockSize * 8) ∧
      bmapRegion v.sb (bitmapBlock v.sb v.sb.bmapStart b)
  lba : ∀ b < v.sb.totalBlocks, blockLba startLba b = startLba + b * 8 ∧
    blockLba startLba b + 7 ≤ fsAtaLba48Max

theorem mounting_validates_layout {startLba : Nat} {disk : Nat → Block}
    (h : fsInit startLba disk = some v) : Laid startLba v := by
  obtain ⟨hacc, hm⟩ := fsInit_some h
  constructor
  case between =>
    intro b hb
    have h1 := hm.imap_lo
    have h2 := hm.imap_end
    have h3 := hm.bmap_end
    refine ⟨?_, region_lt hm hb⟩
    unfold imapRegion bmapRegion inodeRegion at hb
    omega
  case apart =>
    intro b
    exact ⟨fun hb => (imapRegion_disjoint hm hb.1).1 hb.2,
      fun hb => (imapRegion_disjoint hm hb.1).2.1 hb.2,
      fun hb => (bmapRegion_disjoint hm hb.1).2.1 hb.2⟩
  case inode =>
    intro nr hnr
    obtain ⟨heq, hregion⟩ := inodeBlock_region hm hnr.2
    exact ⟨heq, hregion, by omega⟩
  case capacity => rw [hm.blockSize]; rfl
  case imap =>
    rw [hm.blockSize]
    exact fun i hi => bitmapBlock_imap hm hi
  case bmap =>
    rw [hm.blockSize]
    exact fun b hb => bitmapBlock_bmap hm hb
  case lba =>
    intro b hb
    have hmax := hacc.2.2.2.2.2.1
    unfold fsMaxBlocksLba48 fsAtaLba48Max at hmax
    have hval : blockLba startLba b = startLba + b * 8 := Nat.mod_eq_of_lt (by omega)
    rw [hval]
    exact ⟨rfl, by unfold fsAtaLba48Max; omega⟩

/-- A volume of a little more than 8 TiB, on which the first `2 ^ 31` blocks are in use. -/
def hugeSb : SuperBlock :=
  ⟨fsMagic, fsFormatVersion, 4096, 0, 56, 2 ^ 31 + 32768, 2, 1, 3, 65537, 65540, 1, 65541⟩

def hugeVolume : Volume where
  sb := hugeSb
  disk b := if b = 1 then SuperBlock.write zero hugeSb
    else if b < 65539 then fun _ => 0xFF else zero
  openRefs _ := 0

theorem fsInit_huge : fsInit 1000 hugeVolume.disk = some hugeVolume := by
  have hread : SuperBlock.read (hugeVolume.disk 1) = hugeSb := by
    refine SuperBlock.read_write _ fun i => ?_
    unfold SuperBlock.word
    split <;> decide
  unfold fsInit
  rw [hread]
  exact if_pos (by decide)

theorem mounting_validates_layout_huge : Laid 1000 hugeVolume :=
  mounting_validates_layout fsInit_huge

end OrangeOs.Fs
