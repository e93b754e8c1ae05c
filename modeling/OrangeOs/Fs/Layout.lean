import OrangeOs.Lib.Bytes

/-! # On-disk layout of MyFS

The superblock, the 72-byte inode, the 64-byte directory entry and the index
block of `kernel/fs.h`, read from and written to 4096-byte blocks. The sizes
that occur in address arithmetic are written as numerals: `FS_BLOCK_SIZE` is
4096, `FS_DIRECT_BLOCKS` is 11, `FS_INDIRECT_ENTRIES` is 1024, a block holds 56
inodes or 64 directory entries, and `FS_NAME_MAX` is 60.
-/

namespace OrangeOs.Fs

open Bytes Function List

def fsMagic : Nat := 0x19980811
def fsFormatVersion : Nat := 4
def fsRootInode : Nat := 1
def fsPathMax : Nat := 256
def fsTypeDirectory : UInt16 := 1
def fsTypeFile : UInt16 := 2
def fsMaxFileBlocks : Nat := 11 + 1024 + 1024 * 1024 + 1024 * 1024 * 1024
def fsMaxFileSize : Nat := fsMaxFileBlocks * 4096

/-- The value of a `uint32_t` computation. -/
def u32 (x : Nat) : Nat := x % 2 ^ 32

theorem u32_of_lt {x : Nat} (h : x < 2 ^ 32) : u32 x = x := Nat.mod_eq_of_lt h

/-! ## Superblock -/

structure SuperBlock where
  magic : Nat
  version : Nat
  blockSize : Nat
  flags : Nat
  totalInodes : Nat
  totalBlocks : Nat
  imapStart : Nat
  imapBlocks : Nat
  bmapStart : Nat
  bmapBlocks : Nat
  inodeStart : Nat
  inodeBlocks : Nat
  firstDataBlock : Nat
deriving DecidableEq, Repr

/-- The thirteen words of the superblock in their disk order. -/
def SuperBlock.word (sb : SuperBlock) : Nat → Nat
  | 0 => sb.magic
  | 1 => sb.version
  | 2 => sb.blockSize
  | 3 => sb.flags
  | 4 => sb.totalInodes
  | 5 => sb.totalBlocks
  | 6 => sb.imapStart
  | 7 => sb.imapBlocks
  | 8 => sb.bmapStart
  | 9 => sb.bmapBlocks
  | 10 => sb.inodeStart
  | 11 => sb.inodeBlocks
  | 12 => sb.firstDataBlock
  | _ => 0

/-- `memcpy(&g_sb, sector, sizeof(g_sb))`. -/
def SuperBlock.read (b : Block) : SuperBlock where
  magic := readLE 4 b 0
  version := readLE 4 b 4
  blockSize := readLE 4 b 8
  flags := readLE 4 b 12
  totalInodes := readLE 4 b 16
  totalBlocks := readLE 4 b 20
  imapStart := readLE 4 b 24
  imapBlocks := readLE 4 b 28
  bmapStart := readLE 4 b 32
  bmapBlocks := readLE 4 b 36
  inodeStart := readLE 4 b 40
  inodeBlocks := readLE 4 b 44
  firstDataBlock := readLE 4 b 48

def SuperBlock.write (b : Block) (sb : SuperBlock) : Block := writeWords 13 b 0 sb.word

/-- Every field is a `uint32_t`. -/
def SuperBlock.InRange (sb : SuperBlock) : Prop := ∀ i, sb.word i < 2 ^ 32

theorem SuperBlock.read_write (b : Block) {sb : SuperBlock} (h : sb.InRange) :
    SuperBlock.read (SuperBlock.write b sb) = sb := by
  have hw : ∀ i, i < 13 → readLE 4 (SuperBlock.write b sb) (4 * i) = sb.word i := by
    intro i hi
    have := readLE_writeWords b 0 sb.word hi
    rw [Nat.zero_add] at this
    rw [SuperBlock.write, this]
    exact Nat.mod_eq_of_lt (h i)
  have h0 := hw 0 (by decide)
  have h1 := hw 1 (by decide)
  have h2 := hw 2 (by decide)
  have h3 := hw 3 (by decide)
  have h4 := hw 4 (by decide)
  have h5 := hw 5 (by decide)
  have h6 := hw 6 (by decide)
  have h7 := hw 7 (by decide)
  have h8 := hw 8 (by decide)
  have h9 := hw 9 (by decide)
  have h10 := hw 10 (by decide)
  have h11 := hw 11 (by decide)
  have h12 := hw 12 (by decide)
  simp only [SuperBlock.read]
  simp_all [SuperBlock.word]

/-! ## Inodes -/

structure Inode where
  size : UInt64
  type : UInt16
  linkCount : UInt16
  directBlocks : Fin 11 → UInt32
  indirect1 : UInt32
  indirect2 : UInt32
  indirect3 : UInt32
  flags : UInt32

/-- The inode `memset` to zero. -/
def Inode.blank : Inode := ⟨0, 0, 0, fun _ => 0, 0, 0, 0, 0⟩

/-- The fourteen block pointers in disk order: slots 0 to 10 are the direct
blocks, slots 11, 12 and 13 the single, double and triple index blocks. -/
def Inode.root (ino : Inode) (j : Nat) : Nat :=
  if h : j < 11 then (ino.directBlocks ⟨j, h⟩).toNat
  else if j = 11 then ino.indirect1.toNat
  else if j = 12 then ino.indirect2.toNat
  else if j = 13 then ino.indirect3.toNat
  else 0

/-- Store a block number in one of the fourteen pointer slots. -/
def Inode.setRoot (ino : Inode) (j v : Nat) : Inode :=
  if h : j < 11 then
    { ino with directBlocks := update ino.directBlocks ⟨j, h⟩ (UInt32.ofNat v) }
  else if j = 11 then { ino with indirect1 := UInt32.ofNat v }
  else if j = 12 then { ino with indirect2 := UInt32.ofNat v }
  else if j = 13 then { ino with indirect3 := UInt32.ofNat v }
  else ino

/-- The fifteen words after the size, type and link count. -/
def Inode.word (ino : Inode) (j : Nat) : Nat := if j = 14 then ino.flags.toNat else ino.root j

/-- `((struct inode*)block)[slot]`. -/
def Inode.read (b : Block) (slot : Nat) : Inode where
  size := UInt64.ofNat (readLE 8 b (72 * slot))
  type := UInt16.ofNat (readLE 2 b (72 * slot + 8))
  linkCount := UInt16.ofNat (readLE 2 b (72 * slot + 10))
  directBlocks i := UInt32.ofNat (readLE 4 b (72 * slot + 12 + 4 * i))
  indirect1 := UInt32.ofNat (readLE 4 b (72 * slot + 12 + 4 * 11))
  indirect2 := UInt32.ofNat (readLE 4 b (72 * slot + 12 + 4 * 12))
  indirect3 := UInt32.ofNat (readLE 4 b (72 * slot + 12 + 4 * 13))
  flags := UInt32.ofNat (readLE 4 b (72 * slot + 12 + 4 * 14))

/-- `((struct inode*)block)[slot] = *inode`. -/
def Inode.write (b : Block) (slot : Nat) (ino : Inode) : Block :=
  writeWords 15
    (writeLE 2
      (writeLE 2 (writeLE 8 b (72 * slot) ino.size.toNat) (72 * slot + 8) ino.type.toNat)
      (72 * slot + 10) ino.linkCount.toNat)
    (72 * slot + 12) ino.word

@[simp] theorem Inode.root_blank (j : Nat) : Inode.blank.root j = 0 := by
  simp [Inode.root, Inode.blank]

variable (ino : Inode)

theorem Inode.root_lt (j : Nat) : ino.root j < 2 ^ 32 := by
  unfold Inode.root
  split
  · exact UInt32.toNat_lt _
  · repeat' split
    all_goals first | exact UInt32.toNat_lt _ | decide

theorem Inode.root_setRoot {v : Nat} (hv : v < 2 ^ 32) (ino : Inode) {j : Nat} (hj : j < 14)
    (i : Nat) : (ino.setRoot j v).root i = if i = j then v else ino.root i := by
  have hval : (UInt32.ofNat v).toNat = v := UInt32.toNat_ofNat_of_lt' hv
  unfold Inode.setRoot
  by_cases h11 : j < 11
  · rw [dif_pos h11]
    unfold Inode.root
    by_cases hi : i < 11
    · simp only [dif_pos hi]
      by_cases hij : i = j
      · subst hij
        simp [hval]
      · rw [update_of_ne (by simpa [Fin.ext_iff] using hij), if_neg hij]
    · have hij : i ≠ j := by omega
      simp [dif_neg hi, hij]
  · rw [dif_neg h11]
    have hcases : j = 11 ∨ j = 12 ∨ j = 13 := by omega
    rcases hcases with rfl | rfl | rfl <;> by_cases hi : i < 11 <;>
      simp only [Inode.root, dif_pos, dif_neg, hi, not_false_eq_true] <;>
      repeat' split
    all_goals first | omega | rfl | exact hval | simp_all

@[simp] theorem Inode.type_setRoot (j v : Nat) : (ino.setRoot j v).type = ino.type := by
  unfold Inode.setRoot
  repeat' split
  all_goals rfl

@[simp] theorem Inode.size_setRoot (j v : Nat) : (ino.setRoot j v).size = ino.size := by
  unfold Inode.setRoot
  repeat' split
  all_goals rfl

@[simp] theorem Inode.linkCount_setRoot (j v : Nat) :
    (ino.setRoot j v).linkCount = ino.linkCount := by
  unfold Inode.setRoot
  repeat' split
  all_goals rfl

theorem Inode.word_lt (j : Nat) : ino.word j < 2 ^ 32 := by
  unfold Inode.word
  split
  · exact UInt32.toNat_lt _
  · exact ino.root_lt j

private theorem Inode.readLE_word (b : Block) (slot : Nat) (ino : Inode) {j : Nat} (hj : j < 15) :
    UInt32.ofNat (readLE 4 (Inode.write b slot ino) (72 * slot + 12 + 4 * j)) =
      UInt32.ofNat (ino.word j) := by
  rw [Inode.write, readLE_writeWords _ _ _ hj]
  congr 1
  exact Nat.mod_eq_of_lt (ino.word_lt j)

theorem Inode.read_write (b : Block) (slot : Nat) (ino : Inode) :
    Inode.read (Inode.write b slot ino) slot = ino := by
  have hsize : readLE 8 (Inode.write b slot ino) (72 * slot) = ino.size.toNat := by
    rw [Inode.write, readLE_writeWords_of_disjoint _ _ (by omega),
      readLE_writeLE_of_disjoint _ _ (by omega), readLE_writeLE_of_disjoint _ _ (by omega)]
    exact readLE_writeLE_of_lt _ _ (UInt64.toNat_lt _)
  have htype : readLE 2 (Inode.write b slot ino) (72 * slot + 8) = ino.type.toNat := by
    rw [Inode.write, readLE_writeWords_of_disjoint _ _ (by omega),
      readLE_writeLE_of_disjoint _ _ (by omega)]
    exact readLE_writeLE_of_lt _ _ (UInt16.toNat_lt _)
  have hlinks : readLE 2 (Inode.write b slot ino) (72 * slot + 10) = ino.linkCount.toNat := by
    rw [Inode.write, readLE_writeWords_of_disjoint _ _ (by omega)]
    exact readLE_writeLE_of_lt _ _ (UInt16.toNat_lt _)
  have h11 := Inode.readLE_word b slot ino (j := 11) (by decide)
  have h12 := Inode.readLE_word b slot ino (j := 12) (by decide)
  have h13 := Inode.readLE_word b slot ino (j := 13) (by decide)
  have h14 := Inode.readLE_word b slot ino (j := 14) (by decide)
  have hdirect : ∀ i : Fin 11, UInt32.ofNat
      (readLE 4 (Inode.write b slot ino) (72 * slot + 12 + 4 * i)) = ino.directBlocks i := by
    intro i
    rw [Inode.readLE_word b slot ino (by omega)]
    have hi : i.val ≠ 14 := by omega
    simp [Inode.word, Inode.root, hi]
  cases ino
  simp only [Inode.read, hsize, htype, hlinks, h11, h12, h13, h14, hdirect]
  simp [Inode.word, Inode.root]

variable {b b' : Block} {slot i k : Nat} {name : List UInt8}

theorem Inode.read_congr (h : ∀ k, 72 * slot ≤ k → k < 72 * slot + 72 → b k = b' k) :
    Inode.read b slot = Inode.read b' slot := by
  have hfield : ∀ n off, 72 * slot ≤ off → off + n ≤ 72 * slot + 72 →
      readLE n b off = readLE n b' off := fun n off h1 h2 =>
    readLE_congr fun k hk1 hk2 => h k (by omega) (by omega)
  have hd : ∀ i : Fin 11, readLE 4 b (72 * slot + 12 + 4 * i) =
      readLE 4 b' (72 * slot + 12 + 4 * i) := fun i => hfield 4 _ (by omega) (by omega)
  simp only [Inode.read, hfield 8 (72 * slot) (by omega) (by omega),
    hfield 2 (72 * slot + 8) (by omega) (by omega), hfield 2 (72 * slot + 10) (by omega) (by omega),
    hfield 4 (72 * slot + 12 + 4 * 11) (by omega) (by omega),
    hfield 4 (72 * slot + 12 + 4 * 12) (by omega) (by omega),
    hfield 4 (72 * slot + 12 + 4 * 13) (by omega) (by omega),
    hfield 4 (72 * slot + 12 + 4 * 14) (by omega) (by omega), hd]

theorem Inode.write_of_outside (b : Block) (ino : Inode) (h : k < 72 * slot ∨ 72 * slot + 72 ≤ k) :
    Inode.write b slot ino k = b k := by
  rw [Inode.write, writeWords_of_outside _ _ (by omega), writeLE_of_outside _ _ (by omega),
    writeLE_of_outside _ _ (by omega), writeLE_of_outside _ _ (by omega)]

theorem Inode.read_write_of_ne (b : Block) {slot' : Nat} (ino : Inode) (h : slot' ≠ slot) :
    Inode.read (Inode.write b slot ino) slot' = Inode.read b slot' :=
  Inode.read_congr fun _ h1 h2 => Inode.write_of_outside b ino (by omega)

/-! ## Index blocks -/

/-- `((uint32_t*)block)[i]`. -/
def indexEntry (b : Block) (i : Nat) : Nat := readLE 4 b (4 * i)

/-- `((uint32_t*)block)[i] = v`. -/
def setIndexEntry (b : Block) (i v : Nat) : Block := writeLE 4 b (4 * i) v

@[simp] theorem indexEntry_zero (i : Nat) : indexEntry zero i = 0 := readLE_zero 4 (4 * i)

theorem indexEntry_set (b : Block) (i j : Nat) {v : Nat} (hv : v < 2 ^ 32) :
    indexEntry (setIndexEntry b i v) j = if j = i then v else indexEntry b j := by
  unfold indexEntry setIndexEntry
  split
  · next h => rw [h, readLE_writeLE_of_lt b (4 * i) hv]
  · exact readLE_writeLE_of_disjoint b v (by omega)

/-! ## Directory entries -/

/-- `entries[i].inode_nr`. -/
def entryInode (b : Block) (i : Nat) : Nat := readLE 4 b (64 * i)

/-- `entries[i].name` up to its NUL. A name without a NUL in its 60 bytes comes
out 60 bytes long. -/
def entryName (b : Block) (i : Nat) : List UInt8 :=
  (slice b (64 * i + 4) 60).takeWhile (· ≠ 0)

/-- `entries[i].inode_nr = nr; memset(name, 0, 60); memcpy(name, name, strlen(name))`. -/
def setEntry (b : Block) (i nr : Nat) (name : List UInt8) : Block :=
  splice (writeLE 4 b (64 * i) nr) (64 * i + 4)
    (name ++ List.replicate (60 - name.length) 0)

/-- `memset(&entry[i], 0, sizeof(struct dir_entry))`. -/
def clearEntry (b : Block) (i : Nat) : Block := splice b (64 * i) (List.replicate 64 0)

/-- A C string that fits a directory entry: 1 to 59 bytes, none of them NUL. -/
def EntryName (name : List UInt8) : Prop := name ≠ [] ∧ name.length < 60 ∧ (0 : UInt8) ∉ name

@[simp] theorem entryInode_zero (i : Nat) : entryInode zero i = 0 := readLE_zero 4 (64 * i)

theorem entryInode_congr (h : ∀ k, 64 * i ≤ k → k < 64 * i + 64 → b k = b' k) :
    entryInode b i = entryInode b' i :=
  readLE_congr fun k h1 h2 => h k h1 (by omega)

theorem entryName_congr (h : ∀ k, 64 * i ≤ k → k < 64 * i + 64 → b k = b' k) :
    entryName b i = entryName b' i := by
  unfold entryName
  rw [slice_congr fun k h1 h2 => h k (by omega) (by omega)]

private theorem padded_length (h : name.length < 60) :
    (name ++ replicate (60 - name.length) (0 : UInt8)).length = 60 := by
  simp
  omega

theorem setEntry_of_outside (b : Block) (nr : Nat) (hname : name.length < 60)
    (h : k < 64 * i ∨ 64 * i + 64 ≤ k) : setEntry b i nr name k = b k := by
  have hlen := padded_length hname
  rw [setEntry, splice_of_outside _ _ (by omega), writeLE_of_outside _ _ (by omega)]

theorem entryInode_setEntry (b : Block) (i : Nat) {nr : Nat} (hnr : nr < 2 ^ 32) :
    entryInode (setEntry b i nr name) i = nr := by
  rw [entryInode, setEntry, readLE_splice_of_disjoint _ (by omega)]
  exact readLE_writeLE_of_lt b (64 * i) hnr

theorem takeWhile_padded (hname : (0 : UInt8) ∉ name) (n : Nat) :
    (name ++ replicate n 0).takeWhile (· ≠ 0) = name := by
  induction name with
  | nil => cases n <;> simp [replicate_succ]
  | cons c name ih =>
    simp only [mem_cons, not_or] at hname
    have hc : (decide (c ≠ 0)) = true := by simpa using fun h => hname.1 h.symm
    rw [cons_append, takeWhile_cons, hc, if_pos rfl, ih hname.2]

theorem entryName_setEntry (b : Block) (i nr : Nat) (hname : EntryName name) :
    entryName (setEntry b i nr name) i = name := by
  have hlen := padded_length hname.2.1
  have hslice := slice_splice (writeLE 4 b (64 * i) nr) (64 * i + 4)
    (name ++ replicate (60 - name.length) 0)
  rw [hlen] at hslice
  rw [entryName, setEntry, hslice]
  exact takeWhile_padded hname.2.2 _

theorem clearEntry_of_outside (b : Block) (h : k < 64 * i ∨ 64 * i + 64 ≤ k) :
    clearEntry b i k = b k :=
  splice_of_outside b _ (by simp; omega)

theorem entryInode_clearEntry (b : Block) (i : Nat) : entryInode (clearEntry b i) i = 0 := by
  have h : entryInode (clearEntry b i) i = entryInode zero i := by
    apply entryInode_congr
    intro k h1 h2
    simp only [clearEntry, splice, length_replicate]
    rw [if_pos (by omega), getD_replicate (i := k - 64 * i) (n := 64) _ (by omega)]
    rfl
  rw [h, entryInode_zero]

end OrangeOs.Fs
