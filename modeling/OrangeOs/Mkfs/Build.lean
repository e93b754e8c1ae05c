import OrangeOs.Fs.Operations

/-! # The image builder

`tools/mkfs.c` from the layout computation to the last write. A step that fails
ends the program with exit status 1, so failure carries no state. Reading and
writing the image file is taken to succeed within its size, and the input files
do not change while they are read; the command line has already been split into
the disk size, the start LBA and the input files.
-/

namespace OrangeOs.Mkfs

open Bytes Fs Function

/-! ## Layout -/

def divideRoundUp (value divisor : Nat) : Nat :=
  if divisor = 0 then 0 else value / divisor + (if value % divisor ≠ 0 then 1 else 0)

def ataLba48Max : Nat := 0x0000FFFFFFFFFFFF

/-- One inode per 64 KiB, between `MIN_INODES` and `MAX_INODES`. -/
def inodeCount (totalBlocks : Nat) : Nat := min (max (totalBlocks / 16) 4096) 262144

/-- The superblock `main` computes, if the sizes are supported. -/
def layout (diskSize startLba : Nat) : Option SuperBlock :=
  if diskSize = 0 ∨ (2 ^ 64 - 1) / 512 < startLba ∨ diskSize ≤ startLba * 512 then none
  else
    let fsBytes := diskSize - startLba * 512
    let totalBlocks := (fsBytes - fsBytes % 4096) / 4096
    if ataLba48Max < startLba ∨ ataLba48Max - startLba + 1 < 8 then none
    else
      let maxBlocks := (ataLba48Max - startLba + 1) / 8
      if totalBlocks < 128 ∨ 2 ^ 32 - 1 < totalBlocks ∨ maxBlocks < totalBlocks then none
      else
        let totalInodes := inodeCount totalBlocks
        let imapBlocks := divideRoundUp totalInodes 32768
        let bmapBlocks := divideRoundUp totalBlocks 32768
        let inodeBlocks := divideRoundUp totalInodes 56
        let firstData := 2 + imapBlocks + bmapBlocks + inodeBlocks
        if totalBlocks ≤ firstData + 1 ∨ 2 ^ 32 - 1 < totalInodes ∨ 2 ^ 32 - 1 < imapBlocks ∨
            2 ^ 32 - 1 < bmapBlocks ∨ 2 ^ 32 - 1 < inodeBlocks ∨ 2 ^ 32 - 1 < firstData then none
        else
          some
            { magic := fsMagic
              version := fsFormatVersion
              blockSize := 4096
              flags := 0
              totalInodes := totalInodes
              totalBlocks := totalBlocks
              imapStart := 2
              imapBlocks := imapBlocks
              bmapStart := 2 + imapBlocks
              bmapBlocks := bmapBlocks
              inodeStart := 2 + imapBlocks + bmapBlocks
              inodeBlocks := inodeBlocks
              firstDataBlock := firstData }

/-! ## Blocks of the image -/

/-- The output file, the block bitmap in memory and `current_data_block`. -/
structure Image where
  disk : Nat → Block
  bmap : Block
  next : Nat

def writeBlock (img : Image) (block : Nat) (data : Block) : Image :=
  { img with disk := update img.disk block data }

def readBlock (total : Nat) (img : Image) (block : Nat) : Option Block :=
  if block < total then some (img.disk block) else none

def allocImageBlock (total : Nat) (img : Image) : Option (Nat × Image) :=
  if total ≤ img.next then none
  else
    some (img.next, writeBlock { img with next := img.next + 1, bmap := setBit img.bmap img.next }
      img.next zero)

def setIndex (total : Nat) (img : Image) (block index value : Nat) : Option Image :=
  if 1024 ≤ index then none
  else (readBlock total img block).map fun entries =>
    writeBlock img block (setIndexEntry entries index value)

def getIndex (total : Nat) (img : Image) (block index : Nat) : Option Nat :=
  if 1024 ≤ index then none
  else (readBlock total img block).map fun entries => indexEntry entries index

def ensureIndexEntry (total : Nat) (img : Image) (block index : Nat) : Option (Nat × Image) := do
  let value ← getIndex total img block index
  if value = 0 then
    let (value, img) ← allocImageBlock total img
    let img ← setIndex total img block index value
    return (value, img)
  else return (value, img)

/-- The pointer in slot `j` of the inode, allocated if it is null. -/
def ensureSlot (total : Nat) (img : Image) (ino : Inode) (j : Nat) :
    Option (Nat × Inode × Image) :=
  if ino.root j = 0 then
    (allocImageBlock total img).map fun (block, img) => (block, ino.setRoot j block, img)
  else some (ino.root j, ino, img)

def inodeDataBlock (total : Nat) (img : Image) (ino : Inode) (index : Nat) :
    Option (Nat × Inode × Image) :=
  if fsMaxFileBlocks ≤ index then none
  else if index < 11 then ensureSlot total img ino index
  else
    let index := index - 11
    if index < 1024 then do
      let (root, ino, img) ← ensureSlot total img ino 11
      let (child, img) ← ensureIndexEntry total img root index
      return (child, ino, img)
    else
      let index := index - 1024
      if index < 1024 * 1024 then do
        let (root, ino, img) ← ensureSlot total img ino 12
        let (child, img) ← ensureIndexEntry total img root (index / 1024)
        let (child, img) ← ensureIndexEntry total img child (index % 1024)
        return (child, ino, img)
      else
        let index := index - 1024 * 1024
        if 1024 * 1024 * 1024 ≤ index then none
        else do
          let (root, ino, img) ← ensureSlot total img ino 13
          let (child, img) ← ensureIndexEntry total img root (index / (1024 * 1024))
          let (child, img) ← ensureIndexEntry total img child (index / 1024 % 1024)
          let (child, img) ← ensureIndexEntry total img child (index % 1024)
          return (child, ino, img)

theorem inodeDataBlock_lt {total : Nat} {img : Image} {ino : Inode} {index : Nat}
    {out : Nat × Inode × Image} (h : inodeDataBlock total img ino index = some out) :
    index < fsMaxFileBlocks := by
  unfold inodeDataBlock at h
  split at h
  · cases h
  · omega

/-! ## Files -/

/-- The zero-padded buffer after `fread(data, 1, n, input)` at offset `pos`. -/
def fileBlock (contents : List UInt8) (pos n : Nat) : Block := fun k =>
  if k < n then contents.getD (pos + k) 0 else 0

/-- The copy loop. `to_read` is a `uint32_t`, so 4 GiB or more left to read come
out modulo 2^32. -/
def copyBlocks (total : Nat) (contents : List UInt8) (img : Image) (ino : Inode)
    (bytesRead blockIndex : Nat) : Option (Inode × Image) :=
  if contents.length ≤ bytesRead then some (ino, img)
  else
    let toRead := min (u32 (contents.length - bytesRead)) 4096
    match _h : inodeDataBlock total img ino blockIndex with
    | none => none
    | some (block, ino, img) =>
      copyBlocks total contents (writeBlock img block (fileBlock contents bytesRead toRead)) ino
        (bytesRead + toRead) (blockIndex + 1)
termination_by fsMaxFileBlocks - blockIndex
decreasing_by
  have := inodeDataBlock_lt _h
  omega

def baseName (path : Str) : Str := path.rtakeWhile (· ≠ slash)

/-- An input file: a C string for its path, whose last component is a name since
the file is no directory, and its bytes. -/
structure Input where
  path : Str
  contents : List UInt8
  noNul : (0 : UInt8) ∉ path
  regular : baseName path ≠ [] ∧ baseName path ≠ dot ∧ baseName path ≠ dotdot

def Input.name (input : Input) : Str := baseName input.path

/-- Everything `main` holds while it adds files: image, inode bitmap, inode table
by block, root directory block. -/
structure State where
  img : Image
  imap : Block
  inodes : Nat → Block
  root : Block

/-- `*inode_at(inode_table, nr) = ino`. -/
def setInodeAt (inodes : Nat → Block) (nr : Nat) (ino : Inode) : Nat → Block :=
  update inodes (nr / 56) (Inode.write (inodes (nr / 56)) (nr % 56) ino)

/-- One round of the input loop: file number `index` becomes inode and entry
`index + 2`. -/
def addFile (sb : SuperBlock) (st : State) (index : Nat) (input : Input) : Option State :=
  if 60 ≤ input.name.length ∨ sb.totalInodes ≤ index + 2 ∨ 64 ≤ index + 2 ∨
      fsMaxFileSize < input.contents.length then none
  else
    let ino := freshInode fsTypeFile (UInt64.ofNat input.contents.length)
    (copyBlocks sb.totalBlocks input.contents st.img ino 0 0).map fun (ino, img) =>
      { img := img
        imap := setBit st.imap (index + 2)
        inodes := setInodeAt st.inodes (index + 2) ino
        root := strcpyEntry st.root (index + 2) (index + 2) input.name }

def addFiles (sb : SuperBlock) : State → Nat → List Input → Option State
  | st, _, [] => some st
  | st, index, input :: rest => do
      let st ← addFile sb st index input
      addFiles sb st (index + 1) rest

/-! ## The whole program -/

/-- The root inode and its block, with everything before it marked. -/
def rootInode (sb : SuperBlock) : Inode :=
  (freshInode fsTypeDirectory 4096).setRoot 0 sb.firstDataBlock

def initial (sb : SuperBlock) : State where
  img :=
    { disk := fun _ => zero
      bmap := setBit ((List.range sb.firstDataBlock).foldl setBit zero) sb.firstDataBlock
      next := sb.firstDataBlock + 1 }
  imap := setBit zero fsRootInode
  inodes := setInodeAt (fun _ => zero) fsRootInode (rootInode sb)
  root := strcpyEntry (strcpyEntry zero 0 fsRootInode dot) 1 fsRootInode dotdot

/-- The `n` blocks of a buffer written from `start` on. -/
def writeBlocks (disk : Nat → Block) (start : Nat) (buffer : Nat → Block) (n : Nat) : Nat → Block :=
  (List.range n).foldl (fun disk i => update disk (start + i) (buffer i)) disk

/-- The final writes: superblock, first block of the inode bitmap, block bitmap,
inode table, root directory. -/
def writeMetadata (sb : SuperBlock) (st : State) : Nat → Block :=
  let disk := update st.img.disk 1 (SuperBlock.write zero sb)
  let disk := update disk sb.imapStart st.imap
  let disk := writeBlocks disk sb.bmapStart (fun i k => st.img.bmap (i * 4096 + k)) sb.bmapBlocks
  let disk := writeBlocks disk sb.inodeStart st.inodes sb.inodeBlocks
  update disk sb.firstDataBlock st.root

/-- `main`: the image, when the program exits with status 0. -/
def mkfs (diskSize startLba : Nat) (inputs : List Input) : Option (Nat → Block) :=
  if 64 < inputs.length ∨ inputs = [] then none
  else do
    let sb ← layout diskSize startLba
    let st ← addFiles sb (initial sb) 0 inputs
    return writeMetadata sb st

end OrangeOs.Mkfs
