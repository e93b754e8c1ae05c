import OrangeOs.Fs.Bitmap
import OrangeOs.Lib.PointerForest

/-! # Block pointers of an inode

`inode_data_block` with its three levels of index blocks, the three tree
releases, truncation and the rollback of a failed write, followed by the
ownership of blocks by inodes. The levels the source writes out one after the
other are the recursion `walkIndex` on the list of entry indices, and the
release and rollback functions of the three levels are one definition each,
instantiated level by level as in the source.

Ownership is stated for a table of current inodes, which need not be the one on
disk: while an operation runs, its local inode is ahead of the stored one.
-/

namespace OrangeOs.Fs

open PointerForest

/-! ## Lookup and allocation -/

/-- Entry `i` of an index block; a missing block is allocated and entered when
`create` is set. The write goes through the block pointer obtained before the
allocation, so it changes the block as the allocation left it. -/
def ensureEntry (v : Volume) (block i : Nat) (create : Bool) : Option Nat × Volume :=
  match cacheGet v block with
  | none => (none, v)
  | some data =>
    if indexEntry data i = 0 ∧ create = true then
      match allocDataBlock v with
      | (none, v) => (none, v)
      | (some n, v) => (some n, v.store block (setIndexEntry (v.disk block) i n))
    else (some (indexEntry data i), v)

/-- Descend through index blocks; a null pointer ends the walk with block 0. -/
def walkIndex (create : Bool) : Volume → Nat → List Nat → Option Nat × Volume
  | v, b, [] => (some b, v)
  | v, b, i :: path =>
    if b = 0 then (some 0, v)
    else
      match ensureEntry v b i create with
      | (none, v) => (none, v)
      | (some child, v) => walkIndex create v child path

/-- One pointer slot of the inode and the index path below it. A failure after
the slot was filled leaves the slot filled. -/
def lookupSlot (v : Volume) (ino : Inode) (j : Nat) (path : List Nat) (create : Bool) :
    Option Nat × Inode × Volume :=
  if ino.root j = 0 ∧ create = true then
    match allocDataBlock v with
    | (none, v) => (none, ino, v)
    | (some n, v) =>
      let (out, v) := walkIndex create v n path
      (out, ino.setRoot j n, v)
  else
    let (out, v) := walkIndex create v (ino.root j) path
    (out, ino, v)

/-- `inode_data_block`: the result (`none` for `-1`), the inode and the volume
as the call leaves them. -/
def inodeDataBlock (v : Volume) (ino : Inode) (index : Nat) (create : Bool) :
    Option Nat × Inode × Volume :=
  if fsMaxFileBlocks ≤ index then (none, ino, v)
  else if index < 11 then lookupSlot v ino index [] create
  else
    let index := index - 11
    if index < 1024 then lookupSlot v ino 11 [index] create
    else
      let index := index - 1024
      if index < 1024 * 1024 then lookupSlot v ino 12 [index / 1024, index % 1024] create
      else
        let index := index - 1024 * 1024
        if 1024 * 1024 * 1024 ≤ index then (none, ino, v)
        else
          lookupSlot v ino 13 [index / (1024 * 1024), index / 1024 % 1024, index % 1024] create

/-! ## Release -/

/-- `index_entry`. -/
def readEntry (v : Volume) (block i : Nat) : Nat :=
  match cacheGet v block with
  | none => 0
  | some data => indexEntry data i

/-- The loop the three release functions share: free every child, then the
index block itself. -/
def freeIndexTree (freeChild : Volume → Nat → Volume) (v : Volume) (block : Nat) : Volume :=
  if block = 0 then v
  else
    let v := (List.range 1024).foldl (fun v i =>
      let child := readEntry v block i
      if child ≠ 0 then freeChild v child else v) v
    bitmapFree v v.sb.bmapStart block

def freeDataBlock (v : Volume) (block : Nat) : Volume := bitmapFree v v.sb.bmapStart block

def freeSingleIndexBlock : Volume → Nat → Volume := freeIndexTree freeDataBlock

def freeDoubleIndexTree : Volume → Nat → Volume := freeIndexTree freeSingleIndexBlock

def freeTripleIndexTree : Volume → Nat → Volume := freeIndexTree freeDoubleIndexTree

def freeInodeBlocks (v : Volume) (ino : Inode) : Volume :=
  let v := (List.range 11).foldl (fun v i =>
    if ino.root i ≠ 0 then freeDataBlock v (ino.root i) else v) v
  let v := freeSingleIndexBlock v ino.indirect1.toNat
  let v := freeDoubleIndexTree v ino.indirect2.toNat
  freeTripleIndexTree v ino.indirect3.toNat

/-- The inode with all fourteen pointers and the size cleared. -/
def Inode.truncated (ino : Inode) : Inode :=
  { ino with directBlocks := fun _ => 0, indirect1 := 0, indirect2 := 0, indirect3 := 0, size := 0 }

/-- `truncate_inode`: whether it returned 0, the inode and the volume. -/
def truncateInode (v : Volume) (nr : Nat) (ino : Inode) : Bool × Inode × Volume :=
  if ino.type ≠ fsTypeFile then (false, ino, v)
  else
    let v := freeInodeBlocks v ino
    match fsPutInode v nr ino.truncated with
    | none => (false, ino.truncated, v)
    | some v => (true, ino.truncated, v)

/-! ## Rollback -/

/-- The shape the three rollback functions share: a new tree is released whole,
two existing ones are compared entry by entry. -/
def rollbackAdded (freeTree : Volume → Nat → Volume) (each : Volume → Nat → Nat → Volume)
    (v : Volume) (old new : Nat) : Volume :=
  if old = 0 ∧ new ≠ 0 then freeTree v new
  else if old = 0 ∨ new = 0 then v
  else (List.range 1024).foldl (fun v i => each v (readEntry v old i) (readEntry v new i)) v

def rollbackDataAdded (v : Volume) (old new : Nat) : Volume :=
  if old = 0 ∧ new ≠ 0 then freeDataBlock v new else v

def rollbackSingleAdded : Volume → Nat → Nat → Volume :=
  rollbackAdded freeSingleIndexBlock rollbackDataAdded

def rollbackDoubleAdded : Volume → Nat → Nat → Volume :=
  rollbackAdded freeDoubleIndexTree rollbackSingleAdded

def rollbackTripleAdded : Volume → Nat → Nat → Volume :=
  rollbackAdded freeTripleIndexTree rollbackDoubleAdded

def rollbackNewBlocks (v : Volume) (old now : Inode) : Volume :=
  let v := (List.range 11).foldl (fun v i => rollbackDataAdded v (old.root i) (now.root i)) v
  let v := rollbackSingleAdded v old.indirect1.toNat now.indirect1.toNat
  let v := rollbackDoubleAdded v old.indirect2.toNat now.indirect2.toNat
  rollbackTripleAdded v old.indirect3.toNat now.indirect3.toNat

/-! ## Positions -/

/-- The current inodes, by number; `none` is not in use. -/
abbrev Table := Nat → Option Inode

/-- The pointer store of a volume under a table of current inodes. A root is an
inode number with one of its fourteen slots. -/
def pointers (v : Volume) (tab : Table) : Store (Nat × Nat) where
  root r := match tab r.1 with
    | some ino => ino.root r.2
    | none => 0
  entry b i := indexEntry (v.disk b) i

/-- Slots 0 to 10 hold data blocks, slots 11, 12 and 13 are one to three index
levels above them. -/
def level (j : Nat) : Nat := j - 10

def indexShape : Shape (Nat × Nat) where
  ok r p := r.2 < 14 ∧ p.length ≤ level r.2 ∧ ∀ i ∈ p, i < 1024
  ok_of_snoc := by
    rintro r p i ⟨h1, h2, h3⟩
    exact ⟨h1, by simp at h2; omega, fun k hk => h3 k (by simp [hk])⟩

/-- A position that holds a data block. -/
def IsLeaf (r : Nat × Nat) (p : List Nat) : Prop := indexShape.ok r p ∧ p.length = level r.2

/-- The block at a position. -/
abbrev blockAt (v : Volume) (tab : Table) (r : Nat × Nat) (p : List Nat) : Nat :=
  (pointers v tab).at r p

/-- The slot and the index path of a file block. -/
def locate (index : Nat) : Nat × List Nat :=
  if index < 11 then (index, [])
  else if index - 11 < 1024 then (11, [index - 11])
  else if index - 11 - 1024 < 1024 * 1024 then
    (12, [(index - 11 - 1024) / 1024, (index - 11 - 1024) % 1024])
  else
    (13, [(index - 11 - 1024 - 1024 * 1024) / (1024 * 1024),
      (index - 11 - 1024 - 1024 * 1024) / 1024 % 1024,
      (index - 11 - 1024 - 1024 * 1024) % 1024])

theorem inodeDataBlock_of_lt (v : Volume) (ino : Inode) {index : Nat} (create : Bool)
    (h : index < fsMaxFileBlocks) :
    inodeDataBlock v ino index create =
      lookupSlot v ino (locate index).1 (locate index).2 create := by
  unfold fsMaxFileBlocks at h
  unfold inodeDataBlock locate fsMaxFileBlocks
  dsimp only
  rw [if_neg (by omega)]
  repeat' split
  all_goals first | rfl | omega

theorem locate_isLeaf {index : Nat} (h : index < fsMaxFileBlocks) (i : Nat) :
    IsLeaf (i, (locate index).1) (locate index).2 := by
  unfold fsMaxFileBlocks at h
  unfold locate
  split
  · refine ⟨⟨by dsimp; omega, by simp, by simp⟩, ?_⟩
    simp [level]
    omega
  · split
    · refine ⟨⟨by simp, by simp [level], ?_⟩, by simp [level]⟩
      simp
      omega
    · split
      · refine ⟨⟨by simp, by simp [level], ?_⟩, by simp [level]⟩
        simp only [List.mem_cons, List.not_mem_nil, or_false, forall_eq_or_imp, forall_eq]
        omega
      · refine ⟨⟨by simp, by simp [level], ?_⟩, by simp [level]⟩
        simp only [List.mem_cons, List.not_mem_nil, or_false, forall_eq_or_imp, forall_eq]
        omega

theorem locate_injective {a b : Nat} (h : locate a = locate b) : a = b := by
  unfold locate at h
  split at h <;> split at h <;> (try split at h) <;> (try split at h) <;> (try split at h) <;>
    (try split at h) <;> simp only [Prod.mk.injEq, List.cons.injEq, reduceCtorEq, and_true,
      and_false] at h <;> omega

end OrangeOs.Fs
