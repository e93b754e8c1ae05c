import OrangeOs.Fs.Directory

/-! # File operations

`fs_create_path`, `fs_read_inode`, `fs_write_inode`, `fs_unlink_path`,
`release_inode` and the `FS_REQUEST_OPEN` case of the file service, over the
plain block map, on which `cache_sync` always succeeds and changes nothing.
-/

namespace OrangeOs.Fs

open Bytes

/-! ## Creation -/

/-- `entries[i].inode_nr = nr; strcpy(entries[i].name, name)`. -/
def strcpyEntry (b : Block) (i nr : Nat) (name : Str) : Block :=
  splice (writeLE 4 b (64 * i) nr) (64 * i + 4) (name ++ [0])

/-- An inode with no blocks and one link. -/
def freshInode (type : UInt16) (size : UInt64) : Inode :=
  { Inode.blank with type := type, linkCount := 1, size := size }

/-- The new inode of `fs_create_path`; a directory gets its block with the two
dot entries. -/
def newInode (v : Volume) (nr parent : Nat) (type : UInt16) : Option Inode × Volume :=
  if type = fsTypeDirectory then
    match allocDataBlock v with
    | (none, v) => (none, v)
    | (some block, v) =>
      match cacheGet v block with
      | none => (none, bitmapFree v v.sb.bmapStart block)
      | some entries =>
        let entries := strcpyEntry entries 0 nr dot
        let entries := strcpyEntry entries 1 parent dotdot
        (some ((freshInode type 4096).setRoot 0 block), v.store block entries)
  else (some (freshInode type 0), v)

def Inode.setLinks (ino : Inode) (n : UInt16) : Inode := { ino with linkCount := n }

/-- `parent.link_count` replaced, if the parent can be read and `f` gives a new
count. -/
def updateLinks (v : Volume) (parent : Nat) (f : UInt16 → Option UInt16) : Volume :=
  match fsGetInode v parent with
  | none => v
  | some ino =>
    match f ino.linkCount with
    | none => v
    | some n => (fsPutInode v parent (ino.setLinks n)).getD v

/-- The part of `fs_create_path` after an inode number has been allocated. -/
def createAt (v : Volume) (nr parent : Nat) (leaf : Str) (type : UInt16) : Option Nat × Volume :=
  match newInode v nr parent type with
  | (none, v) => (none, bitmapFree v v.sb.imapStart nr)
  | (some inode, v) =>
    match fsPutInode v nr inode with
    | none =>
      let v := freeInodeBlocks v inode
      (none, bitmapFree v v.sb.imapStart nr)
    | some v =>
      match dirAdd v parent leaf nr with
      | (false, v) =>
        let v := freeInodeBlocks v inode
        (none, bitmapFree v v.sb.imapStart nr)
      | (true, v) => (some nr, if type = fsTypeDirectory then
          updateLinks v parent (fun n => some (n + 1)) else v)

/-- `fs_create_path`: the new inode number, `none` when it returns 0. -/
def fsCreatePath (v : Volume) (path : Str) (cwd : Nat) (type : UInt16) : Option Nat × Volume :=
  match pathParent v path cwd with
  | none => (none, v)
  | some (parent, leaf) =>
    if leaf = dot ∨ leaf = dotdot ∨ (dirFind v parent leaf).isSome then (none, v)
    else
      let (allocated, v) := bitmapAllocate v v.sb.imapStart (fsRootInode + 1) v.sb.totalInodes
      if allocated < 0 then (none, v) else createAt v allocated.toNat parent leaf type

/-! ## File data -/

/-- The loop of `fs_read_inode`. -/
def readBlocks (v : Volume) (ino : Inode) (pos n : Nat) : Option (List UInt8) :=
  if n = 0 then some []
  else
    let chunk := min (4096 - pos % 4096) n
    match (inodeDataBlock v ino (pos / 4096) false).1 with
    | none => none
    | some block =>
      let piece := if block = 0 then List.replicate chunk 0
        else slice (v.disk block) (pos % 4096) chunk
      (readBlocks v ino (pos + chunk) (n - chunk)).map (piece ++ ·)
termination_by n
decreasing_by omega

/-- `fs_read_inode`: the bytes it copies out, `none` for `-1`. -/
def fsReadInode (v : Volume) (nr offset length : Nat) : Option (List UInt8) :=
  match fsGetInode v nr with
  | none => none
  | some ino =>
    if ino.type ≠ fsTypeFile then none
    else if ino.size.toNat ≤ offset ∨ length = 0 then some []
    else
      let length := min length (ino.size.toNat - offset)
      if 2 ^ 64 - 1 - length < offset then none else readBlocks v ino offset length

/-- The `int` it returns, their number cast down from `uint32_t`. -/
def readResult (out : Option (List UInt8)) : Int :=
  match out with
  | none => -1
  | some bytes => i32 bytes.length

/-- The loop of `fs_write_inode`; the inode is the local one. -/
def writeBlocks (v : Volume) (ino : Inode) (pos : Nat) (data : List UInt8) : Bool × Inode × Volume :=
  if _h : data = [] then (true, ino, v)
  else
    let chunk := min (4096 - pos % 4096) data.length
    match inodeDataBlock v ino (pos / 4096) true with
    | (none, ino, v) => (false, ino, v)
    | (some 0, ino, v) => (false, ino, v)
    | (some block, ino, v) =>
      match cacheGet v block with
      | none => (false, ino, v)
      | some b =>
        writeBlocks (v.store block (splice b (pos % 4096) (data.take chunk))) ino (pos + chunk)
          (data.drop chunk)
termination_by data.length
decreasing_by
  have : 0 < data.length := List.length_pos_iff.mpr _h
  rw [List.length_drop]
  omega

/-- A failed write: new blocks are released and the old inode is put back. -/
def abortWrite (v : Volume) (nr : Nat) (old now : Inode) : Volume :=
  let v := rollbackNewBlocks v old now
  (fsPutInode v nr old).getD v

/-- `fs_write_inode`: the number of bytes it returns as an `int`, `none` for `-1`. -/
def fsWriteInode (v : Volume) (nr offset : Nat) (data : List UInt8) : Option Nat × Volume :=
  match fsGetInode v nr with
  | none => (none, v)
  | some old =>
    if old.type ≠ fsTypeFile ∨ fsMaxFileSize < offset ∨ fsMaxFileSize - offset < data.length ∨
        2 ^ 64 - 1 - data.length < offset then (none, v)
    else
      match writeBlocks v old offset data with
      | (false, ino, v) => (none, abortWrite v nr old ino)
      | (true, ino, v) =>
        let ino := if ino.size.toNat < offset + data.length then
          { ino with size := UInt64.ofNat (offset + data.length) } else ino
        match fsPutInode v nr ino with
        | none => (none, abortWrite v nr old ino)
        | some v => (some data.length, v)

/-! ## Removal -/

/-- The end of `fs_unlink_path`: an inode nobody has open is released, one that
is open only loses its link. -/
def unlinkInode (v : Volume) (nr : Nat) (inode : Inode) : Bool × Volume :=
  if v.openRefs nr = 0 then
    let v := freeInodeBlocks v inode
    let v := bitmapFree v v.sb.imapStart nr
    match fsPutInode v nr Inode.blank with
    | none => (false, v)
    | some v => (true, v)
  else
    match fsPutInode v nr inode with
    | none => (false, v)
    | some v => (true, v)

/-- The part of `fs_unlink_path` after the entry and its inode have been found. -/
def removeEntry (v : Volume) (parent nr block index : Nat) (inode : Inode) : Bool × Volume :=
  if inode.type = fsTypeDirectory ∧ dirEmpty v nr = false then (false, v)
  else
    match cacheGet v block with
    | none => (false, v)
    | some entries =>
      let v := v.store block (clearEntry entries index)
      let v := if inode.type = fsTypeDirectory then
        updateLinks v parent (fun n => if 0 < n then some (n - 1) else none) else v
      unlinkInode v nr (inode.setLinks 0)

def fsUnlinkPath (v : Volume) (path : Str) (cwd : Nat) : Bool × Volume :=
  match pathParent v path cwd with
  | none => (false, v)
  | some (parent, leaf) =>
    if leaf = dot ∨ leaf = dotdot then (false, v)
    else
      match dirFind v parent leaf with
      | none => (false, v)
      | some (nr, block, index) =>
        match fsGetInode v nr with
        | none => (false, v)
        | some inode => removeEntry v parent nr block index inode

/-- `g_open_refs[nr] = n`. -/
def Volume.setRefs (v : Volume) (nr : Nat) (n : UInt32) : Volume :=
  { v with openRefs := Function.update v.openRefs nr n }

/-- An unlinked inode goes when its last reference does. -/
def forgetInode (v : Volume) (nr : Nat) (inode : Inode) : Volume :=
  let v := freeInodeBlocks v inode
  let v := (fsPutInode v nr Inode.blank).getD v
  bitmapFree v v.sb.imapStart nr

def releaseInode (v : Volume) (nr : Nat) : Volume :=
  if ¬validInode v nr ∨ v.openRefs nr = 0 then v
  else
    let v := v.setRefs nr (v.openRefs nr - 1)
    if v.openRefs nr = 0 then
      match fsGetInode v nr with
      | none => v
      | some inode => if inode.linkCount = 0 then forgetInode v nr inode else v
    else v

/-! ## Opening -/

/-- The inode an open request works on: found, or created when bit 0 of the
flags is set. -/
def openTarget (v : Volume) (path : Str) (flags : UInt32) : Option (Nat × Inode) × Volume :=
  match fsLookupPath v path fsRootInode with
  | some found => (some found, v)
  | none =>
    if flags &&& 1 = 0 then (none, v)
    else
      match fsCreatePath v path fsRootInode fsTypeFile with
      | (none, v) => (none, v)
      | (some nr, v) => ((fsGetInode v nr).map fun ino => (nr, ino), v)

/-- The `FS_REQUEST_OPEN` case of `fs_service_handle` for a canonical path. -/
def fsOpen (v : Volume) (path : Str) (flags : UInt32) : Option (Nat × Inode) × Volume :=
  match openTarget v path flags with
  | (none, v) => (none, v)
  | (some (nr, ino), v) =>
    if ino.type ≠ fsTypeFile then (none, v)
    else
      let (ok, ino, v) := if flags &&& 2 = 0 then (true, ino, v) else truncateInode v nr ino
      if ok then (some (nr, ino), v.setRefs nr (v.openRefs nr + 1)) else (none, v)

end OrangeOs.Fs
