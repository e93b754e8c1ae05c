import OrangeOs.File.Objects
import OrangeOs.Fs.Run

/-! # File objects over the file system

The calls of `syscall.c` on regular files together with what they do to the volume: an object of
kind `FILE_OBJECT_REGULAR` has an inode and an offset, and the release of the last reference to it
takes one of `g_open_refs` back. A request to the file service is one step. OPEN is two of them:
the service answers, and the caller goes on with the answer; other threads may run in between.
-/

namespace OrangeOs.File

open Function

open Ipc (Tid)
open Fs (Volume CString fsOpen fsCreatePath fsUnlinkPath fsReadInode fsWriteInode releaseInode
  fsRootInode fsTypeDirectory)

/-- What the answer to an OPEN request holds, with the flags of the request. -/
structure Answer where
  inode : Nat
  size : UInt64
  flags : UInt32

/-- The descriptor tables and the volume, the `inode_nr` and `offset` of the regular file objects,
and the OPEN calls whose answer is there. -/
structure System where
  tables : State
  volume : Volume
  inode : FileId → Nat
  offset : FileId → Nat
  opening : List (Tid × Answer)

namespace System

/-! ## Counting -/

/-- The inode of a live regular file object. -/
def inodeOf (s : System) (f : FileId) : Option Nat :=
  match s.tables.file f with
  | some ⟨_, .regular⟩ => some (s.inode f)
  | _ => none

/-- The number of live regular file objects with `inode_nr = i`. -/
def openObjects (s : System) (i : Nat) : Nat :=
  pointing (List.range s.tables.nextFile) s.inodeOf i

/-- The number of OPEN calls that have been answered with inode `i` and have not gone on. -/
def openings (s : System) (i : Nat) : Nat := s.opening.countP fun a => a.2.inode = i

/-- All regular file objects and answered OPEN calls. -/
def held (s : System) : Nat :=
  (List.range s.tables.nextFile).countP (fun f => (s.inodeOf f).isSome) + s.opening.length

/-- Each of them takes some memory, an object its block of the kernel heap and a call the kernel
stack of its thread, of which there is less than for this many. -/
def heldLimit : Nat := 2 ^ 32 - 1

/-! ## Objects -/

/-- `file_release`; `fs_release_inode` for the last reference to a regular file. -/
def fileRelease (s : System) (f : FileId) : System :=
  match s.tables.file f with
  | some ⟨1, .regular⟩ =>
    { s with tables := s.tables.fileRelease f, volume := releaseInode s.volume (s.inode f) }
  | _ => { s with tables := s.tables.fileRelease f }

/-- `file_read` on a regular file. -/
def fileRead (s : System) (f : FileId) (length : Nat) : System × Option (List UInt8) :=
  match fsReadInode s.volume (s.inode f) (s.offset f) length with
  | none => (s, none)
  | some bytes =>
    ({ s with offset := update s.offset f (s.offset f + bytes.length) }, some bytes)

/-- `file_write` on a regular file. -/
def fileWrite (s : System) (f : FileId) (data : List UInt8) : System :=
  match fsWriteInode s.volume (s.inode f) (s.offset f) data with
  | (none, v) => { s with volume := v }
  | (some n, v) =>
    { s with volume := v, offset := update s.offset f (s.offset f + n) }

/-! ## System calls -/

/-- The service answers an OPEN request. -/
def openRequest (s : System) (t : Tid) (path : CString) (flags : UInt32) : System :=
  if heldLimit ≤ s.held then s
  else
    match fsOpen s.volume path flags with
    | (none, v) => { s with volume := v }
    | (some (nr, ino), v) =>
      { s with volume := v, opening := (t, ⟨nr, ino.size, flags⟩) :: s.opening }

/-- OPEN after the answer: `created` says whether the object can be allocated; if not, a RELEASE
request goes to the service. -/
def openFinish (s : System) (t : Tid) (p : ProcId) (created : Bool) : System :=
  match s.opening.lookup t with
  | none => s
  | some a =>
    let s := { s with opening := s.opening.eraseP fun b => b.1 == t }
    if created = false then { s with volume := releaseInode s.volume a.inode }
    else
      let (tables, f) := s.tables.fileCreate .regular
      let s := { s with
        tables := tables
        inode := update s.inode f a.inode
        offset := update s.offset f (if a.flags &&& 4 ≠ 0 then a.size.toNat else 0) }
      match s.tables.installFileObject p f with
      | (tables, some _) => { s with tables := tables }
      | (tables, none) => { s with tables := tables }.fileRelease f

/-- READ; the bytes are those read from a regular file. -/
def sysRead (s : System) (t : Tid) (p : ProcId) (fd length : Nat) (writable staging : Bool) :
    System × Option (List UInt8) :=
  if 4096 < length ∨ length = 0 ∨ writable = false then (s, none)
  else
    match s.tables.getFileObject p fd with
    | (tables, none) => ({ s with tables := tables }, none)
    | (tables, some f) =>
      let s := { s with tables := tables }
      if staging = false then (s, none)
      else
        match s.inodeOf f with
        | some _ =>
          let (s, out) := s.fileRead f length
          (s.fileRelease f, out)
        | none => ({ s with tables := s.tables.enter t (.read f length) }, none)

def sysWrite (s : System) (t : Tid) (p : ProcId) (fd : Nat) (data : List UInt8)
    (staging copied : Bool) : System :=
  if 4096 < data.length then s
  else
    match s.tables.getFileObject p fd with
    | (tables, none) => { s with tables := tables }
    | (tables, some f) =>
      let s := { s with tables := tables }
      if data.length = 0 ∨ staging = false ∨ copied = false then s.fileRelease f
      else
        match s.inodeOf f with
        | some _ => (s.fileWrite f data).fileRelease f
        | none => { s with tables := s.tables.enter t (.write f data.length) }

/-- The next round of a READ or WRITE that waits; only pipes make a call wait. -/
def resume (s : System) (t : Tid) : System :=
  match (s.tables.call t).bind fun c => s.inodeOf c.file with
  | some _ => s
  | none => { s with tables := s.tables.round t }

def sysClose (s : System) (p : ProcId) (fd : Nat) : System :=
  match s.tables.detachFileObject p fd with
  | (tables, none) => { s with tables := tables }
  | (tables, some f) => { s with tables := tables }.fileRelease f

def sysDup (s : System) (p : ProcId) (fd : Nat) : System :=
  match s.tables.getFileObject p fd with
  | (tables, none) => { s with tables := tables }
  | (tables, some f) =>
    match tables.installFileObject p f with
    | (tables, some _) => { s with tables := tables }
    | (tables, none) => { s with tables := tables }.fileRelease f

def sysDup2 (s : System) (p : ProcId) (fd newfd : Nat) : System :=
  if fdCount ≤ fd ∨ fdCount ≤ newfd then s
  else if fd = newfd then
    match s.tables.getFileObject p fd with
    | (tables, none) => { s with tables := tables }
    | (tables, some f) => { s with tables := tables }.fileRelease f
  else
    match s.tables.slot p fd with
    | none => s
    | some f =>
      let s' := { s with tables := (s.tables.fileRetain f).setSlot p newfd (some f) }
      match s.tables.slot p newfd with
      | none => s'
      | some g => s'.fileRelease g

def processCloseFiles (s : System) (p : ProcId) : System :=
  let (tables, objects) := State.takeFiles p (List.range fdCount) s.tables
  objects.foldl fileRelease { s with tables := tables }

def processFork (s : System) (p : ProcId) (cloned thread : Bool) : System :=
  if s.tables.processIsSingleThreaded p = false ∨ cloned = false then s
  else
    let c := s.tables.nextProc
    let tables := (List.range fdCount).foldl (fun tables fd => tables.inherit p c fd)
      { s.tables with nextProc := c + 1 }
    if thread = false then { s with tables := tables }.processCloseFiles c
    else
      { s with
        tables := { tables with
          running := update tables.running c true
          process := update tables.process tables.nextTid (some c)
          nextTid := tables.nextTid + 1 } }

def processExit (s : System) (t : Tid) (p : ProcId) : System :=
  let tables := { s.tables with exitRequested := update s.tables.exitRequested p true }
  let s := { s with tables := tables.freeVictims t p }.processCloseFiles p
  { s with
    tables := { s.tables with
      running := update s.tables.running p false
      process := update s.tables.process t none } }

def sysKill (s : System) (t : Tid) (p q : ProcId) : System :=
  if p = q then s.processExit t p else { s with tables := s.tables.sysKill t p q }

/-- UNLINK and MKDIR are one request each. -/
def sysUnlink (s : System) (path : CString) : System :=
  { s with volume := (fsUnlinkPath s.volume path fsRootInode).2 }

def sysMkdir (s : System) (path : CString) : System :=
  { s with volume := (fsCreatePath s.volume path fsRootInode fsTypeDirectory).2 }

/-! ## Steps -/

inductive Op where
  | spawn
  | createThread (t : Tid)
  | openRequest (t : Tid) (path : CString) (flags : UInt32)
  | openFinish (t : Tid) (created : Bool)
  | read (t : Tid) (fd length : Nat) (writable staging : Bool)
  | write (t : Tid) (fd : Nat) (data : List UInt8) (staging copied : Bool)
  | resume (t : Tid)
  | close (t : Tid) (fd : Nat)
  | dup (t : Tid) (fd : Nat)
  | dup2 (t : Tid) (fd newfd : Nat)
  | pipe (t : Tid) (writable pipe readFile writeFile copied : Bool)
  | fork (t : Tid) (cloned thread : Bool)
  | exit (t : Tid)
  | kill (t : Tid) (q : ProcId)
  | notice (t : Tid)
  | unlink (t : Tid) (path : CString)
  | mkdir (t : Tid) (path : CString)

/-- What a thread does that is in no call. -/
def asUser (s : System) (t : Tid) (act : ProcId → System) : System :=
  match s.tables.process t, s.tables.call t, s.opening.lookup t with
  | some p, none, none => act p
  | _, _, _ => s

def step (s : System) : Op → System
  | .spawn => { s with tables := apply s.tables .spawn }
  | .createThread t => s.asUser t fun _ => { s with tables := apply s.tables (.createThread t) }
  | .openRequest t path flags => s.asUser t fun _ => s.openRequest t path flags
  | .openFinish t created =>
    match s.tables.process t with
    | none => s
    | some p => s.openFinish t p created
  | .read t fd length writable staging => s.asUser t fun p =>
    (s.sysRead t p fd length writable staging).1
  | .write t fd data staging copied => s.asUser t fun p => s.sysWrite t p fd data staging copied
  | .resume t => s.resume t
  | .close t fd => s.asUser t fun p => s.sysClose p fd
  | .dup t fd => s.asUser t fun p => s.sysDup p fd
  | .dup2 t fd newfd => s.asUser t fun p => s.sysDup2 p fd newfd
  | .pipe t writable pipe readFile writeFile copied => s.asUser t fun p =>
    { s with tables := s.tables.sysPipe p writable pipe readFile writeFile copied }
  | .fork t cloned thread => s.asUser t fun p => s.processFork p cloned thread
  | .exit t => s.asUser t fun p => s.processExit t p
  | .kill t q => s.asUser t fun p => s.sysKill t p q
  | .notice t => s.asUser t fun p =>
    if s.tables.exitRequested p = true then s.processExit t p else s
  | .unlink t path => s.asUser t fun _ => s.sysUnlink path
  | .mkdir t path => s.asUser t fun _ => s.sysMkdir path

/-- The system after `fs_init` has mounted a volume. -/
def boot (v : Volume) : System := ⟨File.boot, v, fun _ => 0, fun _ => 0, []⟩

def run (s : System) (ops : List Op) : System := ops.foldl step s

end System

end OrangeOs.File
