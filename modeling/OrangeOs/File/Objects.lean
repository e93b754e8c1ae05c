import OrangeOs.File.Pipe
import OrangeOs.Lib.Tally

/-! # File objects and descriptors

The file objects and pipes of `file.c`, the descriptors of the processes, and the system calls of
`syscall.c` that take and drop references. A system call runs with interrupts off and is one step
up to the point where it blocks; only READ and WRITE on a pipe hold an object there. Whether
`kmalloc` and the copies from and to user memory succeed comes with the call. Objects have numbers
that are not used again.
-/

namespace OrangeOs.File

open Function

open Pipe (End pipeCapacity)
open Ipc (Tid)

abbrev ProcId := Nat
abbrev FileId := Nat
abbrev PipeId := Nat

/-- `STD_FILE_COUNT` is the same number, so `stdio` and `files` are one table indexed by the
descriptor. -/
def firstFileFd : Nat := 3

def maxOpenFiles : Nat := 32

def fdCount : Nat := firstFileFd + maxOpenFiles

inductive Kind where
  | regular
  | pipe (e : End) (i : PipeId)
deriving DecidableEq

structure FileObject where
  refs : Nat
  kind : Kind
deriving DecidableEq

/-- `struct pipe_object` but for the bytes. -/
structure PipeObject where
  readers : Nat
  writers : Nat
  count : Nat

def PipeObject.refs (p : PipeObject) : End → Nat
  | .read => p.readers
  | .write => p.writers

def PipeObject.setRefs (p : PipeObject) : End → Nat → PipeObject
  | .read, n => { p with readers := n }
  | .write, n => { p with writers := n }

/-- A READ or WRITE between `get_file_object` and `file_release`. -/
inductive Call where
  | read (f : FileId) (length : Nat)
  | write (f : FileId) (length : Nat)
deriving DecidableEq

def Call.file : Call → FileId
  | .read f _ | .write f _ => f

/-- A thread that is dead or a zombie has no process; a process that has exited is not running. -/
structure State where
  file : FileId → Option FileObject
  pipe : PipeId → Option PipeObject
  slot : ProcId → Nat → Option FileId
  process : Tid → Option ProcId
  call : Tid → Option Call
  running : ProcId → Bool
  exitRequested : ProcId → Bool
  nextFile : Nat
  nextPipe : Nat
  nextProc : Nat
  nextTid : Nat

def boot : State where
  file := fun _ => none
  pipe := fun _ => none
  slot := fun _ _ => none
  process := fun _ => none
  call := fun _ => none
  running := fun _ => false
  exitRequested := fun _ => false
  nextFile := 0
  nextPipe := 0
  nextProc := 0
  nextTid := 0

namespace State

/-! ## Objects -/

def fileRetain (s : State) (f : FileId) : State :=
  match s.file f with
  | none => s
  | some o =>
    let s' := { s with file := update s.file f (some { o with refs := o.refs + 1 }) }
    match o.kind with
    | .regular => s'
    | .pipe e i =>
      { s' with
        pipe := update s.pipe i
          ((s.pipe i).map fun p => p.setRefs e (p.refs e + 1)) }

/-- The part of `file_release` under the guard of the pipe, and the `kfree` of an empty pipe. -/
def dropEnd (s : State) (e : End) (i : PipeId) : State :=
  match s.pipe i with
  | none => s
  | some p =>
    let p' := if p.refs e ≠ 0 then p.setRefs e (p.refs e - 1) else p
    { s with
      pipe := update s.pipe i
        (if p'.readers = 0 ∧ p'.writers = 0 then none else some p') }

def fileRelease (s : State) (f : FileId) : State :=
  match s.file f with
  | none => s
  | some o =>
    if o.refs = 0 then s
    else
      let refs := o.refs - 1
      let s' := { s with
        file := update s.file f (if refs = 0 then none else some { o with refs }) }
      match o.kind with
      | .regular => s'
      | .pipe e i => s'.dropEnd e i

/-- `file_regular_create` and `file_pipe_create`. -/
def fileCreate (s : State) (kind : Kind) : State × FileId :=
  ({ s with
      file := update s.file s.nextFile (some ⟨1, kind⟩)
      nextFile := s.nextFile + 1 },
    s.nextFile)

/-- `pipe_create`, with the results of its three allocations. If one fails, what was made is freed
again. -/
def pipeCreate (s : State) (pipe readFile writeFile : Bool) :
    State × Option (FileId × FileId) :=
  if pipe = false ∨ readFile = false ∨ writeFile = false then (s, none)
  else
    let i := s.nextPipe
    let s := { s with
      pipe := update s.pipe i (some ⟨1, 1, 0⟩)
      nextPipe := i + 1 }
    let (s, r) := s.fileCreate (.pipe .read i)
    let (s, w) := s.fileCreate (.pipe .write i)
    (s, some (r, w))

/-! ## Descriptors -/

def setSlot (s : State) (p : ProcId) (fd : Nat) (o : Option FileId) : State :=
  { s with slot := update s.slot p (update (s.slot p) fd o) }

def getFileObject (s : State) (p : ProcId) (fd : Nat) : State × Option FileId :=
  if fdCount ≤ fd then (s, none)
  else
    match s.slot p fd with
    | none => (s, none)
    | some f => (s.fileRetain f, some f)

def detachFileObject (s : State) (p : ProcId) (fd : Nat) : State × Option FileId :=
  if fdCount ≤ fd then (s, none) else (s.setSlot p fd none, s.slot p fd)

/-- `install_file_object` without a requested descriptor: the first free one above the standard
ones. -/
def installFileObject (s : State) (p : ProcId) (f : FileId) : State × Option Nat :=
  match (List.range maxOpenFiles).find? fun i => (s.slot p (firstFileFd + i)).isNone with
  | some i => (s.setSlot p (firstFileFd + i) (some f), some (firstFileFd + i))
  | none => (s, none)

/-- The loops of `process_close_files` that empty the descriptors and collect the objects. -/
def takeFiles (p : ProcId) : List Nat → State → State × List FileId
  | [], s => (s, [])
  | fd :: fds, s =>
    let rest := takeFiles p fds (s.setSlot p fd none)
    (rest.1, (s.slot p fd).toList ++ rest.2)

def processCloseFiles (s : State) (p : ProcId) : State :=
  let (s, objects) := takeFiles p (List.range fdCount) s
  objects.foldl fileRelease s

/-! ## System calls -/

/-- A call of thread `t` gives its object back. -/
def leave (s : State) (t : Tid) (f : FileId) : State :=
  fileRelease { s with call := update s.call t none } f

def setPipe (s : State) (i : PipeId) (p : PipeObject) : State :=
  { s with pipe := update s.pipe i (some p) }

/-- `file_read` or `file_write` of the call thread `t` is in: a round of the loop on a pipe, after
which the thread may be BLOCKED in its call, or an inode operation. -/
def round (s : State) (t : Tid) : State :=
  match s.call t with
  | none => s
  | some (.read f length) =>
    match (s.file f).map FileObject.kind with
    | some (.pipe .read i) =>
      match s.pipe i with
      | none => s
      | some p =>
        if p.count ≠ 0 then
          (s.setPipe i { p with count := p.count - min length p.count }).leave t f
        else if p.writers = 0 then s.leave t f
        else s
    | _ => s.leave t f
  | some (.write f length) =>
    match (s.file f).map FileObject.kind with
    | some (.pipe .write i) =>
      match s.pipe i with
      | none => s
      | some p =>
        if p.readers = 0 then s.leave t f
        else if p.count < pipeCapacity then
          (s.setPipe i
            { p with count := p.count + min length (pipeCapacity - p.count) }).leave t f
        else s
    | _ => s.leave t f

/-- Thread `t` goes on with its object in `file_read` or `file_write`. -/
def enter (s : State) (t : Tid) (c : Call) : State :=
  round { s with call := update s.call t (some c) } t

/-- READ; without an object the descriptor is the terminal or an error. -/
def sysRead (s : State) (t : Tid) (p : ProcId) (fd length : Nat) (writable staging : Bool) :
    State :=
  if 4096 < length ∨ length = 0 ∨ writable = false then s
  else
    match s.getFileObject p fd with
    | (s, none) => s
    | (s, some f) => if staging = false then s else s.enter t (.read f length)

def sysWrite (s : State) (t : Tid) (p : ProcId) (fd length : Nat) (staging copied : Bool) :
    State :=
  if 4096 < length then s
  else
    match s.getFileObject p fd with
    | (s, none) => s
    | (s, some f) =>
      if length = 0 ∨ staging = false ∨ copied = false then s.fileRelease f
      else s.enter t (.write f length)

/-- OPEN, with the answer of the file system service. -/
def sysOpen (s : State) (p : ProcId) (found created : Bool) : State :=
  if found = false ∨ created = false then s
  else
    let (s, f) := s.fileCreate .regular
    match s.installFileObject p f with
    | (s, some _) => s
    | (s, none) => s.fileRelease f

def sysClose (s : State) (p : ProcId) (fd : Nat) : State :=
  match s.detachFileObject p fd with
  | (s, none) => s
  | (s, some f) => s.fileRelease f

def sysDup (s : State) (p : ProcId) (fd : Nat) : State :=
  match s.getFileObject p fd with
  | (s, none) => s
  | (s, some f) =>
    match s.installFileObject p f with
    | (s, some _) => s
    | (s, none) => s.fileRelease f

def sysDup2 (s : State) (p : ProcId) (fd newfd : Nat) : State :=
  if fdCount ≤ fd ∨ fdCount ≤ newfd then s
  else if fd = newfd then
    match s.getFileObject p fd with
    | (s, none) => s
    | (s, some f) => s.fileRelease f
  else
    match s.slot p fd with
    | none => s
    | some f =>
      let replaced := s.slot p newfd
      let s := (s.fileRetain f).setSlot p newfd (some f)
      match replaced with
      | none => s
      | some g => s.fileRelease g

/-- PIPE; when the second descriptor is missing the read end is released before its descriptor is
cleared. -/
def sysPipe (s : State) (p : ProcId) (writable pipe readFile writeFile copied : Bool) : State :=
  if writable = false then s
  else
    match s.pipeCreate pipe readFile writeFile with
    | (s, none) => s
    | (s, some (r, w)) =>
      match s.installFileObject p r with
      | (s, none) => (s.fileRelease r).fileRelease w
      | (s, some fd) =>
        match s.installFileObject p w with
        | (s, none) => ((s.fileRelease r).detachFileObject p fd).1.fileRelease w
        | (s, some fd') =>
          if copied = true then s
          else
            let s := (s.detachFileObject p fd).1.fileRelease r
            (s.detachFileObject p fd').1.fileRelease w

def processIsSingleThreaded (s : State) (p : ProcId) : Bool :=
  (List.range s.nextTid).countP (fun t => s.process t = some p) == 1

/-- The child `c` gets what the parent `p` has at a descriptor. -/
def inherit (s : State) (p c : ProcId) (fd : Nat) : State :=
  match s.slot p fd with
  | none => s.setSlot c fd none
  | some f => (s.setSlot c fd (some f)).fileRetain f

/-- `process_fork`; `cloned` says whether it gets as far as the descriptors, `thread` whether the
thread of the child can be allocated. -/
def processFork (s : State) (p : ProcId) (cloned thread : Bool) : State :=
  if s.processIsSingleThreaded p = false ∨ cloned = false then s
  else
    let c := s.nextProc
    let s := { s with nextProc := c + 1 }
    let s := (List.range fdCount).foldl (fun s fd => s.inherit p c fd) s
    if thread = false then s.processCloseFiles c
    else
      { s with
        running := update s.running c true
        process := update s.process s.nextTid (some c)
        nextTid := s.nextTid + 1 }

/-- The threads that `process_exit` of thread `t` frees, wherever they are. -/
def victim (s : State) (t : Tid) (p : ProcId) (u : Tid) : Prop := u ≠ t ∧ s.process u = some p

instance (s : State) (t : Tid) (p : ProcId) : DecidablePred (s.victim t p) := fun u =>
  inferInstanceAs (Decidable (u ≠ t ∧ s.process u = some p))

def freeVictims (s : State) (t : Tid) (p : ProcId) : State :=
  { s with
    process := fun u => if s.victim t p u then none else s.process u
    call := fun u => if s.victim t p u then none else s.call u }

/-- `process_exit`; it does not return, and the thread is a zombie. -/
def processExit (s : State) (t : Tid) (p : ProcId) : State :=
  let s := { s with exitRequested := update s.exitRequested p true }
  let s := (s.freeVictims t p).processCloseFiles p
  { s with
    running := update s.running p false
    process := update s.process t none }

/-- KILL of process `q` by a thread of process `p`. -/
def sysKill (s : State) (t : Tid) (p q : ProcId) : State :=
  if p = q then s.processExit t p
  else if s.running q = true then
    { s with exitRequested := update s.exitRequested q true }
  else s

end State

/-- A system call of a thread that is in none, or `resume`: the next round of a READ or WRITE on a
pipe. `notice` is the check for a kill at the end of a system call and in the timer interrupt. -/
inductive Op where
  | spawn
  | createThread (t : Tid)
  | openFile (t : Tid) (found created : Bool)
  | read (t : Tid) (fd length : Nat) (writable staging : Bool)
  | write (t : Tid) (fd length : Nat) (staging copied : Bool)
  | resume (t : Tid)
  | close (t : Tid) (fd : Nat)
  | dup (t : Tid) (fd : Nat)
  | dup2 (t : Tid) (fd newfd : Nat)
  | pipe (t : Tid) (writable pipe readFile writeFile copied : Bool)
  | fork (t : Tid) (cloned thread : Bool)
  | exit (t : Tid)
  | kill (t : Tid) (q : ProcId)
  | notice (t : Tid)

namespace State

def asUser (s : State) (t : Tid) (act : ProcId → State) : State :=
  match s.process t, s.call t with
  | some p, none => act p
  | _, _ => s

end State

def apply (s : State) : Op → State
  | .spawn =>
    { s with
      running := update s.running s.nextProc true
      process := update s.process s.nextTid (some s.nextProc)
      nextProc := s.nextProc + 1
      nextTid := s.nextTid + 1 }
  | .createThread t => s.asUser t fun p =>
    { s with
      process := update s.process s.nextTid (some p)
      nextTid := s.nextTid + 1 }
  | .openFile t found created => s.asUser t fun p => s.sysOpen p found created
  | .read t fd length writable staging => s.asUser t fun p =>
    s.sysRead t p fd length writable staging
  | .write t fd length staging copied => s.asUser t fun p =>
    s.sysWrite t p fd length staging copied
  | .resume t => s.round t
  | .close t fd => s.asUser t fun p => s.sysClose p fd
  | .dup t fd => s.asUser t fun p => s.sysDup p fd
  | .dup2 t fd newfd => s.asUser t fun p => s.sysDup2 p fd newfd
  | .pipe t writable pipe readFile writeFile copied => s.asUser t fun p =>
    s.sysPipe p writable pipe readFile writeFile copied
  | .fork t cloned thread => s.asUser t fun p => s.processFork p cloned thread
  | .exit t => s.asUser t fun p => s.processExit t p
  | .kill t q => s.asUser t fun p => s.sysKill t p q
  | .notice t => s.asUser t fun p =>
    if s.exitRequested p = true then s.processExit t p else s

def run (ops : List Op) : State := ops.foldl apply boot

namespace State

/-! ## References -/

def slots (s : State) : List (ProcId × Nat) := List.range s.nextProc ×ˢ List.range fdCount

/-- How many descriptors point to a file object. -/
def slotUses (s : State) (f : FileId) : Nat := pointing s.slots (fun k => s.slot k.1 k.2) f

/-- The object that the call of a live thread uses. -/
def objectInUse (s : State) (t : Tid) : Option FileId :=
  (s.process t).bind fun _ => (s.call t).map Call.file

/-- How many calls of live threads use a file object. -/
def callUses (s : State) (f : FileId) : Nat := pointing (List.range s.nextTid) s.objectInUse f

/-- The reference count of the file object of an end of a pipe, which is 0 if there is none. -/
def EndRefs (s : State) (i : PipeId) (e : End) (n : Nat) : Prop :=
  (∃ f, s.file f = some ⟨n, .pipe e i⟩) ∨
    n = 0 ∧ ∀ f o, s.file f = some o → o.kind ≠ .pipe e i

end State

end OrangeOs.File
