import OrangeOs.File.Objects

/-! # Threads and processes

The tables of threads and processes and the scheduler's ring. Objects have numbers that are
not used again, so a freed object stays apart from a later one in the same page. `Ipc` keeps
the status of a thread with its message fields; running is being the current thread, and a
dead thread is a zombie without a process. The list of a process's threads, the list of its
children and the list of all processes stand for the chains of pointers in the source.
-/

namespace OrangeOs.Proc

open Ipc Function

abbrev ProcId := Nat

/-- `kernel_process`. -/
def kernelProcess : ProcId := 0

inductive Lifecycle where
  | joinableRunning
  | joinableZombie
  | detachedRunning
  | detachedZombie
  | reaped
deriving DecidableEq

/-- What `waiting_lock` may point to. -/
inductive Lock where
  | pipe (i : Nat)
  | mutex (i : Nat)
deriving DecidableEq

/-- The call of the kernel a thread is in; the source has it on the thread's stack. -/
inductive Doing where
  | user
  | join (target : Tid)
  | wait (pid : UInt32)
  | futex
  | send
  | receive
  | pipeRead (pipe length : Nat)
  | pipeWrite (pipe length : Nat)
  | mutex (mutex : Nat)
  | sleep
deriving DecidableEq

/-- `struct thread` but for its IPC and futex fields. -/
structure Task where
  process : Option ProcId
  lifecycle : Lifecycle
  lifecycleClaimed : Bool
  exitStatus : Int
  joinWaiter : Option Tid
  waitingLock : Option Lock
  wakeTick : Nat
  sleeping : Bool
  /-- `object_paddr` and `stack_base`: whether the page is held. -/
  objectPage : Bool
  stackPage : Bool
  doing : Doing

/-- The futex fields of `struct thread`. -/
structure Waiter where
  waiting : Bool
  bucket : Nat
  result : Int
  process : Option ProcId
  uaddr : UInt64
  prev : Option Tid
  next : Option Tid

/-- The buckets, with the fields of the threads that their lists run through. -/
structure Futexes where
  node : Tid → Waiter
  head : Nat → Option Tid
  waiterCount : Nat

inductive ProcState where
  | running
  | zombie
  | dead
deriving DecidableEq

/-- `struct process`; `address` is where it stands, and `cr3` and `vmas` say whether it has an
address space and areas. -/
structure Process where
  pid : UInt32
  address : UInt64
  state : ProcState
  exitStatus : Int
  parent : Option ProcId
  children : List ProcId
  mainThread : Option Tid
  threads : List Tid
  threadCount : Nat
  exitRequested : Bool
  killStatus : Int
  objectPage : Bool
  cr3 : Bool
  vmas : Bool
  files : List Nat

abbrev Pipe := File.PipeObject

abbrev File := OrangeOs.File.FileObject

/-- `others` are the threads behind `current` in the ring. -/
structure Kernel (β : Type) where
  ipc : Threads β
  task : Tid → Task
  futex : Futexes
  proc : ProcId → Process
  procs : List ProcId
  current : Tid
  others : List Tid
  file : Nat → File
  pipe : Nat → Pipe
  locked : Nat → Bool
  sleepers : List Tid
  systemTicks : Nat
  nextTid : Nat
  nextProc : Nat
  nextPid : UInt32
  nextFile : Nat

namespace Kernel

variable {β : Type}

@[simps -fullyApplied proc procs current others nextTid nextProc]
def modifyTask (k : Kernel β) (t : Tid) (f : Task → Task) : Kernel β :=
  { k with task := update k.task t (f (k.task t)) }

@[simps -fullyApplied task procs current others nextTid nextProc]
def modifyProc (k : Kernel β) (p : ProcId) (f : Process → Process) : Kernel β :=
  { k with proc := update k.proc p (f (k.proc p)) }

@[simps -fullyApplied task proc procs current others nextTid nextProc]
def modifyIpc (k : Kernel β) (t : Tid) (f : Thread β → Thread β) : Kernel β :=
  { k with ipc := k.ipc.modify t f }

def status (k : Kernel β) (t : Tid) : Status := (k.ipc t).status

section Modify

variable (k : Kernel β) (t : Tid) (p : ProcId)

theorem modifyTask_task (f : Task → Task) (u : Tid) :
    (k.modifyTask t f).task u = if u = t then f (k.task t) else k.task u :=
  update_apply _ _ _ _

theorem modifyProc_proc (f : Process → Process) (q : ProcId) :
    (k.modifyProc p f).proc q = if q = p then f (k.proc p) else k.proc q :=
  update_apply _ _ _ _

theorem modifyTask_proj {γ : Type} (g : Task → γ) {k : Kernel β} {t : Tid} {f : Task → Task}
    (h : g (f (k.task t)) = g (k.task t)) (u : Tid) : g ((k.modifyTask t f).task u) = g (k.task u) :=
  Updates.proj g h u

theorem modifyProc_proj {γ : Type} (g : Process → γ) {k : Kernel β} {p : ProcId}
    {f : Process → Process} (h : g (f (k.proc p)) = g (k.proc p)) (q : ProcId) :
    g ((k.modifyProc p f).proc q) = g (k.proc q) := Updates.proj g h q

theorem modifyIpc_status (f : Thread β → Thread β) (u : Tid) :
    (k.modifyIpc t f).status u = if u = t then (f (k.ipc t)).status else k.status u := by
  unfold status modifyIpc
  by_cases hu : u = t
  · simp [hu]
  · simp [hu, Threads.modify_of_ne]

@[simp] theorem modifyTask_status (f : Task → Task) (u : Tid) :
    (k.modifyTask t f).status u = k.status u := rfl

@[simp] theorem modifyProc_status (f : Process → Process) (u : Tid) :
    (k.modifyProc p f).status u = k.status u := rfl

end Modify

/-- `process_current`. -/
def processCurrent (k : Kernel β) : Option ProcId := (k.task k.current).process

/-- New message fields; `thread_unblock` also clears `waiting_lock`. -/
def setIpc (k : Kernel β) (ipc : Threads β) : Kernel β :=
  { k with
    ipc := ipc
    task := fun t =>
      if (k.ipc t).status = .blocked ∧ (ipc t).status = .ready then
        { k.task t with waitingLock := none }
      else k.task t }

def threadUnblock (k : Kernel β) (t : Tid) : Kernel β := k.setIpc (k.ipc.modify t Thread.unblock)

/-- The status that `thread_block` sets before it gives up the CPU. -/
def block (k : Kernel β) : Kernel β := k.modifyIpc k.current Thread.block

def enter (k : Kernel β) (d : Doing) : Kernel β :=
  k.modifyTask k.current fun t => { t with doing := d }

end Kernel

end OrangeOs.Proc
