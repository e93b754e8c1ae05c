import OrangeOs.Proc.Lifecycle

/-! # Steps of the kernel

The current thread makes calls while it runs; a call that blocks is resumed when the thread
has become ready and is scheduled again. User threads enter the kernel with interrupts off, so
a call runs to its end or to the point where it blocks. `schedule` may come between any two
steps, and so may the timer and a request to end a process. A system call may be made of several
calls here; `exitCheck` stands at its end.
-/

namespace OrangeOs.Proc

open Ipc

inductive Op (β : Type) where
  | schedule
  | timerTick
  | kill (pid : UInt32) (status : Int) (rejectCurrent : Bool)
  | resume
  | exitCheck
  | spawn (address : UInt64)
  | fork (address : UInt64)
  | createThread
  | join (target : Tid)
  | detach (target : Tid)
  | threadExit (status : Int)
  | processExit (status : Int)
  | wait (pid options : UInt32)
  | futexWait (uaddr : UInt64)
  | futexWake (uaddr : UInt64) (count : Nat)
  | send (destination : Tid) (body : β)
  | receive (source : Int32)
  | pipe
  | close (file : Nat)
  | pipeRead (pipe length : Nat)
  | pipeWrite (pipe length : Nat)
  | acquire (mutex : Nat)
  | release (mutex : Nat)
  | sleep (ticks : Nat)

def Op.resumes {β : Type} : Op β → Bool
  | .resume => true
  | _ => false

namespace Kernel

variable {β : Type} [Inhabited β]

/-- The current thread runs, and outside of the kernel. -/
def inUser (k : Kernel β) : Bool :=
  decide (k.status k.current = .ready) && (k.task k.current).doing == .user

/-- What follows `thread_block` in the call the current thread is in. -/
def resume (k : Kernel β) : Kernel β :=
  match (k.task k.current).doing with
  | .join t => k.joinLoop t
  | .wait pid => (k.waitRound pid 0).2
  | .pipeRead i n => (k.pipeRead i n).2
  | .pipeWrite i n => (k.pipeWrite i n).2
  | .mutex m => k.mutexAcquire m
  | _ => k.enter .user

/-- The check for a kill at the end of `syscall_handler` and of the timer interrupt. -/
def exitCheck (k : Kernel β) : Kernel β :=
  match k.processCurrent with
  | none => k
  | some p =>
    if p ≠ kernelProcess ∧ (k.proc p).exitRequested = true then
      k.processExit (k.proc p).killStatus
    else k

def call (k : Kernel β) : Op β → Kernel β
  | .spawn address => k.spawn address
  | .fork address => k.processFork address
  | .createThread => k.processCreateThread
  | .join t => k.threadJoin t
  | .detach t => k.threadDetach t
  | .threadExit status => k.threadExitWithStatus status
  | .processExit status => k.processExit status
  | .wait pid options => (k.waitRound pid options).2
  | .futexWait uaddr => k.futexWait uaddr
  | .futexWake uaddr count =>
    match k.processCurrent with
    | some p => (k.futexWake p uaddr count).2
    | none => k
  | .send destination body => (k.ipcSend destination body).2
  | .receive source => (k.ipcReceive source).2
  | .pipe =>
    match k.processCurrent with
    | some p => k.pipeCreate p
    | none => k
  | .close f =>
    match k.processCurrent with
    | some p => k.fileClose p f
    | none => k
  | .pipeRead i n => (k.pipeRead i n).2
  | .pipeWrite i n => (k.pipeWrite i n).2
  | .acquire m => k.mutexAcquire m
  | .release m => k.mutexRelease m
  | .sleep n => k.threadSleepTicks n
  | .exitCheck => k.exitCheck
  | _ => k

def step (k : Kernel β) : Op β → Kernel β
  | .schedule => k.schedule
  | .timerTick => k.timerTick
  | .kill pid status rejectCurrent => k.requestProcessTermination pid status rejectCurrent
  | .resume => if k.status k.current = .ready then k.resume else k
  | op => if k.inUser = true then k.call op else k

/-- The state that `thread_init` leaves: the kernel process, and the boot thread on a stack that
is not its own. -/
def boot (address : UInt64) : Kernel β where
  ipc := fun t => if t = 0 then { newThread with process := some 0 } else newThread
  task := fun t =>
    if t = 0 then { newTask with process := some kernelProcess, stackPage := false }
    else { newTask with objectPage := false, stackPage := false }
  futex := ⟨fun _ => newWaiter, fun _ => none, 0⟩
  proc := fun p =>
    if p = kernelProcess then { newProcess 0 address with
      mainThread := some 0, threads := [0], threadCount := 1, vmas := false }
    else { newProcess 0 0 with objectPage := false, cr3 := false, vmas := false }
  procs := [kernelProcess]
  current := 0
  others := []
  file := fun _ => ⟨0, .regular⟩
  pipe := fun _ => ⟨0, 0, 0⟩
  locked := fun _ => false
  sleepers := []
  systemTicks := 0
  nextTid := 1
  nextProc := 1
  nextPid := 1
  nextFile := 0

end Kernel

end OrangeOs.Proc
