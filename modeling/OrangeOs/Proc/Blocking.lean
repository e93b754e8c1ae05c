import OrangeOs.Proc.Futex

/-! # Calls that block

Messages, pipes, mutexes and sleep: what each does to the status of threads. The contents of
pipes are left out, their fill level is kept.
-/

namespace OrangeOs.Proc

open Ipc Function
open OrangeOs.Pipe (pipeCapacity)

namespace Kernel

variable {β : Type}

/-! ## Messages -/

/-- `ipc_send` by the current thread up to `thread_block`. -/
def ipcSend (k : Kernel β) (destination : Tid) (body : β) : Option Int × Kernel β :=
  match Ipc.ipcSend k.ipc k.current (some destination) (some body) with
  | (some result, ipc) => (some result, k.setIpc ipc)
  | (none, ipc) => (none, ((k.setIpc ipc).block).enter .send)

/-- `ipc_receive` by the current thread up to `thread_block`. -/
def ipcReceive (k : Kernel β) (source : Int32) : Option (Message β) × Kernel β :=
  match Ipc.ipcReceive k.ipc k.current source with
  | (some message, ipc) => (some message, k.setIpc ipc)
  | (none, ipc) => (none, ((k.setIpc ipc).block).enter .receive)

def ipcAbortThread (k : Kernel β) (t : Tid) : Kernel β := k.setIpc (Ipc.ipcAbortThread k.ipc t)

/-! ## Pipes and files -/

/-- One thread in the scan of `wake_pipe_waiters` and `mutex_release`. -/
def wakeIfWaiting (lock : Lock) (k : Kernel β) (t : Tid) : Kernel β :=
  if k.status t = .blocked ∧ (k.task t).waitingLock = some lock then k.threadUnblock t else k

def wakePipeWaiters (k : Kernel β) (i : Nat) : Kernel β :=
  (k.others ++ [k.current]).foldl (wakeIfWaiting (.pipe i)) k

def modifyPipe (k : Kernel β) (i : Nat) (f : Pipe → Pipe) : Kernel β :=
  { k with pipe := update k.pipe i (f (k.pipe i)) }

/-- The current thread waits in the call `d` for a lock to be given back. -/
def waitForLock (k : Kernel β) (lock : Lock) (d : Doing) : Kernel β :=
  ((k.modifyTask k.current fun t => { t with waitingLock := some lock }).block).enter d

/-- One round of the loop of `pipe_read`; `none` if it blocks. -/
def pipeRead (k : Kernel β) (i length : Nat) : Option Int × Kernel β :=
  if (k.pipe i).count ≠ 0 then
    let n := min length (k.pipe i).count
    (some n,
      ((k.modifyPipe i fun q => { q with count := q.count - n }).wakePipeWaiters i).enter .user)
  else if (k.pipe i).writers = 0 then (some 0, k.enter .user)
  else (none, k.waitForLock (.pipe i) (.pipeRead i length))

/-- One round of the loop of `pipe_write`. -/
def pipeWrite (k : Kernel β) (i length : Nat) : Option Int × Kernel β :=
  if (k.pipe i).readers = 0 then (some (-1), k.enter .user)
  else if (k.pipe i).count < pipeCapacity then
    let n := min length (pipeCapacity - (k.pipe i).count)
    (some n,
      ((k.modifyPipe i fun q => { q with count := q.count + n }).wakePipeWaiters i).enter .user)
  else (none, k.waitForLock (.pipe i) (.pipeWrite i length))

def modifyFile (k : Kernel β) (f : Nat) (g : File → File) : Kernel β :=
  { k with file := update k.file f (g (k.file f)) }

def fileRetain (k : Kernel β) (f : Nat) : Kernel β :=
  let k := k.modifyFile f fun x => { x with refs := x.refs + 1 }
  match (k.file f).kind with
  | .regular => k
  | .pipe e i => k.modifyPipe i fun q => q.setRefs e (q.refs e + 1)

def fileRelease (k : Kernel β) (f : Nat) : Kernel β :=
  if (k.file f).refs = 0 then k
  else
    let k := k.modifyFile f fun x => { x with refs := x.refs - 1 }
    match (k.file f).kind with
    | .regular => k
    | .pipe e i => (k.modifyPipe i fun q => q.setRefs e (q.refs e - 1)).wakePipeWaiters i

/-- `pipe_create`, with both ends in the table of the current process. -/
def pipeCreate (k : Kernel β) (p : ProcId) : Kernel β :=
  let i := k.nextFile
  let k := { k with
    pipe := update k.pipe i ⟨1, 1, 0⟩
    file := update (update k.file i ⟨1, .pipe .read i⟩) (i + 1) ⟨1, .pipe .write i⟩
    nextFile := i + 2 }
  k.modifyProc p fun x => { x with files := i :: (i + 1) :: x.files }

def fileClose (k : Kernel β) (p : ProcId) (f : Nat) : Kernel β :=
  if f ∈ (k.proc p).files then
    (k.modifyProc p fun x => { x with files := x.files.erase f }).fileRelease f
  else k

/-! ## Pipes without their bytes -/

/-- What is kept here of a pipe with its bytes. -/
def counters (q : OrangeOs.Pipe.PipeObject) : Pipe := ⟨q.readers, q.writers, q.count⟩

theorem wakePipeWaiters_pipe (k : Kernel β) (i : Nat) : (k.wakePipeWaiters i).pipe = k.pipe := by
  unfold wakePipeWaiters
  induction k.others ++ [k.current] generalizing k with
  | nil => rfl
  | cons t l ih =>
    rw [List.foldl_cons, ih]
    unfold wakeIfWaiting
    split <;> rfl

/-- One round of `pipe_read` and of `pipe_write` here returns what it returns with the bytes kept,
and leaves the same counters. -/
theorem pipe_rounds {k : Kernel β} {s : OrangeOs.Pipe.State} {i : Nat}
    (hs : k.pipe i = counters s.pipe) (hv : s.pipe.Valid pipeCapacity) (t : Tid) :
    (∀ n, (k.pipeRead i n).1 = (s.pipeRead t n).2.map Prod.fst ∧
      (k.pipeRead i n).2.pipe i = counters (s.pipeRead t n).1.pipe) ∧
    ∀ input, (k.pipeWrite i input.length).1 = (s.pipeWrite t input).2 ∧
      (k.pipeWrite i input.length).2.pipe i = counters (s.pipeWrite t input).1.pipe := by
  have hk : ∀ g d, (((k.modifyPipe i g).wakePipeWaiters i).enter d).pipe i = g (k.pipe i) :=
    fun g _ => (congrFun (wakePipeWaiters_pipe _ i) i).trans (update_self ..)
  have hw := fun s => (OrangeOs.Pipe.roused_wakePipeWaiters s t).pipe
  refine ⟨fun n => ?_, fun input => ?_⟩
  · simp only [pipeRead, OrangeOs.Pipe.State.pipeRead, ← min_def_lt]
    rw [show (k.pipe i).count = s.pipe.count by rw [hs]; rfl,
      show (k.pipe i).writers = s.pipe.writers by rw [hs]; rfl]
    split_ifs
    · refine ⟨rfl, ?_⟩
      rw [hk, hw, hs, hv.pop_eq]
      rfl
    · exact ⟨rfl, hs⟩
    · exact ⟨rfl, hs⟩
  · simp only [pipeWrite, OrangeOs.Pipe.State.pipeWrite, ← min_def_lt]
    rw [show (k.pipe i).count = s.pipe.count by rw [hs]; rfl,
      show (k.pipe i).readers = s.pipe.readers by rw [hs]; rfl]
    split_ifs
    · exact ⟨rfl, hs⟩
    · refine ⟨rfl, ?_⟩
      rw [hk, hw, hs]
      simp [counters, RingBuffer.push, (RingBuffer.writeLoop_rest _ _).2]
    · exact ⟨rfl, hs⟩

/-! ## Mutexes and sleep -/

/-- One round of the loop of `mutex_acquire`. -/
def mutexAcquire (k : Kernel β) (m : Nat) : Kernel β :=
  if k.locked m = false then { k with locked := update k.locked m true }.enter .user
  else k.waitForLock (.mutex m) (.mutex m)

def mutexRelease (k : Kernel β) (m : Nat) : Kernel β :=
  let k := { k with locked := update k.locked m false }
  match k.others.find? fun t =>
      decide (k.status t = .blocked ∧ (k.task t).waitingLock = some (.mutex m)) with
  | some t => k.threadUnblock t
  | none => k

/-- `thread_sleep_ticks`: the queue is sorted by wake-up time. -/
def threadSleepTicks (k : Kernel β) (ticks : Nat) : Kernel β :=
  if ticks = 0 then k
  else
    let c := k.current
    let k :=
      if (k.task c).sleeping = true then k
      else
        let wake := k.systemTicks + ticks
        let k := k.modifyTask c fun t => { t with wakeTick := wake, sleeping := true }
        let before := k.sleepers.takeWhile fun t => decide ((k.task t).wakeTick ≤ wake)
        let after := k.sleepers.dropWhile fun t => decide ((k.task t).wakeTick ≤ wake)
        { k with sleepers := before ++ c :: after }
    (k.block).enter .sleep

def timerCancelThreadSleep (k : Kernel β) (t : Tid) : Kernel β :=
  if (k.task t).sleeping = true then
    { k with sleepers := k.sleepers.erase t }.modifyTask t fun x => { x with sleeping := false }
  else k

/-- `timer_interrupt_handler` up to its preemption point: the sleepers whose time has come. -/
def timerTick (k : Kernel β) : Kernel β :=
  let k := { k with systemTicks := k.systemTicks + 1 }
  let due := k.sleepers.takeWhile fun t => decide ((k.task t).wakeTick ≤ k.systemTicks)
  let k := { k with sleepers := k.sleepers.drop due.length }
  due.foldl (fun k t => (k.modifyTask t fun x => { x with sleeping := false }).threadUnblock t) k

end Kernel

end OrangeOs.Proc
