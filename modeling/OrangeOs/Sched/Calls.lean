import OrangeOs.Sched.Model

/-! # Calls and runs

The calls that make threads, end them and wait for them, and the runs of a machine whose steps
are these calls, `schedule` and `thread_unblock` in any order. A thread that blocks in
`thread_join` goes on with `resume` once it runs again.
-/

namespace OrangeOs.Sched

open Proc (ProcId kernelProcess Lifecycle)
open Ipc (Tid)

def zombieLifecycle (l : Lifecycle) : Lifecycle :=
  if l = .detachedRunning then .detachedZombie else .joinableZombie

def Thread.ended (r : Thread) : Thread :=
  { r with status := .zombie, lifecycle := zombieLifecycle r.lifecycle }

namespace System

def process (s : System) (t : Tid) : Option ProcId := (s.thread t).process

/-! ## New threads -/

/-- `thread_alloc_for_process`: the fields of the new thread. -/
def newThread (p : ProcId) : Thread where
  status := .ready
  next := none
  process := some p
  lifecycle := .joinableRunning
  lifecycleClaimed := false
  exitStatus := 0
  joinWaiter := none
  objectPage := true
  stackPage := true
  userStackPage := false
  tlsPage := false
  joining := none

/-- What `link_thread_to_process` makes of the process. -/
def linkThread (t : Tid) (r : Process) : Process :=
  { r with
    threads := t :: r.threads
    mainThread := if r.mainThread = none then some t else r.mainThread }

/-- `thread_alloc_for_process`; the new thread is number `s.nextTid`. -/
def threadAllocForProcess (s : System) (p : ProcId) : System :=
  let t := s.nextTid
  let s := (s.note (.alloc t .object)).note (.alloc t .kernelStack)
  let s := s.modify t fun _ => newThread p
  { s.modifyProc p (linkThread t) with nextTid := t + 1 }

def threadCreate (s : System) : System := s.threadAllocForProcess kernelProcess

def mapUserPage (s : System) (p : ProcId) (t : Tid) (page : Page) : System :=
  { s.note (.alloc t page) with mapped := ⟨p, t, page⟩ :: s.mapped }

def allocateUserThreadStack (s : System) (p : ProcId) (t : Tid) : System :=
  (s.mapUserPage p t .userStack).modify t fun r => { r with userStackPage := true }

def processAllocateThreadTls (s : System) (p : ProcId) (t : Tid) : System :=
  (s.mapUserPage p t .tls).modify t fun r => { r with tlsPage := true }

/-- `alloc_process` and `link_child`, with an address space. -/
def newProcess (parent : Option ProcId) : Process where
  state := .running
  exitStatus := 0
  exitRequested := false
  parent := parent
  mainThread := none
  threads := []
  cr3 := true

def allocProcess (s : System) : System :=
  let p := s.nextProc
  { s.modifyProc p fun _ => newProcess (s.process s.current) with
    procs := p :: s.procs
    nextProc := p + 1 }

/-- A new process with its main thread. -/
def startProcess (s : System) : System := s.allocProcess.threadAllocForProcess s.nextProc

/-- `process_create`: the main thread has a user stack and a TLS page of its own. -/
def processCreate (s : System) : System :=
  (s.startProcess.allocateUserThreadStack s.nextProc s.nextTid).processAllocateThreadTls
    s.nextProc s.nextTid

/-- `process_create_loaded`: the initial stack belongs to the image. -/
def processCreateLoaded (s : System) : System :=
  s.startProcess.processAllocateThreadTls s.nextProc s.nextTid

/-- `process_fork`: the child's copy of the TLS mapping belongs to its address space. -/
def processFork (s : System) : System :=
  match s.process s.current with
  | none => s
  | some p =>
    if p = kernelProcess ∨ ¬ s.processIsSingleThreaded p then s
    else s.startProcess.threadAppend s.nextTid

def processCreateThread (s : System) : System :=
  match s.process s.current with
  | none => s
  | some p =>
    if p = kernelProcess ∨ (s.proc p).state ≠ .running ∨ (s.proc p).exitRequested then s
    else
      let t := s.nextTid
      let s := s.threadAllocForProcess p
      let s := s.allocateUserThreadStack p t
      let s := s.processAllocateThreadTls p t
      s.threadAppend t

/-! ## Blocking and ending -/

/-- `thread_block` up to the calls of `schedule` it makes until the thread is unblocked. -/
def threadBlock (s : System) : System := s.modify s.current fun r => { r with status := .blocked }

def threadUnblock (s : System) (t : Tid) : System :=
  if (s.thread t).status = .blocked then s.modify t fun r => { r with status := .ready } else s

/-- `exit_requested` is set and every thread woken. -/
def requestProcessTermination (s : System) (p : ProcId) : System :=
  if p = kernelProcess ∨ (s.proc p).state ≠ .running then s
  else
    let s := s.modifyProc p fun r => { r with exitRequested := true }
    (s.proc p).threads.foldl threadUnblock s

def unblockIfAny (s : System) : Option Tid → System
  | none => s
  | some t => s.threadUnblock t

def orphaned (p : ProcId) (r : Process) : Process :=
  if r.parent = some p then { r with parent := none } else r

def reparentChildren (s : System) (p : ProcId) : System :=
  { s with proc := fun q => orphaned p (s.proc q) }

def markZombie (s : System) (p : ProcId) (status : Int) : System :=
  let s := s.modifyProc p fun r => { r with exitStatus := status, state := .zombie }
  s.modify s.current Thread.ended

/-- The end of `process_exit`, when the process has no other thread and no address space. -/
def becomeZombie (s : System) (p : ProcId) (status : Int) : System :=
  let s := (s.markZombie p status).reparentChildren p
  s.unblockIfAny ((s.proc p).parent.bind fun q => (s.proc q).mainThread)

def beginExit (s : System) (p : ProcId) : System :=
  (s.modifyProc p fun r => { r with exitRequested := true }).note (.processExit s.current)

/-- The loop of `process_exit` over the threads that are not current. -/
def retireOthers (s : System) (p : ProcId) : Exec :=
  ((s.proc p).threads.filter fun t => t ≠ s.current).foldlM
    (fun s t => s.retire t (s.thread t).lifecycle) s

/-- `process_exit` of a user process. -/
def exitProcess (s : System) (p : ProcId) (status : Int) : Exec := do
  let s ← (s.beginExit p).retireOthers p
  .ok ((s.releaseProcessAddressSpace p).becomeZombie p status)

/-- The end of `thread_exit_with_status`, for a thread that is not its process's last. -/
def exitThread (s : System) (status : Int) : System :=
  let t := s.current
  let s := s.note (.exited t status)
  let s := s.modify t fun r => { r.ended with exitStatus := status }
  s.unblockIfAny (s.thread t).joinWaiter

def processLiveThreadCount (s : System) (p : ProcId) : Nat :=
  (s.proc p).threads.countP fun t =>
    decide ((s.thread t).status ≠ .zombie ∧ (s.thread t).status ≠ .dead)

def threadExitWithStatus (s : System) (status : Int) : Exec :=
  match s.process s.current with
  | none => .ok s
  | some p =>
    if p ≠ kernelProcess ∧ s.processLiveThreadCount p ≤ 1 then s.exitProcess p status
    else .ok (s.exitThread status)

def processExit (s : System) (status : Int) : Exec :=
  match s.process s.current with
  | none => s.threadExitWithStatus 0
  | some p => if p = kernelProcess then s.threadExitWithStatus 0 else s.exitProcess p status

/-! ## Joining, detaching and waiting -/

/-- The first tests of `thread_join` and of `thread_detach`. -/
def claimable (s : System) (target : Tid) : Bool :=
  decide (target ≠ s.current ∧ s.process target = s.process s.current ∧
    ((s.thread target).lifecycle = .joinableRunning ∨
      (s.thread target).lifecycle = .joinableZombie) ∧
    (s.thread target).lifecycleClaimed = false)

def claim (s : System) (target : Tid) : System :=
  s.modify target fun r => { r with lifecycleClaimed := true }

/-- The end of `thread_join`: the status is read and the target reaped. -/
def finishJoin (s : System) (target : Tid) : Exec :=
  let s := s.modify s.current fun r => { r with joining := none }
  let s := s.modify target fun r => { r with joinWaiter := none }
  let s := s.note (.joined target (s.thread target).exitStatus)
  s.reapKernelThread target

/-- A test of the loop of `thread_join`. -/
def awaitTarget (s : System) (target : Tid) : Exec :=
  if (s.thread target).status = .zombie then s.finishJoin target else .ok s.threadBlock

def threadJoin (s : System) (target : Tid) : Exec :=
  if s.claimable target then
    let s := s.claim target
    if (s.thread target).status = .zombie then s.finishJoin target
    else
      let s := s.modify target fun r => { r with joinWaiter := some s.current }
      let s := s.modify s.current fun r => { r with joining := some target }
      .ok s.threadBlock
  else .ok s

def threadDetach (s : System) (target : Tid) : Exec :=
  if s.claimable target then
    let s := (s.claim target).note (.detached target)
    if (s.thread target).status = .zombie then
      let s := s.modify target fun r => { r with lifecycle := .detachedZombie }
      s.reapKernelThread target
    else .ok (s.modify target fun r => { r with lifecycle := .detachedRunning })
  else .ok s

/-- `process_wait` when it finds the child in `PROCESS_ZOMBIE`. -/
def processWait (s : System) (child : ProcId) : Exec :=
  if (s.proc child).parent = s.process s.current ∧ (s.proc child).state = .zombie then
    s.reapProcess child
  else .ok s

end System

/-! ## Steps -/

/-- What a running thread may call. -/
inductive Call where
  | threadCreate
  | processCreate
  | processCreateLoaded
  | processFork
  | processCreateThread
  | append (t : Tid)
  | block
  | threadExit (status : Int)
  | processExit (status : Int)
  | join (target : Tid)
  | detach (target : Tid)
  | wait (child : ProcId)
deriving DecidableEq

/-- `schedule` is called by the current thread, in its loops and by the timer interrupt;
`unblock` and `terminate` come from the current thread or from an interrupt. -/
inductive Op where
  | schedule
  | unblock (t : Tid)
  | terminate (p : ProcId)
  | resume
  | call (c : Call)
deriving DecidableEq

namespace System

/-- The current thread runs; woken in the loop of `thread_block` it is still `TASK_READY`. -/
def runs (s : System) : Bool :=
  decide ((s.thread s.current).status = .running ∨ (s.thread s.current).status = .ready)

def call (s : System) : Call → Exec
  | .threadCreate => .ok s.threadCreate
  | .processCreate => .ok s.processCreate
  | .processCreateLoaded => .ok s.processCreateLoaded
  | .processFork => .ok s.processFork
  | .processCreateThread => .ok s.processCreateThread
  | .append t => .ok (if (s.process t).isSome then s.threadAppend t else s)
  | .block => .ok s.threadBlock
  | .threadExit status => s.threadExitWithStatus status
  | .processExit status => s.processExit status
  | .join target => s.threadJoin target
  | .detach target => s.threadDetach target
  | .wait child => s.processWait child

def resume (s : System) : Exec :=
  match (s.thread s.current).joining with
  | none => .ok s
  | some target => s.awaitTarget target

def step (s : System) : Op → Exec
  | .schedule => s.schedule
  | .unblock t => .ok (s.threadUnblock t)
  | .terminate p => .ok (s.requestProcessTermination p)
  | .resume => if s.runs then s.resume else .ok s
  | .call c => if s.runs ∧ (s.thread s.current).joining = none then s.call c else .ok s

/-- No thread: the fields of an object that is not in use. -/
def noThread : Thread where
  status := .dead
  next := none
  process := none
  lifecycle := .reaped
  lifecycleClaimed := false
  exitStatus := 0
  joinWaiter := none
  objectPage := false
  stackPage := false
  userStackPage := false
  tlsPage := false
  joining := none

/-- The boot thread has given its kernel stack back. -/
def bootThread : Thread :=
  { newThread kernelProcess with status := .running, next := some 0, stackPage := false }

def noProcess : Process := { newProcess none with state := .dead, cr3 := false }

def bootProcess : Process := { newProcess none with mainThread := some 0, threads := [0] }

/-- The state `thread_init` leaves. -/
def boot : System where
  thread t := if t = 0 then bootThread else noThread
  proc p := if p = kernelProcess then bootProcess else noProcess
  procs := [kernelProcess]
  mapped := []
  current := 0
  nextTid := 1
  nextProc := 1
  log := [.appended 0, .alloc 0 .object]

/-- A step of a run; a failed assertion ends it. -/
def advance (e : Exec) (op : Op) : Exec := e.bind fun s => s.step op

def run (ops : List Op) : Exec := ops.foldl advance (.ok boot)

end System

end OrangeOs.Sched
