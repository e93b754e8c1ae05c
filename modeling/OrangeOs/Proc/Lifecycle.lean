import OrangeOs.Proc.Blocking

/-! # Lifecycles

Creation, exit and reaping of threads and processes: `thread.c` and `process.c`. An
allocation that fails leaves nothing behind, so only creations that succeed are modelled.
-/

namespace OrangeOs.Proc

open Ipc Function

namespace Kernel

variable {β : Type}

/-! ## Threads of a process -/

def linkThreadToProcess (k : Kernel β) (p : ProcId) (t : Tid) : Kernel β :=
  let k := k.modifyTask t fun x => { x with process := some p }
  let k := k.modifyIpc t fun x => { x with process := some (k.proc p).pid }
  k.modifyProc p fun x => { x with
    threads := t :: x.threads
    threadCount := x.threadCount + 1
    mainThread := if x.mainThread = none then some t else x.mainThread }

def unlinkThreadFromProcess (k : Kernel β) (t : Tid) : Kernel β :=
  match (k.task t).process with
  | none => k
  | some p =>
    let k :=
      if t ∈ (k.proc p).threads then
        k.modifyProc p fun x => { x with
          threads := x.threads.erase t
          threadCount := x.threadCount - 1
          mainThread := if x.mainThread = some t then (x.threads.erase t).head?
            else x.mainThread }
      else k
    let k := k.modifyTask t fun x => { x with process := none }
    k.modifyIpc t fun x => { x with process := none }

def newTask : Task where
  process := none
  lifecycle := .joinableRunning
  lifecycleClaimed := false
  exitStatus := 0
  joinWaiter := none
  waitingLock := none
  wakeTick := 0
  sleeping := false
  objectPage := true
  stackPage := true
  doing := .user

def newThread [Inhabited β] : Thread β where
  process := none
  status := .ready
  ipcSending := false
  ipcReceiving := false
  ipcReceiveFrom := ipcAny
  ipcStatus := 0
  ipcMessage := ⟨0, default⟩
  ipcWaitingFor := none
  ipcSenders := []

def newWaiter : Waiter := ⟨false, 0, 0, none, 0, none, none⟩

/-- `thread_alloc_for_process`. -/
def threadAllocForProcess [Inhabited β] (k : Kernel β) (p : ProcId) : Tid × Kernel β :=
  let t := k.nextTid
  let k := { k with
    task := update k.task t newTask
    ipc := update k.ipc t newThread
    futex := k.futex.setNode t fun _ => newWaiter
    nextTid := t + 1 }
  (t, k.linkThreadToProcess p t)

/-- `thread_free_object`. -/
def threadFreeObject (k : Kernel β) (t : Tid) : Kernel β :=
  let k := (k.timerCancelThreadSleep t).unlinkThreadFromProcess t
  k.modifyTask t fun x => { x with objectPage := false, stackPage := false }

/-! ## The ring -/

def inSchedulerRing (k : Kernel β) (t : Tid) : Bool := k.current == t || k.others.contains t

def threadAppend (k : Kernel β) (t : Tid) : Kernel β :=
  if k.status t ≠ .ready ∨ k.inSchedulerRing t = true then k
  else { k with others := k.others ++ [t] }

def threadRemoveFromScheduler (k : Kernel β) (t : Tid) : Kernel β :=
  if t = k.current then k else { k with others := k.others.erase t }

/-- The thread leaves the ring, is marked dead and freed. -/
def discardThread (k : Kernel β) (t : Tid) : Kernel β :=
  ((k.threadRemoveFromScheduler t).modifyIpc t fun x =>
    { x with status := .zombie }).threadFreeObject t

/-- One round of `thread_reap_detached`. -/
def reapIfDetached (k : Kernel β) (t : Tid) : Kernel β :=
  if k.status t = .zombie ∧ (k.task t).lifecycle = .detachedZombie then
    (k.modifyTask t fun x => { x with lifecycle := .reaped }).discardThread t
  else k

def threadReapDetached (k : Kernel β) : Kernel β := k.others.foldl reapIfDetached k

def reapKernelThread (k : Kernel β) (t : Tid) : Kernel β :=
  if t = k.current ∨ k.status t ≠ .zombie then k
  else (k.modifyTask t fun x => { x with lifecycle := .reaped }).discardThread t

/-! ## Processes -/

/-- `release_process_address_space`. -/
def releaseProcessAddressSpace (k : Kernel β) (p : ProcId) : Kernel β :=
  k.modifyProc p fun x => { x with cr3 := false, vmas := false }

def linkChild (k : Kernel β) (c p : ProcId) : Kernel β :=
  (k.modifyProc c fun x => { x with parent := some p }).modifyProc p fun x =>
    { x with children := c :: x.children }

def unlinkChild (k : Kernel β) (c : ProcId) : Kernel β :=
  match (k.proc c).parent with
  | none => k
  | some p =>
    (k.modifyProc p fun x => { x with children := x.children.erase c }).modifyProc c fun x =>
      { x with parent := none }

/-- `free_process_object`. -/
def freeProcessObject (k : Kernel β) (p : ProcId) : Kernel β :=
  { k with procs := k.procs.erase p }.modifyProc p fun x => { x with objectPage := false }

def processIsSingleThreaded (k : Kernel β) (p : ProcId) : Bool :=
  match (k.proc p).mainThread with
  | none => false
  | some t => (k.proc p).threadCount == 1 && (k.task t).process == some p

def reapProcess (k : Kernel β) (p : ProcId) : Kernel β :=
  if p = kernelProcess ∨ (k.proc p).state ≠ .zombie then k
  else
    match (k.proc p).mainThread with
    | none => k
    | some t =>
      if t = k.current ∨ k.status t ≠ .zombie ∨ k.processIsSingleThreaded p = false then k
      else
        let k := ((k.releaseProcessAddressSpace p).discardThread t).unlinkChild p
        (k.modifyProc p fun x => { x with state := .dead }).freeProcessObject p

/-- One round of `process_reap_orphans`. -/
def reapIfOrphan (k : Kernel β) (p : ProcId) : Kernel β :=
  if p ≠ kernelProcess ∧ (k.proc p).parent = none ∧ (k.proc p).state = .zombie then k.reapProcess p
  else k

def processReapOrphans (k : Kernel β) : Kernel β := k.procs.foldl reapIfOrphan k

/-- `schedule`: the first ready thread behind the current one gets the CPU. -/
def schedule (k : Kernel β) : Kernel β :=
  if k.others = [] then k
  else
    let k := k.processReapOrphans.threadReapDetached
    let waiting := fun t => decide (k.status t ≠ .ready)
    match k.others.dropWhile waiting with
    | [] => k
    | next :: rest =>
      { k with current := next, others := rest ++ k.current :: k.others.takeWhile waiting }

def newProcess (pid : UInt32) (address : UInt64) : Process where
  pid := pid
  address := address
  state := .running
  exitStatus := 0
  parent := none
  children := []
  mainThread := none
  threads := []
  threadCount := 0
  exitRequested := false
  killStatus := 0
  objectPage := true
  cr3 := true
  vmas := true
  files := []

/-- `alloc_process` and the pid and address space that its callers set. -/
def allocProcess (k : Kernel β) (address : UInt64) : ProcId × Kernel β :=
  let p := k.nextProc
  (p, { k with
    proc := update k.proc p (newProcess k.nextPid address)
    procs := p :: k.procs
    nextProc := p + 1
    nextPid := k.nextPid + 1 })

/-- `process_create_loaded` by the current thread, and `thread_append`. -/
def spawn [Inhabited β] (k : Kernel β) (address : UInt64) : Kernel β :=
  match k.processCurrent with
  | none => k
  | some parent =>
    let (p, k) := k.allocProcess address
    let (t, k) := (k.linkChild p parent).threadAllocForProcess p
    k.threadAppend t

/-- `process_fork`; the child has the open files of its parent. -/
def processFork [Inhabited β] (k : Kernel β) (address : UInt64) : Kernel β :=
  match k.processCurrent with
  | none => k
  | some parent =>
    if parent = kernelProcess ∨ k.processIsSingleThreaded parent = false then k
    else
      let (p, k) := k.allocProcess address
      let files := (k.proc parent).files
      let k := (k.linkChild p parent).modifyProc p fun x => { x with files := files }
      let k := files.foldl fileRetain k
      let (t, k) := k.threadAllocForProcess p
      k.threadAppend t

/-- `process_create_thread` for the process of the current thread. -/
def processCreateThread [Inhabited β] (k : Kernel β) : Kernel β :=
  match k.processCurrent with
  | none => k
  | some p =>
    if p = kernelProcess ∨ (k.proc p).state ≠ .running ∨ (k.proc p).exitRequested = true then k
    else
      let (t, k) := k.threadAllocForProcess p
      k.threadAppend t

/-! ## Exit -/

def Lifecycle.exited (l : Lifecycle) : Lifecycle :=
  if l = .detachedRunning then .detachedZombie else .joinableZombie

/-- The current thread becomes a zombie. -/
def becomeZombie (k : Kernel β) : Kernel β :=
  (k.modifyIpc k.current fun x => { x with status := .zombie }).modifyTask k.current fun x =>
    { x with lifecycle := Lifecycle.exited x.lifecycle }

/-- `thread_exit_with_status` for a thread that is not the last of its process. -/
def retire (k : Kernel β) (status : Int) : Kernel β :=
  let k := (k.futexCancelThread k.current futexErrIntr).ipcAbortThread k.current
  let k := (k.modifyTask k.current fun x => { x with exitStatus := status }).becomeZombie
  match (k.task k.current).joinWaiter with
  | some w => k.threadUnblock w
  | none => k

def reparentChildren (k : Kernel β) (p : ProcId) : Kernel β :=
  let k' := (k.proc p).children.foldl
    (fun k c => k.modifyProc c fun x => { x with parent := none }) k
  k'.modifyProc p fun x => { x with children := [] }

/-- Another thread of the process that exits. -/
def dropVictim (k : Kernel β) (t : Tid) : Kernel β :=
  if t = k.current then k else (k.ipcAbortThread t).discardThread t

def processCloseFiles (k : Kernel β) (p : ProcId) : Kernel β :=
  let files := (k.proc p).files
  files.foldl fileRelease (k.modifyProc p fun x => { x with files := [] })

/-- The main thread of the parent. -/
def parentThread (k : Kernel β) (p : ProcId) : Option Tid :=
  (k.proc p).parent.bind fun parent => (k.proc parent).mainThread

/-- The last step of `process_exit`. -/
def wakeParent (k : Kernel β) (p : ProcId) : Kernel β :=
  match k.parentThread p with
  | none => k
  | some t => k.threadUnblock t

/-- `process_exit` by the current thread, a thread of the user process `p`, but for its last
step. -/
def endProcess (k : Kernel β) (p : ProcId) (status : Int) : Kernel β :=
  let k := k.modifyProc p fun x => { x with exitRequested := true }
  let k := (k.futexCancelProcess p futexErrIntr).ipcAbortThread k.current
  let k := (k.proc p).threads.foldl dropVictim k
  let k := (k.processCloseFiles p).releaseProcessAddressSpace p
  let k := (k.modifyProc p fun x => { x with exitStatus := status, state := .zombie }).becomeZombie
  k.reparentChildren p

def exitProcess (k : Kernel β) (p : ProcId) (status : Int) : Kernel β :=
  (k.endProcess p status).wakeParent p

def processExit (k : Kernel β) (status : Int) : Kernel β :=
  match k.processCurrent with
  | none => k
  | some p => if p = kernelProcess then k.retire 0 else k.exitProcess p status

def processLiveThreadCount (k : Kernel β) (p : ProcId) : Nat :=
  (k.proc p).threads.countP fun t => decide (k.status t ≠ .zombie)

def threadExitWithStatus (k : Kernel β) (status : Int) : Kernel β :=
  match k.processCurrent with
  | none => k
  | some p =>
    if p ≠ kernelProcess ∧ k.processLiveThreadCount p ≤ 1 then k.exitProcess p status
    else k.retire status

/-- `request_process_termination` of the process with the pid. -/
def requestProcessTermination (k : Kernel β) (pid : UInt32) (status : Int) (rejectCurrent : Bool) :
    Kernel β :=
  match k.procs.find? fun p => (k.proc p).pid == pid with
  | none => k
  | some p =>
    if p = kernelProcess ∨ (k.proc p).state ≠ .running ∨
        (rejectCurrent = true ∧ k.processCurrent = some p) then k
    else
      let k := k.modifyProc p fun x => { x with exitRequested := true, killStatus := status }
      let k := k.futexCancelProcess p futexErrIntr
      (k.proc p).threads.foldl
        (fun k t => ((k.timerCancelThreadSleep t).ipcAbortThread t).threadUnblock t) k

/-! ## Joining, detaching and waiting -/

/-- A thread that may be joined or detached by the current one. -/
def claimable (k : Kernel β) (t : Tid) : Bool :=
  decide (t ≠ k.current) && (k.task t).process == k.processCurrent &&
    ((k.task t).lifecycle == .joinableRunning || (k.task t).lifecycle == .joinableZombie) &&
    !(k.task t).lifecycleClaimed

/-- The loop of `thread_join`: it blocks until the target is a zombie, and reaps it. -/
def joinLoop (k : Kernel β) (t : Tid) : Kernel β :=
  if k.status t ≠ .zombie then (k.block).enter (.join t)
  else ((k.modifyTask t fun x => { x with joinWaiter := none }).reapKernelThread t).enter .user

def threadJoin (k : Kernel β) (t : Tid) : Kernel β :=
  if k.claimable t = false then k
  else
    let waiter := if k.status t ≠ .zombie then some k.current else none
    (k.modifyTask t fun x => { x with
      lifecycleClaimed := true
      joinWaiter := waiter.or x.joinWaiter }).joinLoop t

def threadDetach (k : Kernel β) (t : Tid) : Kernel β :=
  if k.claimable t = false then k
  else if k.status t = .zombie then
    (k.modifyTask t fun x => { x with
      lifecycleClaimed := true, lifecycle := .detachedZombie }).reapKernelThread t
  else
    k.modifyTask t fun x => { x with lifecycleClaimed := true, lifecycle := .detachedRunning }

def findChild (k : Kernel β) (pid : UInt32) : Option ProcId :=
  match k.processCurrent with
  | none => none
  | some p =>
    let children := (k.proc p).children
    if pid = 0 then
      (children.find? fun c => (k.proc c).state == .zombie).or children.head?
    else children.find? fun c => (k.proc c).pid == pid

inductive WaitResult where
  | noChild
  | exited (c : ProcId)
  | running
  | blocked
deriving DecidableEq

/-- One round of the loop of `process_wait`. -/
def waitRound (k : Kernel β) (pid : UInt32) (options : UInt32) : WaitResult × Kernel β :=
  match k.findChild pid with
  | none => (.noChild, k.enter .user)
  | some c =>
    if (k.proc c).state = .zombie then (.exited c, (k.reapProcess c).enter .user)
    else if options &&& 1 ≠ 0 then (.running, k.enter .user)
    else (.blocked, (k.block).enter (.wait pid))

end Kernel

end OrangeOs.Proc
