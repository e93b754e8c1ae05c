import OrangeOs.Lib.Cycles
import OrangeOs.Proc.Kernel

/-! # The scheduler's ring and the life of a thread

`thread.c` with the pointers of its ring, and the parts of `process.c` that make, end and reap
threads. A function that asserts stops with the assertion and the state it failed in. Thread and
process objects have numbers that are not used again. `log` records what happened to the pages
and the exit status of each thread; nothing reads it. Wake-ups by the other parts of the kernel
(messages, futexes, pipes, sleeps) are calls of `thread_unblock`.
-/

namespace OrangeOs.Sched

open Function

open Proc (ProcId kernelProcess Lifecycle ProcState)
open Ipc (Tid)

inductive TaskStatus where
  | ready
  | running
  | blocked
  | zombie
  | dead
deriving DecidableEq

/-- The pages a thread has of its own. -/
inductive Page where
  | object
  | kernelStack
  | userStack
  | tls
deriving DecidableEq

/-- `free` says whether the thread was current and in the ring at that moment; `joined` is a
`thread_join` that returns 0 with the status it delivers, `detached` a `thread_detach` that
returns 0. -/
inductive Event where
  | appended (t : Tid)
  | alloc (t : Tid) (page : Page)
  | free (t : Tid) (page : Page) (current inRing : Bool)
  | exited (t : Tid) (status : Int)
  | processExit (t : Tid)
  | joined (t : Tid) (status : Int)
  | detached (t : Tid)
deriving DecidableEq

/-- The assertions: `thread_free_object` has the first two, `check_scheduler_invariants` the
next three and `schedule` the last. -/
inductive Assertion where
  | freesCurrent
  | freesRingThread
  | ringThread
  | ringSize
  | runningCount
  | nextReady
deriving DecidableEq

/-- `struct thread`. The four pages stand for the physical addresses that are not 0; `joining`
is the target of the `thread_join` the thread is in, which the source has on its stack. -/
structure Thread where
  status : TaskStatus
  next : Option Tid
  process : Option ProcId
  lifecycle : Lifecycle
  lifecycleClaimed : Bool
  exitStatus : Int
  joinWaiter : Option Tid
  objectPage : Bool
  stackPage : Bool
  userStackPage : Bool
  tlsPage : Bool
  joining : Option Tid
deriving DecidableEq

/-- With the kernel stack go the variables of a `thread_join` the thread was in. -/
def Thread.withoutPages (r : Thread) : Thread :=
  { r with
    userStackPage := false, tlsPage := false, objectPage := false, stackPage := false
    joining := none }

/-- `struct process`; the list of a process's children are the processes with it as `parent`. -/
structure Process where
  state : ProcState
  exitStatus : Int
  exitRequested : Bool
  parent : Option ProcId
  mainThread : Option Tid
  threads : List Tid
  cr3 : Bool
deriving DecidableEq

/-- What `unlink_thread_from_process` leaves of the process. -/
def Process.unlinkThread (r : Process) (t : Tid) : Process :=
  let threads := r.threads.erase t
  { r with
    threads := threads
    mainThread := if r.mainThread = some t then threads.head? else r.mainThread }

/-- A thread's page that is mapped in the address space of a process. -/
structure Mapping where
  space : ProcId
  thread : Tid
  page : Page
deriving DecidableEq

structure System where
  thread : Tid → Thread
  proc : ProcId → Process
  procs : List ProcId
  mapped : List Mapping
  current : Tid
  nextTid : Nat
  nextProc : Nat
  log : List Event

abbrev Exec := Except (Assertion × System) System

namespace System

@[simps -fullyApplied current nextTid log proc procs mapped]
def modify (s : System) (t : Tid) (f : Thread → Thread) : System :=
  { s with thread := update s.thread t (f (s.thread t)) }

@[simps -fullyApplied thread current nextTid log procs mapped]
def modifyProc (s : System) (p : ProcId) (f : Process → Process) : System :=
  { s with proc := update s.proc p (f (s.proc p)) }

@[simps -fullyApplied]
def note (s : System) (e : Event) : System := { s with log := e :: s.log }

def check (s : System) (holds : Bool) (a : Assertion) : Exec :=
  if holds then .ok s else .error (a, s)

/-! ## The ring -/

def next (s : System) (t : Tid) : Option Tid := (s.thread t).next

/-- The threads met by the loops that start at `current_thread` and end when they are back. -/
def lap (s : System) : List Tid := Cycles.lap s.next s.current s.nextTid s.current

def threadInSchedulerRing (s : System) (wanted : Tid) : Bool := decide (wanted ∈ s.lap)

/-- `thread_append`; the message for a rejected thread is left out. -/
def threadAppend (s : System) (new : Tid) : System :=
  if (s.thread new).status ≠ .ready ∨ s.threadInSchedulerRing new then s
  else
    let tail := s.lap.getLast?.getD s.current
    let s := s.modify tail fun r => { r with next := some new }
    let s := s.modify new fun r => { r with next := some s.current }
    s.note (.appended new)

/-- The search for `previous`: the first thread before the victim or before `current_thread`. -/
def before (s : System) (victim : Tid) : Option Tid :=
  s.lap.find? fun previous =>
    decide (s.next previous = some s.current ∨ s.next previous = some victim)

def threadRemoveFromScheduler (s : System) (victim : Tid) : System :=
  if victim = s.current then s
  else match s.before victim with
    | none => s
    | some previous =>
      if s.next previous = some victim then
        let s := s.modify previous fun r => { r with next := s.next victim }
        s.modify victim fun r => { r with next := none }
      else s

/-! ## Release of a thread -/

def freePage (s : System) (t : Tid) (page : Page) : System :=
  s.note (.free t page (decide (t = s.current)) (s.threadInSchedulerRing t))

/-- `unmap_user_page` at the address of a thread's page: the mapping goes, with its page. -/
def unmapUserPage (s : System) (p : ProcId) (t : Tid) (page : Page) : System :=
  if ⟨p, t, page⟩ ∈ s.mapped then
    { s with mapped := s.mapped.erase ⟨p, t, page⟩ }.freePage t page
  else s

/-- The part of `thread_free_object` that gives back the pages in the user's half. -/
def unmapThreadPages (s : System) (t : Tid) : System :=
  match (s.thread t).process with
  | none => s
  | some p =>
    if (s.proc p).cr3 then
      let s := if (s.thread t).userStackPage then s.unmapUserPage p t .userStack else s
      if (s.thread t).tlsPage then s.unmapUserPage p t .tls else s
    else s

def unlinkThreadFromProcess (s : System) (t : Tid) : System :=
  match (s.thread t).process with
  | none => s
  | some p =>
    let s := s.modifyProc p fun r => r.unlinkThread t
    s.modify t fun r => { r with process := none }

/-- The end of `thread_free_object`. -/
def freeThreadPages (s : System) (t : Tid) : System :=
  let r := s.thread t
  let s := s.modify t Thread.withoutPages
  let s := if r.stackPage then s.freePage t .kernelStack else s
  if r.objectPage then s.freePage t .object else s

/-- `thread_free_object` behind its assertions. -/
def releaseThread (s : System) (t : Tid) : System :=
  ((s.unmapThreadPages t).unlinkThreadFromProcess t).freeThreadPages t

def threadFreeObject (s : System) (t : Tid) : Exec := do
  let s ← s.check (decide (t ≠ s.current)) .freesCurrent
  let s ← s.check (!s.threadInSchedulerRing t) .freesRingThread
  .ok (s.releaseThread t)

/-- A thread taken out of the ring, made `TASK_DEAD` and freed. -/
def retire (s : System) (t : Tid) (lifecycle : Lifecycle) : Exec :=
  let s := s.threadRemoveFromScheduler t
  let s := s.modify t fun r => { r with status := .dead, lifecycle := lifecycle }
  s.threadFreeObject t

def reapKernelThread (s : System) (victim : Tid) : Exec :=
  if victim = s.current ∨ (s.thread victim).status ≠ .zombie then .ok s
  else s.retire victim .reaped

/-- `release_process_address_space`: the page table goes with every page in it. -/
def releaseProcessAddressSpace (s : System) (p : ProcId) : System :=
  if (s.proc p).cr3 ∧ p ≠ kernelProcess then
    let freed := s.mapped.filter fun m => m.space = p
    { s.modifyProc p fun r => { r with cr3 := false } with
      mapped := s.mapped.filter fun m => m.space ≠ p
      log := freed.map (fun m =>
        .free m.thread m.page (decide (m.thread = s.current)) (s.threadInSchedulerRing m.thread))
          ++ s.log }
  else s.modifyProc p fun r => { r with cr3 := false }

/-! ## Reaping -/

def processIsSingleThreaded (s : System) (p : ProcId) : Bool :=
  match (s.proc p).mainThread with
  | none => false
  | some t => decide ((s.proc p).threads.length = 1 ∧ (s.thread t).process = some p)

/-- The main thread `reap_process` frees, if the process passes its tests. -/
def reapTarget (s : System) (p : ProcId) : Option Tid :=
  match (s.proc p).mainThread with
  | none => none
  | some t =>
    if p ≠ kernelProcess ∧ (s.proc p).state = .zombie ∧ t ≠ s.current ∧
        (s.thread t).status = .zombie ∧ s.processIsSingleThreaded p then some t
    else none

/-- `unlink_child`, `PROCESS_DEAD` and `free_process_object`. -/
def freeProcess (s : System) (p : ProcId) : System :=
  { s.modifyProc p fun r => { r with parent := none, state := .dead } with
    procs := s.procs.erase p }

def reapProcess (s : System) (p : ProcId) : Exec :=
  match s.reapTarget p with
  | none => .ok s
  | some t => do
      let s := s.releaseProcessAddressSpace p
      let s ← s.retire t (s.thread t).lifecycle
      .ok (s.freeProcess p)

def reapOrphan (s : System) (p : ProcId) : Exec :=
  if p ≠ kernelProcess ∧ (s.proc p).parent = none ∧ (s.proc p).state = .zombie then s.reapProcess p
  else .ok s

def processReapOrphans (s : System) : Exec := s.procs.foldlM reapOrphan s

def detachedZombie (s : System) (t : Tid) : Bool :=
  decide ((s.thread t).status = .zombie ∧ (s.thread t).lifecycle = .detachedZombie)

/-- The loop of `thread_reap_detached` from `scan` on; `next` is read before the thread goes. -/
def reapScan : Nat → System → Tid → Exec
  | 0, s, _ => .ok s
  | n + 1, s, scan =>
    if scan = s.current then .ok s
    else do
      let next := s.next scan
      let s ← if s.detachedZombie scan then s.retire scan .reaped else .ok s
      match next with
      | none => .ok s
      | some scan => reapScan n s scan

def threadReapDetached (s : System) : Exec :=
  match s.next s.current with
  | none => .ok s
  | some scan => reapScan s.nextTid s scan

/-! ## The choice of the next thread -/

/-- The loop of `check_scheduler_invariants` over the threads it meets. -/
def checkRing (s : System) : Nat → Nat → List Tid → Exec
  | running, _, [] => s.check (decide (running ≤ 1)) .runningCount
  | running, count, t :: ts => do
      let s ← s.check (s.thread t).process.isSome .ringThread
      let running := if (s.thread t).status = .running then running + 1 else running
      let s ← s.check (decide (count + 1 < 4096)) .ringSize
      s.checkRing running (count + 1) ts

def checkSchedulerInvariants (s : System) : Exec := s.checkRing 0 0 s.lap

def skipped (s : System) (t : Tid) : Bool :=
  decide ((s.thread t).status = .blocked ∨ (s.thread t).status = .zombie ∨
    (s.thread t).status = .dead)

/-- The loop of `schedule`; `none` if it comes back to the current thread. -/
def pick (s : System) : Nat → Tid → Option Tid
  | 0, _ => none
  | n + 1, next =>
    if s.skipped next then
      match s.next next with
      | none => none
      | some next => if next = s.current then none else s.pick n next
    else some next

def switchTo (s : System) (next : Tid) : System :=
  let s := s.modify s.current fun r =>
    { r with status := if r.status = .running then .ready else r.status }
  { s.modify next fun r => { r with status := .running } with current := next }

/-- `schedule`, without the registers it saves and loads. -/
def schedule (s : System) : Exec :=
  if s.next s.current = some s.current then .ok s
  else do
    let s ← s.checkSchedulerInvariants
    let s ← s.processReapOrphans
    let s ← s.threadReapDetached
    match (s.next s.current).bind (s.pick s.nextTid) with
    | none => .ok s
    | some next => do
        let s ← s.check (decide ((s.thread next).status = .ready)) .nextReady
        .ok (s.switchTo next)

end System

end OrangeOs.Sched
