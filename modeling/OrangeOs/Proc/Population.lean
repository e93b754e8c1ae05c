import OrangeOs.Proc.Quiet

/-! # Threads and processes come and go

The calls that change the tables: a thread or a process is added, a thread is freed, a zombie
process is reaped, and the last thread of a process becomes a zombie with it.
-/

namespace OrangeOs.Proc

open Ipc List

namespace Kernel

variable {β : Type} {k k' : Kernel β} {t : Tid} {p : ProcId}

/-! ## A thread is freed -/

/-- What `unlink_thread_from_process` makes of the process. -/
def Process.without (x : Process) (t : Tid) : Process :=
  { x with
    threads := x.threads.erase t
    threadCount := x.threadCount - 1
    mainThread := if x.mainThread = some t then (x.threads.erase t).head? else x.mainThread }

/-- `k'` is `k` without the thread `t`. -/
structure Discarded (k k' : Kernel β) (t : Tid) : Prop where
  gone : (k'.task t).process = none ∧ (k'.task t).objectPage = false ∧
    (k'.task t).stackPage = false
  task : ∀ u, u ≠ t → k'.task u = k.task u
  zombie : k'.status t = .zombie
  status : ∀ u, u ≠ t → k'.status u = k.status u
  proc : ∀ p, k'.proc p = if (k.task t).process = some p ∧ t ∈ (k.proc p).threads then
    Process.without (k.proc p) t else k.proc p
  procs : k'.procs = k.procs
  current : k'.current = k.current
  others : k'.others = (k.threadRemoveFromScheduler t).others
  ring : ∀ u, u ≠ t → u ∈ k.current :: k.others → u ∈ k'.current :: k'.others
  nextTid : k'.nextTid = k.nextTid
  nextProc : k'.nextProc = k.nextProc
  doing : (k'.task t).doing = (k.task t).doing
  locked : k'.locked = k.locked

theorem timerCancel_spec (k : Kernel β) (t : Tid) :
    ∃ task sleepers, k.timerCancelThreadSleep t = { k with task, sleepers } ∧
      ∀ u, task u = if u = t then { k.task t with sleeping := false } else k.task u := by
  unfold timerCancelThreadSleep
  split
  · exact ⟨_, _, rfl, fun u => Function.update_apply ..⟩
  next hs =>
    refine ⟨_, _, rfl, fun u => ?_⟩
    split
    next hu =>
      subst hu
      rw [← Bool.not_eq_true _ |>.mp hs]
    · rfl

theorem unlinkThread_spec (k : Kernel β) (t : Tid) :
    ∃ ipc task proc, k.unlinkThreadFromProcess t = { k with ipc, task, proc } ∧
      (∀ u, task u = if u = t then { k.task t with process := none } else k.task u) ∧
      (∀ u, (ipc u).status = k.status u) ∧
      ∀ p, proc p = if (k.task t).process = some p ∧ t ∈ (k.proc p).threads then
        Process.without (k.proc p) t else k.proc p := by
  unfold unlinkThreadFromProcess
  cases hp : (k.task t).process with
  | none =>
    refine ⟨_, _, _, rfl, fun u => ?_, fun _ => rfl, fun p => by simp⟩
    by_cases hu : u = t
    · rw [if_pos hu, hu, ← hp]
    · rw [if_neg hu]
  | some q =>
    have hstatus := Threads.modify_proj Thread.status (s := k.ipc) (t := t)
      (f := fun x => { x with process := none }) rfl
    dsimp only
    split
    next hmem =>
      refine ⟨_, _, _, rfl, fun u => modifyTask_task .., hstatus, fun p => ?_⟩
      simp only [modifyTask_proc, modifyProc_proc, Option.some.injEq]
      by_cases hpq : p = q
      · subst hpq
        simp [hmem, Process.without]
      · simp [hpq, Ne.symm hpq]
    next hmem =>
      refine ⟨_, _, _, rfl, fun u => modifyTask_task .., hstatus, fun p => (if_neg ?_).symm⟩
      rintro ⟨hpq, h⟩
      cases hpq
      exact hmem h

theorem removeFromScheduler_spec (k : Kernel β) (t : Tid) :
    ∃ l, k.threadRemoveFromScheduler t = { k with others := l } ∧
      ∀ u, u ≠ t → u ∈ k.current :: k.others → u ∈ k.current :: l := by
  unfold threadRemoveFromScheduler
  split
  · exact ⟨k.others, rfl, fun _ _ hu => hu⟩
  · refine ⟨k.others.erase t, rfl, fun u hut hu => ?_⟩
    rcases mem_cons.mp hu with hu | hu
    · exact mem_cons.mpr (Or.inl hu)
    · exact mem_cons_of_mem _ ((mem_erase_of_ne hut).mpr hu)

theorem discardThread_spec (k : Kernel β) (t : Tid) : Discarded k (k.discardThread t) t := by
  obtain ⟨l, hl, hring⟩ := removeFromScheduler_spec k t
  unfold discardThread threadFreeObject
  rw [hl]
  generalize hk1 : ({ k with others := l } : Kernel β).modifyIpc t
    (fun x => { x with status := .zombie }) = k1
  obtain ⟨task, sleepers, htimer, htask⟩ := timerCancel_spec k1 t
  rw [htimer]
  obtain ⟨ipc, task', proc, hunlink, htask', hipc, hproc⟩ :=
    unlinkThread_spec { k1 with task, sleepers } t
  rw [hunlink]
  subst hk1
  have hstatus : ∀ u, (ipc u).status = if u = t then .zombie else k.status u := fun u =>
    (hipc u).trans (modifyIpc_status ..)
  have hself : task' t = { k.task t with sleeping := false, process := none } := by
    rw [htask', if_pos rfl]
    dsimp only
    rw [htask, if_pos rfl]
    rfl
  constructor
  case gone =>
    rw [modifyTask_task, if_pos rfl]
    exact ⟨congrArg Task.process hself, rfl, rfl⟩
  case task =>
    intro u hu
    rw [modifyTask_task, if_neg hu]
    exact (htask' u).trans ((if_neg hu).trans ((htask u).trans (if_neg hu)))
  case zombie => exact (hstatus t).trans (if_pos rfl)
  case status => exact fun u hu => (hstatus u).trans (if_neg hu)
  case proc =>
    intro p
    refine (hproc p).trans ?_
    simp only [htask, if_true]
    rfl
  case others => exact (congrArg others hl).symm
  case ring => exact hring
  case doing =>
    rw [modifyTask_task, if_pos rfl]
    show (task' t).doing = _
    rw [hself]
  all_goals rfl

/-! ## A thread is added -/

/-- What `link_thread_to_process` makes of the process. -/
def Process.withThread (x : Process) (t : Tid) : Process :=
  { x with
    threads := t :: x.threads
    threadCount := x.threadCount + 1
    mainThread := if x.mainThread = none then some t else x.mainThread }

/-- `k'` is `k` with a new thread `k.nextTid` of process `p`. -/
structure Added (k k' : Kernel β) (p : ProcId) : Prop where
  task : ∀ u, k'.task u =
    if u = k.nextTid then { newTask with process := some p } else k.task u
  status : ∀ u, k'.status u = if u = k.nextTid then .ready else k.status u
  proc : ∀ q, k'.proc q = if q = p then Process.withThread (k.proc p) k.nextTid else k.proc q
  procs : k'.procs = k.procs
  ring : ∀ u, u ∈ k'.current :: k'.others ↔ u = k.nextTid ∨ u ∈ k.current :: k.others
  nextTid : k'.nextTid = k.nextTid + 1
  nextProc : k'.nextProc = k.nextProc
  locked : k'.locked = k.locked

theorem threadAppend_rest (k : Kernel β) (t : Tid) :
    ∃ l, k.threadAppend t = { k with others := l } := by
  unfold threadAppend
  split
  · exact ⟨_, rfl⟩
  · exact ⟨_, rfl⟩

theorem addThread_spec [Inhabited β] (k : Kernel β) (p : ProcId) :
    Added k ((k.threadAllocForProcess p).2.threadAppend k.nextTid) p := by
  have hstatus : ∀ u, (k.threadAllocForProcess p).2.status u =
      if u = k.nextTid then .ready else k.status u := by
    intro u
    simp only [threadAllocForProcess, linkThreadToProcess, modifyProc_status, modifyIpc_status]
    by_cases hu : u = k.nextTid
    · simp [hu, modifyTask, newThread]
    · simp [hu, modifyTask, status]
  have hring : ∀ u, u ∈ ((k.threadAllocForProcess p).2.threadAppend k.nextTid).current ::
      ((k.threadAllocForProcess p).2.threadAppend k.nextTid).others ↔
      u = k.nextTid ∨ u ∈ k.current :: k.others := by
    intro u
    unfold threadAppend
    rw [hstatus, if_pos rfl]
    by_cases hin : (k.threadAllocForProcess p).2.inSchedulerRing k.nextTid = true
    · rw [if_pos (Or.inr hin)]
      have hin' : k.nextTid ∈ k.current :: k.others := by
        simp only [inSchedulerRing, Bool.or_eq_true, beq_iff_eq, contains_iff_mem] at hin
        exact mem_cons.mpr (hin.imp Eq.symm id)
      constructor
      · exact fun hu => Or.inr hu
      · rintro (rfl | hu)
        · exact hin'
        · exact hu
    · rw [if_neg (not_or.mpr ⟨by simp, hin⟩)]
      simp only [mem_cons, mem_append, not_mem_nil, or_false]
      tauto
  obtain ⟨l, hl⟩ := threadAppend_rest (k.threadAllocForProcess p).2 k.nextTid
  rw [hl] at hring ⊢
  refine ⟨fun u => ?_, hstatus, fun q => ?_, rfl, hring, rfl, rfl, rfl⟩
  · simp only [threadAllocForProcess, linkThreadToProcess, modifyProc_task, modifyIpc_task,
      modifyTask_task]
    by_cases hu : u = k.nextTid
    · simp [hu]
    · simp [hu]
  · simp only [threadAllocForProcess, linkThreadToProcess, modifyProc_proc, modifyIpc_proc,
      modifyTask_proc]
    rfl

/-! ## Processes end -/

theorem foldl_orphan_proc (l : List ProcId) (k : Kernel β) (q : ProcId) :
    (l.foldl (fun k c => k.modifyProc c fun x => { x with parent := none }) k).proc q =
      { k.proc q with parent := if q ∈ l then none else (k.proc q).parent } := by
  induction l generalizing k with
  | nil => simp
  | cons c l ih =>
    rw [foldl_cons, ih]
    by_cases hq : q = c
    · simp [modifyProc_proc, hq]
    · simp [modifyProc_proc, hq]

theorem reparentChildren_proc (k : Kernel β) (p q : ProcId) : (k.reparentChildren p).proc q =
    { k.proc q with
      parent := if q ∈ (k.proc p).children then none else (k.proc q).parent
      children := if q = p then [] else (k.proc q).children } := by
  unfold reparentChildren
  rw [modifyProc_proc, foldl_orphan_proc, foldl_orphan_proc]
  by_cases hq : q = p
  · simp [hq]
  · simp [hq]

theorem reparentChildren_rest (k : Kernel β) (p : ProcId) :
    ∃ f, k.reparentChildren p = { k with proc := f } := by
  have hfold : ∀ (l : List ProcId) (k : Kernel β), ∃ f,
      l.foldl (fun k c => k.modifyProc c fun x => { x with parent := none }) k =
        { k with proc := f } := by
    intro l
    induction l with
    | nil => exact fun k => ⟨k.proc, rfl⟩
    | cons c l ih =>
      intro k
      obtain ⟨f, hf⟩ := ih (k.modifyProc c fun x => { x with parent := none })
      exact ⟨f, hf⟩
  obtain ⟨f, hf⟩ := hfold (k.proc p).children k
  unfold reparentChildren
  rw [hf]
  exact ⟨_, rfl⟩

theorem gentle_wakeParent (k : Kernel β) (p : ProcId) : Gentle k (k.wakeParent p) := by
  unfold wakeParent
  split
  · exact .refl k
  next t _ => exact gentle_threadUnblock k t

end Kernel

end OrangeOs.Proc
