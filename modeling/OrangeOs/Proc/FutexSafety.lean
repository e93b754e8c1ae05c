import OrangeOs.Proc.Killed
import OrangeOs.Proc.Waits

/-! # Futex queues under every wake-up

The buckets stay well formed in every run in which no process exits whose parent has its main
thread BLOCKED in `futex_wait`, `thread_sleep_ticks`, `ipc_send` or `ipc_receive`: `process_exit`
makes that thread ready and leaves it on the list it is on, and the call returns.
-/

namespace OrangeOs.Proc

open Ipc List

namespace Kernel

variable {β : Type} {k k' : Kernel β} {q : Nat → List Tid} {t : Tid} {p : ProcId}

/-! ## Futex calls -/

theorem Settled.woke (h : Settled k) (hq : Queues k' q) {ws : List Tid} (hw : Woke k k' ws) :
    Settled k' := by
  have hg := hw.gentle
  refine ⟨hw.posted h.posted, hw.dozing h.dozing, ?_, fun t w hl => ?_, fun t w hl => ?_⟩
  · rw [hg.current, hg.others, hg.nextTid]
    exact h.ring
  · rw [hg.nextTid]
    exact h.born t w (hw.listed t w hl)
  · have hold := hw.listed t w hl
    have hstatus := hw.status t
    by_cases ht : t ∈ ws
    · rw [if_pos ht] at hstatus
      have hz : k.status t ≠ .zombie := fun hz =>
        nomatch hstatus.symm.trans ((hg.quiet.zombies t).mpr hz)
      cases h.only hz (hw.queued t ht) hold
      cases (hq.not_waiting (t := t) (by rw [hstatus]; nofun)).symm.trans hl
    · rw [if_neg ht] at hstatus
      unfold Expects
      rw [hstatus, hg.task t]
      exact h.expects t w hold

/-! ## Exits -/

theorem safe_becomeZombie (h : Settled k) (ht : ¬Asleep k k.current) : Safe k k.becomeZombie := by
  have e : Eased none k k.becomeZombie :=
    (eased_modifyIpc k _ (f := fun x => { x with status := .zombie }) rfl (Or.inl rfl)).trans
      (eased_modifyTask_same _ _ rfl)
  have hs : Still k (k.modifyIpc k.current fun x => { x with status := .zombie }) :=
    still_modifyIpc k _ fun ha => absurd ha ht
  exact ⟨hs.trans (still_modifyTask _ _ rfl), h.eased e⟩

theorem safe_retire (h : Settled k) (hidle : (k.futex.node k.current).waiting = false)
    (status : Int) : Safe k (k.retire status) := by
  have hcancel : k.futexCancelThread k.current futexErrIntr = k := by
    unfold futexCancelThread
    rw [hidle]
    rfl
  unfold retire
  rw [hcancel]
  dsimp only
  have h1 := safe_ipcAbortThread h k.current
  have hcurrent1 := (gentle_ipcAbortThread k k.current).current
  generalize k.ipcAbortThread k.current = k1 at *
  have h2 := h1.trans (safe_modifyTask h1.settled k1.current
    (f := fun x => { x with exitStatus := status }) rfl rfl)
  have h3 := h2.trans (safe_becomeZombie h2.settled
    (not_asleep_of_idle (h2.idle_eq (hcurrent1.symm ▸ hidle))))
  split
  · next w hw => exact h3.trans (safe_unblockListed h3.settled (w := .join _) hw (Or.inr ⟨_, rfl⟩))
  · exact h3

theorem safe_unblockAll (l : List Tid) (h : Settled k)
    (hl : ∀ t ∈ l, (k.futex.node t).waiting = false) :
    Safe k (l.foldl (fun k t =>
      ((k.timerCancelThreadSleep t).ipcAbortThread t).threadUnblock t) k) := by
  induction l generalizing k with
  | nil => exact .refl h
  | cons t l ih =>
    have h1 := safe_timerCancel h t
    have hnot := timerCancel_unlisted k h.dozing t
    generalize hk1 : k.timerCancelThreadSleep t = k1 at h1 hnot
    have h2 := h1.trans (safe_ipcAbortThread h1.settled t)
    have h3 := h2.trans (safe_threadUnblock (t := t) h2.settled fun w _ hlist => by
      cases w with
      | lock => exact Or.inl rfl
      | join x => exact Or.inr ⟨x, rfl⟩
      | futex => cases (h2.idle_eq (hl t mem_cons_self)).symm.trans hlist
      | sleep => exact absurd hlist hnot
      | send =>
        obtain ⟨d, hd⟩ := hlist
        exact absurd (Or.inl rfl) (((h1.settled.posted.abort t).mem d t).mp hd).2
      | receive =>
        have hlist : (Ipc.ipcAbortThread k1.ipc t t).ipcReceiving = true := hlist
        rw [h1.settled.posted.abort_receiving, if_pos rfl] at hlist
        cases hlist)
    rw [foldl_cons, hk1]
    exact h3.trans (ih h3.settled fun u hu => h3.idle_eq (hl u (mem_cons_of_mem _ hu)))

theorem safe_dropVictims (l : List Tid) (h : Settled k)
    (hl : ∀ t ∈ l, (k.futex.node t).waiting = false) : Safe k (l.foldl dropVictim k) := by
  induction l generalizing k with
  | nil => exact .refl h
  | cons t l ih =>
    have hone : Safe k (k.dropVictim t) := by
      unfold Kernel.dropVictim
      split
      · exact .refl h
      · have habort := safe_ipcAbortThread h t
        exact habort.trans (safe_discardThread habort.settled
          (not_asleep_of_idle (habort.idle_eq (hl t mem_cons_self))))
    exact hone.trans (ih hone.settled fun u hu => hone.idle_eq (hl u (mem_cons_of_mem _ hu)))

theorem safe_reparentChildren (h : Settled k) (p : ProcId) : Safe k (k.reparentChildren p) := by
  have hproc := reparentChildren_proc k p
  obtain ⟨f, hf⟩ := reparentChildren_rest k p
  rw [hf] at hproc ⊢
  exact ⟨{ Still.refl k with address _ r _ _ := by rw [hproc r] },
    h.eased { (Eased.refl k : Eased none k k) with }⟩

/-- A thread that is not in a call that returns after every wake-up may be woken. -/
theorem Settled.looks (h : Settled k) (hd : k.status t = .blocked → (k.task t).doing.returns = false)
    (w : Source) (hb : k.status t = .blocked) (hl : Listed k t w) : w = .lock ∨ ∃ x, w = .join x := by
  have hsource := ((h.expects t w hl).resolve_left (by rw [hb]; nofun)).1
  have hd := hd hb
  generalize (k.task t).doing = d at hd hsource
  cases d <;> cases hd <;> cases hsource
  · exact Or.inr ⟨_, rfl⟩
  all_goals exact Or.inl rfl

/-- The main thread of the parent of `p` is not BLOCKED in a call that takes every wake-up for its
own. -/
def Spares (k : Kernel β) (p : ProcId) : Prop :=
  ∀ t ∈ k.parentThread p, k.status t = .blocked → (k.task t).doing.returns = false

theorem safe_wakeParent (h : Settled k) (hd : k.Spares p) : Safe k (k.wakeParent p) := by
  unfold Kernel.wakeParent
  split
  · exact .refl h
  · next t ht => exact safe_threadUnblock h (h.looks (hd t ht))

/-- The buckets are well formed, and every thread on a list is in the call it is for. -/
def Formed (k : Kernel β) : Prop := Settled k ∧ ∃ q, Queues k q

theorem Formed.safe (h : Formed k) (hs : Safe k k') : Formed k' := by
  obtain ⟨-, q, hq⟩ := h
  exact ⟨hs.settled, q, hq.still hs.toStill⟩

theorem Formed.cancelProcess (h : Formed k) (p : ProcId) (r : Int) :
    Formed (k.futexCancelProcess p r) ∧ ∀ t, (k.task t).process = some p →
      ((k.futexCancelProcess p r).futex.node t).waiting = false := by
  obtain ⟨hset, q, hq⟩ := h
  obtain ⟨q', ws, hqueues, hwoke, -, hmem⟩ := hq.futexCancelProcess p r
  refine ⟨⟨hset.woke hqueues hwoke, q', hqueues⟩, fun t ht => ?_⟩
  rw [← Bool.not_eq_true]
  intro hw
  have hin := hqueues.chained.queued t hw
  obtain ⟨p', hnode, htask, -⟩ := hqueues.process _ t hin
  rw [hwoke.gentle.process, ht] at htask
  rw [(hwoke.key t).1, ← htask] at hnode
  exact ((hmem _ t).mp hin).2 hnode

theorem Formed.requested (h : Formed k) (hm : Members k) {f : Process → Process}
    (hthreads : (f (k.proc p)).threads = (k.proc p).threads)
    (haddress : (f (k.proc p)).address = (k.proc p).address) :
    let k' := (k.modifyProc p f).futexCancelProcess p futexErrIntr
    Formed k' ∧ (∀ t, (k.task t).process = some p → (k'.futex.node t).waiting = false) ∧
      ∀ t ∈ (k'.proc p).threads, (k'.futex.node t).waiting = false := by
  obtain ⟨hformed, hidle⟩ := (h.safe (safe_modifyProc h.1 p haddress)).cancelProcess p futexErrIntr
  refine ⟨hformed, hidle, fun t ht => hidle t ((hm.member t p).mp ?_)⟩
  rwa [(gentle_futexCancelProcess (k.modifyProc p f) p futexErrIntr).proc p,
    modifyProc_proj Process.threads hthreads] at ht

theorem Formed.endProcess (h : Formed k) (hm : Members k) (hp : k.processCurrent = some p)
    (status : Int) : Formed (k.endProcess p status) := by
  unfold Kernel.endProcess
  dsimp only
  obtain ⟨h1, hself, hidle⟩ := h.requested hm (p := p)
    (f := fun x => { x with exitRequested := true }) rfl rfl
  have hcurrent1 := (gentle_futexCancelProcess
    (k.modifyProc p fun x => { x with exitRequested := true }) p futexErrIntr).current
  generalize (k.modifyProc p fun x => { x with exitRequested := true }).futexCancelProcess p
    futexErrIntr = k1 at *
  change Formed (((((((k1.ipcAbortThread k.current).proc p).threads.foldl dropVictim
    (k1.ipcAbortThread k.current)).processCloseFiles p).releaseProcessAddressSpace p).modifyProc p
      fun x => { x with exitStatus := status, state := .zombie }).becomeZombie.reparentChildren p)
  have h2 := safe_ipcAbortThread h1.1 k.current
  have hg2 := gentle_ipcAbortThread k1 k.current
  generalize k1.ipcAbortThread k.current = k2 at *
  have h3 := h2.trans (safe_dropVictims (k2.proc p).threads h2.settled fun t ht =>
    h2.idle_eq (hidle t (by rwa [hg2.proc p] at ht)))
  have hcurrent3 := (dropVictims_current (k := k2) (k2.proc p).threads).trans
    (hg2.current.trans hcurrent1)
  generalize (k2.proc p).threads.foldl dropVictim k2 = k3 at *
  have h4 := h3.trans (safe_processCloseFiles h3.settled p)
  have hcurrent4 := (gentle_processCloseFiles k3 p).current.trans hcurrent3
  generalize k3.processCloseFiles p = k4 at *
  have h5 := h4.trans (safe_modifyProc h4.settled p (f := fun x =>
    { x with cr3 := false, vmas := false }) rfl)
  have h6 := h5.trans (safe_modifyProc h5.settled p (f := fun x =>
    { x with exitStatus := status, state := .zombie }) rfl)
  have h7 := h6.trans (safe_becomeZombie h6.settled (not_asleep_of_idle (h6.idle_eq
    (hcurrent4 ▸ hself _ hp))))
  exact h1.safe (h7.trans (safe_reparentChildren h7.settled p))

theorem Formed.exitProcess (h : Formed k) (hm : Members k) (hp : k.processCurrent = some p)
    {status : Int} (hd : (k.endProcess p status).Spares p) : Formed (k.exitProcess p status) :=
  have hend := h.endProcess hm hp status
  hend.safe (safe_wakeParent hend.1 hd)

theorem Formed.requestProcessTermination (h : Formed k) (hm : Members k) (pid : UInt32)
    (status : Int) (rejectCurrent : Bool) :
    Formed (k.requestProcessTermination pid status rejectCurrent) := by
  unfold Kernel.requestProcessTermination
  split
  · exact h
  · next p _ =>
    split
    · exact h
    · obtain ⟨h1, -, hidle⟩ := h.requested hm (p := p)
        (f := fun x => { x with exitRequested := true, killStatus := status }) rfl rfl
      exact h1.safe (safe_unblockAll _ h1.1 hidle)

/-! ## Steps -/

/-- What the runs keep. -/
structure Tidy (k : Kernel β) : Prop where
  members : Members k
  formed : Formed k

/-- The user process of the current thread. -/
def userProcess (k : Kernel β) : Option ProcId := k.processCurrent.filter (· != kernelProcess)

/-- The process whose `process_exit` runs in a step, and its status. -/
def exits (k : Kernel β) : Op β → Option (ProcId × Int)
  | .processExit status => k.userProcess.map (·, status)
  | .threadExit status =>
    (k.userProcess.filter (k.processLiveThreadCount · ≤ 1)).map (·, status)
  | .exitCheck =>
    (k.userProcess.filter fun p => (k.proc p).exitRequested).map fun p => (p, (k.proc p).killStatus)
  | _ => none

/-- When the step is the exit of a process, the parent that it wakes is not BLOCKED in a call that
takes every wake-up for its own. -/
def SparesParent (k : Kernel β) (op : Op β) : Prop :=
  ∀ e ∈ k.exits op, (k.endProcess e.1 e.2).Spares e.1

instance (k : Kernel β) (op : Op β) : Decidable (k.SparesParent op) :=
  inferInstanceAs (Decidable (∀ e ∈ k.exits op, ∀ t ∈ (k.endProcess e.1 e.2).parentThread e.1, _ → _))

theorem runs_of_inUser (h : k.inUser = true) : Runs k .user :=
  ⟨inUser_ready h, beq_iff_eq.mp (Bool.and_eq_true_iff.mp h).2⟩

theorem Tidy.retire (h : Tidy k) (hready : k.status k.current = .ready) (status : Int) :
    Formed (k.retire status) := by
  obtain ⟨q, hq⟩ := h.formed.2
  exact h.formed.safe (safe_retire h.formed.1 (hq.not_waiting (by rw [hready]; nofun)) status)

theorem Tidy.processExit (h : Tidy k) (hready : k.status k.current = .ready) {status : Int}
    (hok : k.SparesParent (.processExit status)) : Formed (k.processExit status) := by
  unfold Kernel.processExit
  split
  · exact h.formed
  · next p hp =>
    split
    · exact h.retire hready 0
    · next hk =>
      exact h.formed.exitProcess h.members hp (hok (p, status) (by simp [exits, userProcess, hp, hk]))

theorem Tidy.threadExit (h : Tidy k) (hready : k.status k.current = .ready) {status : Int}
    (hok : k.SparesParent (.threadExit status)) : Formed (k.threadExitWithStatus status) := by
  unfold threadExitWithStatus
  split
  · exact h.formed
  · next p hp =>
    split
    · next hlast =>
      exact h.formed.exitProcess h.members hp
        (hok (p, status) (by simp [exits, userProcess, hp, hlast.1, hlast.2]))
    · exact h.retire hready status

theorem Tidy.exitCheck (h : Tidy k) (hready : k.status k.current = .ready)
    (hok : k.SparesParent .exitCheck) : Formed k.exitCheck := by
  unfold Kernel.exitCheck
  split
  · exact h.formed
  · next p hp =>
    split
    · next hkill =>
      refine h.processExit hready fun e he => hok e ?_
      simpa [exits, userProcess, hp, hkill.1, hkill.2] using he
    · exact h.formed

theorem Tidy.futexWait (h : Tidy k) (hr : Runs k .user) (a : UInt64) : Formed (k.futexWait a) := by
  by_cases hp : ∃ p, k.processCurrent = some p ∧ p ≠ kernelProcess ∧ (k.proc p).exitRequested = false
  · obtain ⟨p, hp, hk, he⟩ := hp
    obtain ⟨hset, q, hq⟩ := h.formed
    obtain ⟨hqueues, hslept⟩ := hq.futexWait hp hk he (by rw [hr.ready]; nofun)
      (h.members.taskFresh _ p hp) a
    refine ⟨?_, _, hqueues⟩
    rw [futexWait_eq hp hk he] at hslept ⊢
    refine settled_wait hset (d := .futex) { (Eased.refl k : Eased (some .futex) k k) with
      listed t w hl := ?_
      keeps _ _ _ := Or.inr ⟨rfl, rfl⟩ } rfl fun w hl => absurd hl (hset.unlisted hr nofun w)
    cases w with
    | futex =>
      by_cases ht : t = k.current
      · exact Or.inr ⟨ht, rfl⟩
      · exact Or.inl ((hslept.key t ht).1.symm.trans hl)
    | sleep | send | receive | lock | join => exact Or.inl hl
  · have hsame : k.futexWait a = k := by
      unfold Kernel.futexWait
      split
      · rfl
      · next p hp' =>
        exact if_pos (by_contra fun hne => hp ⟨p, hp', by simpa using hne⟩)
    rw [hsame]
    exact h.formed

theorem Tidy.futexWake (h : Tidy k) (p : ProcId) (a : UInt64) (n : Nat) :
    Formed (k.futexWake p a n).2 := by
  obtain ⟨hset, q, hq⟩ := h.formed
  obtain ⟨-, ⟨q', hq', -⟩, hwoke⟩ := hq.futexWake p a n
  exact ⟨hset.woke hq' hwoke, q', hq'⟩

/-- The steps that are no business of the futexes. -/
def aside : Op β → Bool
  | .kill .. | .exitCheck | .threadExit _ | .processExit _ | .futexWait _ | .futexWake .. => false
  | _ => true

variable [Inhabited β]

theorem Tidy.members_step (h : Tidy k) (op : Op β) : Members (k.step op) :=
  have hm : Moved (fun _ => True) (fun _ => True) (fun _ => True) k (k.step op) :=
    h.members.step (fun _ _ => trivial) (fun _ _ hS => absurd trivial hS) fun _ _ _ => trivial
  hm.members

theorem Tidy.safe_call (h : Tidy k) (hr : Runs k .user) {op : Op β} (hop : aside op = true) :
    Safe k (k.call op) := by
  have hs := h.formed.1
  cases op with
  | schedule | timerTick | resume => exact .refl hs
  | spawn address => exact (edits_spawn k address).safe h.members hs
  | fork address => exact (edits_processFork k address).safe h.members hs
  | createThread => exact (edits_processCreateThread h.members).safe h.members hs
  | join t => exact safe_threadJoin hs h.members hr t
  | detach t => exact (reaps_threadDetach k t).edits.safe h.members hs
  | wait pid options => exact safe_waitRound hs h.members hr nofun pid options
  | send t body => exact safe_ipcSend hs hr t body
  | receive source => exact safe_ipcReceive hs hr source
  | pipe =>
    dsimp only [call]
    split
    · exact safe_pipeCreate hs _
    · exact .refl hs
  | close f =>
    dsimp only [call]
    split
    · exact safe_fileClose hs _ f
    · exact .refl hs
  | pipeRead i n => exact safe_pipeRead hs hr nofun i n
  | pipeWrite i n => exact safe_pipeWrite hs hr nofun i n
  | acquire m => exact safe_mutexAcquire hs hr nofun m
  | release m => exact safe_mutexRelease hs m
  | sleep n => exact safe_threadSleepTicks hs hr n
  | kill | exitCheck | threadExit | processExit | futexWait | futexWake => cases hop

theorem Tidy.safe (h : Tidy k) {op : Op β} (hop : aside op = true) : Safe k (k.step op) := by
  have hcall : Safe k (if k.inUser = true then k.call op else k) := by
    split
    · next huser => exact h.safe_call (runs_of_inUser huser) hop
    · exact .refl h.formed.1
  cases op with
  | schedule => exact (edits_schedule k).safe h.members h.formed.1
  | timerTick => exact safe_timerTick h.formed.1
  | resume =>
    dsimp only [Kernel.step]
    split
    · next hr => exact safe_resume h.formed.1 h.members hr
    · exact .refl h.formed.1
  | kill => cases hop
  | exitCheck | spawn | fork | createThread | join | detach | threadExit | processExit | wait
  | futexWait | futexWake | send | receive | pipe | close | pipeRead | pipeWrite | acquire | release
  | sleep => exact hcall

theorem Tidy.step (h : Tidy k) {op : Op β} (hok : k.SparesParent op) : Tidy (k.step op) := by
  refine ⟨h.members_step op, ?_⟩
  have hcall : ∀ {k'}, (Runs k .user → Formed k') → Formed (if k.inUser = true then k' else k) := by
    intro k' hk'
    split
    · next huser => exact hk' (runs_of_inUser huser)
    · exact h.formed
  cases op with
  | kill pid status rejectCurrent =>
    exact h.formed.requestProcessTermination h.members pid status rejectCurrent
  | exitCheck => exact hcall fun hr => h.exitCheck hr.ready hok
  | threadExit status => exact hcall fun hr => h.threadExit hr.ready hok
  | processExit status => exact hcall fun hr => h.processExit hr.ready hok
  | futexWait a => exact hcall fun hr => h.futexWait hr a
  | futexWake a n =>
    refine hcall fun _ => ?_
    dsimp only [call]
    split
    · exact h.futexWake _ a n
    · exact h.formed
  | schedule | timerTick | resume | spawn | fork | createThread | join | detach | wait | send
  | receive | pipe | close | pipeRead | pipeWrite | acquire | release | sleep =>
    exact h.formed.safe (h.safe rfl)

theorem tidy_boot (address : UInt64) : Tidy (boot address : Kernel β) := by
  have hlisted : ∀ t w, ¬Listed (boot address : Kernel β) t w := by
    intro t w hl
    cases w with
    | futex | sleep => cases hl
    | send =>
      obtain ⟨d, hd⟩ := hl
      dsimp only [boot] at hd
      split at hd <;> cases hd
    | receive =>
      dsimp only [Listed, boot] at hl
      split at hl <;> cases hl
    | lock =>
      dsimp only [Listed, boot] at hl
      split at hl <;> exact hl rfl
    | join x =>
      dsimp only [Listed, boot] at hl
      split at hl <;> cases hl
  refine ⟨members_boot address, ⟨.init fun t => ?_, ⟨nodup_nil, nofun⟩, ?_,
    fun t w hl => absurd hl (hlisted t w), fun t w hl => absurd hl (hlisted t w)⟩, fun _ => [], ?_⟩
  · dsimp only [boot]
    split <;> rfl
  · intro t ht
    rw [mem_singleton.mp ht]
    exact Nat.zero_lt_one
  · exact ⟨⟨fun _ => rfl, fun _ => List.nodup_nil, nofun, nofun⟩, nofun, nofun, nofun, by simp [boot]⟩

/-! ## Runs -/

/-- In every run in which each exiting process has a parent whose main thread is not BLOCKED in
`futex_wait`, `thread_sleep_ticks`, `ipc_send` or `ipc_receive`, the buckets hold lists of BLOCKED
threads, each once and in the bucket it hashes to, that all waiting threads are in, and
`waiter_count` is their number. -/
theorem futex_queues_stay_formed (address : UInt64) (ops : List (Op β))
    (hrun : Machine.Throughout SparesParent Kernel.step (boot address) ops) :
    ∃ q, Queues (run address ops) q :=
  (hrun.invariant Tidy (fun _ _ h hok => h.step hok) (tidy_boot address)).formed.2

/-- A thread of a process waits, a child of the process exits, and another thread wakes the
first. -/
theorem futex_queues_stay_formed_child :
    let k : Kernel Unit := run 0x1000 [.spawn 0x2000, .schedule, .spawn 0x3000, .createThread,
      .schedule, .schedule, .schedule, .futexWait 0x10, .schedule, .schedule, .schedule,
      .processExit 0, .schedule, .futexWake 0x10 1]
    (k.status 2 = .zombie ∧ k.status 3 = .ready ∧ (k.task 3).doing = .futex) ∧ ∃ q, Queues k q :=
  ⟨by decide +kernel, futex_queues_stay_formed 0x1000 _ (by decide +kernel)⟩

/-- A process waits for a futex, and the exit of its child makes its main thread ready, which
stays in its bucket. -/
theorem parent_ready_in_bucket :
    ¬∃ q, Queues (run 0x1000 [.spawn 0x2000, .schedule, .spawn 0x3000, .futexWait 0x10,
      .schedule, .schedule, .processExit 0] : Kernel Unit) q := by
  rintro ⟨q, h⟩
  have hready := h.not_waiting (t := 1) (by decide +kernel)
  exact absurd hready (by decide +kernel)

end Kernel

end OrangeOs.Proc
