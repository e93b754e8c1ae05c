import Mathlib.Logic.Relation
import OrangeOs.Lib.Machine
import OrangeOs.Proc.Moves
import OrangeOs.Sched.LifeRuns

/-! # The ring over whole runs

Over a run in which `schedule` never leaves a running thread alone, the ring holds in every state
and the run stops, if at all, at the bound of 4096 threads; every ready thread of the ring gets
its turn.
-/

namespace OrangeOs.Sched

open Proc (ProcId kernelProcess Lifecycle)
open Ipc (Tid)
open Cycles List

namespace System

variable {s s' : System} {others : List Tid} {t : Tid} {p : ProcId}

/-! ## Runs -/

/-- A run that stops has met the bound on the ring. -/
def Sound : Exec → Prop
  | .ok s => Safe s
  | .error (a, _) => a = .ringSize

/-- The step taken in `e` leaves a running thread some other thread to switch to. -/
def Spared : Exec → Op → Prop
  | .ok s, op => SparesRing s op
  | .error _, _ => True

instance : ∀ e op, Decidable (Spared e op)
  | .ok s, op => inferInstanceAs (Decidable (SparesRing s op))
  | .error _, _ => isTrue trivial

theorem Sound.advance {e : Exec} {op : Op} (h : Sound e) (hspared : Spared e op) :
    Sound (advance e op) := by
  cases e with
  | error a => exact h
  | ok s =>
    have hsafe : Safe s := h
    obtain ⟨others, hformed⟩ := hsafe.formed
    show Sound (s.step op)
    rcases eq_or_ne op .schedule with rfl | hop
    · have hnext := hsafe.schedule
      show Sound s.schedule
      cases hformed.scheduled with
      | switched s' _ hok =>
        rw [hok] at hnext ⊢
        exact hnext
      | crowded _ herror =>
        rw [herror]
        rfl
      | stranded _ _ hspares _ => exact absurd hspared hspares
    · obtain ⟨s', hok, hsafe'⟩ := hsafe.ends_step hop
      rw [hok]
      exact hsafe'

/-- What the ring is at any moment: from the current thread the pointers lead once through every
thread that was appended and not freed, and to no other; none of them is dead, and no thread but
the current one is `TASK_RUNNING`. -/
structure RingHolds (s : System) (others : List Tid) : Prop where
  leads : Leads s.next s.current s.current others
  nodup : (s.current :: others).Nodup
  members : ∀ t, t ∈ s.current :: others ↔ .appended t ∈ s.log ∧ s.process t ≠ none
  reached : ∀ t, Relation.ReflTransGen (fun a b => s.next a = some b) s.current t →
    t ∈ s.current :: others
  alive : ∀ t ∈ s.current :: others, (s.thread t).status ≠ .dead
  running : ∀ t, (s.thread t).status = .running → t = s.current

theorem Formed.ringHolds (h : Formed s others) : RingHolds s others where
  leads := h.leads
  nodup := h.nodup
  members t := ⟨fun ht => ⟨h.appended t ht, h.held t ht⟩, fun ht => h.complete t ht.1 ht.2⟩
  reached t ht := by
    induction ht with
    | refl => exact mem_cons_self
    | tail _ hstep ih => exact h.leads.next_mem ih hstep
  alive := h.alive
  running := h.running

/-- `schedule` ends with the first ready thread behind the current one, or with the current one
if no other is ready. -/
def SelectsReady (s : System) (others : List Tid) : Prop :=
  ∀ s', s.schedule = .ok s' → s'.current = (others.find? s.readyThread).getD s.current

theorem Formed.selectsReady (h : Formed s others) : SelectsReady s others := by
  intro s' hs'
  cases h.scheduled with
  | switched s'' _ hok _ _ hcurrent =>
    rw [hok] at hs'
    exact Except.ok.inj hs' ▸ hcurrent
  | crowded _ herror =>
    rw [herror] at hs'
    cases hs'
  | stranded _ _ _ herror =>
    rw [herror] at hs'
    cases hs'

variable {β : Type} {k : Proc.Kernel β}

/-- The ring of pointers and the list in `Kernel` select the same thread. -/
theorem Formed.schedule_agrees (h : Formed s k.others) (hcurrent : s.current = k.current)
    (hready : ∀ t ∈ k.others, (s.thread t).status = .ready ↔ k.status t = .ready)
    (hs : s.schedule = .ok s') : s'.current = k.schedule.current := by
  rw [h.selectsReady s' hs, k.schedule_current, hcurrent, Proc.Kernel.selected]
  exact congrArg (·.getD k.current) (find?_congr fun t ht => decide_eq_decide.mpr (hready t ht))

/-- `s` and `k` have the same threads in the same processes. -/
def SameThreads (s : System) (k : Proc.Kernel β) : Prop :=
  (∀ t, s.process t = (k.task t).process) ∧ ∀ p, (s.proc p).threads = (k.proc p).threads ∧
    (s.proc p).mainThread = (k.proc p).mainThread

/-- A thread is freed alike in both. -/
theorem SameThreads.retired (h : SameThreads s k) (hm : k.Members) (t : Tid) (l : Lifecycle) :
    SameThreads (s.retired t l) (k.discardThread t) := by
  have hd := k.discardThread_spec t
  refine ⟨fun u => ?_, fun p => ?_⟩
  · rw [retired_process]
    split
    next hu => rw [hu, hd.gone.1]
    next hu => rw [hd.task u hu, h.1]
  · rw [retired_proc, procWithout_apply, h.1, hd.proc]
    simp only [hm.member, and_self]
    split
    · simp only [Process.unlinkThread, Proc.Kernel.Process.without, h.2, and_self]
    · exact h.2 p

/-- The assertion on the selected thread fails in the states that do not spare the ring. -/
theorem Formed.fails_iff (h : Formed s others) (hsize : others.length + 1 < 4096) :
    (∃ s', s.schedule = .error (.nextReady, s')) ↔ ¬ SparesRing s .schedule := by
  cases h.scheduled with
  | switched s'' _ hok hspares _ _ =>
    rw [hok]
    exact iff_of_false (by rintro ⟨s', hs'⟩; cases hs') (not_not.mpr hspares)
  | crowded hbig => exact absurd hsize (Nat.not_lt.mpr hbig)
  | stranded s'' _ hspares herror => exact iff_of_true ⟨s'', herror⟩ hspares

theorem sound_run {ops : List Op} (h : Machine.Throughout Spared advance (.ok boot) ops) :
    Sound (run ops) :=
  Machine.Throughout.invariant Sound (fun _ _ hs hok => hs.advance hok) safe_boot h

/-- In every run in which `schedule`, called by a running thread, finds another thread of the ring
that the reapers leave, the ring holds in every state, `schedule` selects the first ready thread,
and no assertion fails but the bound on the ring; the assertion on the selected thread fails in
exactly the other calls. -/
theorem ring_holds_while_spared (ops : List Op)
    (h : Machine.Throughout Spared advance (.ok boot) ops) :
    match run ops with
    | .error (a, _) => a = .ringSize
    | .ok s => ∃ others, RingHolds s others ∧ SelectsReady s others ∧
        (others.length + 1 < 4096 →
          ((∃ s', s.schedule = .error (.nextReady, s')) ↔ ¬ SparesRing s .schedule)) := by
  have hsound := sound_run h
  cases hrun : run ops with
  | error a =>
    rw [hrun] at hsound
    exact hsound
  | ok s =>
    rw [hrun] at hsound
    obtain ⟨others, hformed⟩ := hsound.formed
    exact ⟨others, hformed.ringHolds, hformed.selectsReady, hformed.fails_iff⟩

/-- Two threads besides the boot thread, one of them joined. -/
def oneJoined : List Op :=
  [.call .threadCreate, .call (.append 1), .call .threadCreate, .call (.append 2), .schedule,
    .call (.threadExit 7), .schedule, .schedule, .call (.join 1)]

theorem ring_holds_while_spared_join :
    match run oneJoined with
    | .error (a, _) => a = .ringSize
    | .ok s => ∃ others, RingHolds s others ∧ SelectsReady s others ∧
        (others.length + 1 < 4096 →
          ((∃ s', s.schedule = .error (.nextReady, s')) ↔ ¬ SparesRing s .schedule)) :=
  ring_holds_while_spared oneJoined (by decide)

/-- A detached thread exits and leaves the boot thread alone: the next `schedule` reaps it and
selects the boot thread, which is `TASK_RUNNING`. -/
theorem schedule_selects_running_thread :
    ∃ s, run [.call .threadCreate, .call (.append 1), .call (.detach 1), .schedule,
      .call (.threadExit 0), .schedule, .schedule] = .error (.nextReady, s) ∧
      (s.thread s.current).status = .running :=
  ⟨_, rfl, rfl⟩

/-! ## The bound on the ring -/

/-- The assertions of `check_scheduler_invariants`. -/
def ofInvariants (a : Assertion) : Prop := a = .ringThread ∨ a = .ringSize ∨ a = .runningCount

def Unasserted (e : Exec) : Prop := ∀ a s, e = .error (a, s) → ¬ ofInvariants a

/-- `schedule` is called while the ring is below its bound. -/
def RingRoom : Exec → Op → Prop
  | .ok s, .schedule => s.lap.length < 4096
  | _, _ => True

/-- The runs that go on, and those that stopped at another assertion. -/
def Uncrowded : Exec → Prop
  | .ok s => Safe s
  | .error (a, _) => a = .nextReady

theorem Uncrowded.unasserted {e : Exec} (h : Uncrowded e) : Unasserted e := by
  rintro a s rfl
  obtain rfl : a = .nextReady := h
  simp [ofInvariants]

theorem Formed.crowded (h : Formed s others) (hsize : 4096 ≤ others.length + 1) :
    s.schedule = .error (.ringSize, s) := by
  have hne : others ≠ [] := by
    rintro rfl
    simp at hsize
  rw [h.schedule_eq_select hne, if_neg (Nat.not_lt.mpr hsize)]

theorem Uncrowded.advance {e : Exec} (h : Uncrowded e) (op : Op) :
    RingRoom e op ∧ Uncrowded (advance e op) ∨
      ¬ RingRoom e op ∧ ∃ s, advance e op = .error (.ringSize, s) := by
  cases e with
  | error a => exact .inl ⟨trivial, h⟩
  | ok s =>
    have hsafe : Safe s := h
    obtain ⟨others, hformed⟩ := hsafe.formed
    rcases eq_or_ne op .schedule with rfl | hop
    · have hlap : s.lap.length = others.length + 1 := by
        rw [hformed.toRing.lap_eq, length_cons]
      by_cases hsize : s.lap.length < 4096
      · refine .inl ⟨hsize, ?_⟩
        have hnext := hsafe.schedule
        show Uncrowded s.schedule
        cases hformed.scheduled with
        | switched s' _ hok =>
          rw [hok] at hnext ⊢
          exact hnext
        | crowded hbig _ => omega
        | stranded _ _ _ herror =>
          rw [herror]
          rfl
      · exact .inr ⟨hsize, s, hformed.crowded (by omega)⟩
    · refine .inl ⟨by cases op <;> first | exact absurd rfl hop | exact trivial, ?_⟩
      obtain ⟨s', hok, hsafe'⟩ := hsafe.ends_step hop
      show Uncrowded (s.step op)
      rw [hok]
      exact hsafe'

theorem foldl_advance_error (x : Assertion × System) (ops : List Op) :
    ops.foldl advance (.error x) = .error x := by
  induction ops with
  | nil => rfl
  | cons op ops ih => exact ih

/-- No run fails an assertion of `check_scheduler_invariants`, whatever its threads call, unless
it calls `schedule` with 4096 threads in the ring. -/
theorem scheduler_invariants_hold_iff (ops : List Op) :
    Unasserted (run ops) ↔ Machine.Throughout RingRoom advance (.ok boot) ops := by
  have hroomy : Uncrowded (.ok boot) := safe_boot
  unfold run
  generalize (Except.ok boot : Exec) = e at hroomy
  induction ops generalizing e with
  | nil => exact iff_of_true hroomy.unasserted trivial
  | cons op ops ih =>
    rcases hroomy.advance op with ⟨hroom, hnext⟩ | ⟨hfull, s, herror⟩
    · exact (ih _ hnext).trans (and_iff_right hroom).symm
    · refine iff_of_false ?_ fun h => hfull h.1
      rw [foldl_cons, herror, foldl_advance_error]
      exact fun h => h _ _ rfl (.inr (.inl rfl))

/-- The new thread of `process_create_thread` before it is appended. -/
def createdThread (s : System) (p : ProcId) : System :=
  ((s.threadAllocForProcess p).allocateUserThreadStack p s.nextTid).processAllocateThreadTls p
    s.nextTid

theorem createdThread_self (s : System) (p : ProcId) : (s.createdThread p).thread s.nextTid =
    { newThread p with userStackPage := true, tlsPage := true } := by
  simp [createdThread, processAllocateThreadTls, allocateUserThreadStack, mapUserPage,
    threadAlloc_self]

theorem createdThread_of_ne (s : System) (p : ProcId) (h : t ≠ s.nextTid) :
    (s.createdThread p).thread t = s.thread t := by
  simp [createdThread, processAllocateThreadTls, allocateUserThreadStack, mapUserPage,
    threadAllocForProcess, modify_of_ne _ _ h]

theorem Formed.threadAppend_created (h : Formed s others) (p : ProcId) :
    Formed ((s.createdThread p).threadAppend s.nextTid) (others ++ [s.nextTid]) := by
  have hstack : Formed ((s.threadAllocForProcess p).allocateUserThreadStack p s.nextTid) others :=
    ((h.threadAllocForProcess p).mapUserPage p s.nextTid .userStack).modify_plain rfl rfl rfl
  have hpages : Formed (s.createdThread p) others := by
    unfold createdThread
    exact (hstack.mapUserPage p s.nextTid .tls).modify_plain rfl rfl rfl
  have hnew := createdThread_self s p
  refine hpages.threadAppend_new ?_ ?_ fun hmem => h.not_nextTid hmem rfl
  · rw [process, hnew]
    exact Option.some_ne_none _
  · rw [hnew]
    rfl

/-- The current thread is one whose `process_create_thread` succeeds. -/
structure Creates (s : System) (p : ProcId) : Prop where
  runs : s.runs = true
  joining : (s.thread s.current).joining = none
  process : s.process s.current = some p
  user : p ≠ kernelProcess
  state : (s.proc p).state = .running
  request : (s.proc p).exitRequested = false

theorem Creates.createThread (hc : Creates s p) (h : Formed s others) :
    ∃ s', s.step (.call .processCreateThread) = .ok s' ∧ Creates s' p ∧
      Formed s' (others ++ [s.nextTid]) := by
  have hstep : s.step (.call .processCreateThread) =
      .ok ((s.createdThread p).threadAppend s.nextTid) := by
    have hguard : ¬ (p = kernelProcess ∨ (s.proc p).state ≠ .running ∨
        (s.proc p).exitRequested = true) := by
      simp [hc.user, hc.state, hc.request]
    change (if _ then Except.ok s.processCreateThread else _) = _
    rw [if_pos ⟨hc.runs, hc.joining⟩, processCreateThread, hc.process]
    exact congrArg _ (if_neg hguard)
  obtain ⟨hcurrent, hproc⟩ := Formed.threadAppend_frame (s.createdThread p) s.nextTid
  obtain ⟨n, hthread⟩ := Formed.threadAppend_thread (s.createdThread p) s.nextTid s.current
  rw [createdThread_of_ne s p (h.not_nextTid mem_cons_self)] at hthread
  have hsame : ((s.createdThread p).threadAppend s.nextTid).thread
      ((s.createdThread p).threadAppend s.nextTid).current = { s.thread s.current with next := n } :=
    (congrArg _ hcurrent).trans hthread
  have hlinked : (s.createdThread p).proc p = linkThread s.nextTid (s.proc p) := modifyProc_self ..
  refine ⟨_, hstep, ?_, h.threadAppend_created p⟩
  constructor
  case runs =>
    unfold System.runs
    rw [hsame]
    exact hc.runs
  case joining => rw [hsame]; exact hc.joining
  case process =>
    unfold System.process
    rw [hsame]
    exact hc.process
  case user => exact hc.user
  case state => rw [hproc, hlinked]; exact hc.state
  case request => rw [hproc, hlinked]; exact hc.request

theorem Creates.createThreads (hc : Creates s p) (h : Formed s others) (n : Nat) :
    ∃ s' others', (replicate n (.call .processCreateThread)).foldl advance (.ok s) = .ok s' ∧
      Formed s' others' ∧ others'.length = others.length + n := by
  induction n generalizing s others with
  | zero => exact ⟨s, others, rfl, h, rfl⟩
  | succ n ih =>
    obtain ⟨s₁, hstep, hc₁, h₁⟩ := hc.createThread h
    obtain ⟨s', others', hrun, hformed, hlength⟩ := ih hc₁ h₁
    refine ⟨s', others', ?_, hformed, ?_⟩
    · have hadvance : advance (.ok s) (.call .processCreateThread) = .ok s₁ := hstep
      rw [replicate_succ, foldl_cons, hadvance, hrun]
    · rw [hlength, length_append, length_singleton]
      omega

/-- The first user process creates threads until the ring has 4096, and the next switch stops the
machine. -/
theorem created_threads_fill_ring :
    ∃ s, run ([.call .processCreateLoaded, .call (.append 1), .schedule] ++
      List.replicate 4095 (.call .processCreateThread) ++ [.schedule]) = .error (.ringSize, s) := by
  obtain ⟨s₀, hs₀, hc⟩ : ∃ s₀, run [.call .processCreateLoaded, .call (.append 1), .schedule] =
      .ok s₀ ∧ Creates s₀ 1 := ⟨_, rfl, rfl, rfl, rfl, nofun, rfl, rfl⟩
  have hsound : Sound (run [.call .processCreateLoaded, .call (.append 1), .schedule]) :=
    sound_run (by decide)
  rw [hs₀] at hsound
  obtain ⟨others, hformed⟩ := hsound.formed
  obtain ⟨s', others', hrun, hformed', hlength⟩ := hc.createThreads hformed 4095
  refine ⟨s', ?_⟩
  rw [run, foldl_append, foldl_append]
  change foldl advance (foldl advance (run _) _) _ = _
  rw [hs₀, hrun]
  exact hformed'.crowded (by omega)

/-! ## Round robin -/

/-- The ready thread `t` stands behind `n` others in a ring within the bound. -/
def Queued (t : Tid) (n : Nat) (s : System) : Prop :=
  ∃ l r, Formed s (l ++ t :: r) ∧ s.readyThread t = true ∧ l.length = n ∧
    n + r.length + 2 < 4096

theorem Queued.select {n : Nat} (h : Queued t n s) :
    ∃ s', s.select = .ok s' ∧ (s'.current = t ∨ ∃ k < n, Queued t k s') := by
  obtain ⟨l, r, h, hready, rfl, hroom⟩ := h
  have hswitch : ∀ {u}, (l ++ t :: r).find? s.readyThread = some u →
      s.select = .ok (s.switchTo u) := by
    intro u hfind
    have hu : s.readyThread u = true := find?_some hfind
    rw [System.select, h.toRing.pick_others (by simp), hfind]
    change (s.check (s.readyThread u) .nextReady).bind _ = _
    rw [hu]
    rfl
  rw [find?_append, find?_cons_of_pos hready] at hswitch
  cases hfind : l.find? s.readyThread with
  | none =>
    rw [hfind] at hswitch
    exact ⟨_, hswitch rfl, Or.inl rfl⟩
  | some u =>
    rw [hfind] at hswitch
    refine ⟨_, hswitch rfl, Or.inr ?_⟩
    obtain ⟨a, b, rfl⟩ := append_of_mem (mem_of_find?_eq_some hfind)
    rw [append_assoc, cons_append] at h
    have hne : t ≠ u ∧ t ≠ s.current := by
      have hnodup := h.nodup
      grind
    simp only [length_append, length_cons] at hroom ⊢
    refine ⟨b.length, by omega, b, r ++ s.current :: a, ?_, ?_, rfl, ?_⟩
    · simpa using h.switch
    · rw [readyThread, switchTo_status s hne.1, if_neg fun hc => hne.2 hc.1]
      exact hready
    · simp only [length_append, length_cons]
      omega

theorem Queued.schedule {n : Nat} (h : Queued t n s) :
    ∃ s', s.schedule = .ok s' ∧ (s'.current = t ∨ ∃ k < n, Queued t k s') := by
  obtain ⟨l, r, h, hready, rfl, hroom⟩ := h
  obtain ⟨s₁, hreap, hreaped⟩ := h.reap
  have hkeep : (!s.reapable t) = true := by
    rw [Bool.not_eq_true', Bool.eq_false_iff]
    intro hreapable
    simp [readyThread, zombie_of_reapable hreapable] at hready
  have hformed := hreaped.formed
  rw [filter_append, filter_cons, if_pos hkeep] at hformed
  have hready₁ : s₁.readyThread t = true := by
    rw [readyThread, hreaped.status (mem_cons_of_mem _ (mem_filter.mpr ⟨by simp, hkeep⟩))]
    exact hready
  have hl := length_filter_le (fun t => !s.reapable t) l
  have hr := length_filter_le (fun t => !s.reapable t) r
  obtain ⟨s', hok, hs'⟩ := Queued.select ⟨_, _, hformed, hready₁, rfl, by omega⟩
  refine ⟨s', ?_, hs'.imp_right ?_⟩
  · rw [h.schedule_eq_select (by simp), hreap, if_pos (by simp; omega)]
    exact hok
  · rintro ⟨k, hk, hqueued⟩
    exact ⟨k, hk.trans_le hl, hqueued⟩

theorem Queued.turn {n : Nat} (h : Queued t n s) : ∃ k ≤ n, ∃ s',
    (replicate (k + 1) .schedule).foldl advance (.ok s) = .ok s' ∧ s'.current = t := by
  induction n using Nat.strong_induction_on generalizing s with
  | _ n ih =>
    obtain ⟨s₁, hok, hcur | ⟨m, hm, h₁⟩⟩ := h.schedule
    · exact ⟨0, Nat.zero_le n, s₁, hok, hcur⟩
    · obtain ⟨k, hk, s', hrun, hs'⟩ := ih m hm h₁
      refine ⟨k + 1, by omega, s', ?_, hs'⟩
      have hadvance : advance (.ok s) .schedule = .ok s₁ := hok
      rw [replicate_succ, foldl_cons, hadvance, hrun]

/-- A ready thread of the ring runs after fewer calls of `schedule` than the ring has threads. -/
theorem ready_thread_gets_its_turn (ops : List Op)
    (h : Machine.Throughout Spared advance (.ok boot) ops) (hs : run ops = .ok s)
    (hroom : s.lap.length < 4096) (ht : t ∈ s.lap) (hne : t ≠ s.current)
    (hready : s.readyThread t = true) : ∃ n < s.lap.length, ∃ s',
      run (ops ++ replicate n .schedule) = .ok s' ∧ s'.current = t := by
  have hsound := sound_run h
  rw [hs] at hsound
  obtain ⟨others, hformed⟩ := hsound.formed
  rw [hformed.toRing.lap_eq] at hroom ht ⊢
  obtain ⟨l, r, rfl⟩ := append_of_mem ((mem_cons.mp ht).resolve_left hne)
  simp only [length_cons, length_append] at hroom ⊢
  obtain ⟨k, hk, s', hrun, hs'⟩ := Queued.turn ⟨l, r, hformed, hready, rfl, by omega⟩
  refine ⟨k + 1, by omega, s', ?_, hs'⟩
  rw [run, foldl_append, ← run, hs, hrun]

/-- Three threads besides the boot thread. -/
def threeCreated : List Op :=
  [.call .threadCreate, .call (.append 1), .call .threadCreate, .call (.append 2),
    .call .threadCreate, .call (.append 3)]

theorem ready_thread_gets_its_turn_created : ∃ s,
    run threeCreated = .ok s ∧ s.lap.length = 4 ∧ ∃ n < s.lap.length, ∃ s',
      run (threeCreated ++ replicate n .schedule) = .ok s' ∧ s'.current = 3 :=
  ⟨_, rfl, by decide, ready_thread_gets_its_turn _ (by decide) rfl (by decide) (by decide)
    (by decide) (by decide)⟩

end System

end OrangeOs.Sched
