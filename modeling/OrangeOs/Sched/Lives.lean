import OrangeOs.Sched.Pages

/-! # Claims, exits and joiners

Beside its pages, a thread's life has an exit status that is set once, a flag that lets one
`thread_join` or `thread_detach` through, and at most one joiner that waits. `Kept` collects what
holds between any two steps, and the lemmas say what keeps it: `Calm` steps change nothing it
speaks of, `retire` frees a thread nobody waits for.
-/

namespace OrangeOs.Sched

open List

open Proc (ProcId kernelProcess Lifecycle)
open Ipc (Tid)

def Event.isClaim (t : Tid) : Event → Bool
  | .joined u _ | .detached u => decide (u = t)
  | _ => false

def Event.isExit (t : Tid) : Event → Bool
  | .exited u _ => decide (u = t)
  | _ => false

/-- The event says nothing about a thread's pages, its exit or its joiner. -/
def Event.silent : Event → Bool
  | .appended _ | .processExit _ => true
  | _ => false

def Event.quiet : Event → Bool
  | .joined .. | .detached _ | .exited .. => false
  | _ => true

def Joinable (l : Lifecycle) : Prop := l = .joinableRunning ∨ l = .joinableZombie

variable {es log : List Event}

namespace System

variable {s s' : System} {others : List Tid} {t u : Tid} {p : ProcId}

/-- How many calls of `thread_join` and `thread_detach` on the thread have returned 0. -/
def claims (s : System) (t : Tid) : Nat := s.log.countP (Event.isClaim t)

def exits (s : System) (t : Tid) : Nat := s.log.countP (Event.isExit t)

/-- The lists of threads and the states of the processes. -/
structure Links (s : System) : Prop where
  linked : ∀ t p, t ∈ (s.proc p).threads ↔ s.process t = some p
  distinct : ∀ p, (s.proc p).threads.Nodup
  last : ∀ p, (s.proc p).state ≠ .running → (s.proc p).threads.length ≤ 1
  spaceless : ∀ p, (s.proc p).state ≠ .running → (s.proc p).cr3 = false
  young : ∀ t p, s.process t = some p → p < s.nextProc
  kernel : (s.proc kernelProcess).state = .running
  booted : kernelProcess < s.nextProc

structure Claims (s : System) : Prop where
  unclaimed : ∀ t, (s.thread t).lifecycleClaimed = false →
    s.claims t = 0 ∧ ∀ j, (s.thread j).joining ≠ some t
  once : ∀ t, s.claims t ≤ 1
  waiting : ∀ j t, (s.thread j).joining = some t →
    s.claims t = 0 ∧ ∀ j', (s.thread j').joining = some t → j' = j
  unused : ∀ t, s.nextTid ≤ t → s.claims t = 0

structure Exits (s : System) : Prop where
  zombie : ∀ t p, (s.thread t).status = .zombie → s.process t = some p →
    (s.proc p).state = .running → .exited t (s.thread t).exitStatus ∈ s.log
  once : ∀ t, s.exits t ≤ 1
  unexited : ∀ t, (s.thread t).status ≠ .zombie → (s.thread t).status ≠ .dead → s.exits t = 0
  unused : ∀ t, s.nextTid ≤ t → s.exits t = 0

/-- A join delivers the status of an earlier exit, before any page of the thread is freed. -/
def Ordered (log : List Event) : Prop :=
  ∀ later earlier t status, log = later ++ .joined t status :: earlier →
    .exited t status ∈ earlier ∧ ∀ page c r, .free t page c r ∉ earlier

/-- A process that runs has an address space, and the target of a thread that waits in
`thread_join` is a joinable thread of the same process. -/
structure Live (s : System) : Prop where
  space : ∀ p, (s.proc p).state = .running → (s.proc p).cr3 = true
  awaited : ∀ j t, (s.thread j).joining = some t → j ≠ t ∧
    ∃ p, s.process j = some p ∧ s.process t = some p ∧ Joinable (s.thread t).lifecycle

/-- What holds between the steps of a call. -/
structure Kept (s : System) : Prop where
  pages : Pages s
  links : Links s
  claims : Claims s
  exits : Exits s
  ordered : Ordered s.log

/-! ## The log -/

theorem countP_append_none {f : Event → Bool} (h : ∀ e ∈ es, f e = false) :
    (es ++ log).countP f = log.countP f := by
  rw [countP_append, countP_eq_zero.mpr, Nat.zero_add]
  exact fun e he => by rw [h e he]; exact Bool.false_ne_true

theorem Ordered.cons {e : Event} (h : Ordered log) (he : ∀ t status, e ≠ .joined t status) :
    Ordered (e :: log) := by
  intro later earlier t status heq
  cases later with
  | nil =>
    rw [nil_append, cons.injEq] at heq
    exact absurd heq.1 (he t status)
  | cons e' later =>
    rw [cons_append, cons.injEq] at heq
    exact h later earlier t status heq.2

theorem Ordered.append (h : Ordered log) (hes : ∀ e ∈ es, ∀ t status, e ≠ .joined t status) :
    Ordered (es ++ log) := by
  induction es with
  | nil => exact h
  | cons e es ih =>
    exact (ih fun e' he' => hes e' (mem_cons_of_mem e he')).cons (hes e mem_cons_self)

theorem Ordered.joined {status : Int} (h : Ordered log) (hexited : .exited t status ∈ log)
    (hfrees : ∀ page c r, .free t page c r ∉ log) : Ordered (.joined t status :: log) := by
  intro later earlier u st heq
  cases later with
  | nil =>
    rw [nil_append, cons.injEq] at heq
    obtain ⟨he, rfl⟩ := heq
    cases he
    exact ⟨hexited, hfrees⟩
  | cons e later =>
    rw [cons_append, cons.injEq] at heq
    exact h later earlier u st heq.2

/-! ## Calm steps -/

/-- The thread stays as it is in what its pages, its exit and its joiner depend on; it may be
claimed. -/
structure CalmThread (r r' : Thread) : Prop where
  process : r'.process = r.process
  has : ∀ page, r'.has page = r.has page
  lifecycleClaimed : r'.lifecycleClaimed = false → r.lifecycleClaimed = false
  exitStatus : r'.exitStatus = r.exitStatus
  joining : r'.joining = r.joining
  zombie : r'.status = .zombie ↔ r.status = .zombie
  dead : r'.status = .dead ↔ r.status = .dead

structure CalmProcess (r r' : Process) : Prop where
  threads : r'.threads = r.threads
  state : r'.state = r.state
  cr3 : r'.cr3 = r.cr3

structure Calm (s s' : System) : Prop where
  thread : ∀ t, CalmThread (s.thread t) (s'.thread t)
  proc : ∀ p, CalmProcess (s.proc p) (s'.proc p)
  mapped : s'.mapped = s.mapped
  nextTid : s'.nextTid = s.nextTid
  nextProc : s'.nextProc = s.nextProc
  log : ∃ es, s'.log = es ++ s.log ∧ ∀ e ∈ es, e.silent = true

theorem CalmThread.refl (r : Thread) : CalmThread r r :=
  ⟨rfl, fun _ => rfl, id, rfl, rfl, Iff.rfl, Iff.rfl⟩

theorem CalmProcess.refl (r : Process) : CalmProcess r r := ⟨rfl, rfl, rfl⟩

theorem Calm.refl (s : System) : Calm s s :=
  ⟨fun _ => .refl _, fun _ => .refl _, rfl, rfl, rfl, [], rfl, nofun⟩

theorem Calm.trans {s'' : System} (h : Calm s s') (h' : Calm s' s'') : Calm s s'' := by
  obtain ⟨es, heq, hes⟩ := h.log
  obtain ⟨es', heq', hes'⟩ := h'.log
  refine ⟨fun t => ?_, fun p => ?_, h'.mapped.trans h.mapped, h'.nextTid.trans h.nextTid,
    h'.nextProc.trans h.nextProc, es' ++ es, ?_, ?_⟩
  · have h1 := h.thread t
    have h2 := h'.thread t
    exact ⟨h2.process.trans h1.process, fun page => (h2.has page).trans (h1.has page),
      fun hc => h1.lifecycleClaimed (h2.lifecycleClaimed hc), h2.exitStatus.trans h1.exitStatus,
      h2.joining.trans h1.joining, h2.zombie.trans h1.zombie, h2.dead.trans h1.dead⟩
  · have h1 := h.proc p
    have h2 := h'.proc p
    exact ⟨h2.threads.trans h1.threads, h2.state.trans h1.state, h2.cr3.trans h1.cr3⟩
  · rw [heq', heq, append_assoc]
  · exact fun e he => (mem_append.mp he).elim (hes' e) (hes e)

theorem silent_spec {e : Event} (h : e.silent = true) :
    e.aboutPages = false ∧ e.quiet = true := by
  cases e with
  | appended t => exact ⟨rfl, rfl⟩
  | processExit t => exact ⟨rfl, rfl⟩
  | _ => cases h

theorem quiet_spec {e : Event} (h : e.quiet = true) : (∀ t, e.isClaim t = false) ∧
    (∀ t, e.isExit t = false) ∧ ∀ t status, e ≠ .joined t status := by
  cases e with
  | joined | detached | exited => cases h
  | _ => exact ⟨fun _ => rfl, fun _ => rfl, fun _ _ heq => by cases heq⟩

/-- What a process record says of its threads and its address space. -/
structure Fine (r : Process) : Prop where
  distinct : r.threads.Nodup
  ended : r.state ≠ .running → r.threads.length ≤ 1 ∧ r.cr3 = false

theorem Links.fine (h : Links s) (p : ProcId) : Fine (s.proc p) :=
  ⟨h.distinct p, fun hp => ⟨h.last p hp, h.spaceless p hp⟩⟩

theorem Links.of_fine (hlinked : ∀ t p, t ∈ (s.proc p).threads ↔ s.process t = some p)
    (hfine : ∀ p, Fine (s.proc p)) (hyoung : ∀ t p, s.process t = some p → p < s.nextProc)
    (hkernel : (s.proc kernelProcess).state = .running) (hbooted : kernelProcess < s.nextProc) :
    Links s :=
  ⟨hlinked, fun p => (hfine p).distinct, fun p hp => ((hfine p).ended hp).1,
    fun p hp => ((hfine p).ended hp).2, hyoung, hkernel, hbooted⟩

theorem Links.frame (h : Links s) (hprocess : ∀ t, s'.process t = s.process t)
    (hthreads : ∀ p, (s'.proc p).threads = (s.proc p).threads)
    (hended : ∀ p, (s'.proc p).state ≠ .running →
      (s.proc p).threads.length ≤ 1 ∧ (s'.proc p).cr3 = false)
    (hkernel : (s'.proc kernelProcess).state = .running) (hnext : s'.nextProc = s.nextProc) :
    Links s' := by
  refine .of_fine (fun t p => ?_) (fun p => ⟨?_, ?_⟩) (fun t p ht => ?_) hkernel (hnext ▸ h.booted)
  · rw [hthreads, hprocess]
    exact h.linked t p
  · rw [hthreads]
    exact h.distinct p
  · rw [hthreads]
    exact hended p
  · rw [hprocess] at ht
    exact hnext ▸ h.young t p ht

theorem Links.keep (h : Links s) (hprocess : ∀ t, s'.process t = s.process t)
    (hproc : ∀ p, (s'.proc p).threads = (s.proc p).threads ∧
      (s'.proc p).state = (s.proc p).state ∧ ((s.proc p).cr3 = false → (s'.proc p).cr3 = false))
    (hnext : s'.nextProc = s.nextProc) : Links s' := by
  refine h.frame hprocess (fun p => (hproc p).1) (fun p hp => ?_) ?_ hnext
  · rw [(hproc p).2.1] at hp
    exact ⟨h.last p hp, (hproc p).2.2 (h.spaceless p hp)⟩
  · rw [(hproc kernelProcess).2.1]
    exact h.kernel

/-- No thread starts to wait, and one that is not claimed was waited for by nobody. -/
structure KeepsClaims (s s' : System) : Prop where
  joining : ∀ j t, (s'.thread j).joining = some t → (s.thread j).joining = some t
  unclaimed : ∀ t, (s'.thread t).lifecycleClaimed = false →
    s.claims t = 0 ∧ ∀ j, (s.thread j).joining ≠ some t

/-- No thread becomes a zombie while its process runs, and none that has exited goes on. -/
structure KeepsExits (s s' : System) : Prop where
  zombie : ∀ t p, (s'.thread t).status = .zombie → s'.process t = some p →
    (s'.proc p).state = .running → (s.thread t).status = .zombie ∧ s.process t = some p ∧
      (s.proc p).state = .running ∧ (s'.thread t).exitStatus = (s.thread t).exitStatus
  going : ∀ t, (s'.thread t).status ≠ .zombie → (s'.thread t).status ≠ .dead → s.exits t = 0

theorem Claims.frame (h : Claims s) (hclaims : ∀ t, s'.claims t = s.claims t)
    (hk : KeepsClaims s s') (htid : s.nextTid ≤ s'.nextTid) : Claims s' where
  unclaimed t ht := by
    obtain ⟨hzero, hnobody⟩ := hk.unclaimed t ht
    rw [hclaims]
    exact ⟨hzero, fun j hj => hnobody j (hk.joining j t hj)⟩
  once t := by
    rw [hclaims]
    exact h.once t
  waiting j t hj := by
    rw [hclaims]
    obtain ⟨hzero, hunique⟩ := h.waiting j t (hk.joining j t hj)
    exact ⟨hzero, fun j' hj' => hunique j' (hk.joining j' t hj')⟩
  unused t ht := by
    rw [hclaims]
    exact h.unused t (Nat.le_trans htid ht)

theorem Exits.frame (h : Exits s) (hexits : ∀ t, s'.exits t = s.exits t)
    (hlog : ∀ t status, .exited t status ∈ s.log → .exited t status ∈ s'.log)
    (hk : KeepsExits s s') (htid : s.nextTid ≤ s'.nextTid) : Exits s' where
  zombie t p ht hp hstate := by
    obtain ⟨ht', hp', hstate', hexit⟩ := hk.zombie t p ht hp hstate
    rw [hexit]
    exact hlog t _ (h.zombie t p ht' hp' hstate')
  once t := by
    rw [hexits]
    exact h.once t
  unexited t hz hd := by
    rw [hexits]
    exact hk.going t hz hd
  unused t ht := by
    rw [hexits]
    exact h.unused t (Nat.le_trans htid ht)

theorem claims_append (hlog : s'.log = es ++ s.log) (hes : ∀ e ∈ es, ∀ t, e.isClaim t = false)
    (t : Tid) : s'.claims t = s.claims t := by
  rw [claims, hlog, countP_append_none fun e he => hes e he t, claims]

theorem exits_append (hlog : s'.log = es ++ s.log) (hes : ∀ e ∈ es, ∀ t, e.isExit t = false)
    (t : Tid) : s'.exits t = s.exits t := by
  rw [exits, hlog, countP_append_none fun e he => hes e he t, exits]

theorem Kept.frame (h : Kept s) (hpages : Pages s') (hlinks : Links s')
    (hlog : s'.log = es ++ s.log) (hes : ∀ e ∈ es, e.quiet = true) (htid : s.nextTid ≤ s'.nextTid)
    (hclaims : KeepsClaims s s') (hexits : KeepsExits s s') : Kept s' := by
  have hquiet := fun e he => quiet_spec (hes e he)
  constructor
  case pages => exact hpages
  case links => exact hlinks
  case claims =>
    exact h.claims.frame (claims_append hlog fun e he => (hquiet e he).1) hclaims htid
  case exits =>
    exact h.exits.frame (exits_append hlog fun e he => (hquiet e he).2.1)
      (fun t status ht => hlog ▸ mem_append_right es ht) hexits htid
  case ordered =>
    rw [hlog]
    exact h.ordered.append fun e he => (hquiet e he).2.2

theorem Kept.calm (h : Kept s) (hcalm : Calm s s') : Kept s' := by
  obtain ⟨es, hlog, hes⟩ := hcalm.log
  have hspec := fun e he => silent_spec (hes e he)
  refine h.frame ?_ ?_ hlog (fun e he => (hspec e he).2) hcalm.nextTid.ge
    ⟨fun j _ hj => (hcalm.thread j).joining ▸ hj,
      fun t ht => h.claims.unclaimed t ((hcalm.thread t).lifecycleClaimed ht)⟩
    ⟨fun t p ht hp hstate => ?_, fun t hz hd => ?_⟩
  · exact h.pages.frame (fun t => ⟨(hcalm.thread t).process, (hcalm.thread t).has⟩) hcalm.mapped
      (fun p => (hcalm.proc p).cr3) hcalm.nextTid ⟨es, hlog, fun e he => (hspec e he).1⟩
  · refine h.links.keep (fun t => (hcalm.thread t).process) (fun p => ?_) hcalm.nextProc
    exact ⟨(hcalm.proc p).threads, (hcalm.proc p).state, fun hcr3 => (hcalm.proc p).cr3.trans hcr3⟩
  · exact ⟨(hcalm.thread t).zombie.mp ht, (hcalm.thread t).process.symm.trans hp,
      (hcalm.proc p).state ▸ hstate, (hcalm.thread t).exitStatus⟩
  · exact h.exits.unexited t (mt (hcalm.thread t).zombie.mpr hz) (mt (hcalm.thread t).dead.mpr hd)

theorem Live.frame (h : Live s) (hjoining : ∀ t, (s'.thread t).joining = (s.thread t).joining)
    (hprocess : ∀ t, s'.process t = s.process t) (hspace : ∀ p, (s'.proc p).state = .running →
      (s.proc p).state = .running ∧ (s'.proc p).cr3 = (s.proc p).cr3)
    (hlife : ∀ j t, (s.thread j).joining = some t → Joinable (s.thread t).lifecycle →
      Joinable (s'.thread t).lifecycle) : Live s' := by
  constructor
  case space =>
    intro p hp
    obtain ⟨hrun, hcr3⟩ := hspace p hp
    rw [hcr3]
    exact h.space p hrun
  case awaited =>
    intro j t hj
    rw [hjoining] at hj
    obtain ⟨hne, p, hjp, htp, hlife'⟩ := h.awaited j t hj
    exact ⟨hne, p, by rw [hprocess]; exact hjp, by rw [hprocess]; exact htp, hlife j t hj hlife'⟩

theorem Live.calm (h : Live s) (hcalm : Calm s s')
    (hlife : ∀ t, (s'.thread t).lifecycle = (s.thread t).lifecycle) : Live s' :=
  h.frame (fun t => (hcalm.thread t).joining) (fun t => (hcalm.thread t).process)
    (fun p hp => ⟨(hcalm.proc p).state ▸ hp, (hcalm.proc p).cr3⟩)
    fun _ t _ hold => by rw [hlife t]; exact hold

/-! ## A thread retired -/

theorem Frees.quiet {c r : Bool} (h : Frees t c r es) : ∀ e ∈ es, e.quiet = true := by
  intro e he
  obtain ⟨page, rfl⟩ := h e he
  rfl

theorem procWithout_state (s : System) (t : Tid) (p : ProcId) :
    (s.procWithout t p).state = (s.proc p).state := by
  rw [procWithout_apply]
  split
  · rfl
  · rfl

theorem procWithout_cr3 (s : System) (t : Tid) (p : ProcId) :
    (s.procWithout t p).cr3 = (s.proc p).cr3 := by
  rw [procWithout_apply]
  split
  · rfl
  · rfl

theorem procWithout_sublist (s : System) (t : Tid) (p : ProcId) :
    (s.procWithout t p).threads.Sublist (s.proc p).threads := by
  rw [procWithout_apply]
  split
  · exact erase_sublist
  · exact List.Sublist.refl _

theorem retired_process (s : System) (t : Tid) (l : Lifecycle) (u : Tid) :
    (s.retired t l).process u = if u = t then none else s.process u := by
  split
  next heq =>
    obtain ⟨n, hn⟩ := retired_self s t l
    rw [heq, process, hn]
    rfl
  next hne =>
    obtain ⟨n, hn⟩ := retired_of_ne s l hne
    rw [process, hn, process]

theorem retired_nextProc (s : System) (t : Tid) (l : Lifecycle) :
    (s.retired t l).nextProc = s.nextProc := by
  obtain ⟨m, es, heq, -⟩ := releaseThread_frame (s.removed t l) t
  obtain ⟨f, hf⟩ := removed_frame s t l
  rw [retired, heq, hf]

theorem Links.retired (h : Links s) (t : Tid) (l : Lifecycle) : Links (s.retired t l) := by
  have hproc : (s.retired t l).proc = s.procWithout t := retired_proc s t l
  refine .of_fine (fun u p => ?_) (fun p => ?_) (fun u p hu => ?_) ?_ ?_
  · rw [hproc, retired_process]
    rcases eq_or_ne u t with rfl | hne
    · rw [if_pos rfl, procWithout_apply]
      refine iff_of_false ?_ (Option.some_ne_none _).symm
      split
      · exact (h.distinct p).not_mem_erase
      next hnot => exact fun hmem => hnot ((h.linked u p).mp hmem)
    · rw [if_neg hne, procWithout_apply]
      split
      · exact (mem_erase_of_ne hne).trans (h.linked u p)
      · exact h.linked u p
  · have hsub := procWithout_sublist s t p
    rw [hproc]
    refine ⟨(h.distinct p).sublist hsub, fun hp => ?_⟩
    rw [procWithout_state] at hp
    rw [procWithout_cr3]
    exact ⟨Nat.le_trans hsub.length_le (h.last p hp), h.spaceless p hp⟩
  · rw [retired_process] at hu
    rw [retired_nextProc]
    split at hu
    · cases hu
    · exact h.young u p hu
  · rw [hproc, procWithout_state]
    exact h.kernel
  · rw [retired_nextProc]
    exact h.booted

theorem retired_joining (s : System) (t : Tid) (l : Lifecycle) (u : Tid) :
    ((s.retired t l).thread u).joining = if u = t then none else (s.thread u).joining := by
  split
  next heq =>
    obtain ⟨n, hn⟩ := retired_self s t l
    rw [heq, hn]
    rfl
  next hne =>
    obtain ⟨n, hn⟩ := retired_of_ne s l hne
    rw [hn]

theorem retired_claimed (s : System) (t : Tid) (l : Lifecycle) (u : Tid) :
    ((s.retired t l).thread u).lifecycleClaimed = (s.thread u).lifecycleClaimed := by
  rcases eq_or_ne u t with rfl | hne
  · obtain ⟨n, hn⟩ := retired_self s u l
    rw [hn]
    rfl
  · obtain ⟨n, hn⟩ := retired_of_ne s l hne
    rw [hn]

theorem Kept.retired (h : Kept s) (hring : Ring s others) (ht : t ≠ s.current) (l : Lifecycle) :
    Kept (s.retired t l) := by
  obtain ⟨es, hlog, hes⟩ := retired_log s t l
  refine h.frame (h.pages.retired hring ht l) (h.links.retired t l) hlog hes.quiet
    (retired_nextTid s t l).ge ⟨fun j u hj => ?_, fun u hu => ?_⟩
    ⟨fun u p hu hp hstate => ?_, fun u hz hd => ?_⟩
  · rw [retired_joining] at hj
    split at hj
    · cases hj
    · exact hj
  · rw [retired_claimed] at hu
    exact h.claims.unclaimed u hu
  · rw [retired_process] at hp
    split at hp
    · cases hp
    next hne =>
      obtain ⟨n, hn⟩ := retired_of_ne s l hne
      rw [hn] at hu ⊢
      rw [retired_proc, procWithout_state] at hstate
      exact ⟨hu, hp, hstate, rfl⟩
  · rcases eq_or_ne u t with rfl | hne
    · obtain ⟨n, hn⟩ := retired_self s u l
      rw [hn] at hd
      exact absurd rfl hd
    · obtain ⟨n, hn⟩ := retired_of_ne s l hne
      rw [hn] at hz hd
      exact h.exits.unexited u hz hd

theorem Live.retired (h : Live s) (l : Lifecycle) (halone : ∀ j, (s.thread j).joining ≠ some t) :
    Live (s.retired t l) := by
  constructor
  case space =>
    intro p
    rw [retired_proc, procWithout_state, procWithout_cr3]
    exact h.space p
  case awaited =>
    intro j u hj
    rw [retired_joining] at hj
    split at hj
    · cases hj
    next hjt =>
      obtain ⟨hne, p, hjp, hup, hlife⟩ := h.awaited j u hj
      have hut : u ≠ t := fun heq => halone j (heq ▸ hj)
      refine ⟨hne, p, ?_, ?_, ?_⟩
      · rw [retired_process, if_neg hjt]
        exact hjp
      · rw [retired_process, if_neg hut]
        exact hup
      · obtain ⟨n, hn⟩ := retired_of_ne s l hut
        rw [hn]
        exact hlife

end System

end OrangeOs.Sched
