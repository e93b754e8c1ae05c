import OrangeOs.Sched.LifeReaping

/-! # What the calls leave safe

`thread_exit_with_status` and `process_exit`, `thread_join` and `thread_detach`, and the calls that
make threads keep `Safe`.
-/

namespace OrangeOs.Sched

open List Thread

open Proc (ProcId kernelProcess Lifecycle)
open Ipc (Tid)

namespace System

variable {s s' : System} {others : List Tid} {t u : Tid} {p : ProcId}

/-! ## The exit of a thread -/

/-- The thread that exits, before it wakes its joiner. -/
def exiting (s : System) (status : Int) : System :=
  (s.note (.exited s.current status)).modify s.current fun r => { r.ended with exitStatus := status }

theorem exitThread_eq (s : System) (status : Int) : s.exitThread status =
    (s.exiting status).unblockIfAny ((s.exiting status).thread s.current).joinWaiter := rfl

theorem exiting_thread (s : System) (status : Int) (t : Tid) : (s.exiting status).thread t =
    if t = s.current then { (s.thread t).ended with exitStatus := status } else s.thread t :=
  modify_apply (s.note _) s.current t _

theorem Kept.exiting (h : Kept s) (hgoing : Going (s.thread s.current).status)
    (hcurrent : s.current < s.nextTid) (status : Int) : Kept (s.exiting status) := by
  have hthread := exiting_thread s status
  have hlog : (s.exiting status).log = [.exited s.current status] ++ s.log := rfl
  have hprocess : ∀ t, (s.exiting status).process t = s.process t :=
    modify_proj Thread.process rfl
  constructor
  case pages =>
    refine h.pages.frame (fun t => ⟨hprocess t, modify_has (fun page => ?_) t⟩) rfl (fun _ => rfl)
      rfl ⟨_, hlog, fun e he => ?_⟩
    · cases page <;> rfl
    · rw [mem_singleton.mp he]
      rfl
  case links => exact h.links.keep hprocess (fun _ => ⟨rfl, rfl, id⟩) rfl
  case claims =>
    have hclaimed : ∀ t, ((s.exiting status).thread t).lifecycleClaimed = _ :=
      modify_proj lifecycleClaimed rfl
    refine h.claims.frame (claims_append hlog fun e he t => ?_)
      ⟨fun j _ => (modify_proj joining rfl j).symm.trans,
        fun t ht => h.claims.unclaimed t (hclaimed t ▸ ht)⟩ (Nat.le_refl _)
    rw [mem_singleton.mp he]
    rfl
  case exits =>
    have hexits : ∀ t, (s.exiting status).exits t =
        s.exits t + if s.current = t then 1 else 0 := fun t => by
      rw [System.exits, hlog, singleton_append, countP_cons, System.exits]
      simp [Event.isExit]
    have hnone := h.exits.unexited s.current hgoing.1 hgoing.2
    constructor
    case zombie =>
      intro t p ht hp hstate
      rw [hthread] at ht ⊢
      rw [hprocess] at hp
      rw [hlog]
      split at ht
      next heq =>
        rw [if_pos heq, heq]
        exact mem_cons_self
      next hne =>
        rw [if_neg hne]
        exact mem_cons_of_mem _ (h.exits.zombie t p ht hp hstate)
    case once =>
      intro t
      rw [hexits]
      split
      next heq => rw [← heq, hnone]
      · exact h.exits.once t
    case unexited =>
      intro t hz hd
      rw [hthread] at hz hd
      split at hz
      · exact absurd rfl hz
      next hne =>
        rw [if_neg hne] at hd
        rw [hexits, if_neg (Ne.symm hne), h.exits.unexited t hz hd]
    case unused =>
      intro t ht
      have hle : s.nextTid ≤ t := ht
      rw [hexits, h.exits.unused t hle, if_neg (Nat.ne_of_lt (Nat.lt_of_lt_of_le hcurrent hle))]
  case ordered => exact h.ordered.cons fun _ _ heq => by cases heq

theorem zombieLifecycle_joinable {l : Lifecycle} (h : Joinable l) : Joinable (zombieLifecycle l) := by
  rcases h with rfl | rfl
  · exact .inr rfl
  · exact .inr rfl

theorem Safe.exitThread (h : Safe s) (hgoing : Going (s.thread s.current).status) (status : Int) :
    Safe (s.exitThread status) := by
  obtain ⟨others, hformed⟩ := h.formed
  have hthread := exiting_thread s status
  have hring : Formed (s.exiting status) others :=
    (hformed.note (e := .exited s.current status) fun _ => nofun).modify rfl rfl (fun _ => nofun)
      nofun
  have hlive : Live (s.exiting status) := by
    refine h.live.frame (fun t => ?_) (fun t => ?_) (fun _ hp => ⟨hp, rfl⟩) fun j t _ hlife => ?_
    · exact modify_proj joining rfl t
    · exact modify_proj Thread.process rfl t
    · rw [hthread]
      split
      · exact zombieLifecycle_joinable hlife
      · exact hlife
  rw [exitThread_eq]
  exact Safe.unblockIfAny ⟨⟨others, hring⟩,
    h.kept.exiting hgoing (hformed.bound _ mem_cons_self) status, hlive⟩ _

/-! ## The exit of a process -/

/-- What the loop of `process_exit` leaves. -/
structure RetiredAll (s s' : System) (victims : List Tid) : Prop where
  current : s'.current = s.current
  kept : ∀ u ∉ victims, ∃ n, s'.thread u = { s.thread u with next := n }
  gone : ∀ u ∈ victims, s'.process u = none ∧ (s'.thread u).joining = none
  proc : ∀ q, (s'.proc q).state = (s.proc q).state ∧ (s'.proc q).cr3 = (s.proc q).cr3
  log : ∃ es, s'.log = es ++ s.log

theorem Kept.retireAll (h : Kept s) (hformed : Formed s others) {victims : List Tid}
    (hne : s.current ∉ victims) :
    ∃ s' others', victims.foldlM (fun s t => s.retire t (s.thread t).lifecycle) s = .ok s' ∧
      Formed s' others' ∧ Kept s' ∧ RetiredAll s s' victims := by
  induction victims generalizing s others with
  | nil => exact ⟨s, others, rfl, hformed, h, rfl, fun _ _ => ⟨_, rfl⟩, nofun, fun _ => ⟨rfl, rfl⟩,
      [], rfl⟩
  | cons t ts ih =>
    have ht : t ≠ s.current := fun heq => hne (heq ▸ mem_cons_self)
    have hrest : (s.retired t (s.thread t).lifecycle).current ∉ ts := by
      rw [retired_current]
      exact fun hmem => hne (mem_cons_of_mem t hmem)
    obtain ⟨s', others', heq, hformed', hkept', hall⟩ :=
      ih (h.retired hformed.toRing ht (s.thread t).lifecycle)
        (hformed.retired ht (s.thread t).lifecycle) hrest
    refine ⟨s', others', ?_, hformed', hkept', ?_⟩
    · rw [foldlM_cons, hformed.toRing.retire_eq ht]
      exact heq
    · obtain ⟨es, hes⟩ := hall.log
      obtain ⟨es', hes', -⟩ := retired_log s t (s.thread t).lifecycle
      refine ⟨hall.current.trans (retired_current ..), fun u hu => ?_, fun u hu => ?_,
        fun q => ?_, es ++ es', ?_⟩
      · obtain ⟨hut, huts⟩ := not_or.mp (mt mem_cons.mpr hu)
        obtain ⟨n, hn⟩ := hall.kept u huts
        obtain ⟨n', hn'⟩ := retired_of_ne s (s.thread t).lifecycle hut
        exact ⟨n, by rw [hn, hn']⟩
      · by_cases huts : u ∈ ts
        · exact hall.gone u huts
        · have hut : u = t := (mem_cons.mp hu).resolve_right huts
          obtain ⟨n, hn⟩ := hall.kept u huts
          have hprocess := retired_process s t (s.thread t).lifecycle u
          have hjoining := retired_joining s t (s.thread t).lifecycle u
          rw [if_pos hut] at hprocess hjoining
          rw [process, hn]
          exact ⟨hprocess, hjoining⟩
      · rw [(hall.proc q).1, (hall.proc q).2, retired_proc, procWithout_state, procWithout_cr3]
        exact ⟨rfl, rfl⟩
      · rw [hes, hes', append_assoc]

theorem releaseSpace_log (s : System) (p : ProcId) :
    ∃ es, (s.releaseProcessAddressSpace p).log = es ++ s.log ∧
      ∀ e ∈ es, ∃ t page c r, e = .free t page c r := by
  unfold releaseProcessAddressSpace
  split
  case isFalse => exact ⟨[], rfl, nofun⟩
  case isTrue =>
    refine ⟨_, rfl, fun e he => ?_⟩
    obtain ⟨m, -, rfl⟩ := mem_map.mp he
    exact ⟨m.thread, m.page, _, _, rfl⟩

theorem releaseSpace_nextProc (s : System) (p : ProcId) :
    (s.releaseProcessAddressSpace p).nextProc = s.nextProc := by
  obtain ⟨m, es, heq, -⟩ := releaseSpace_frame s p
  rw [heq]
  rfl

theorem Kept.releaseSpace (h : Kept s) (hp : p ≠ kernelProcess)
    (hexit : ∀ m ∈ s.mapped, m.space = p → .processExit m.thread ∈ s.log) :
    Kept (s.releaseProcessAddressSpace p) := by
  obtain ⟨es, hlog, hes⟩ := releaseSpace_log s p
  have hthread := releaseSpace_thread s p
  have hprocess : ∀ t, (s.releaseProcessAddressSpace p).process t = s.process t := fun t => by
    rw [process, hthread, process]
  have hproc : ∀ q, ((s.releaseProcessAddressSpace p).proc q).threads = (s.proc q).threads ∧
      ((s.releaseProcessAddressSpace p).proc q).state = (s.proc q).state ∧
      ((s.proc q).cr3 = false → ((s.releaseProcessAddressSpace p).proc q).cr3 = false) := by
    intro q
    rw [releaseSpace_proc, modifyProc_proc]
    split
    next heq => rw [heq]; exact ⟨rfl, rfl, fun _ => rfl⟩
    · exact ⟨rfl, rfl, id⟩
  refine h.frame (h.pages.releaseSpace hp hexit) ?_ hlog (fun e he => ?_)
    (releaseSpace_nextTid s p).ge ⟨fun j t hj => ?_, fun t ht => ?_⟩
    ⟨fun t q ht hq hstate => ?_, fun t hz hd => ?_⟩
  · exact h.links.keep hprocess hproc (releaseSpace_nextProc s p)
  · obtain ⟨u, page, c, r, rfl⟩ := hes e he
    rfl
  · rwa [hthread] at hj
  · rw [hthread] at ht
    exact h.claims.unclaimed t ht
  · rw [hthread] at ht ⊢
    exact ⟨ht, hprocess t ▸ hq, (hproc q).2.1 ▸ hstate, rfl⟩
  · rw [hthread] at hz hd
    exact h.exits.unexited t hz hd

theorem Kept.markCurrent (h : Kept s) (hp : s.process s.current = some p)
    (hstate : (s.proc p).state ≠ .running) : Kept (s.modify s.current ended) := by
  have hthread := fun t => modify_apply s s.current t ended
  have hprocess : ∀ t, (s.modify s.current ended).process t = s.process t :=
    modify_proj Thread.process rfl
  refine h.frame ?_ ?_ (nil_append _).symm (forall_mem_nil _) (Nat.le_refl _)
    ⟨fun j _ => (modify_proj joining rfl j).symm.trans,
      fun t ht => h.claims.unclaimed t ((modify_proj lifecycleClaimed rfl t).symm.trans ht)⟩
    ⟨fun t q ht hq hrun => ?_, fun t hz hd => ?_⟩
  · refine h.pages.frame (fun t => ⟨hprocess t, modify_has (fun page => ?_) t⟩) rfl (fun _ => rfl)
      rfl ⟨[], rfl, forall_mem_nil _⟩
    cases page <;> rfl
  · exact h.links.keep hprocess (fun _ => ⟨rfl, rfl, id⟩) rfl
  · rw [hprocess] at hq
    rw [hthread] at ht ⊢
    split at ht
    next heq =>
      rw [heq, hp] at hq
      cases hq
      exact absurd hrun hstate
    next hne =>
      rw [if_neg hne]
      exact ⟨ht, hq, hrun, rfl⟩
  · rw [hthread] at hz hd
    split at hz
    · exact absurd rfl hz
    next hne =>
      rw [if_neg hne] at hd
      exact h.exits.unexited t hz hd

theorem beginExit_calm (s : System) (p : ProcId) : Calm s (s.beginExit p) :=
  (calm_modifyProc ⟨rfl, rfl, rfl⟩).trans (calm_note rfl)

theorem reparentChildren_calm (s : System) (p : ProcId) : Calm s (s.reparentChildren p) := by
  refine ⟨fun _ => .refl _, fun q => ?_, rfl, rfl, rfl, [], rfl, nofun⟩
  show CalmProcess (s.proc q) (orphaned p (s.proc q))
  unfold orphaned
  split
  · exact ⟨rfl, rfl, rfl⟩
  · exact .refl _

theorem RetiredAll.only_current (hkept : Kept s) (hall : RetiredAll s s'
    ((s.proc p).threads.filter fun t => t ≠ s.current)) (ht : s'.process t = some p) :
    t = s.current := by
  by_contra hne
  by_cases hmem : t ∈ (s.proc p).threads.filter fun t => t ≠ s.current
  · rw [(hall.gone t hmem).1] at ht
    cases ht
  · obtain ⟨n, hn⟩ := hall.kept t hmem
    rw [process, hn] at ht
    exact hmem (mem_filter.mpr ⟨(hkept.links.linked t p).mpr ht, decide_eq_true hne⟩)

theorem Kept.length_le_one (h : Kept s) {c : Tid} (honly : ∀ t, s.process t = some p → t = c) :
    (s.proc p).threads.length ≤ 1 := by
  have hsub : (s.proc p).threads ⊆ [c] := fun t ht =>
    mem_singleton.mpr (honly t ((h.links.linked t p).mp ht))
  exact ((h.links.distinct p).subperm hsub).length_le

theorem Kept.markZombie (h : Kept s) (hp : s.process s.current = some p) (hkernel : p ≠ kernelProcess)
    (hlast : (s.proc p).threads.length ≤ 1) (hcr3 : (s.proc p).cr3 = false) (status : Int) :
    Kept (s.markZombie p status) := by
  have hend := h.endProcess (g := fun r => { r with exitStatus := status, state := .zombie })
    hkernel rfl rfl nofun hlast hcr3 s.procs
  exact hend.markCurrent hp (by simp [modifyProc])

theorem markZombie_thread (s : System) (p : ProcId) (status : Int) (t : Tid) :
    (s.markZombie p status).thread t =
      if t = s.current then (s.thread t).ended else s.thread t :=
  modify_apply (s.modifyProc p _) s.current t ended

theorem markZombie_proc (s : System) (p : ProcId) (status : Int) : (s.markZombie p status).proc =
    (s.modifyProc p fun r => { r with exitStatus := status, state := .zombie }).proc := rfl

theorem Live.exitProcess (h : Live s) (hkept : Kept s) (hp : s.process s.current = some p)
    (hjoining : (s.thread s.current).joining = none)
    (hall : RetiredAll s s' ((s.proc p).threads.filter fun t => t ≠ s.current)) (status : Int) :
    Live ((s'.releaseProcessAddressSpace p).markZombie p status) := by
  have hcurrent : (s'.releaseProcessAddressSpace p).current = s.current := by
    rw [releaseSpace_current, hall.current]
  have hthread : ∀ t, ((s'.releaseProcessAddressSpace p).markZombie p status).thread t =
      if t = s.current then (s'.thread t).ended else s'.thread t := fun t => by
    rw [markZombie_thread, hcurrent, releaseSpace_thread]
  have hforeign : ∀ t q, s.process t = some q → q ≠ p → ∃ n,
      ((s'.releaseProcessAddressSpace p).markZombie p status).thread t =
        { s.thread t with next := n } := by
    intro t q ht hq
    have hne : t ≠ s.current := by
      rintro rfl
      rw [hp] at ht
      exact hq (Option.some.inj ht).symm
    have hmem : t ∉ (s.proc p).threads.filter fun t => t ≠ s.current := fun hmem => by
      have hlinked := (hkept.links.linked t p).mp (mem_filter.mp hmem).1
      rw [ht] at hlinked
      exact hq (Option.some.inj hlinked)
    obtain ⟨n, hn⟩ := hall.kept t hmem
    exact ⟨n, by rw [hthread, if_neg hne, hn]⟩
  constructor
  case space =>
    intro q hq
    rw [markZombie_proc] at hq ⊢
    rcases eq_or_ne q p with rfl | hne
    · rw [modifyProc_self] at hq
      cases hq
    · rw [modifyProc_of_ne _ _ hne, releaseSpace_proc, modifyProc_of_ne _ _ hne] at hq ⊢
      rw [(hall.proc q).2]
      exact h.space q ((hall.proc q).1 ▸ hq)
  case awaited =>
    intro j t hj
    rw [hthread] at hj
    have hjoin : (s.thread j).joining = some t ∧ j ≠ s.current ∧
        j ∉ (s.proc p).threads.filter fun t => t ≠ s.current := by
      rcases eq_or_ne j s.current with rfl | hne
      · obtain ⟨n, hn⟩ := hall.kept s.current (by simp)
        rw [if_pos rfl, hn] at hj
        have hnone : (s.thread s.current).joining = some t := hj
        rw [hjoining] at hnone
        cases hnone
      · rw [if_neg hne] at hj
        by_cases hmem : j ∈ (s.proc p).threads.filter fun t => t ≠ s.current
        · rw [(hall.gone j hmem).2] at hj
          cases hj
        · obtain ⟨n, hn⟩ := hall.kept j hmem
          rw [hn] at hj
          exact ⟨hj, hne, hmem⟩
    obtain ⟨hold, hjc, hjv⟩ := hjoin
    obtain ⟨hne, q, hjq, htq, hlife⟩ := h.awaited j t hold
    have hq : q ≠ p := by
      rintro rfl
      exact hjv (mem_filter.mpr ⟨(hkept.links.linked j q).mpr hjq, decide_eq_true hjc⟩)
    obtain ⟨n, hn⟩ := hforeign j q hjq hq
    obtain ⟨n', hn'⟩ := hforeign t q htq hq
    refine ⟨hne, q, ?_, ?_, ?_⟩
    · rw [process, hn]
      exact hjq
    · rw [process, hn']
      exact htq
    · rw [hn']
      exact hlife

theorem Safe.exitProcess (h : Safe s) (hp : s.process s.current = some p)
    (hkernel : p ≠ kernelProcess) (hjoining : (s.thread s.current).joining = none) (status : Int) :
    Ends (s.exitProcess p status) := by
  obtain ⟨others, hformed⟩ := h.formed
  have hcalm := beginExit_calm s p
  have hbegin : Formed (s.beginExit p) others := (hformed.modifyProc p _).note fun _ heq => by
    cases heq
  have hkept := h.kept.calm hcalm
  have hlive : Live (s.beginExit p) := h.live.calm hcalm fun _ => rfl
  obtain ⟨s1, others1, heq, hformed1, hkept1, hall⟩ :=
    hkept.retireAll hbegin (s.current_not_other p)
  have honly : ∀ t, s1.process t = some p → t = s.current := fun t ht =>
    RetiredAll.only_current (s := s.beginExit p) hkept hall ht
  have hlast := hkept1.length_le_one honly
  have hprocess : s1.process s1.current = some p := by
    rw [hall.current]
    obtain ⟨n, hn⟩ := hall.kept s.current (by simp [beginExit])
    show (s1.thread s.current).process = some p
    rw [hn]
    exact hp
  have hspace : Kept (s1.releaseProcessAddressSpace p) := by
    refine hkept1.releaseSpace hkernel fun m hm hspace => ?_
    obtain ⟨es, hes⟩ := hall.log
    have hmine := (hkept1.pages.mapping m hm).1
    rw [hspace] at hmine
    rw [honly m.thread hmine, hes]
    exact mem_append_right es mem_cons_self
  have hzombie : Kept ((s1.releaseProcessAddressSpace p).markZombie p status) := by
    refine hspace.markZombie ?_ hkernel ?_ ?_ status
    · rw [process, releaseSpace_current, releaseSpace_thread]
      exact hprocess
    · rw [releaseSpace_proc, modifyProc_self]
      exact hlast
    · rw [releaseSpace_proc, modifyProc_self]
  have hlive' := hlive.exitProcess hkept hp hjoining hall status
  have hreparent := reparentChildren_calm ((s1.releaseProcessAddressSpace p).markZombie p status) p
  have hring : Formed (((s1.releaseProcessAddressSpace p).markZombie p status).reparentChildren p)
      others1 := by
    have hmark : Formed ((s1.releaseProcessAddressSpace p).markZombie p status) others1 := by
      refine ((hformed1.releaseSpace p).modifyProc p _).modify rfl rfl (fun _ heq => ?_) fun heq => ?_
      · cases heq
      · cases heq
    exact hmark.frame rfl rfl rfl fun _ => Iff.rfl
  have hsafe : Safe (((s1.releaseProcessAddressSpace p).markZombie p status).reparentChildren p) :=
    ⟨⟨others1, hring⟩, hzombie.calm hreparent, hlive'.calm hreparent fun _ => rfl⟩
  refine ⟨(s1.releaseProcessAddressSpace p).becomeZombie p status, ?_, hsafe.unblockIfAny _⟩
  rw [System.exitProcess, retireOthers, heq]
  rfl

theorem Safe.threadExitWithStatus (h : Safe s) (hgoing : Going (s.thread s.current).status)
    (hjoining : (s.thread s.current).joining = none) (status : Int) :
    Ends (s.threadExitWithStatus status) := by
  unfold System.threadExitWithStatus
  cases hp : s.process s.current with
  | none => exact h.ends
  | some p =>
    dsimp only
    split
    next hcond => exact h.exitProcess hp hcond.1 hjoining status
    · exact (h.exitThread hgoing status).ends

theorem Safe.processExit (h : Safe s) (hgoing : Going (s.thread s.current).status)
    (hjoining : (s.thread s.current).joining = none) (status : Int) :
    Ends (s.processExit status) := by
  unfold System.processExit
  cases hp : s.process s.current with
  | none => exact h.threadExitWithStatus hgoing hjoining 0
  | some p =>
    dsimp only
    split
    · exact h.threadExitWithStatus hgoing hjoining 0
    next hkernel => exact h.exitProcess hp hkernel hjoining status

/-! ## Joining and detaching -/

theorem claimable_spec (h : s.claimable t = true) : t ≠ s.current ∧
    s.process t = s.process s.current ∧ Joinable (s.thread t).lifecycle ∧
    (s.thread t).lifecycleClaimed = false := by
  have hspec := of_decide_eq_true h
  exact hspec

theorem claim_calm (s : System) (t : Tid) : Calm s (s.claim t) :=
  calm_modify ⟨rfl, fun page => by cases page <;> rfl, nofun, rfl, rfl, Iff.rfl, Iff.rfl⟩

theorem Safe.claim (h : Safe s) (t : Tid) : Safe (s.claim t) := by
  obtain ⟨others, hformed⟩ := h.formed
  exact h.calm (hformed.claim t) (claim_calm s t) (modify_proj lifecycle rfl)

theorem Claims.record (h : Claims s) {e : Event}
    (he : ∀ u, e.isClaim u = decide (t = u)) (hclaimed : (s.thread t).lifecycleClaimed = true)
    (hnone : s.claims t = 0) (htid : t < s.nextTid) (hthread : s'.thread = s.thread)
    (halone : ∀ j, (s.thread j).joining ≠ some t) (hnext : s'.nextTid = s.nextTid)
    (hlog : s'.log = e :: s.log) : Claims s' := by
  have hclaims : ∀ u, s'.claims u = s.claims u + if t = u then 1 else 0 := fun u => by
    rw [claims, hlog, countP_cons, he, claims]
    simp
  constructor
  case unclaimed =>
    intro u hu
    rw [hthread] at hu
    have hne : t ≠ u := by
      rintro rfl
      rw [hclaimed] at hu
      cases hu
    simp only [hclaims, hthread, if_neg hne, Nat.add_zero]
    exact h.unclaimed u hu
  case once =>
    intro u
    rw [hclaims]
    split
    next heq => rw [← heq, hnone]
    · exact h.once u
  case waiting =>
    intro j u hj
    rw [hthread] at hj
    have hne : t ≠ u := fun heq => halone j (heq ▸ hj)
    simp only [hclaims, hthread, if_neg hne, Nat.add_zero]
    exact h.waiting j u hj
  case unused =>
    intro u hu
    rw [hnext] at hu
    rw [hclaims, h.unused u hu, if_neg (Nat.ne_of_lt (Nat.lt_of_lt_of_le htid hu))]

/-- The current thread with another target to wait for. -/
def setJoining (s : System) (o : Option Tid) : System :=
  s.modify s.current fun r => { r with joining := o }

theorem setJoining_thread (s : System) (o : Option Tid) (t : Tid) : (s.setJoining o).thread t =
    if t = s.current then { s.thread t with joining := o } else s.thread t :=
  modify_apply s s.current t _

theorem setJoining_joining (s : System) (o : Option Tid) (j : Tid) :
    ((s.setJoining o).thread j).joining = if j = s.current then o else (s.thread j).joining := by
  rw [setJoining_thread]
  split <;> rfl

theorem setJoining_proj {γ : Type} (g : Thread → γ) {o : Option Tid}
    (hg : ∀ r, g { r with joining := o } = g r) (t : Tid) :
    g ((s.setJoining o).thread t) = g (s.thread t) := modify_proj g (hg _) t

theorem setJoining_process (s : System) (o : Option Tid) (t : Tid) :
    (s.setJoining o).process t = s.process t := setJoining_proj Thread.process (fun _ => rfl) t

theorem Kept.setJoining (h : Kept s) {o : Option Tid} (hclaims : Claims (s.setJoining o)) :
    Kept (s.setJoining o) := by
  constructor
  case pages =>
    refine h.pages.frame (fun t => ⟨setJoining_process s o t, modify_has (fun page => ?_) t⟩) rfl
      (fun _ => rfl) rfl ⟨[], rfl, nofun⟩
    cases page <;> rfl
  case links => exact h.links.keep (setJoining_process s o) (fun _ => ⟨rfl, rfl, id⟩) rfl
  case claims => exact hclaims
  case exits =>
    refine h.exits.frame (fun _ => rfl) (fun _ _ ht => ht)
      ⟨fun t q ht hq hrun => ?_, fun t hz hd => ?_⟩ (Nat.le_refl _)
    · rw [setJoining_proj status fun _ => rfl] at ht
      rw [setJoining_process] at hq
      exact ⟨ht, hq, hrun, modify_proj exitStatus rfl t⟩
    · rw [setJoining_proj status fun _ => rfl] at hz hd
      exact h.exits.unexited t hz hd
  case ordered => exact h.ordered

theorem Claims.forget (h : Claims s) : Claims (s.setJoining none) := by
  have hjoining : ∀ j t, ((s.setJoining none).thread j).joining = some t →
      (s.thread j).joining = some t := by
    intro j t hj
    rw [setJoining_joining] at hj
    split at hj
    · cases hj
    · exact hj
  refine h.frame (fun _ => rfl) ⟨hjoining, fun t ht => ?_⟩ (Nat.le_refl _)
  rw [setJoining_proj lifecycleClaimed fun _ => rfl] at ht
  exact h.unclaimed t ht

theorem Claims.waitFor (h : Claims s) (hclaimed : (s.thread t).lifecycleClaimed = true)
    (hfirst : s.claims t = 0) (halone : ∀ j, (s.thread j).joining ≠ some t) :
    Claims (s.setJoining (some t)) := by
  have hjoining := setJoining_joining s (some t)
  constructor
  case unclaimed =>
    intro u hu
    rw [setJoining_proj lifecycleClaimed fun _ => rfl] at hu
    refine ⟨(h.unclaimed u hu).1, fun j hj => ?_⟩
    rw [hjoining] at hj
    split at hj
    next =>
      cases hj
      rw [hclaimed] at hu
      cases hu
    · exact (h.unclaimed u hu).2 j hj
  case once => exact h.once
  case waiting =>
    intro j u hj
    rw [hjoining] at hj
    split at hj
    next hjc =>
      cases hj
      refine ⟨hfirst, fun j' hj' => ?_⟩
      rw [hjoining] at hj'
      split at hj'
      next hjc' => exact hjc'.trans hjc.symm
      · exact absurd hj' (halone j')
    · obtain ⟨hzero, hunique⟩ := h.waiting j u hj
      refine ⟨hzero, fun j' hj' => ?_⟩
      rw [hjoining] at hj'
      split at hj'
      next =>
        cases hj'
        exact absurd hj (halone j)
      · exact hunique j' hj'
  case unused => exact h.unused

theorem Safe.forget (h : Safe s) : Safe (s.setJoining none) := by
  obtain ⟨others, hformed⟩ := h.formed
  refine ⟨⟨others, hformed.modify_plain rfl rfl rfl⟩, h.kept.setJoining h.kept.claims.forget,
    h.live.space, fun j t hj => ?_⟩
  rw [setJoining_joining] at hj
  split at hj
  · cases hj
  · rw [setJoining_process, setJoining_process, setJoining_proj lifecycle fun _ => rfl]
    exact h.live.awaited j t hj

theorem Safe.waitFor (h : Safe s) (hne : t ≠ s.current) (htarget : s.process t = some p)
    (hcaller : s.process s.current = some p) (hlife : Joinable (s.thread t).lifecycle)
    (hclaimed : (s.thread t).lifecycleClaimed = true) (hfirst : s.claims t = 0)
    (halone : ∀ j, (s.thread j).joining ≠ some t) : Safe (s.setJoining (some t)) := by
  obtain ⟨others, hformed⟩ := h.formed
  refine ⟨⟨others, hformed.modify_plain rfl rfl rfl⟩,
    h.kept.setJoining (h.kept.claims.waitFor hclaimed hfirst halone), h.live.space,
    fun j u hj => ?_⟩
  rw [setJoining_joining] at hj
  rw [setJoining_process, setJoining_process, setJoining_proj lifecycle fun _ => rfl]
  split at hj
  next heq =>
    cases hj
    rw [heq]
    exact ⟨Ne.symm hne, p, hcaller, htarget, hlife⟩
  · exact h.live.awaited j u hj

/-- A claimed thread of the caller's process that nobody waits for, ready to be reaped. -/
structure Joined (s : System) (t : Tid) (p : ProcId) : Prop where
  ne : t ≠ s.current
  target : s.process t = some p
  caller : s.process s.current = some p
  zombie : (s.thread t).status = .zombie
  claimed : (s.thread t).lifecycleClaimed = true
  first : s.claims t = 0
  alone : ∀ j, (s.thread j).joining ≠ some t

theorem Safe.record {e : Event} (h : Safe s) (hpages : e.aboutPages = false)
    (hexit : ∀ u, e.isExit u = false) (happended : ∀ u, e ≠ .appended u)
    (hclaims : Claims (s.note e)) (hordered : Ordered (e :: s.log)) : Safe (s.note e) := by
  obtain ⟨others, hformed⟩ := h.formed
  have hlog : (s.note e).log = [e] ++ s.log := rfl
  refine ⟨⟨others, hformed.note happended⟩, ⟨?_, ?_, hclaims, ?_, hordered⟩, ?_⟩
  · refine h.kept.pages.frame (fun _ => ⟨rfl, fun _ => rfl⟩) rfl (fun _ => rfl) rfl
      ⟨_, hlog, fun e' he' => ?_⟩
    rw [mem_singleton.mp he']
    exact hpages
  · exact h.kept.links.keep (fun _ => rfl) (fun _ => ⟨rfl, rfl, id⟩) rfl
  · refine h.kept.exits.frame (exits_append hlog fun e' he' u => ?_)
      (fun u st hu => mem_cons_of_mem e hu)
      ⟨fun u q hu hq hrun => ⟨hu, hq, hrun, rfl⟩, h.kept.exits.unexited⟩ (Nat.le_refl _)
    rw [mem_singleton.mp he']
    exact hexit u
  · exact h.live.frame (fun _ => rfl) (fun _ => rfl) (fun _ hp => ⟨hp, rfl⟩) fun _ _ _ hl => hl

theorem Safe.joined (h : Safe s) (hj : Joined s t p) :
    Safe (s.note (.joined t (s.thread t).exitStatus)) := by
  obtain ⟨others, hformed⟩ := h.formed
  have hrun := h.kept.running_of_two hj.ne hj.target hj.caller
  have hexited := h.kept.exits.zombie t p hj.zombie hj.target hrun
  have hfrees : ∀ page c r, .free t page c r ∉ s.log := by
    intro page c r hmem
    have hzero := h.kept.pages.whole t p page hj.target fun _ => h.live.space p hrun
    refine countP_eq_zero.mp hzero _ hmem ?_
    exact decide_eq_true ⟨rfl, rfl⟩
  have htid := hformed.fresh t (by rw [hj.target]; exact nofun)
  refine h.record rfl (fun _ => rfl) (fun _ => nofun) ?_
    (h.kept.ordered.joined hexited hfrees)
  exact h.kept.claims.record (fun _ => rfl) hj.claimed hj.first htid rfl hj.alone rfl rfl

theorem calm_joinWaiter (s : System) (t : Tid) (w : Option Tid) :
    Calm s (s.modify t fun r => { r with joinWaiter := w }) :=
  calm_modify ⟨rfl, fun page => by cases page <;> rfl, id, rfl, rfl, Iff.rfl, Iff.rfl⟩

theorem Safe.joinWaiter (h : Safe s) (t : Tid) (w : Option Tid) :
    Safe (s.modify t fun r => { r with joinWaiter := w }) := by
  obtain ⟨others, hformed⟩ := h.formed
  exact h.calm (hformed.modify_plain rfl rfl rfl) (calm_joinWaiter s t w)
    (modify_proj lifecycle rfl)

theorem Safe.finishJoin (h : Safe s) (hne : t ≠ s.current) (htarget : s.process t = some p)
    (hcaller : s.process s.current = some p) (hzombie : (s.thread t).status = .zombie)
    (hclaimed : (s.thread t).lifecycleClaimed = true) (hfirst : s.claims t = 0)
    (honly : ∀ j, (s.thread j).joining = some t → j = s.current) : Ends (s.finishJoin t) := by
  have hsafe := h.forget.joinWaiter t none
  have hcalm := calm_joinWaiter (s.setJoining none) t none
  have hforget : (s.setJoining none).thread t = s.thread t := by
    rw [setJoining_thread, if_neg hne]
  have hjoined :
      Joined ((s.setJoining none).modify t fun r => { r with joinWaiter := none }) t p := by
    constructor
    case ne => exact hne
    case target =>
      rw [process, modify_self, hforget]
      exact htarget
    case caller =>
      have hprocess := (hcalm.thread s.current).process.trans (setJoining_process s none s.current)
      exact hprocess.trans hcaller
    case zombie =>
      rw [modify_self, hforget]
      exact hzombie
    case claimed =>
      rw [modify_self, hforget]
      exact hclaimed
    case first => exact hfirst
    case alone =>
      intro j hj
      rw [(hcalm.thread j).joining, setJoining_joining] at hj
      split at hj
      · cases hj
      next hjc => exact hjc (honly j hj)
  exact (hsafe.joined hjoined).reapKernelThread hjoined.alone

theorem claim_self (s : System) (t : Tid) : (s.claim t).thread t =
    { s.thread t with lifecycleClaimed := true } := modify_self ..

theorem claim_joining (s : System) (t j : Tid) :
    ((s.claim t).thread j).joining = (s.thread j).joining := ((claim_calm s t).thread j).joining

theorem claim_process (s : System) (t u : Tid) : (s.claim t).process u = s.process u :=
  ((claim_calm s t).thread u).process

theorem Safe.threadJoin (h : Safe s) (hgoing : Going (s.thread s.current).status) (t : Tid) :
    Ends (s.threadJoin t) := by
  unfold System.threadJoin
  split
  case isFalse => exact h.ends
  case isTrue hclaimable =>
    obtain ⟨hne, hprocess, hlife, hunclaimed⟩ := claimable_spec hclaimable
    obtain ⟨hfirst, halone⟩ := h.kept.claims.unclaimed t hunclaimed
    obtain ⟨others, hformed⟩ := h.formed
    obtain ⟨p, hcaller⟩ := Option.ne_none_iff_exists'.mp
      (hformed.held s.current mem_cons_self)
    have htarget : s.process t = some p := hprocess.trans hcaller
    have hself := claim_self s t
    dsimp only
    split
    next hzombie =>
      refine (h.claim t).finishJoin (p := p) hne ?_ ?_ hzombie ?_ hfirst fun j hj => ?_
      · rw [claim_process]; exact htarget
      · rw [claim_process]; exact hcaller
      · rw [hself]
      · rw [claim_joining] at hj
        exact absurd hj (halone j)
    · have hwaiter := (h.claim t).joinWaiter t (some s.current)
      have hcalm := (claim_calm s t).trans (calm_joinWaiter (s.claim t) t (some s.current))
      have hwait := hwaiter.waitFor (t := t) (p := p) hne
        ((hcalm.thread t).process.trans htarget) ((hcalm.thread s.current).process.trans hcaller)
        (by rw [modify_self, hself]; exact hlife) (by rw [modify_self, hself])
        hfirst fun j hj => halone j ((hcalm.thread j).joining ▸ hj)
      refine (hwait.threadBlock ?_).ends
      have hsame : (((s.claim t).modify t fun r =>
          { r with joinWaiter := some s.current }).thread s.current) = s.thread s.current := by
        rw [modify_of_ne _ _ (Ne.symm hne)]
        exact modify_of_ne s _ (Ne.symm hne)
      show Going ((System.setJoining _ (some t)).thread s.current).status
      rw [setJoining_proj status fun _ => rfl, hsame]
      exact hgoing

theorem Safe.resume (h : Safe s) (hgoing : Going (s.thread s.current).status) : Ends s.resume := by
  unfold System.resume
  cases hjoining : (s.thread s.current).joining with
  | none => exact h.ends
  | some t =>
    dsimp only
    unfold System.awaitTarget
    split
    case isFalse => exact (h.threadBlock hgoing).ends
    case isTrue hzombie =>
      obtain ⟨hne, p, hcaller, htarget, -⟩ := h.live.awaited s.current t hjoining
      obtain ⟨hfirst, hunique⟩ := h.kept.claims.waiting s.current t hjoining
      refine h.finishJoin (Ne.symm hne) htarget hcaller hzombie ?_ hfirst hunique
      by_contra hclaimed
      exact (h.kept.claims.unclaimed t (by simpa using hclaimed)).2 s.current hjoining

theorem Safe.detached (h : Safe s) (hclaimable : s.claimable t = true) :
    Safe ((s.claim t).note (.detached t)) := by
  obtain ⟨hne, hprocess, -, hunclaimed⟩ := claimable_spec hclaimable
  obtain ⟨hfirst, halone⟩ := h.kept.claims.unclaimed t hunclaimed
  obtain ⟨others, hformed⟩ := h.formed
  have htid : t < s.nextTid := by
    refine hformed.fresh t ?_
    rw [hprocess]
    exact hformed.held s.current mem_cons_self
  have hclaim := h.claim t
  refine hclaim.record rfl (fun _ => rfl) (fun _ => nofun) ?_ (hclaim.kept.ordered.cons nofun)
  refine hclaim.kept.claims.record (t := t) (fun _ => rfl) ?_ hfirst htid rfl (fun j hj => ?_) rfl rfl
  · rw [claim_self]
  · rw [claim_joining] at hj
    exact halone j hj

theorem Safe.setLifecycle (h : Safe s) (halone : ∀ j, (s.thread j).joining ≠ some t)
    (l : Lifecycle) : Safe (s.modify t fun r => { r with lifecycle := l }) := by
  obtain ⟨others, hformed⟩ := h.formed
  have hcalm : Calm s (s.modify t fun r => { r with lifecycle := l }) :=
    calm_modify ⟨rfl, fun page => by cases page <;> rfl, id, rfl, rfl, Iff.rfl, Iff.rfl⟩
  refine ⟨⟨others, hformed.modify_plain rfl rfl rfl⟩, h.kept.calm hcalm, ?_⟩
  refine h.live.frame (fun u => (hcalm.thread u).joining) (fun u => (hcalm.thread u).process)
    (fun _ hp => ⟨hp, rfl⟩) fun j u hj hlife => ?_
  have hne : u ≠ t := fun heq => halone j (heq ▸ hj)
  rw [modify_of_ne _ _ hne]
  exact hlife

theorem Safe.threadDetach (h : Safe s) (t : Tid) : Ends (s.threadDetach t) := by
  unfold System.threadDetach
  split
  case isFalse => exact h.ends
  case isTrue hclaimable =>
    have hdetached := h.detached hclaimable
    have halone : ∀ j, (((s.claim t).note (.detached t)).thread j).joining ≠ some t := by
      intro j hj
      have hj : ((s.claim t).thread j).joining = some t := hj
      rw [claim_joining] at hj
      exact (h.kept.claims.unclaimed t (claimable_spec hclaimable).2.2.2).2 j hj
    dsimp only
    split
    case isFalse => exact (hdetached.setLifecycle halone .detachedRunning).ends
    case isTrue =>
      refine (hdetached.setLifecycle halone .detachedZombie).reapKernelThread fun j hj => ?_
      rw [modify_thread] at hj
      split at hj
      · exact halone t hj
      · exact halone j hj

end System

end OrangeOs.Sched
