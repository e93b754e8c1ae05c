import Mathlib.Data.List.Find
import OrangeOs.Sched.Reaping

/-! # The choice of the next thread

`schedule` case by case: its own checks pass in every state with a ring of fewer than 4096 threads,
the reapers leave the ring without the `reapable` threads, and the loop finds the first thread of
it that is ready. The assertion on the thread it selects fails exactly when the reapers leave a
running thread alone.
-/

namespace OrangeOs.Sched

open Proc (ProcId)
open Ipc (Tid)
open Cycles List

namespace System

variable {s s' : System} {others : List Tid} {t : Tid}

/-! ## The checks -/

theorem Ring.running_mem_others (h : Ring s others) (ht : t ∈ others) :
    (s.thread t).status ≠ .running := fun hrun => h.not_mem (h.running t hrun ▸ ht)

theorem checkRing_idle {ts : List Tid} (hheld : ∀ t ∈ ts, s.process t ≠ none)
    (hidle : ∀ t ∈ ts, (s.thread t).status ≠ .running) {running : Nat} (hrun : running ≤ 1)
    {count : Nat} (hcount : count < 4096) : s.checkRing running count ts =
      if count + ts.length < 4096 then .ok s else .error (.ringSize, s) := by
  induction ts generalizing count with
  | nil =>
    rw [checkRing, check, if_pos (decide_eq_true hrun), length_nil, Nat.add_zero,
      if_pos hcount]
  | cons t ts ih =>
    have hsome : (s.thread t).process.isSome := Option.isSome_iff_ne_none.mpr
      (hheld t mem_cons_self)
    rw [checkRing, check, if_pos hsome]
    show Except.bind (s.check (decide (count + 1 < 4096)) .ringSize) _ = _
    by_cases hnext : count + 1 < 4096
    · have hrest := ih (fun u hu => hheld u (mem_cons_of_mem t hu))
        (fun u hu => hidle u (mem_cons_of_mem t hu)) hnext
      rw [check, if_pos (decide_eq_true hnext)]
      show s.checkRing _ _ ts = _
      rw [if_neg (hidle t mem_cons_self), hrest, length_cons, Nat.add_assoc,
        Nat.add_comm 1]
    · have hbig : ¬ count + (t :: ts).length < 4096 := by
        rw [length_cons]
        omega
      rw [check, if_neg (by simpa using hnext), if_neg hbig]
      rfl

theorem Ring.checkSchedulerInvariants_eq (h : Ring s others) : s.checkSchedulerInvariants =
    if others.length + 1 < 4096 then .ok s else .error (.ringSize, s) := by
  have hsome : (s.thread s.current).process.isSome := Option.isSome_iff_ne_none.mpr
    (h.held s.current mem_cons_self)
  rw [checkSchedulerInvariants, h.lap_eq, checkRing, check, if_pos hsome]
  show Except.bind (s.check true .ringSize) _ = _
  show s.checkRing _ 1 others = _
  rw [checkRing_idle (fun t ht => h.held t (mem_cons_of_mem _ ht))
    (fun t ht => h.running_mem_others ht) (by split <;> omega) (by omega), Nat.add_comm]

/-! ## The reapers -/

def reapable (s : System) (t : Tid) : Bool := s.orphanOf s.procs t || s.detachedZombie t

theorem orphanOf_current (s : System) (ps : List ProcId) : s.orphanOf ps s.current = false := by
  rw [orphanOf, any_eq_false]
  intro p _ heq
  exact (reapTarget_spec (reapTarget_of_orphanTarget (of_decide_eq_true heq))).1 rfl

theorem zombie_of_reapable (h : s.reapable t = true) : (s.thread t).status = .zombie := by
  rcases Bool.or_eq_true_iff.mp h with horphan | hdetached
  · obtain ⟨p, -, hp⟩ := any_eq_true.mp horphan
    exact (reapTarget_spec (reapTarget_of_orphanTarget (of_decide_eq_true hp))).2.1
  · exact (of_decide_eq_true hdetached).1

/-- What the two reapers leave. -/
structure Reaped (s s' : System) (others : List Tid) : Prop where
  formed : Formed s' (others.filter fun t => !s.reapable t)
  current : s'.current = s.current
  kept : ∀ t ∈ s.current :: others.filter (fun t => !s.reapable t),
    ∃ n, s'.thread t = { s.thread t with next := n }

theorem Reaped.status (h : Reaped s s' others)
    (ht : t ∈ s.current :: others.filter fun t => !s.reapable t) :
    (s'.thread t).status = (s.thread t).status := by
  obtain ⟨n, hn⟩ := h.kept t ht
  rw [hn]

theorem Formed.reap (h : Formed s others) :
    ∃ s', s.processReapOrphans.bind threadReapDetached = .ok s' ∧ Reaped s s' others := by
  obtain ⟨s1, heq, hswept, hformed⟩ := h.reapOrphans s.procs
  obtain ⟨s2, heq2, hswept2, hformed2⟩ := hformed.reapDetached
  have hsame : ∀ t, s.orphanOf s.procs t = false → s1.detachedZombie t = s.detachedZombie t :=
    fun t ht => hswept.detachedZombie ht
  have hgone : ∀ t ∈ others, (!(decide (t ∈ others.filter fun t => !s.orphanOf s.procs t) &&
      s1.detachedZombie t) && !s.orphanOf s.procs t) = !s.reapable t := by
    intro t ht
    cases horphan : s.orphanOf s.procs t with
    | true => simp [reapable, horphan]
    | false => simp [reapable, horphan, ht, hsame t horphan]
  rw [filter_filter, filter_congr hgone] at hformed2
  refine ⟨s2, ?_, hformed2, hswept2.current.trans hswept.current, fun t ht => ?_⟩
  · rw [processReapOrphans, heq]
    exact heq2
  · refine (hswept.trans hswept2).kept t ?_
    rcases mem_cons.mp ht with rfl | hmem
    · have hnot : s.current ∉ others := h.toRing.not_mem
      simp [orphanOf_current, hnot]
    · obtain ⟨hother, hreapable⟩ := mem_filter.mp hmem
      have hg := hgone t hother
      rw [hreapable] at hg
      obtain ⟨hdetached, horphan⟩ := Bool.and_eq_true_iff.mp hg
      rw [Bool.or_eq_false_iff]
      exact ⟨(Bool.not_eq_true' _).mp horphan, (Bool.not_eq_true' _).mp hdetached⟩

/-! ## The loop -/

def readyThread (s : System) (t : Tid) : Bool := decide ((s.thread t).status = .ready)

theorem Ring.skipped_eq (h : Ring s others) (ht : t ∈ others) : s.skipped t = !s.readyThread t := by
  have hrun := h.running_mem_others ht
  unfold skipped readyThread
  cases hstatus : (s.thread t).status with
  | running => exact absurd hstatus hrun
  | _ => simp

theorem Ring.pick_eq {l r : List Tid} (h : Ring s (l ++ t :: r)) {n : Nat} (hn : r.length < n) :
    s.pick n t = (t :: r).find? s.readyThread := by
  obtain ⟨n, rfl⟩ := Nat.exists_eq_succ_of_ne_zero (Nat.ne_of_gt (Nat.zero_lt_of_lt hn))
  have hskip := h.skipped_eq (mem_append_right l (mem_cons_self (a := t)))
  induction r generalizing l t n with
  | nil =>
    have hnext : s.next t = some s.current := (leads_append.mp h.leads).2
    rw [pick, hskip, hnext]
    cases hready : s.readyThread t <;> simp [hready]
  | cons y r ih =>
    have hnext : s.next t = some y := (leads_append.mp h.leads).2.1
    have hassoc : l ++ t :: y :: r = (l ++ [t]) ++ y :: r := by simp
    rw [hassoc] at h
    have hy : y ≠ s.current := fun heq =>
      h.not_mem (heq ▸ mem_append_right _ mem_cons_self)
    obtain ⟨n, rfl⟩ := Nat.exists_eq_succ_of_ne_zero (Nat.ne_of_gt
      (Nat.zero_lt_of_lt (Nat.lt_of_succ_lt_succ hn)))
    have hrest := ih h n (Nat.lt_of_succ_lt_succ hn)
      (h.skipped_eq (mem_append_right _ mem_cons_self))
    rw [pick, hskip, hnext]
    cases hready : s.readyThread t with
    | true => simp [hready]
    | false => simp [hready, hy, hrest]

theorem Ring.pick_others (h : Ring s others) (hne : others ≠ []) :
    (s.next s.current).bind (s.pick s.nextTid) = others.find? s.readyThread := by
  obtain ⟨t, r, rfl⟩ := exists_cons_of_ne_nil hne
  have hlen : r.length < s.nextTid := Nat.lt_of_succ_lt h.length_lt
  have hring : Ring s ([] ++ t :: r) := h
  rw [h.next_current]
  exact hring.pick_eq hlen

theorem Ring.pick_alone (h : Ring s []) : (s.next s.current).bind (s.pick s.nextTid) =
      if s.skipped s.current then none else some s.current := by
  obtain ⟨n, hn⟩ := Nat.exists_eq_succ_of_ne_zero (Nat.ne_of_gt (Nat.zero_lt_of_lt h.length_lt))
  have hnext : s.next s.current = some s.current := h.leads
  rw [hnext, hn]
  show s.pick (n + 1) s.current = _
  rw [pick, hnext]
  simp

/-! ## Switching -/

theorem switchTo_thread (s : System) (t u : Tid) : (s.switchTo t).thread u =
    { s.thread u with status :=
        if u = t then .running
        else if u = s.current ∧ (s.thread u).status = .running then .ready
        else (s.thread u).status } := by
  have hmodify : (s.switchTo t).thread = ((s.modify s.current fun r =>
      { r with status := if r.status = .running then .ready else r.status }).modify t fun r =>
        { r with status := .running }).thread := rfl
  rw [hmodify, modify_thread, modify_thread, modify_thread]
  rcases eq_or_ne u t with rfl | hut
  · rw [if_pos rfl, if_pos rfl]
    split
    next hcur => rw [hcur]
    · rfl
  · rw [if_neg hut, if_neg hut]
    rcases eq_or_ne u s.current with rfl | hcur
    · simp
    · simp [hcur]

theorem switchTo_next (s : System) (t u : Tid) : (s.switchTo t).next u = s.next u := by
  rw [next, switchTo_thread, next]

theorem switchTo_process (s : System) (t u : Tid) : (s.switchTo t).process u = s.process u := by
  rw [process, switchTo_thread, process]

theorem switchTo_status_self (s : System) (t : Tid) :
    ((s.switchTo t).thread t).status = .running := by
  rw [switchTo_thread]
  exact if_pos rfl

theorem switchTo_status (s : System) {u : Tid} (hu : u ≠ t) : ((s.switchTo t).thread u).status =
    if u = s.current ∧ (s.thread u).status = .running then .ready else (s.thread u).status := by
  rw [switchTo_thread]
  exact if_neg hu

theorem Formed.switch {l r : List Tid} (h : Formed s (l ++ t :: r)) :
    Formed (s.switchTo t) (r ++ s.current :: l) := by
  have hperm : List.Perm (t :: (r ++ s.current :: l)) (s.current :: (l ++ t :: r)) := by
    have h1 : List.Perm ((t :: r) ++ (s.current :: l)) ((s.current :: l) ++ (t :: r)) :=
      perm_append_comm
    exact h1
  have hnext : (s.switchTo t).next = s.next := funext (switchTo_next s t)
  refine ⟨.of_each (c := t) rfl (hnext ▸ h.leads.rotate) (hperm.nodup_iff.mpr h.nodup)
    (fun u hu => ?_) fun u hu => ?_, fun u hu hprocess => ?_, fun u hu => ?_, h.unused⟩
  · have hold := hperm.mem_iff.mp hu
    rw [switchTo_process]
    refine ⟨h.bound u hold, h.held u hold, ?_, h.appended u hold⟩
    rcases eq_or_ne u t with rfl | hne
    · rw [switchTo_status_self]
      exact nofun
    · rw [switchTo_status s hne]
      split
      · exact nofun
      · exact h.alive u hold
  · by_contra hne
    rw [switchTo_status s hne] at hu
    split at hu
    · cases hu
    next hcond => exact hcond ⟨h.running u hu, hu⟩
  · rw [switchTo_process] at hprocess
    exact hperm.mem_iff.mpr (h.complete u hu hprocess)
  · exact h.fresh u (switchTo_process s t u ▸ hu)

theorem Formed.switch_self (h : Formed s []) : Formed (s.switchTo s.current) [] := by
  have hprocess := switchTo_process s s.current
  refine h.of_ring (h.toRing.keep rfl (Nat.le_refl _) ?_ ?_ ?_ ?_ fun _ ha => ha) rfl rfl hprocess
    fun _ ha => ha
  · exact fun u _ => switchTo_next s s.current u
  · exact fun u _ => hprocess u
  · intro u hu
    rw [mem_singleton.mp hu, switchTo_status_self]
    exact nofun
  · intro u hu
    by_contra hne
    rw [switchTo_status s hne, if_neg fun hcond => hne hcond.1] at hu
    exact hne (h.running u hu)

/-! ## Schedule -/

/-- `schedule` behind the reapers. -/
def select (s : System) : Exec :=
  match (s.next s.current).bind (s.pick s.nextTid) with
  | none => .ok s
  | some next => (s.check (decide ((s.thread next).status = .ready)) .nextReady).bind
      fun s => .ok (s.switchTo next)

theorem schedule_eq (h : s.next s.current ≠ some s.current) : s.schedule =
    s.checkSchedulerInvariants.bind fun s =>
      (s.processReapOrphans.bind threadReapDetached).bind select := by
  rw [schedule, if_neg h]
  cases s.checkSchedulerInvariants with
  | error e => rfl
  | ok s =>
    show s.processReapOrphans.bind _ = (s.processReapOrphans.bind threadReapDetached).bind select
    cases s.processReapOrphans with
    | error e => rfl
    | ok s => rfl

theorem Formed.schedule_eq_select (h : Formed s others) (hne : others ≠ []) : s.schedule =
    if others.length + 1 < 4096 then (s.processReapOrphans.bind threadReapDetached).bind select
    else .error (.ringSize, s) := by
  rw [schedule_eq (h.toRing.next_ne hne), h.toRing.checkSchedulerInvariants_eq]
  split
  · rfl
  · rfl

theorem Formed.select_others (h : Formed s others) (hne : others ≠ []) :
    ∃ s' others', s.select = .ok s' ∧ Formed s' others' ∧
      s'.current = (others.find? s.readyThread).getD s.current := by
  unfold select
  rw [h.toRing.pick_others hne]
  cases hfind : others.find? s.readyThread with
  | none => exact ⟨s, others, rfl, h, rfl⟩
  | some t =>
    obtain ⟨l, r, rfl⟩ := append_of_mem (mem_of_find?_eq_some hfind)
    have hready : s.readyThread t = true := find?_some hfind
    refine ⟨s.switchTo t, r ++ s.current :: l, ?_, h.switch, rfl⟩
    show (s.check (s.readyThread t) .nextReady).bind _ = _
    rw [hready]
    rfl

theorem Formed.select_alone (h : Formed s []) :
    if (s.thread s.current).status = .running then s.select = .error (.nextReady, s)
    else ∃ s', s.select = .ok s' ∧ Formed s' [] ∧ s'.current = s.current := by
  unfold select
  rw [h.toRing.pick_alone]
  cases hstatus : (s.thread s.current).status with
  | running => simp [skipped, hstatus, check, Except.bind]
  | ready =>
    refine ⟨s.switchTo s.current, ?_, h.switch_self, rfl⟩
    simp [skipped, hstatus, check, Except.bind]
  | blocked =>
    simp only [skipped, hstatus]
    exact ⟨s, rfl, h, rfl⟩
  | zombie =>
    simp only [skipped, hstatus]
    exact ⟨s, rfl, h, rfl⟩
  | dead => exact absurd hstatus (h.alive s.current mem_cons_self)

theorem Reaped.find_ready (h : Reaped s s' others) :
    (others.filter fun t => !s.reapable t).find? s'.readyThread = others.find? s.readyThread := by
  rw [find?_filter]
  refine find?_congr fun t ht => ?_
  cases hreapable : s.reapable t with
  | true =>
    have hzombie := zombie_of_reapable hreapable
    simp [readyThread, hzombie]
  | false =>
    have hstatus : (s'.thread t).status = (s.thread t).status :=
      h.status (mem_cons_of_mem _ (mem_filter.mpr ⟨ht, by rw [hreapable]; rfl⟩))
    simp [readyThread, hstatus]

/-- If `schedule` is called by a running thread with others in the ring, one of them stays. -/
def SparesRing (s : System) (op : Op) : Prop :=
  op = .schedule → (s.thread s.current).status = .running → s.next s.current ≠ some s.current →
    ∃ t ∈ s.lap, t ≠ s.current ∧ s.reapable t = false

instance (s : System) (op : Op) : Decidable (SparesRing s op) :=
  inferInstanceAs (Decidable (op = .schedule → _ → _ → ∃ t ∈ s.lap, _))

theorem Ring.spares_alone (h : Ring s []) : SparesRing s .schedule := fun _ _ hne =>
  absurd h.leads hne

theorem Ring.sparesRing_iff (h : Ring s others) (hne : others ≠ []) :
    SparesRing s .schedule ↔ (s.thread s.current).status = .running →
      others.filter (fun t => !s.reapable t) ≠ [] := by
  have hexists : (∃ t ∈ s.lap, t ≠ s.current ∧ s.reapable t = false) ↔
      others.filter (fun t => !s.reapable t) ≠ [] := by
    rw [h.lap_eq]
    constructor
    · rintro ⟨t, ht, hcur, hreapable⟩ hnil
      have hmem : t ∈ others.filter fun t => !s.reapable t :=
        mem_filter.mpr ⟨(mem_cons.mp ht).resolve_left hcur, by rw [hreapable]; rfl⟩
      rw [hnil] at hmem
      cases hmem
    · intro hsome
      obtain ⟨t, ht⟩ := exists_mem_of_ne_nil _ hsome
      obtain ⟨hother, hreapable⟩ := mem_filter.mp ht
      refine ⟨t, mem_cons_of_mem _ hother, fun heq => h.not_mem (heq ▸ hother), ?_⟩
      exact (Bool.not_eq_true' _).mp hreapable
  constructor
  · exact fun hspares hrun => hexists.mp (hspares rfl hrun (h.next_ne hne))
  · exact fun hkeep _ hrun _ => hexists.mpr (hkeep hrun)

/-- What `schedule` does: it ends with a ring and the first ready thread of it, or it stops at the
bound on the ring, or it leaves a running thread alone and fails to select one. -/
inductive Scheduled (s : System) (others : List Tid) : Prop
  | switched (s' : System) (others' : List Tid) (hok : s.schedule = .ok s')
      (hspares : SparesRing s .schedule) (hformed : Formed s' others')
      (hcurrent : s'.current = (others.find? s.readyThread).getD s.current)
  | crowded (hsize : 4096 ≤ others.length + 1) (herror : s.schedule = .error (.ringSize, s))
  | stranded (s' : System) (hsize : others.length + 1 < 4096)
      (hspares : ¬ SparesRing s .schedule) (herror : s.schedule = .error (.nextReady, s'))

theorem Formed.scheduled (h : Formed s others) : Scheduled s others := by
  rcases eq_or_ne others [] with rfl | hne
  · have hok : s.schedule = .ok s := by
      have hnext : s.next s.current = some s.current := h.leads
      rw [schedule, if_pos hnext]
    exact .switched s [] hok h.toRing.spares_alone h rfl
  · have hschedule := h.schedule_eq_select hne
    by_cases hsize : others.length + 1 < 4096
    · obtain ⟨s1, hreap, hreaped⟩ := h.reap
      rw [if_pos hsize, hreap] at hschedule
      have hselect : s.schedule = s1.select := hschedule
      by_cases hleft : others.filter (fun t => !s.reapable t) = []
      · -- the reapers leave the current thread alone
        have hformed := hreaped.formed
        rw [hleft] at hformed
        have hstatus : (s1.thread s1.current).status = (s.thread s.current).status := by
          rw [hreaped.current]
          exact hreaped.status mem_cons_self
        have halone := hformed.select_alone
        rw [hstatus] at halone
        split at halone
        next hrun =>
          refine .stranded s1 hsize ?_ (hselect.trans halone)
          rw [h.toRing.sparesRing_iff hne]
          exact fun hkeep => hkeep hrun hleft
        next hrun =>
          obtain ⟨s', hok, hformed', hcurrent⟩ := halone
          refine .switched s' [] (hselect.trans hok) ?_ hformed' ?_
          · rw [h.toRing.sparesRing_iff hne]
            exact fun hr => absurd hr hrun
          · rw [← hreaped.find_ready, hleft, hcurrent, hreaped.current]
            rfl
      · obtain ⟨s', others', hok, hformed, hcurrent⟩ := hreaped.formed.select_others hleft
        refine .switched s' others' (hselect.trans hok) ?_ hformed ?_
        · rw [h.toRing.sparesRing_iff hne]
          exact fun _ => hleft
        · rw [hcurrent, hreaped.find_ready, hreaped.current]
    · rw [if_neg hsize] at hschedule
      exact .crowded (Nat.le_of_not_lt hsize) hschedule

end System

end OrangeOs.Sched
