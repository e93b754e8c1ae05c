import Mathlib.Data.List.Perm.Subperm
import OrangeOs.Sched.Calls

/-! # The ring

`Ring s others`: from the current thread the pointers lead through `others` and back. The lemmas
say what each update of the state does to the ring; `retire`, which every release of a thread goes
through, passes its assertions and takes the thread out.
-/

namespace OrangeOs.Sched

open Proc (ProcId Lifecycle)
open Ipc (Tid)
open Cycles Function List

variable {f : Thread → Thread}

namespace System

variable {s s' : System} {others : List Tid} {t u : Tid}

/-! ## Updates -/

section updates

variable (s : System) (t : Tid) (f : Thread → Thread) (p : ProcId) (g : Process → Process)

@[simp] theorem modify_self : (s.modify t f).thread t = f (s.thread t) := update_self ..

@[simp] theorem modifyProc_self : (s.modifyProc p g).proc p = g (s.proc p) :=
  update_self ..

end updates

theorem modify_thread (s : System) (t u : Tid) (f : Thread → Thread) :
    (s.modify t f).thread u = if u = t then f (s.thread t) else s.thread u := by
  simp [modify, update_apply]

theorem modify_apply (s : System) (t u : Tid) (f : Thread → Thread) :
    (s.modify t f).thread u = if u = t then f (s.thread u) else s.thread u := by
  rw [modify_thread]
  split
  next heq => rw [heq]
  · rfl

theorem modify_proj {γ : Type} (g : Thread → γ) {f : Thread → Thread}
    (h : g (f (s.thread t)) = g (s.thread t)) (u : Tid) :
    g ((s.modify t f).thread u) = g (s.thread u) := Updates.proj g h u

theorem modify_of_ne (s : System) (f : Thread → Thread) (h : u ≠ t) :
    (s.modify t f).thread u = s.thread u := update_of_ne h ..

theorem modifyProc_proc (s : System) (p q : ProcId) (g : Process → Process) :
    (s.modifyProc p g).proc q = if q = p then g (s.proc p) else s.proc q := by
  simp [modifyProc, update_apply]

theorem modifyProc_of_ne (s : System) {p q : ProcId} (g : Process → Process) (h : q ≠ p) :
    (s.modifyProc p g).proc q = s.proc q := update_of_ne h ..

/-! ## The invariant -/

structure Ring (s : System) (others : List Tid) : Prop where
  leads : Leads s.next s.current s.current others
  nodup : (s.current :: others).Nodup
  bound : ∀ t ∈ s.current :: others, t < s.nextTid
  held : ∀ t ∈ s.current :: others, s.process t ≠ none
  alive : ∀ t ∈ s.current :: others, (s.thread t).status ≠ .dead
  running : ∀ t, (s.thread t).status = .running → t = s.current
  appended : ∀ t ∈ s.current :: others, .appended t ∈ s.log

/-- No thread that was put into the ring has left it, but for those that were freed. -/
def Complete (s : System) (others : List Tid) : Prop :=
  ∀ t, .appended t ∈ s.log → s.process t ≠ none → t ∈ s.current :: others

namespace Ring

theorem of_each {c : Tid} (hcurrent : s.current = c) (hleads : Leads s.next c c others)
    (hnodup : (c :: others).Nodup) (heach : ∀ t ∈ c :: others, t < s.nextTid ∧
      s.process t ≠ none ∧ (s.thread t).status ≠ .dead ∧ .appended t ∈ s.log)
    (hrunning : ∀ t, (s.thread t).status = .running → t = c) : Ring s others := by
  subst hcurrent
  exact ⟨hleads, hnodup, fun t ht => (heach t ht).1, fun t ht => (heach t ht).2.1,
    fun t ht => (heach t ht).2.2.1, hrunning, fun t ht => (heach t ht).2.2.2⟩

section

variable (h : Ring s others)
include h

theorem not_mem : s.current ∉ others := (nodup_cons.mp h.nodup).1

theorem length_lt : others.length < s.nextTid := by
  have hsub : s.current :: others ⊆ range s.nextTid := fun t ht =>
    mem_range.mpr (h.bound t ht)
  have hlen := (h.nodup.subperm hsub).length_le
  simp only [length_cons, length_range] at hlen
  exact hlen

theorem lap_eq : s.lap = s.current :: others :=
  h.leads.lap_eq h.not_mem h.length_lt

theorem inRing_iff : s.threadInSchedulerRing t = true ↔ t ∈ s.current :: others := by
  rw [threadInSchedulerRing, h.lap_eq, decide_eq_true_iff]

theorem inRing_eq_false (ht : t ∉ s.current :: others) : s.threadInSchedulerRing t = false := by
  rw [threadInSchedulerRing, h.lap_eq, decide_eq_false ht]

theorem next_current : s.next s.current = some (others.head?.getD s.current) := by
  cases others with
  | nil => exact h.leads
  | cons t ts => exact h.leads.1

theorem next_ne (hne : others ≠ []) : s.next s.current ≠ some s.current := by
  obtain ⟨t, r, rfl⟩ := exists_cons_of_ne_nil hne
  rw [h.next_current, ne_eq, Option.some.injEq]
  exact fun heq => h.not_mem (heq ▸ mem_cons_self)

theorem keep (hcurrent : s'.current = s.current) (htid : s.nextTid ≤ s'.nextTid)
    (hnext : ∀ t ∈ s.current :: others, s'.next t = s.next t)
    (hheld : ∀ t ∈ s.current :: others, s'.process t = s.process t)
    (halive : ∀ t ∈ s.current :: others, (s'.thread t).status ≠ .dead)
    (hrunning : ∀ t, (s'.thread t).status = .running → t = s.current)
    (hlog : ∀ t, .appended t ∈ s.log → .appended t ∈ s'.log) : Ring s' others := by
  refine .of_each hcurrent (h.leads.congr hnext) h.nodup (fun t ht => ?_) hrunning
  rw [hheld t ht]
  exact ⟨Nat.lt_of_lt_of_le (h.bound t ht) htid, h.held t ht, halive t ht,
    hlog t (h.appended t ht)⟩

theorem modify (hnext : (f (s.thread t)).next = (s.thread t).next)
    (hprocess : (f (s.thread t)).process = (s.thread t).process)
    (halive : t ∈ s.current :: others → (f (s.thread t)).status ≠ .dead)
    (hrunning : (f (s.thread t)).status = .running → t = s.current) :
    Ring (s.modify t f) others := by
  refine h.keep rfl (Nat.le_refl _) ?_ ?_ ?_ ?_ fun _ ht => ht
  · exact fun u _ => modify_proj Thread.next hnext u
  · exact fun u _ => modify_proj Thread.process hprocess u
  · intro u hu
    rw [modify_thread]
    split
    next heq => exact halive (heq ▸ hu)
    · exact h.alive u hu
  · intro u
    rw [modify_thread]
    split
    next heq => exact fun hrun => heq ▸ hrunning hrun
    · exact h.running u

theorem frame (hthread : s'.thread = s.thread)
    (hcurrent : s'.current = s.current) (htid : s'.nextTid = s.nextTid)
    (hlog : ∀ t, .appended t ∈ s.log → .appended t ∈ s'.log) : Ring s' others := by
  refine h.keep hcurrent (Nat.le_of_eq htid.symm) ?_ ?_ ?_ ?_ hlog
  · exact fun t _ => by rw [next, next, hthread]
  · exact fun t _ => by rw [process, process, hthread]
  · exact fun t ht => by rw [hthread]; exact h.alive t ht
  · exact fun t ht => by rw [hthread] at ht; exact h.running t ht

/-! ## Removal -/

omit h in
theorem before_mem {l r : List Tid} (h : Ring s (l ++ t :: r)) :
    s.before t = some (last s.current l) := by
  have hnot := h.not_mem
  have hnodup := (nodup_cons.mp h.nodup).2
  rw [before, h.lap_eq]
  refine (leads_append.mp h.leads).1.find_last (Or.inr rfl) (fun ht => ?_)
    (fun hc => hnot (mem_append_left _ hc)) _
  exact (nodup_append'.mp hnodup).2.2 ht mem_cons_self

theorem before_not_mem (ht : t ∉ others) : s.before t = some (last s.current others) := by
  rw [before, h.lap_eq, ← h.leads.find_last (Or.inl rfl) ht h.not_mem [], append_nil]

theorem remove_not_mem (ht : t ∉ others) : s.threadRemoveFromScheduler t = s := by
  unfold threadRemoveFromScheduler
  split
  · rfl
  next hne =>
    rw [h.before_not_mem ht]
    dsimp only
    rw [if_neg]
    rw [h.leads.next_last, Option.some.injEq]
    exact fun heq => hne heq.symm

end

theorem remove_mem {l r : List Tid} (h : Ring s (l ++ t :: r)) :
    s.threadRemoveFromScheduler t =
      (s.modify (last s.current l) fun x => { x with next := s.next t }).modify t
        fun x => { x with next := none } := by
  have hne : t ≠ s.current := fun heq =>
    h.not_mem (heq ▸ mem_append_right l mem_cons_self)
  have hnext : s.next (last s.current l) = some t := (leads_append.mp h.leads).1.next_last
  rw [threadRemoveFromScheduler, if_neg hne, h.before_mem]
  dsimp only
  rw [if_pos hnext]

end Ring

theorem remove_thread (s : System) (t u : Tid) :
    ∃ n, (s.threadRemoveFromScheduler t).thread u = { s.thread u with next := n } := by
  unfold threadRemoveFromScheduler
  split
  · exact ⟨_, rfl⟩
  next =>
    cases s.before t with
    | none => exact ⟨_, rfl⟩
    | some previous =>
      dsimp only
      split
      case isFalse => exact ⟨_, rfl⟩
      case isTrue =>
        simp only [modify_thread]
        split <;> split
        case isTrue.isTrue hu hp => exact ⟨none, by rw [← hp, hu]⟩
        case isTrue.isFalse hu hp => exact ⟨none, by rw [hu]⟩
        case isFalse.isTrue hu hp => exact ⟨s.next t, by rw [hp]⟩
        case isFalse.isFalse hu hp => exact ⟨_, rfl⟩

theorem remove_frame (s : System) (t : Tid) :
    ∃ f, s.threadRemoveFromScheduler t = { s with thread := f } := by
  unfold threadRemoveFromScheduler
  split
  · exact ⟨_, rfl⟩
  next =>
    cases s.before t with
    | none => exact ⟨_, rfl⟩
    | some previous =>
      dsimp only
      split
      · exact ⟨_, rfl⟩
      · exact ⟨_, rfl⟩

/-! ## Release -/

/-- A thread's fields once it is freed. -/
def Thread.released (r : Thread) : Thread := { r.withoutPages with process := none }

def procWithout (s : System) (t : Tid) : ProcId → Process :=
  match s.process t with
  | none => s.proc
  | some p => update s.proc p ((s.proc p).unlinkThread t)

/-- `es` are releases of pages of `t`, with these two answers. -/
def Frees (t : Tid) (current inRing : Bool) (es : List Event) : Prop :=
  ∀ e ∈ es, ∃ page, e = .free t page current inRing

theorem Frees.append {c r : Bool} {es es' : List Event} (h : Frees t c r es)
    (h' : Frees t c r es') : Frees t c r (es ++ es') := fun e he =>
  (mem_append.mp he).elim (h e) (h' e)

theorem Frees.not_appended {c r : Bool} {es : List Event} (h : Frees t c r es) :
    .appended u ∉ es := fun hmem => by
  obtain ⟨page, heq⟩ := h _ hmem
  cases heq

/-- The releases of pages of `t` in this state. -/
def FreesNow (s : System) (t : Tid) (es : List Event) : Prop :=
  Frees t (decide (t = s.current)) (s.threadInSchedulerRing t) es

theorem freePage_frame (s : System) (t : Tid) (page : Page) (b : Bool) :
    ∃ es, (if b then s.freePage t page else s) = { s with log := es ++ s.log } ∧
      FreesNow s t es := by
  cases b with
  | false => exact ⟨[], rfl, nofun⟩
  | true => exact ⟨[_], rfl, fun e he => ⟨page, mem_singleton.mp he⟩⟩

theorem unmapUserPage_frame (s : System) (p : ProcId) (t : Tid) (page : Page) (b : Bool) :
    ∃ m es, (if b then s.unmapUserPage p t page else s) =
      { s with mapped := m, log := es ++ s.log } ∧ FreesNow s t es := by
  cases b with
  | false => exact ⟨_, [], rfl, nofun⟩
  | true =>
    rw [if_pos rfl, unmapUserPage]
    split
    case isFalse => exact ⟨_, [], rfl, nofun⟩
    case isTrue => exact ⟨_, [_], rfl, fun e he => ⟨page, mem_singleton.mp he⟩⟩

theorem unmapThreadPages_frame (s : System) (t : Tid) :
    ∃ m es, s.unmapThreadPages t = { s with mapped := m, log := es ++ s.log } ∧
      FreesNow s t es := by
  unfold unmapThreadPages
  cases (s.thread t).process with
  | none => exact ⟨_, [], rfl, nofun⟩
  | some p =>
    dsimp only
    split
    case isFalse => exact ⟨_, [], rfl, nofun⟩
    case isTrue =>
      obtain ⟨m, es, heq, hes⟩ := unmapUserPage_frame s p t .userStack
        (s.thread t).userStackPage
      rw [heq]
      obtain ⟨m', es', heq', hes'⟩ := unmapUserPage_frame
        { s with mapped := m, log := es ++ s.log } p t .tls (s.thread t).tlsPage
      rw [heq']
      have hes' : FreesNow s t es' := hes'
      exact ⟨m', es' ++ es, by rw [append_assoc], hes'.append hes⟩

theorem unlinkThread_eq (s : System) (t : Tid) :
    s.unlinkThreadFromProcess t = { s with
      thread := update s.thread t { s.thread t with process := none }
      proc := s.procWithout t } := by
  unfold unlinkThreadFromProcess procWithout process
  cases hp : (s.thread t).process with
  | none =>
    have hsame : { s.thread t with process := none } = s.thread t := by rw [← hp]
    rw [hsame, update_eq_self]
  | some p => rfl

theorem inRing_congr (hnext : s'.next = s.next) (hcurrent : s'.current = s.current)
    (htid : s'.nextTid = s.nextTid) (t : Tid) :
    s'.threadInSchedulerRing t = s.threadInSchedulerRing t := by
  rw [threadInSchedulerRing, threadInSchedulerRing, lap, lap, hnext, hcurrent, htid]

theorem modify_next (hf : (f (s.thread t)).next = (s.thread t).next) :
    (s.modify t f).next = s.next := funext (modify_proj Thread.next hf)

theorem freeThreadPages_frame (s : System) (t : Tid) :
    ∃ es, s.freeThreadPages t = { s with
      thread := update s.thread t (s.thread t).withoutPages
      log := es ++ s.log } ∧ FreesNow s t es := by
  have hring : (s.modify t Thread.withoutPages).threadInSchedulerRing t =
      s.threadInSchedulerRing t := inRing_congr (modify_next rfl) rfl rfl t
  have hnow : ∀ es, FreesNow (s.modify t Thread.withoutPages) t es → FreesNow s t es := by
    intro es hes
    rw [FreesNow, hring] at hes
    exact hes
  unfold freeThreadPages
  obtain ⟨es1, heq1, hes1⟩ := freePage_frame (s.modify t Thread.withoutPages) t .kernelStack
    (s.thread t).stackPage
  obtain ⟨es2, heq2, hes2⟩ := freePage_frame
    { s.modify t Thread.withoutPages with log := es1 ++ s.log } t .object (s.thread t).objectPage
  have hes2 : FreesNow (s.modify t Thread.withoutPages) t es2 := hes2
  refine ⟨es2 ++ es1, ?_, (hnow es2 hes2).append (hnow es1 hes1)⟩
  dsimp only
  rw [heq1, append_assoc]
  exact heq2

theorem releaseThread_frame (s : System) (t : Tid) :
    ∃ m es, s.releaseThread t = { s with
      thread := update s.thread t (Thread.released (s.thread t))
      proc := s.procWithout t, mapped := m, log := es ++ s.log } ∧ FreesNow s t es := by
  obtain ⟨m, es, heq, hes⟩ := unmapThreadPages_frame s t
  have hwithout : procWithout { s with mapped := m, log := es ++ s.log } t = s.procWithout t := rfl
  rw [releaseThread, heq, unlinkThread_eq, hwithout]
  obtain ⟨es', heq', hes'⟩ := freeThreadPages_frame { s with
    thread := update s.thread t { s.thread t with process := none }
    proc := s.procWithout t, mapped := m, log := es ++ s.log } t
  have hnext : System.next { s with
      thread := update s.thread t { s.thread t with process := none }
      proc := s.procWithout t, mapped := m, log := es ++ s.log } = s.next :=
    modify_next (s := s) (f := fun r => { r with process := none }) rfl
  have hnow : FreesNow s t es' := by
    have hring := inRing_congr (s := s) hnext rfl rfl t
    rw [FreesNow, hring] at hes'
    exact hes'
  refine ⟨m, es' ++ es, ?_, hnow.append hes⟩
  dsimp only at heq' ⊢
  rw [heq', append_assoc, update_self, update_idem]
  rfl

section release

variable (s : System) (t : Tid)

theorem releaseThread_thread :
    (s.releaseThread t).thread = update s.thread t (Thread.released (s.thread t)) := by
  obtain ⟨m, es, heq, -⟩ := releaseThread_frame s t
  rw [heq]

theorem releaseThread_proc : (s.releaseThread t).proc = s.procWithout t := by
  obtain ⟨m, es, heq, -⟩ := releaseThread_frame s t
  rw [heq]

@[simp] theorem releaseThread_current : (s.releaseThread t).current = s.current := by
  obtain ⟨m, es, heq, -⟩ := releaseThread_frame s t
  rw [heq]

@[simp] theorem releaseThread_nextTid : (s.releaseThread t).nextTid = s.nextTid := by
  obtain ⟨m, es, heq, -⟩ := releaseThread_frame s t
  rw [heq]

theorem releaseThread_log : ∃ es, (s.releaseThread t).log = es ++ s.log ∧ FreesNow s t es := by
  obtain ⟨m, es, heq, hes⟩ := releaseThread_frame s t
  exact ⟨es, by rw [heq], hes⟩

end release

section

variable (h : Ring s others)
include h

theorem Ring.releaseThread (ht : t ∉ s.current :: others) : Ring (s.releaseThread t) others := by
  have hne : ∀ u ∈ s.current :: others, (s.releaseThread t).thread u = s.thread u := by
    intro u hu
    have hut : u ≠ t := fun heq => ht (heq ▸ hu)
    rw [releaseThread_thread, update_of_ne hut]
  obtain ⟨es, hlog, -⟩ := releaseThread_log s t
  refine h.keep (releaseThread_current s t) (Nat.le_of_eq (releaseThread_nextTid s t).symm)
    ?_ ?_ ?_ ?_ ?_
  · exact fun u hu => by rw [next, hne u hu, next]
  · exact fun u hu => by rw [process, hne u hu, process]
  · exact fun u hu => by rw [hne u hu]; exact h.alive u hu
  · intro u hu
    rw [releaseThread_thread] at hu
    rcases eq_or_ne u t with rfl | hut
    · rw [update_self] at hu
      exact h.running u hu
    · rw [update_of_ne hut] at hu
      exact h.running u hu
  · exact fun u hu => by rw [hlog]; exact mem_append_right es hu

theorem Ring.not_mem_erase (ht : t ≠ s.current) : t ∉ s.current :: others.erase t := by
  rintro hmem
  rcases mem_cons.mp hmem with heq | hmem
  · exact ht heq
  · exact (nodup_cons.mp h.nodup).2.not_mem_erase hmem

theorem Ring.remove_leads (ht : t ≠ s.current) :
    Leads (s.threadRemoveFromScheduler t).next s.current s.current (others.erase t) := by
  by_cases hmem : t ∈ others
  · obtain ⟨l, r, rfl⟩ := append_of_mem hmem
    have htl : t ∉ l := fun htl =>
      (nodup_append'.mp (nodup_cons.mp h.nodup).2).2.2 htl mem_cons_self
    rw [erase_append_right _ htl, erase_cons_head, h.remove_mem]
    have hlast : last s.current l ≠ t := fun heq => by
      rcases mem_cons.mp (heq ▸ last_mem : t ∈ s.current :: l) with hc | hl
      · exact ht hc
      · exact htl hl
    refine h.leads.remove h.nodup ?_ fun z hz hne => ?_
    · rw [next, modify_of_ne _ _ hlast, modify_self]
    · have hzt : z ≠ t := by
        rintro rfl
        have := h.not_mem_erase ht
        rw [erase_append_right _ htl, erase_cons_head] at this
        exact this hz
      rw [next, modify_of_ne _ _ hzt, modify_of_ne _ _ hne, next]
  · rw [h.remove_not_mem hmem, erase_of_not_mem hmem]
    exact h.leads

theorem Ring.remove (ht : t ≠ s.current) :
    Ring (s.threadRemoveFromScheduler t) (others.erase t) := by
  have hleads := h.remove_leads ht
  have hthread := remove_thread s t
  have hsub : ∀ u ∈ s.current :: others.erase t, u ∈ s.current :: others := fun u hu =>
    (erase_sublist.cons_cons s.current).subset hu
  obtain ⟨f, hf⟩ := remove_frame s t
  rw [hf] at hleads hthread ⊢
  refine .of_each rfl hleads (h.nodup.sublist (erase_sublist.cons_cons s.current))
    (fun u hu => ?_) fun u hu => ?_
  · obtain ⟨n, hn⟩ := hthread u
    have hold := hsub u hu
    rw [process, hn]
    exact ⟨h.bound u hold, h.held u hold, h.alive u hold, h.appended u hold⟩
  · obtain ⟨n, hn⟩ := hthread u
    rw [hn] at hu
    exact h.running u hu

/-- A thread out of the ring and dead, not yet freed. -/
def removed (s : System) (t : Tid) (l : Lifecycle) : System :=
  (s.threadRemoveFromScheduler t).modify t fun r => { r with status := .dead, lifecycle := l }

def retired (s : System) (t : Tid) (l : Lifecycle) : System := (s.removed t l).releaseThread t

omit h in
theorem remove_current (s : System) (t : Tid) :
    (s.threadRemoveFromScheduler t).current = s.current := by
  obtain ⟨f, hf⟩ := remove_frame s t
  rw [hf]

theorem Ring.removed (ht : t ≠ s.current) (l : Lifecycle) :
    Ring (s.removed t l) (others.erase t) := by
  refine (h.remove ht).modify rfl rfl (fun hmem => ?_) nofun
  rw [remove_current] at hmem
  exact absurd hmem (h.not_mem_erase ht)

/-- The assertions of `thread_free_object` hold for a thread that is not current. -/
theorem Ring.retire_eq (ht : t ≠ s.current) (l : Lifecycle) :
    s.retire t l = .ok (s.retired t l) := by
  have hring := h.removed ht l
  have hcurrent : (s.removed t l).current = s.current := remove_current s t
  have hnot : (s.removed t l).threadInSchedulerRing t = false :=
    hring.inRing_eq_false (hcurrent ▸ h.not_mem_erase ht)
  have hfree : (s.removed t l).threadFreeObject t = .ok ((s.removed t l).releaseThread t) := by
    simp [threadFreeObject, check, hcurrent, ht, hnot, bind, Except.bind]
  exact hfree

theorem Ring.retired (ht : t ≠ s.current) (l : Lifecycle) :
    Ring (s.retired t l) (others.erase t) := by
  refine (h.removed ht l).releaseThread ?_
  have hcurrent : (s.removed t l).current = s.current := remove_current s t
  exact hcurrent ▸ h.not_mem_erase ht

end

/-! ## What a release leaves -/

theorem removed_frame (s : System) (t : Tid) (l : Lifecycle) :
    ∃ f, s.removed t l = { s with thread := f } := by
  obtain ⟨f, hf⟩ := remove_frame s t
  exact ⟨_, by rw [removed, hf]; rfl⟩

@[simp] theorem retired_current (s : System) (t : Tid) (l : Lifecycle) :
    (s.retired t l).current = s.current := by
  obtain ⟨f, hf⟩ := removed_frame s t l
  rw [retired, releaseThread_current, hf]

@[simp] theorem retired_nextTid (s : System) (t : Tid) (l : Lifecycle) :
    (s.retired t l).nextTid = s.nextTid := by
  obtain ⟨f, hf⟩ := removed_frame s t l
  rw [retired, releaseThread_nextTid, hf]

theorem retired_log (s : System) (t : Tid) (l : Lifecycle) :
    ∃ es, (s.retired t l).log = es ++ s.log ∧ FreesNow (s.removed t l) t es := by
  obtain ⟨es, hlog, hes⟩ := releaseThread_log (s.removed t l) t
  obtain ⟨f, hf⟩ := removed_frame s t l
  exact ⟨es, by rw [retired, hlog, hf], hes⟩

theorem removed_self (s : System) (t : Tid) (l : Lifecycle) :
    ∃ n, (s.removed t l).thread t =
      { s.thread t with next := n, status := .dead, lifecycle := l } := by
  obtain ⟨n, hn⟩ := remove_thread s t t
  exact ⟨n, by rw [removed, modify_self, hn]⟩

theorem removed_of_ne (s : System) (l : Lifecycle) (h : u ≠ t) :
    ∃ n, (s.removed t l).thread u = { s.thread u with next := n } := by
  obtain ⟨n, hn⟩ := remove_thread s t u
  exact ⟨n, by rw [removed, modify_of_ne _ _ h, hn]⟩

theorem retired_self (s : System) (t : Tid) (l : Lifecycle) :
    ∃ n, (s.retired t l).thread t =
      Thread.released { s.thread t with next := n, status := .dead, lifecycle := l } := by
  obtain ⟨n, hn⟩ := removed_self s t l
  exact ⟨n, by rw [retired, releaseThread_thread, update_self, hn]⟩

theorem retired_of_ne (s : System) (l : Lifecycle) (h : u ≠ t) :
    ∃ n, (s.retired t l).thread u = { s.thread u with next := n } := by
  obtain ⟨n, hn⟩ := removed_of_ne s l h
  exact ⟨n, by rw [retired, releaseThread_thread, update_of_ne h, hn]⟩

theorem removed_process (s : System) (t u : Tid) (l : Lifecycle) :
    (s.removed t l).process u = s.process u := by
  rcases eq_or_ne u t with rfl | hne
  · obtain ⟨n, hn⟩ := removed_self s u l
    rw [process, hn, process]
  · obtain ⟨n, hn⟩ := removed_of_ne s l hne
    rw [process, hn, process]

theorem retired_proc (s : System) (t : Tid) (l : Lifecycle) :
    (s.retired t l).proc = s.procWithout t := by
  have hprocess := removed_process s t t l
  obtain ⟨f, hf⟩ := removed_frame s t l
  rw [retired, releaseThread_proc, procWithout, procWithout, hprocess, hf]

/-- The ring with every thread in it that was appended and not freed; no number at or above
`nextTid` is in use. -/
structure Formed (s : System) (others : List Tid) : Prop extends Ring s others where
  complete : Complete s others
  fresh : ∀ t, s.process t ≠ none → t < s.nextTid
  unused : ∀ t, .appended t ∈ s.log → t < s.nextTid

namespace Formed

variable (h : Formed s others)
include h

theorem retired (ht : t ≠ s.current) (l : Lifecycle) : Formed (s.retired t l) (others.erase t) := by
  obtain ⟨es, hlog, hes⟩ := retired_log s t l
  have hprocess : ∀ u, (s.retired t l).process u ≠ none → u ≠ t ∧ s.process u ≠ none := by
    intro u hu
    rcases eq_or_ne u t with rfl | hne
    · obtain ⟨n, hn⟩ := retired_self s u l
      rw [process, hn] at hu
      exact absurd rfl hu
    · obtain ⟨n, hn⟩ := retired_of_ne s l hne
      rw [process, hn] at hu
      exact ⟨hne, hu⟩
  have hold : ∀ u, .appended u ∈ (s.retired t l).log → .appended u ∈ s.log := fun u hu => by
    rw [hlog] at hu
    exact (mem_append.mp hu).resolve_left hes.not_appended
  refine ⟨h.toRing.retired ht l, fun u hu hsome => ?_, fun u hu => ?_, fun u hu => ?_⟩
  · obtain ⟨hne, hsome⟩ := hprocess u hsome
    rw [retired_current]
    rcases mem_cons.mp (h.complete u (hold u hu) hsome) with heq | hmem
    · exact heq ▸ mem_cons_self
    · exact mem_cons_of_mem _ ((mem_erase_of_ne hne).mpr hmem)
  · rw [retired_nextTid]
    exact h.fresh u (hprocess u hu).2
  · rw [retired_nextTid]
    exact h.unused u (hold u hu)

theorem of_ring (hring : Ring s' others)
    (hcurrent : s'.current = s.current) (htid : s'.nextTid = s.nextTid)
    (hprocess : ∀ t, s'.process t = s.process t)
    (hlog : ∀ t, .appended t ∈ s'.log → .appended t ∈ s.log) : Formed s' others := by
  refine ⟨hring, fun t ht hsome => ?_, fun t ht => ?_, fun t ht => ?_⟩
  · rw [hcurrent]
    exact h.complete t (hlog t ht) (hprocess t ▸ hsome)
  · rw [htid]
    exact h.fresh t (hprocess t ▸ ht)
  · rw [htid]
    exact h.unused t (hlog t ht)

theorem frame (hthread : s'.thread = s.thread)
    (hcurrent : s'.current = s.current) (htid : s'.nextTid = s.nextTid)
    (hlog : ∀ t, .appended t ∈ s'.log ↔ .appended t ∈ s.log) : Formed s' others :=
  h.of_ring (h.toRing.frame hthread hcurrent htid fun t => (hlog t).mpr) hcurrent htid
    (fun t => by rw [process, hthread, process]) fun t => (hlog t).mp

section

variable (hnext : (f (s.thread t)).next = (s.thread t).next)
  (hprocess : (f (s.thread t)).process = (s.thread t).process)
include hnext hprocess

theorem modify (halive : t ∈ s.current :: others → (f (s.thread t)).status ≠ .dead)
    (hrunning : (f (s.thread t)).status = .running → t = s.current) :
    Formed (s.modify t f) others := by
  exact h.of_ring (h.toRing.modify hnext hprocess halive hrunning) rfl rfl
    (modify_proj Thread.process hprocess) fun _ hu => hu

theorem modify_plain (hstatus : (f (s.thread t)).status = (s.thread t).status) :
    Formed (s.modify t f) others :=
  h.modify hnext hprocess (fun ht => hstatus ▸ h.alive t ht) fun hrun =>
    h.running t (hstatus ▸ hrun)

end

theorem modifyProc (p : ProcId) (g : Process → Process) :
    Formed (s.modifyProc p g) others := h.frame rfl rfl rfl fun _ => Iff.rfl

theorem note {e : Event} (he : ∀ t, e ≠ .appended t) : Formed (s.note e) others := by
  refine h.frame rfl rfl rfl fun t => ?_
  rw [note_log, mem_cons]
  exact or_iff_right (he t).symm

end Formed

end System

end OrangeOs.Sched
