import OrangeOs.Sched.Schedule

/-! # New threads and wake-ups in the ring

What wake-ups, blocking, new threads and `thread_append` make of the ring.
-/

namespace OrangeOs.Sched

open Proc (ProcId)
open Ipc (Tid)
open Cycles List

namespace System

variable {s : System} {others : List Tid} {t : Tid} {p : ProcId}

theorem threadAlloc_self (s : System) (p : ProcId) :
    (s.threadAllocForProcess p).thread s.nextTid = newThread p :=
  modify_self s s.nextTid fun _ => newThread p

theorem threadAlloc_of_ne (s : System) (p : ProcId) (ht : t ≠ s.nextTid) :
    (s.threadAllocForProcess p).thread t = s.thread t :=
  modify_of_ne s (fun _ => newThread p) ht

namespace Formed

/-! ## Status -/

variable (h : Formed s others)
include h

theorem threadUnblock (t : Tid) : Formed (s.threadUnblock t) others := by
  unfold System.threadUnblock
  split
  · exact h.modify rfl rfl (fun _ => nofun) nofun
  · exact h

theorem threadBlock : Formed s.threadBlock others :=
  h.modify rfl rfl (fun _ => nofun) nofun

theorem claim (t : Tid) : Formed (s.claim t) others :=
  h.modify_plain rfl rfl rfl

/-! ## New threads -/

theorem not_nextTid (ht : t ∈ s.current :: others) : t ≠ s.nextTid :=
  Nat.ne_of_lt (h.bound t ht)

theorem threadAllocForProcess (p : ProcId) : Formed (s.threadAllocForProcess p) others := by
  have hother := fun u => threadAlloc_of_ne (t := u) s p
  have hlog : ∀ u, .appended u ∈ (s.threadAllocForProcess p).log ↔ .appended u ∈ s.log := fun u => by
    show _ ∈ Event.alloc s.nextTid .kernelStack :: Event.alloc s.nextTid .object :: s.log ↔ _
    simp
  have hring : Ring (s.threadAllocForProcess p) others := by
    refine h.toRing.keep rfl (Nat.le_succ _) ?_ ?_ ?_ ?_ fun u => (hlog u).mpr
    · exact fun u hu => by rw [next, hother u (h.not_nextTid hu), next]
    · exact fun u hu => by rw [process, hother u (h.not_nextTid hu), process]
    · exact fun u hu => by rw [hother u (h.not_nextTid hu)]; exact h.alive u hu
    · intro u hu
      rcases eq_or_ne u s.nextTid with rfl | hne
      · cases (threadAlloc_self s p ▸ hu : (newThread p).status = .running)
      · exact h.running u (hother u hne ▸ hu)
  refine ⟨hring, fun u hu hsome => ?_, fun u hu => ?_, fun u hu => ?_⟩
  · have hold := (hlog u).mp hu
    rw [process, hother u (Nat.ne_of_lt (h.unused u hold))] at hsome
    exact h.complete u hold hsome
  · rcases eq_or_ne u s.nextTid with rfl | hne
    · exact Nat.lt_succ_self _
    · rw [process, hother u hne] at hu
      exact Nat.lt_succ_of_lt (h.fresh u hu)
  · exact Nat.lt_succ_of_lt (h.unused u ((hlog u).mp hu))

theorem mapUserPage (p : ProcId) (t : Tid) (page : Page) : Formed (s.mapUserPage p t page) others :=
  (h.note (e := .alloc t page) nofun).frame rfl rfl rfl fun _ => Iff.rfl

/-! ## Insertion -/

theorem tail_eq : s.lap.getLast?.getD s.current = last s.current others := by
  rw [h.toRing.lap_eq, getLast?_cons]
  rfl

theorem threadAppend_eq (hready : (s.thread t).status = .ready)
    (hnot : t ∉ s.current :: others) : s.threadAppend t =
      ((s.modify (last s.current others) fun r => { r with next := some t }).modify t
        fun r => { r with next := some s.current }).note (.appended t) := by
  have hreject : ¬ ((s.thread t).status ≠ .ready ∨ s.threadInSchedulerRing t = true) := by
    rw [h.toRing.inRing_eq_false hnot]
    simp [hready]
  rw [System.threadAppend, if_neg hreject, h.tail_eq]
  rfl

omit h in
theorem threadAppend_thread (s : System) (t u : Tid) :
    ∃ n, (s.threadAppend t).thread u = { s.thread u with next := n } := by
  unfold System.threadAppend
  split
  · exact ⟨_, rfl⟩
  · simp only [note_thread, modify_thread]
    split
    next hu =>
      rw [hu]
      split
      next hp => exact ⟨_, by rw [← hp]⟩
      · exact ⟨_, rfl⟩
    · split
      next hp => exact ⟨_, by rw [hp]⟩
      · exact ⟨_, rfl⟩

omit h in
theorem threadAppend_frame (s : System) (t : Tid) :
    (s.threadAppend t).current = s.current ∧ (s.threadAppend t).proc = s.proc := by
  unfold System.threadAppend
  split
  · exact ⟨rfl, rfl⟩
  · exact ⟨rfl, rfl⟩

theorem threadAppend_new (hsome : s.process t ≠ none)
    (hready : (s.thread t).status = .ready) (hnot : t ∉ s.current :: others) :
    Formed (s.threadAppend t) (others ++ [t]) := by
  have hfields := threadAppend_thread s t
  have heq := h.threadAppend_eq hready hnot
  have hcurrent : (s.threadAppend t).current = s.current := by rw [heq]; rfl
  have htid : (s.threadAppend t).nextTid = s.nextTid := by rw [heq]; rfl
  have hlog : (s.threadAppend t).log = .appended t :: s.log := by rw [heq]; rfl
  have hprocess : ∀ u, (s.threadAppend t).process u = s.process u := fun u => by
    obtain ⟨n, hn⟩ := hfields u
    rw [process, hn, process]
  have hstatus : ∀ u, ((s.threadAppend t).thread u).status = (s.thread u).status := fun u => by
    obtain ⟨n, hn⟩ := hfields u
    rw [hn]
  have hmem : ∀ u, u ∈ s.current :: (others ++ [t]) ↔ u ∈ s.current :: others ∨ u = t := fun u => by
    simp [or_assoc]
  have hlast : last s.current others ≠ t := fun heq => hnot (heq ▸ last_mem)
  have hleads : Leads (s.threadAppend t).next s.current s.current (others ++ [t]) := by
    rw [heq]
    refine h.leads.snoc h.nodup ?_ ?_ fun z hz hzl => ?_
    · rw [next, note_thread, modify_of_ne _ _ hlast, modify_self]
    · rw [next, note_thread, modify_self]
    · have hzt : z ≠ t := fun heq => hnot (heq ▸ hz)
      rw [next, note_thread, modify_of_ne _ _ hzt, modify_of_ne _ _ hzl, next]
  refine ⟨.of_each hcurrent hleads ?_ (fun u hu => ?_) fun u hu => ?_, fun u hu hheld => ?_,
    fun u hu => ?_, fun u hu => ?_⟩
  · rw [← cons_append, nodup_append']
    exact ⟨h.nodup, nodup_singleton t, disjoint_singleton.mpr hnot⟩
  · rw [htid, hprocess, hstatus, hlog]
    rcases (hmem u).mp hu with hu | rfl
    · exact ⟨h.bound u hu, h.held u hu, h.alive u hu, mem_cons_of_mem _ (h.appended u hu)⟩
    · exact ⟨h.fresh u hsome, hsome, by rw [hready]; decide, mem_cons_self⟩
  · exact h.running u (hstatus u ▸ hu)
  · rw [hlog] at hu
    rw [hprocess] at hheld
    rw [hcurrent, hmem]
    rcases mem_cons.mp hu with heq | hold
    · exact .inr (Event.appended.inj heq)
    · exact .inl (h.complete u hold hheld)
  · rw [hprocess] at hu
    rw [htid]
    exact h.fresh u hu
  · rw [hlog] at hu
    rw [htid]
    rcases mem_cons.mp hu with heq | hold
    · exact Event.appended.inj heq ▸ h.fresh t hsome
    · exact h.unused u hold

theorem threadAppend (hsome : s.process t ≠ none) :
    ∃ others', Formed (s.threadAppend t) others' := by
  by_cases hreject : (s.thread t).status ≠ .ready ∨ s.threadInSchedulerRing t = true
  · refine ⟨others, ?_⟩
    rw [System.threadAppend, if_pos hreject]
    exact h
  · obtain ⟨hready, hnot⟩ := not_or.mp hreject
    rw [h.toRing.inRing_iff] at hnot
    exact ⟨_, h.threadAppend_new hsome (not_not.mp hready) hnot⟩

end Formed

theorem current_not_other (s : System) (p : ProcId) : (s.beginExit p).current ∉
    ((s.beginExit p).proc p).threads.filter fun t => t ≠ (s.beginExit p).current := by
  simp

theorem formed_boot : Formed boot [] := by
  have hzero : ∀ t, boot.process t ≠ none → t = 0 := fun t ht => by
    by_contra hne
    exact ht (by simp [process, boot, hne, noThread])
  constructor
  case toRing =>
    refine .of_each (c := 0) rfl rfl (nodup_singleton 0) (fun t ht => ?_) fun t ht => ?_
    · rw [mem_singleton.mp ht]
      exact ⟨by decide, by decide, by decide, mem_cons_self⟩
    · by_contra hne
      simp [boot, hne, noThread] at ht
  case complete => exact fun t _ ht => mem_singleton.mpr (hzero t ht)
  case fresh => exact fun t ht => hzero t ht ▸ Nat.one_pos
  case unused =>
    intro t ht
    have hmem : t = 0 := by simpa [boot] using ht
    exact hmem ▸ Nat.one_pos

end System

end OrangeOs.Sched
