import OrangeOs.Sched.Lives

/-! # What reaping leaves safe

`Safe` is the ring, the pages, the claims and the exits of all threads, and the joiners that wait.
Wake-ups and switches are calm; the reapers of `schedule` and `process_wait` only free threads that
nobody waits for.
-/

namespace OrangeOs.Sched

open List

open Proc (ProcId kernelProcess Lifecycle)
open Ipc (Tid)

namespace System

variable {s s' : System} {others : List Tid} {t u : Tid} {p : ProcId}

structure Safe (s : System) : Prop where
  formed : ∃ others, Formed s others
  kept : Kept s
  live : Live s

def Ends (e : Exec) : Prop := ∃ s', e = .ok s' ∧ Safe s'

theorem Safe.ends (h : Safe s) : Ends (.ok s) := ⟨s, rfl, h⟩

/-! ## Calm calls -/

theorem Safe.calm (h : Safe s) (hformed : Formed s' others) (hcalm : Calm s s')
    (hlife : ∀ t, (s'.thread t).lifecycle = (s.thread t).lifecycle) : Safe s' :=
  ⟨⟨others, hformed⟩, h.kept.calm hcalm, h.live.calm hcalm hlife⟩

theorem calm_modify {f : Thread → Thread} (h : CalmThread (s.thread t) (f (s.thread t))) :
    Calm s (s.modify t f) := by
  refine ⟨fun u => ?_, fun _ => .refl _, rfl, rfl, rfl, [], rfl, nofun⟩
  rw [modify_thread]
  split
  next heq => exact heq ▸ h
  · exact .refl _

theorem calm_modifyProc {g : Process → Process} (h : CalmProcess (s.proc p) (g (s.proc p))) :
    Calm s (s.modifyProc p g) := by
  refine ⟨fun _ => .refl _, fun q => ?_, rfl, rfl, rfl, [], rfl, nofun⟩
  rw [modifyProc_proc]
  split
  next heq => exact heq ▸ h
  · exact .refl _

theorem calm_note {e : Event} (h : e.silent = true) : Calm s (s.note e) :=
  ⟨fun _ => .refl _, fun _ => .refl _, rfl, rfl, rfl, [e], rfl, fun _ he =>
    mem_singleton.mp he ▸ h⟩

/-- A status that is neither an end nor the start of one. -/
def Going (st : TaskStatus) : Prop := st ≠ .zombie ∧ st ≠ .dead

theorem calm_status {st : TaskStatus} (hold : Going (s.thread t).status) (hnew : Going st) :
    Calm s (s.modify t fun r => { r with status := st }) := by
  refine calm_modify ⟨rfl, fun page => by cases page <;> rfl, id, rfl, rfl, ?_, ?_⟩
  · exact iff_of_false hnew.1 hold.1
  · exact iff_of_false hnew.2 hold.2

theorem threadUnblock_calm (s : System) (t : Tid) : Calm s (s.threadUnblock t) := by
  unfold threadUnblock
  split
  case isFalse => exact Calm.refl s
  case isTrue hblocked =>
    refine calm_status ⟨?_, ?_⟩ ⟨nofun, nofun⟩
    · rw [hblocked]; exact nofun
    · rw [hblocked]; exact nofun

theorem threadUnblock_lifecycle (s : System) (t u : Tid) :
    ((s.threadUnblock t).thread u).lifecycle = (s.thread u).lifecycle := by
  unfold threadUnblock
  split
  case isFalse => rfl
  case isTrue => exact modify_proj Thread.lifecycle rfl u

theorem Safe.threadUnblock (h : Safe s) (t : Tid) : Safe (s.threadUnblock t) := by
  obtain ⟨others, hformed⟩ := h.formed
  exact h.calm (hformed.threadUnblock t) (threadUnblock_calm s t) (threadUnblock_lifecycle s t)

theorem Safe.unblockIfAny (h : Safe s) (o : Option Tid) : Safe (s.unblockIfAny o) := by
  cases o with
  | none => exact h
  | some t => exact h.threadUnblock t

theorem Safe.unblockAll (h : Safe s) (ts : List Tid) : Safe (ts.foldl System.threadUnblock s) := by
  induction ts generalizing s with
  | nil => exact h
  | cons t ts ih => exact ih (h.threadUnblock t)

theorem Safe.modifyProc (h : Safe s) {g : Process → Process}
    (hg : CalmProcess (s.proc p) (g (s.proc p))) : Safe (s.modifyProc p g) := by
  obtain ⟨others, hformed⟩ := h.formed
  exact h.calm (hformed.modifyProc p g) (calm_modifyProc hg) fun _ => rfl

theorem Safe.requestProcessTermination (h : Safe s) (p : ProcId) :
    Safe (s.requestProcessTermination p) := by
  unfold System.requestProcessTermination
  split
  · exact h
  · exact (h.modifyProc ⟨rfl, rfl, rfl⟩).unblockAll _

theorem going_of_runs (h : s.runs = true) : Going (s.thread s.current).status := by
  rcases of_decide_eq_true h with hrun | hready
  · rw [hrun]; exact ⟨nofun, nofun⟩
  · rw [hready]; exact ⟨nofun, nofun⟩

theorem Safe.threadBlock (h : Safe s) (hgoing : Going (s.thread s.current).status) :
    Safe s.threadBlock := by
  obtain ⟨others, hformed⟩ := h.formed
  exact h.calm hformed.threadBlock (calm_status hgoing ⟨nofun, nofun⟩)
    (modify_proj Thread.lifecycle rfl)

theorem threadAppend_calm (s : System) (t : Tid) : Calm s (s.threadAppend t) := by
  have hthread := Formed.threadAppend_thread s t
  have hframe : ∃ f es, s.threadAppend t = { s with thread := f, log := es ++ s.log } ∧
      ∀ e ∈ es, e.silent = true := by
    unfold System.threadAppend
    split
    · exact ⟨_, [], rfl, nofun⟩
    · exact ⟨_, [.appended t], rfl, fun e he => mem_singleton.mp he ▸ rfl⟩
  obtain ⟨f, es, heq, hes⟩ := hframe
  refine ⟨fun u => ?_, ?_, ?_, ?_, ?_, es, ?_, hes⟩
  · obtain ⟨n, hn⟩ := hthread u
    rw [hn]
    exact ⟨rfl, fun page => by cases page <;> rfl, id, rfl, rfl, Iff.rfl, Iff.rfl⟩
  all_goals rw [heq]
  · exact fun _ => .refl _

theorem Safe.threadAppend (h : Safe s) (ht : s.process t ≠ none) : Safe (s.threadAppend t) := by
  obtain ⟨others, hformed⟩ := h.formed
  obtain ⟨others', hformed'⟩ := hformed.threadAppend ht
  refine h.calm hformed' (threadAppend_calm s t) fun u => ?_
  obtain ⟨n, hn⟩ := Formed.threadAppend_thread s t u
  rw [hn]

/-! ## Reaping -/

theorem Safe.retired (h : Safe s) (ht : t ≠ s.current) (l : Lifecycle)
    (halone : ∀ j, (s.thread j).joining ≠ some t) : Safe (s.retired t l) := by
  obtain ⟨others, hformed⟩ := h.formed
  exact ⟨⟨_, hformed.retired ht l⟩, h.kept.retired hformed.toRing ht l, h.live.retired l halone⟩

theorem Safe.retire (h : Safe s) (ht : t ≠ s.current) (l : Lifecycle)
    (halone : ∀ j, (s.thread j).joining ≠ some t) : Ends (s.retire t l) := by
  obtain ⟨others, hformed⟩ := h.formed
  rw [hformed.toRing.retire_eq ht l]
  exact (h.retired ht l halone).ends

theorem Safe.reapKernelThread (h : Safe s) (halone : ∀ j, (s.thread j).joining ≠ some t) :
    Ends (s.reapKernelThread t) := by
  unfold System.reapKernelThread
  split
  · exact h.ends
  next hcond => exact h.retire (not_or.mp hcond).1 _ halone

/-- A process stops running; its last thread and its address space do not matter any more. -/
theorem Kept.endProcess (h : Kept s) (hkernel : p ≠ kernelProcess) {g : Process → Process}
    (hthreads : (g (s.proc p)).threads = (s.proc p).threads)
    (hcr3 : (g (s.proc p)).cr3 = (s.proc p).cr3) (hstate : (g (s.proc p)).state ≠ .running)
    (hlast : (s.proc p).threads.length ≤ 1) (hspace : (s.proc p).cr3 = false)
    (ps : List ProcId) : Kept { s.modifyProc p g with procs := ps } := by
  have hproc : ∀ q, ((s.modifyProc p g).proc q).threads = (s.proc q).threads ∧
      ((s.modifyProc p g).proc q).cr3 = (s.proc q).cr3 ∧
      (((s.modifyProc p g).proc q).state = .running → (s.proc q).state = .running) ∧
      (((s.modifyProc p g).proc q).state ≠ .running →
        (s.proc q).threads.length ≤ 1 ∧ (s.proc q).cr3 = false) := by
    intro q
    rw [modifyProc_proc]
    split
    next heq =>
      rw [heq]
      exact ⟨hthreads, hcr3, fun hrun => absurd hrun hstate, fun _ => ⟨hlast, hspace⟩⟩
    · exact ⟨rfl, rfl, id, (h.links.fine q).ended⟩
  refine h.frame ?_ ?_ (nil_append _).symm (forall_mem_nil _) (Nat.le_refl _)
    ⟨fun _ _ hj => hj, h.claims.unclaimed⟩
    ⟨fun t q ht hq hrun => ⟨ht, hq, (hproc q).2.2.1 hrun, rfl⟩, h.exits.unexited⟩
  · exact h.pages.frame (fun _ => ⟨rfl, fun _ => rfl⟩) rfl (fun q => (hproc q).2.1) rfl
      ⟨[], rfl, forall_mem_nil _⟩
  · refine h.links.frame (fun _ => rfl) (fun q => (hproc q).1) (fun q hq => ?_) ?_ rfl
    · show _ ∧ ((s.modifyProc p g).proc q).cr3 = false
      rw [(hproc q).2.1]
      exact (hproc q).2.2.2 hq
    · show ((s.modifyProc p g).proc kernelProcess).state = .running
      rw [modifyProc_of_ne _ _ (Ne.symm hkernel)]
      exact h.links.kernel

theorem Kept.running_of_two (h : Kept s) (htu : t ≠ u) (ht : s.process t = some p)
    (hu : s.process u = some p) : (s.proc p).state = .running := by
  by_contra hstate
  have hlen := h.links.last p hstate
  have hsub : [t, u] ⊆ (s.proc p).threads := by
    intro x hx
    rcases mem_cons.mp hx with rfl | hx
    · exact (h.links.linked x p).mpr ht
    · rw [mem_singleton.mp hx]
      exact (h.links.linked u p).mpr hu
  have hnodup : [t, u].Nodup := by simpa using htu
  have htwo := (hnodup.subperm hsub).length_le
  simp only [length_cons, length_nil] at htwo
  omega

theorem Safe.reapProcess (h : Safe s) (p : ProcId) : Ends (s.reapProcess p) := by
  cases ht : s.reapTarget p with
  | none =>
    rw [reapProcess_none ht]
    exact h.ends
  | some t =>
    obtain ⟨others, hformed⟩ := h.formed
    obtain ⟨heq, hformed'⟩ := hformed.reapProcess_some ht
    obtain ⟨hcurrent, -, hprocess, -, hlen, hkernel, hstate⟩ := reapTarget_spec ht
    have hdead : (s.proc p).state ≠ .running := by rw [hstate]; decide
    have hcr3 := h.kept.links.spaceless p hdead
    have hspace : s.releaseProcessAddressSpace p =
        s.modifyProc p fun r => { r with cr3 := false } := by
      rw [releaseProcessAddressSpace, if_neg (by simp [hcr3])]
    have hsafe : Safe (s.releaseProcessAddressSpace p) := by
      rw [hspace]
      exact h.modifyProc ⟨rfl, rfl, hcr3.symm⟩
    have halone : ∀ j, ((s.releaseProcessAddressSpace p).thread j).joining ≠ some t := by
      intro j hj
      rw [releaseSpace_thread] at hj
      obtain ⟨hne, q, hjq, htq, -⟩ := h.live.awaited j t hj
      rw [hprocess] at htq
      cases htq
      exact hdead (h.kept.running_of_two hne hjq hprocess)
    have hretired := hsafe.retired (releaseSpace_current s p ▸ hcurrent) (s.thread t).lifecycle
      halone
    refine ⟨s.reaped p t, heq, ⟨_, hformed'⟩, ?_, ?_⟩
    · have hproc : ((s.releaseProcessAddressSpace p).retired t (s.thread t).lifecycle).proc p =
          (s.releaseProcessAddressSpace p).procWithout t p := by rw [retired_proc]
      refine hretired.kept.endProcess (p := p) hkernel rfl rfl (fun heq => by cases heq) ?_ ?_ _
      · rw [hproc]
        refine Nat.le_trans (procWithout_sublist _ t p).length_le ?_
        rw [releaseSpace_proc, modifyProc_self]
        exact hlen.le
      · rw [hproc, procWithout_cr3, releaseSpace_proc, modifyProc_self]
    · refine hretired.live.frame (fun _ => rfl) (fun _ => rfl) (fun q hq => ?_) fun _ _ _ hl => hl
      rcases eq_or_ne q p with rfl | hne
      · rw [reaped_state] at hq
        cases hq
      · rw [reaped, freeProcess_proc, modifyProc_of_ne _ _ hne] at hq ⊢
        exact ⟨hq, rfl⟩

theorem Safe.reapOrphans (h : Safe s) (ps : List ProcId) : Ends (ps.foldlM reapOrphan s) := by
  induction ps generalizing s with
  | nil => exact h.ends
  | cons p ps ih =>
    have hfirst : Ends (s.reapOrphan p) := by
      unfold System.reapOrphan
      split
      · exact h.reapProcess p
      · exact h.ends
    obtain ⟨s', heq, hsafe⟩ := hfirst
    rw [foldlM_cons, heq]
    exact ih hsafe

theorem Safe.reapScan (h : Safe s) (n : Nat) (scan : Tid) : Ends (System.reapScan n s scan) := by
  induction n generalizing s scan with
  | zero => exact h.ends
  | succ n ih =>
    rcases eq_or_ne scan s.current with rfl | hne
    · rw [reapScan_current]
      exact h.ends
    · have hround : Ends (if s.detachedZombie scan then s.retire scan .reaped else .ok s) := by
        split
        case isFalse => exact h.ends
        case isTrue hdetached =>
          refine h.retire hne _ fun j hj => ?_
          obtain ⟨-, p, -, -, hlife⟩ := h.live.awaited j scan hj
          rw [Joinable, (of_decide_eq_true hdetached).2] at hlife
          exact absurd hlife (by decide)
      obtain ⟨s', heq, hsafe⟩ := hround
      rw [reapScan_succ hne, heq]
      cases s.next scan with
      | none => exact hsafe.ends
      | some after => exact ih hsafe after

theorem Safe.reap (h : Safe s) : Ends (s.processReapOrphans.bind threadReapDetached) := by
  obtain ⟨s1, heq, hsafe⟩ := h.reapOrphans s.procs
  rw [processReapOrphans, heq]
  show Ends s1.threadReapDetached
  unfold threadReapDetached
  cases s1.next s1.current with
  | none => exact hsafe.ends
  | some scan => exact hsafe.reapScan s1.nextTid scan

def endState : Exec → System
  | .ok s => s
  | .error (_, s) => s

theorem Ends.safe {e : Exec} (h : Ends e) : Safe (endState e) := by
  obtain ⟨s', rfl, hsafe⟩ := h
  exact hsafe

theorem switchTo_calm (s : System) (hready : (s.thread t).status = .ready) :
    Calm s (s.switchTo t) := by
  refine ⟨fun u => ?_, fun _ => .refl _, rfl, rfl, rfl, [], rfl, nofun⟩
  have hstatus : ∀ st : TaskStatus, st ≠ .ready → st ≠ .running →
      (((s.switchTo t).thread u).status = st ↔ (s.thread u).status = st) := by
    intro st hst hst'
    rw [switchTo_thread]
    split
    next heq => rw [heq, hready]; exact iff_of_false hst'.symm hst.symm
    · split
      next hrun => rw [hrun.2]; exact iff_of_false hst.symm hst'.symm
      · exact Iff.rfl
  have hzombie := hstatus .zombie nofun nofun
  have hdead := hstatus .dead nofun nofun
  rw [switchTo_thread] at hzombie hdead ⊢
  exact ⟨rfl, fun page => by cases page <;> rfl, id, rfl, rfl, hzombie, hdead⟩

/-- The current thread, or one found in the ring, is switched to if it is ready. -/
theorem Safe.select (h : Safe s) (hformed : ∀ s', s.select = .ok s' → ∃ others, Formed s' others) :
    Safe (endState s.select) := by
  have hcases : s.select = .ok s ∨ s.select = .error (.nextReady, s) ∨
      ∃ t, (s.thread t).status = .ready ∧ s.select = .ok (s.switchTo t) := by
    unfold System.select
    cases (s.next s.current).bind (s.pick s.nextTid) with
    | none => exact .inl rfl
    | some t =>
      by_cases hready : (s.thread t).status = .ready
      · exact .inr (.inr ⟨t, hready, by simp [check, hready, Except.bind]⟩)
      · exact .inr (.inl (by simp [check, hready, Except.bind]))
  rcases hcases with heq | heq | ⟨t, hready, heq⟩
  · rw [heq]; exact h
  · rw [heq]; exact h
  · have hcalm := switchTo_calm s hready
    have hring := hformed _ heq
    rw [heq]
    have hlife : ∀ u, ((s.switchTo t).thread u).lifecycle = (s.thread u).lifecycle := fun u => by
      rw [switchTo_thread]
    exact ⟨hring, h.kept.calm hcalm, h.live.calm hcalm hlife⟩

theorem Safe.schedule (h : Safe s) : Safe (endState s.schedule) := by
  obtain ⟨others, hformed⟩ := h.formed
  rcases eq_or_ne others [] with rfl | hne
  · have hnext : s.next s.current = some s.current := hformed.leads
    rw [System.schedule, if_pos hnext]
    exact h
  · have hschedule := hformed.schedule_eq_select hne
    by_cases hsize : others.length + 1 < 4096
    · obtain ⟨s1, hreap, hsafe⟩ := h.reap
      rw [if_pos hsize, hreap] at hschedule
      have hselect : s.schedule = s1.select := hschedule
      rw [hselect]
      refine hsafe.select fun s' hok => ?_
      cases hformed.scheduled with
      | switched s'' others' hok' _ hformed' _ =>
        rw [hselect, hok] at hok'
        exact ⟨others', Except.ok.inj hok' ▸ hformed'⟩
      | crowded hbig => exact absurd hsize (Nat.not_lt.mpr hbig)
      | stranded _ _ _ herror => rw [hselect, hok] at herror; cases herror
    · rw [hschedule, if_neg hsize]
      exact h

end System

end OrangeOs.Sched
