import OrangeOs.Sched.Ring

/-! # The reapers

`schedule` first lets `process_reap_orphans` and `thread_reap_detached` free threads. Together they
take exactly the `reapable` threads out of the ring and leave the others as they are but for
their pointers.
-/

namespace OrangeOs.Sched

open Proc (ProcId kernelProcess Lifecycle)
open Ipc (Tid)
open Cycles List

variable {gone gone' : Tid → Bool} {scan : Tid}

namespace System

variable {s s' s1 s2 : System} {others : List Tid} {t u : Tid} {p q : ProcId}

/-! ## Frames -/

theorem releaseSpace_frame (s : System) (p : ProcId) :
    ∃ m es, s.releaseProcessAddressSpace p =
      { s.modifyProc p fun r => { r with cr3 := false } with mapped := m, log := es ++ s.log } ∧
      ∀ u, .appended u ∉ es := by
  unfold releaseProcessAddressSpace
  split
  case isFalse => exact ⟨_, [], rfl, fun _ => not_mem_nil⟩
  case isTrue =>
    refine ⟨_, _, rfl, fun u hu => ?_⟩
    obtain ⟨m, -, hm⟩ := mem_map.mp hu
    cases hm

theorem Formed.releaseSpace (h : Formed s others) (p : ProcId) :
    Formed (s.releaseProcessAddressSpace p) others := by
  obtain ⟨m, es, heq, hes⟩ := releaseSpace_frame s p
  rw [heq]
  refine h.frame rfl rfl rfl fun t => ?_
  simp [hes t]

@[simp] theorem releaseSpace_thread (s : System) (p : ProcId) :
    (s.releaseProcessAddressSpace p).thread = s.thread := by
  obtain ⟨m, es, heq, -⟩ := releaseSpace_frame s p
  rw [heq]
  rfl

@[simp] theorem releaseSpace_current (s : System) (p : ProcId) :
    (s.releaseProcessAddressSpace p).current = s.current := by
  obtain ⟨m, es, heq, -⟩ := releaseSpace_frame s p
  rw [heq]
  rfl

@[simp] theorem releaseSpace_nextTid (s : System) (p : ProcId) :
    (s.releaseProcessAddressSpace p).nextTid = s.nextTid := by
  obtain ⟨m, es, heq, -⟩ := releaseSpace_frame s p
  rw [heq]
  rfl

theorem releaseSpace_proc (s : System) (p : ProcId) : (s.releaseProcessAddressSpace p).proc =
      (s.modifyProc p fun r => { r with cr3 := false }).proc := by
  obtain ⟨m, es, heq, -⟩ := releaseSpace_frame s p
  rw [heq]

/-! ## One process -/

theorem freeProcess_proc (s : System) (p : ProcId) : (s.freeProcess p).proc =
    (s.modifyProc p fun r => { r with parent := none, state := .dead }).proc := rfl

/-- A zombie process and its last thread, freed. -/
def reaped (s : System) (p : ProcId) (t : Tid) : System :=
  ((s.releaseProcessAddressSpace p).retired t (s.thread t).lifecycle).freeProcess p

theorem reapTarget_spec (h : s.reapTarget p = some t) :
    t ≠ s.current ∧ (s.thread t).status = .zombie ∧ s.process t = some p ∧
      (s.proc p).mainThread = some t ∧ (s.proc p).threads.length = 1 ∧ p ≠ kernelProcess ∧
      (s.proc p).state = .zombie := by
  unfold reapTarget at h
  cases hmain : (s.proc p).mainThread with
  | none => rw [hmain] at h; cases h
  | some m =>
    rw [hmain] at h
    dsimp only at h
    split at h
    case isFalse => cases h
    case isTrue htests =>
      cases h
      obtain ⟨hkernel, hstate, hcurrent, hstatus, hsingle⟩ := htests
      rw [processIsSingleThreaded, hmain] at hsingle
      obtain ⟨hlen, hprocess⟩ := of_decide_eq_true hsingle
      exact ⟨hcurrent, hstatus, hprocess, rfl, hlen, hkernel, hstate⟩

theorem Formed.reapProcess_some (h : Formed s others) (ht : s.reapTarget p = some t) :
    s.reapProcess p = .ok (s.reaped p t) ∧ Formed (s.reaped p t) (others.erase t) := by
  have hcurrent : t ≠ (s.releaseProcessAddressSpace p).current := by
    rw [releaseSpace_current]
    exact (reapTarget_spec ht).1
  have hspace := h.releaseSpace p
  constructor
  · simp only [reapProcess, ht, releaseSpace_thread]
    rw [hspace.toRing.retire_eq hcurrent]
    rfl
  · exact (hspace.retired hcurrent _).frame rfl rfl rfl fun _ => Iff.rfl

theorem reapProcess_none (h : s.reapTarget p = none) : s.reapProcess p = .ok s := by
  simp only [reapProcess, h]

@[simp] theorem reaped_current (s : System) (p : ProcId) (t : Tid) :
    (s.reaped p t).current = s.current := by
  show ((s.releaseProcessAddressSpace p).retired t (s.thread t).lifecycle).current = s.current
  rw [retired_current, releaseSpace_current]

theorem reaped_nextTid (s : System) (p : ProcId) (t : Tid) :
    (s.reaped p t).nextTid = s.nextTid := by
  show ((s.releaseProcessAddressSpace p).retired t (s.thread t).lifecycle).nextTid = s.nextTid
  rw [retired_nextTid, releaseSpace_nextTid]

theorem reaped_of_ne (s : System) (p : ProcId) (h : u ≠ t) :
    ∃ n, (s.reaped p t).thread u = { s.thread u with next := n } := by
  obtain ⟨n, hn⟩ := retired_of_ne (s.releaseProcessAddressSpace p) (s.thread t).lifecycle h
  rw [releaseSpace_thread] at hn
  exact ⟨n, hn⟩

theorem reaped_process_self (s : System) (p : ProcId) (t : Tid) :
    (s.reaped p t).process t = none := by
  obtain ⟨n, hn⟩ := retired_self (s.releaseProcessAddressSpace p) t (s.thread t).lifecycle
  show (((s.releaseProcessAddressSpace p).retired t (s.thread t).lifecycle).thread t).process = none
  rw [hn]
  rfl

theorem reaped_proc (hp : s.process t = some p) (hq : q ≠ p) :
    (s.reaped p t).proc q = s.proc q := by
  have hprocess : (s.releaseProcessAddressSpace p).process t = some p := by
    rw [process, releaseSpace_thread]
    exact hp
  rw [reaped, freeProcess_proc, modifyProc_of_ne _ _ hq, retired_proc, procWithout, hprocess]
  dsimp only
  rw [Function.update_of_ne hq, releaseSpace_proc, modifyProc_of_ne _ _ hq]

theorem reaped_state (s : System) (p : ProcId) (t : Tid) : ((s.reaped p t).proc p).state = .dead := by
  rw [reaped, freeProcess_proc, modifyProc_self]

/-! ## Every orphan -/

/-- The thread `process_reap_orphans` frees when it comes to process `p`. -/
def orphanTarget (s : System) (p : ProcId) : Option Tid :=
  if p ≠ kernelProcess ∧ (s.proc p).parent = none ∧ (s.proc p).state = .zombie then s.reapTarget p
  else none

theorem reapTarget_of_orphanTarget (h : s.orphanTarget p = some t) : s.reapTarget p = some t := by
  unfold orphanTarget at h
  split at h
  · exact h
  · cases h

/-- `s'` is `s` without the threads in `gone`. -/
structure Swept (s s' : System) (gone : Tid → Bool) : Prop where
  current : s'.current = s.current
  nextTid : s'.nextTid = s.nextTid
  kept : ∀ t, gone t = false → ∃ n, s'.thread t = { s.thread t with next := n }

theorem Swept.refl (s : System) : Swept s s fun _ => false := ⟨rfl, rfl, fun _ _ => ⟨_, rfl⟩⟩

theorem Swept.trans (h : Swept s s1 gone) (h' : Swept s1 s2 gone') :
    Swept s s2 fun t => gone t || gone' t := by
  refine ⟨h'.current.trans h.current, h'.nextTid.trans h.nextTid, fun t ht => ?_⟩
  obtain ⟨hgone, hgone'⟩ := Bool.or_eq_false_iff.mp ht
  obtain ⟨n, hn⟩ := h.kept t hgone
  obtain ⟨n', hn'⟩ := h'.kept t hgone'
  exact ⟨n', by rw [hn', hn]⟩

theorem Swept.status (h : Swept s s' gone) (ht : gone t = false) :
    (s'.thread t).status = (s.thread t).status := by
  obtain ⟨n, hn⟩ := h.kept t ht
  rw [hn]

theorem Swept.lifecycle (h : Swept s s' gone) (ht : gone t = false) :
    (s'.thread t).lifecycle = (s.thread t).lifecycle := by
  obtain ⟨n, hn⟩ := h.kept t ht
  rw [hn]

/-- A reaper ends with the ring that is left. -/
def Sweeps (s : System) (e : Exec) (others : List Tid) (gone : Tid → Bool) : Prop :=
  ∃ s', e = .ok s' ∧ Swept s s' gone ∧ Formed s' (others.filter fun t => !gone t)

theorem Sweeps.trans {e : Exec} {f : System → Exec} (h : Sweeps s e others gone)
    (h' : ∀ s', e = .ok s' → Swept s s' gone → Formed s' (others.filter fun t => !gone t) →
      Sweeps s' (f s') (others.filter fun t => !gone t) gone') :
    Sweeps s (e.bind f) others fun t => gone t || gone' t := by
  obtain ⟨s1, rfl, hswept, hformed⟩ := h
  obtain ⟨s2, heq, hswept', hformed'⟩ := h' s1 rfl hswept hformed
  refine ⟨s2, heq, hswept.trans hswept', ?_⟩
  rw [filter_filter] at hformed'
  refine cast (congrArg _ (filter_congr fun t _ => ?_)) hformed'
  rw [Bool.not_or, Bool.and_comm]

theorem Sweeps.congr {e : Exec} (h : Sweeps s e others gone) (heq : ∀ t, gone t = gone' t) :
    Sweeps s e others gone' := (funext heq : gone = gone') ▸ h

theorem Formed.sweeps_nothing (h : Formed s others) : Sweeps s (.ok s) others fun _ => false := by
  refine ⟨s, rfl, Swept.refl s, ?_⟩
  simpa using h

theorem Formed.erase_filter (h : Formed s others) (hs : Formed s' (others.erase t)) :
    Formed s' (others.filter fun u => !decide (t = u)) := by
  rw [(nodup_cons.mp h.nodup).2.erase_eq_filter] at hs
  refine cast (congrArg _ (filter_congr fun u _ => ?_)) hs
  by_cases hu : u = t
  · simp [hu]
  · simp [hu, Ne.symm hu]

theorem Formed.reapOrphan_eq (h : Formed s others) (p : ProcId) :
    s.reapOrphan p = match s.orphanTarget p with
      | none => .ok s
      | some t => .ok (s.reaped p t) := by
  unfold reapOrphan orphanTarget
  split
  case isFalse => rfl
  case isTrue =>
    cases ht : s.reapTarget p with
    | none => exact reapProcess_none ht
    | some t => exact (h.reapProcess_some ht).1

theorem Formed.reapOrphan_sweeps (h : Formed s others) (p : ProcId) :
    Sweeps s (s.reapOrphan p) others fun t => decide (s.orphanTarget p = some t) := by
  rw [h.reapOrphan_eq p]
  cases ht : s.orphanTarget p with
  | none => exact h.sweeps_nothing.congr fun t => by simp
  | some t =>
    refine ⟨s.reaped p t, rfl, ⟨reaped_current s p t, reaped_nextTid s p t, fun u hu => ?_⟩, ?_⟩
    · refine reaped_of_ne s p fun heq => ?_
      simp [heq] at hu
    · have herase := (h.reapProcess_some (reapTarget_of_orphanTarget ht)).2
      simpa using h.erase_filter herase

theorem orphanTarget_reaped (ht : s.orphanTarget p = some t) (hq : q ≠ p) :
    (s.reaped p t).orphanTarget q = s.orphanTarget q := by
  have hp := (reapTarget_spec (reapTarget_of_orphanTarget ht)).2.2.1
  have hproc := reaped_proc hp hq
  unfold orphanTarget reapTarget processIsSingleThreaded
  rw [hproc, reaped_current]
  cases hmain : (s.proc q).mainThread with
  | none => rfl
  | some m =>
    rcases eq_or_ne m t with rfl | hne
    · -- the freed thread is not the other process's
      have hnone : ((s.reaped p m).thread m).process = none := reaped_process_self s p m
      have hsome : (s.thread m).process = some p := hp
      simp [hnone, hsome, Ne.symm hq]
    · obtain ⟨n, hn⟩ := reaped_of_ne s p hne
      simp only [hn]

theorem orphanTarget_reaped_self (s : System) (p : ProcId) (t : Tid) :
    (s.reaped p t).orphanTarget p = none := by
  rw [orphanTarget, reaped_state]
  simp

def orphanOf (s : System) (ps : List ProcId) (t : Tid) : Bool :=
  ps.any fun p => decide (s.orphanTarget p = some t)

theorem orphanOf_reaped (ht : s.orphanTarget p = some t) (ps : List ProcId) (u : Tid) :
    (decide (t = u) || (s.reaped p t).orphanOf ps u) = (decide (t = u) || s.orphanOf ps u) := by
  by_cases hu : t = u
  · simp [hu]
  · rw [decide_eq_false hu, Bool.false_or, Bool.false_or, orphanOf, orphanOf]
    have hsame : ∀ q, decide ((s.reaped p t).orphanTarget q = some u) =
        decide (s.orphanTarget q = some u) := by
      intro q
      rcases eq_or_ne q p with rfl | hq
      · rw [orphanTarget_reaped_self, ht]
        simp [hu]
      · rw [orphanTarget_reaped ht hq]
    exact congrArg ps.any (funext hsame)

theorem Formed.reapOrphans (h : Formed s others) (ps : List ProcId) :
    Sweeps s (ps.foldlM reapOrphan s) others (s.orphanOf ps) := by
  induction ps generalizing s others with
  | nil => exact h.sweeps_nothing
  | cons p ps ih =>
    rw [foldlM_cons]
    have hfirst := h.reapOrphan_sweeps p
    rw [h.reapOrphan_eq p] at hfirst ⊢
    cases ht : s.orphanTarget p with
    | none => exact (ih h).congr fun u => by simp [orphanOf, ht]
    | some t =>
      simp only [ht] at hfirst
      have hboth : Sweeps s (Except.bind (.ok (s.reaped p t)) fun s' => ps.foldlM reapOrphan s')
          others fun u => decide (some t = some u) || (s.reaped p t).orphanOf ps u := by
        refine hfirst.trans fun s' heq _ hformed => ?_
        cases heq
        exact ih hformed
      refine hboth.congr fun u => ?_
      simp only [Option.some.injEq]
      rw [orphanOf_reaped ht ps u]
      simp [orphanOf, ht]

/-! ## Detached threads -/

theorem retired_swept (s : System) (t : Tid) (l : Lifecycle) :
    Swept s (s.retired t l) fun u => decide (u = t) :=
  ⟨retired_current s t l, retired_nextTid s t l, fun _ hu =>
    retired_of_ne s l (of_decide_eq_false hu)⟩

theorem Swept.detachedZombie (h : Swept s s' gone) (ht : gone t = false) :
    s'.detachedZombie t = s.detachedZombie t := by
  rw [System.detachedZombie, System.detachedZombie, h.status ht, h.lifecycle ht]

theorem reapScan_current (n : Nat) (s : System) : reapScan n s s.current = .ok s := by
  cases n with
  | zero => rfl
  | succ n => rw [reapScan, if_pos rfl]

theorem reapScan_succ {n : Nat} (hne : scan ≠ s.current) : reapScan (n + 1) s scan =
    (if s.detachedZombie scan then s.retire scan .reaped else .ok s).bind fun s' =>
      match s.next scan with
      | none => .ok s'
      | some after => reapScan n s' after := by
  rw [reapScan, if_neg hne]
  split
  · rfl
  · rfl

theorem Formed.reap_scanned {l r : List Tid} (h : Formed s (l ++ scan :: r)) :
    ∃ s', (if s.detachedZombie scan then s.retire scan .reaped else .ok s) = .ok s' ∧
      Swept s s' (fun t => decide (t = scan) && s.detachedZombie scan) ∧
      Formed s' ((l ++ [scan].filter fun t => !s.detachedZombie t) ++ r) := by
  have hne : scan ≠ s.current := fun heq =>
    h.toRing.not_mem (heq ▸ mem_append_right l mem_cons_self)
  have hscan : scan ∉ l := fun hmem =>
    (nodup_append'.mp (nodup_cons.mp h.nodup).2).2.2 hmem mem_cons_self
  cases hdetached : s.detachedZombie scan with
  | false =>
    refine ⟨s, rfl, ?_, ?_⟩
    · simpa using Swept.refl s
    · simpa [hdetached] using h
  | true =>
    refine ⟨s.retired scan .reaped, h.toRing.retire_eq hne _, ?_, ?_⟩
    · simpa using retired_swept s scan .reaped
    · have herase := h.retired hne .reaped
      rw [erase_append_right _ hscan, erase_cons_head] at herase
      simpa [hdetached] using herase

/-- The loop from `scan` on, when the threads `l` before it have been looked at. -/
theorem Formed.reapScan_sweeps {l r : List Tid} {n : Nat} (h : Formed s (l ++ scan :: r))
    (hn : r.length < n) :
    ∃ s', reapScan n s scan = .ok s' ∧
      Swept s s' (fun t => decide (t ∈ scan :: r) && s.detachedZombie t) ∧
      Formed s' (l ++ (scan :: r).filter fun t => !s.detachedZombie t) := by
  induction r generalizing s l scan n with
  | nil =>
    obtain ⟨n, rfl⟩ := Nat.exists_eq_succ_of_ne_zero (Nat.ne_of_gt hn)
    have hne : scan ≠ s.current := fun heq =>
      h.toRing.not_mem (heq ▸ mem_append_right l mem_cons_self)
    have hnext : s.next scan = some s.current := (leads_append.mp h.leads).2
    obtain ⟨s1, heq, hswept, hformed⟩ := h.reap_scanned
    refine ⟨s1, ?_, ?_, by simpa using hformed⟩
    · rw [reapScan_succ hne, hnext, heq, ← hswept.current]
      exact reapScan_current n s1
    · refine cast (congrArg (Swept s s1) (funext fun t => ?_)) hswept
      by_cases ht : t = scan
      · simp [ht]
      · simp [ht]
  | cons y r ih =>
    obtain ⟨n, rfl⟩ := Nat.exists_eq_succ_of_ne_zero (Nat.ne_of_gt (Nat.zero_lt_of_lt hn))
    have hne : scan ≠ s.current := fun heq =>
      h.toRing.not_mem (heq ▸ mem_append_right l mem_cons_self)
    have hscan : scan ∉ y :: r :=
      (nodup_cons.mp (nodup_append'.mp (nodup_cons.mp h.nodup).2).2.1).1
    have hnext : s.next scan = some y := (leads_append.mp h.leads).2.1
    obtain ⟨s1, heq, hswept, hformed⟩ := h.reap_scanned
    obtain ⟨s2, heq2, hswept2, hformed2⟩ := ih hformed (Nat.lt_of_succ_lt_succ hn)
    have hsame : ∀ t ∈ y :: r, s1.detachedZombie t = s.detachedZombie t := fun t ht => by
      have hts : t ≠ scan := fun heq => hscan (heq ▸ ht)
      refine hswept.detachedZombie ?_
      simp [hts]
    refine ⟨s2, ?_, ?_, ?_⟩
    · rw [reapScan_succ hne, hnext, heq]
      exact heq2
    · refine cast (congrArg (Swept s s2) (funext fun t => ?_)) (hswept.trans hswept2)
      by_cases ht : t ∈ y :: r
      · have htne : t ≠ scan := fun heq => hscan (heq ▸ ht)
        rw [hsame t ht]
        simp [ht, htne]
      · by_cases hts : t = scan
        · simp [hts, hscan]
        · simp [ht, hts]
    · rw [filter_congr fun t ht => congrArg (!·) (hsame t ht)] at hformed2
      rw [append_assoc, ← filter_append] at hformed2
      exact hformed2

theorem Formed.reapDetached (h : Formed s others) :
    Sweeps s s.threadReapDetached others fun t => decide (t ∈ others) && s.detachedZombie t := by
  rw [threadReapDetached, h.toRing.next_current]
  cases others with
  | nil =>
    have hnothing : Sweeps s (reapScan s.nextTid s s.current) [] fun _ => false :=
      ⟨s, reapScan_current s.nextTid s, Swept.refl s, h⟩
    exact hnothing.congr fun t => by simp
  | cons scan r =>
    have hlen : r.length < s.nextTid :=
      Nat.lt_of_succ_lt h.toRing.length_lt
    have hformed : Formed s ([] ++ scan :: r) := h
    obtain ⟨s', heq, hswept, hformed'⟩ := hformed.reapScan_sweeps hlen
    refine ⟨s', heq, hswept, ?_⟩
    rw [nil_append] at hformed'
    refine cast (congrArg (Formed s') (filter_congr fun t ht => ?_)) hformed'
    dsimp only
    rw [decide_eq_true ht, Bool.true_and]

end System

end OrangeOs.Sched
