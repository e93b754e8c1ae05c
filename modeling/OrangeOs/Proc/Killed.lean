import OrangeOs.Lib.Machine
import OrangeOs.Proc.Moves

/-! # Processes with a pending kill

A kill makes every BLOCKED thread of its process ready. The messages, `futex_wait` and
`thread_sleep_ticks` then return. `process_wait`, `pipe_read`, `pipe_write`, `thread_join` and
`mutex_acquire` look again at what they wait for, and not at the kill.
-/

namespace OrangeOs.Proc

open Ipc Kernel

namespace Kernel

variable {β : Type} {k : Kernel β} {p : ProcId}

/-! ## Decidability -/

instance (k : Kernel β) (pid options : UInt32) : Decidable (k.childRuns pid options) :=
  match h : k.findChild pid with
  | none => isFalse fun ⟨_, hc, _⟩ => nomatch h.symm.trans hc
  | some c =>
    if hc : (k.proc c).state ≠ .zombie ∧ options &&& 1 = 0 then isTrue ⟨c, h, hc⟩
    else isFalse fun ⟨d, hd, hcond⟩ => by
      cases h.symm.trans hd
      exact hc hcond

instance (k : Kernel β) (i : Nat) : Decidable (k.readWaits i) :=
  inferInstanceAs (Decidable (_ ∧ _))

instance (k : Kernel β) (i : Nat) : Decidable (k.writeWaits i) :=
  inferInstanceAs (Decidable (_ ∧ _))

instance (k : Kernel β) (d : Tid) : Decidable (k.sendWaits d) :=
  inferInstanceAs (Decidable (_ ∧ _ ∧ _ ∧ _ ∧ _))

instance (k : Kernel β) (source : Int32) : Decidable (k.receiveWaits source) :=
  inferInstanceAs (Decidable (∀ t ∈ (k.ipc k.current).ipcSenders, _))

instance (k : Kernel β) (d : Doing) : Decidable (k.waitsAgain d) := by
  cases d <;> dsimp only [waitsAgain] <;> infer_instance

instance (k : Kernel β) (op : Op β) : Decidable (k.callWaits op) := by
  cases op <;> dsimp only [callWaits] <;> infer_instance

instance (k : Kernel β) (op : Op β) : Decidable (k.mustWait op) :=
  inferInstanceAs (Decidable (_ ∧ _ ∧ _ ∨ _ ∧ _))

/-! ## Kills -/

/-- The process that `request_process_termination` accepts to end, when it returns 0. -/
def killTarget (k : Kernel β) (pid : UInt32) (rejectCurrent : Bool) : Option ProcId :=
  match k.procs.find? fun p => (k.proc p).pid == pid with
  | none => none
  | some p =>
    if p = kernelProcess ∨ (k.proc p).state ≠ .running ∨
        (rejectCurrent = true ∧ k.processCurrent = some p) then none
    else some p

theorem killTarget_spec {pid : UInt32} {rejectCurrent : Bool}
    (h : k.killTarget pid rejectCurrent = some p) (status : Int) :
    p ∈ k.procs ∧
      ((k.requestProcessTermination pid status rejectCurrent).proc p).exitRequested = true := by
  unfold killTarget at h
  unfold requestProcessTermination
  cases hfind : k.procs.find? fun p => (k.proc p).pid == pid with
  | none =>
    rw [hfind] at h
    cases h
  | some q =>
    rw [hfind] at h
    dsimp only at h ⊢
    by_cases hreject : q = kernelProcess ∨ (k.proc q).state ≠ .running ∨
        (rejectCurrent = true ∧ k.processCurrent = some q)
    · rw [if_pos hreject] at h
      cases h
    · rw [if_neg hreject] at h
      cases h
      rw [if_neg hreject]
      refine ⟨List.mem_of_find?_eq_some hfind, ?_⟩
      generalize hk1 : (k.modifyProc p fun x =>
        { x with exitRequested := true, killStatus := status }) = k1
      have hg := (gentle_futexCancelProcess k1 p futexErrIntr).trans (gentle_foldl_unblock
        ((k1.futexCancelProcess p futexErrIntr).proc p).threads _)
      rw [hg.proc p, ← hk1, modifyProc_proc, if_pos rfl]

/-! ## Runs -/

/-- A thread of a process with a pending kill finds what it waits for, and makes no call that has
to wait. -/
def Unwinds (k : Kernel β) (op : Op β) : Prop := k.killPending = true → ¬ k.mustWait op

instance (k : Kernel β) (op : Op β) : Decidable (k.Unwinds op) :=
  inferInstanceAs (Decidable (_ → ¬ _))

/-- No thread is BLOCKED in a process with a pending kill. -/
structure Unstuck (k : Kernel β) : Prop where
  members : Members k
  nobody : ∀ t p, ¬ Stuck k t p

section Runs

variable [Inhabited β]

theorem Unstuck.step (h : Unstuck k) {op : Op β} (hok : k.Unwinds op) : Unstuck (k.step op) := by
  have hm : Moved (fun _ => True) (fun _ => False) (fun _ => True) k (k.step op) :=
    h.members.step (fun _ _ => trivial) (fun hw => free_of_not_pending fun hk => hok hk hw)
      fun _ _ _ => trivial
  exact ⟨hm.members, fun t p hst => h.nobody t p (hm.stuck t p not_false hst)⟩

theorem members_boot (address : UInt64) : Members (boot address : Kernel β) := by
  have hprocess : ∀ t p, ((boot address : Kernel β).task t).process = some p ↔ t = 0 ∧ p = 0 := by
    intro t p
    by_cases ht : t = 0
    · subst ht
      exact ⟨fun h => by cases h; exact ⟨rfl, rfl⟩, fun h => by rw [h.2]; rfl⟩
    · have hnone : ((boot address : Kernel β).task t).process = none := by
        dsimp only [boot]
        rw [if_neg ht]
        rfl
      rw [hnone]
      exact ⟨nofun, fun h => absurd h.1 ht⟩
  have hthreads : ∀ p, ((boot address : Kernel β).proc p).threads = if p = 0 then [0] else [] := by
    intro p
    by_cases hp : p = 0
    · subst hp
      rfl
    · dsimp only [boot]
      rw [if_neg hp, if_neg (show p ≠ kernelProcess from hp)]
      rfl
  constructor
  · intro t p
    rw [hprocess, hthreads]
    by_cases hp : p = 0
    · rw [if_pos hp, List.mem_singleton]
      exact ⟨fun h => ⟨h, hp⟩, fun h => h.1⟩
    · rw [if_neg hp]
      exact ⟨nofun, fun h => absurd h.2 hp⟩
  · intro p
    rw [hthreads]
    split
    · exact List.nodup_singleton 0
    · exact List.nodup_nil
  · intro t p h
    rw [((hprocess t p).mp h).1]
    exact Nat.zero_lt_one
  · intro t p h
    rw [((hprocess t p).mp h).2]
    exact Nat.zero_lt_one
  · intro p hp
    rw [List.mem_singleton.mp hp]
    exact Nat.zero_lt_one

theorem unstuck_boot (address : UInt64) : Unstuck (boot address : Kernel β) := by
  refine ⟨members_boot address, fun t p hst => ?_⟩
  have hready : (boot address : Kernel β).status t = .ready := by
    dsimp only [status, boot]
    split <;> rfl
  exact nomatch hready.symm.trans hst.blocked

theorem Unstuck.run {ops : List (Op β)} (h : Unstuck k)
    (hrun : Machine.Throughout Unwinds Kernel.step k ops) (hp : p < k.nextProc)
    (hkill : (k.proc p).exitRequested = true) :
    Unstuck (ops.foldl Kernel.step k) ∧ ((ops.foldl Kernel.step k).proc p).exitRequested = true := by
  have hall := hrun.invariant (fun k => Unstuck k ∧ p < k.nextProc ∧
    (k.proc p).exitRequested = true) (fun k op hk hok => ?_) ⟨h, hp, hkill⟩
  · exact ⟨hall.1, hall.2.2⟩
  · have hm : Moved (fun _ => True) (fun _ => False) (fun _ => True) k (k.step op) :=
      hk.1.members.step (fun _ _ => trivial) (fun hw => free_of_not_pending fun hk => hok hk hw)
        fun _ _ _ => trivial
    exact ⟨hk.1.step hok, Nat.lt_of_lt_of_le hk.2.1 hm.nextProc,
      hm.requested p hk.2.1 hk.2.2⟩

end Runs

/-! ## The calls that a kill interrupts -/

theorem enter_doing (k : Kernel β) (d : Doing) :
    ((k.enter d).task (k.enter d).current).doing = d := by
  unfold enter
  rw [modifyTask_task]
  exact congrArg Task.doing (if_pos rfl)

theorem joinLoop_returns {t : Tid} (h : ¬ k.status t ≠ .zombie) :
    ((k.joinLoop t).task (k.joinLoop t).current).doing = .user := by
  unfold joinLoop
  rw [if_neg h]
  exact enter_doing _ _

theorem waitRound_returns {pid options : UInt32} (h : ¬ k.childRuns pid options) :
    ((k.waitRound pid options).2.task (k.waitRound pid options).2.current).doing = .user := by
  unfold waitRound
  split
  · exact enter_doing _ _
  next c hc =>
    split
    · exact enter_doing _ _
    next hz =>
      split
      · exact enter_doing _ _
      next ho => exact absurd ⟨c, hc, hz, Classical.not_not.mp ho⟩ h

theorem pipeRead_returns {i n : Nat} (h : ¬ k.readWaits i) :
    ((k.pipeRead i n).2.task (k.pipeRead i n).2.current).doing = .user := by
  unfold pipeRead
  split
  · exact enter_doing _ _
  next hc =>
    split
    · exact enter_doing _ _
    next hw => exact absurd ⟨Classical.not_not.mp hc, hw⟩ h

theorem pipeWrite_returns {i n : Nat} (h : ¬ k.writeWaits i) :
    ((k.pipeWrite i n).2.task (k.pipeWrite i n).2.current).doing = .user := by
  unfold pipeWrite
  split
  · exact enter_doing _ _
  next hr =>
    split
    · exact enter_doing _ _
    next hc => exact absurd ⟨hr, Nat.le_of_not_lt hc⟩ h

theorem mutexAcquire_returns {m : Nat} (h : ¬ k.locked m = true) :
    ((k.mutexAcquire m).task (k.mutexAcquire m).current).doing = .user := by
  unfold mutexAcquire
  rw [if_pos ((Bool.not_eq_true _).mp h)]
  exact enter_doing _ _

theorem resume_returns (h : ¬ k.waitsAgain (k.task k.current).doing) :
    (k.resume.task k.resume.current).doing = .user := by
  unfold resume
  generalize (k.task k.current).doing = d at h
  cases d with
  | join t => exact joinLoop_returns h
  | wait pid => exact waitRound_returns h
  | pipeRead i n => exact pipeRead_returns h
  | pipeWrite i n => exact pipeWrite_returns h
  | mutex m => exact mutexAcquire_returns h
  | user | futex | send | receive | sleep => exact enter_doing _ _

/-! ## Killed processes -/

/-- The state after a run from the boot of the kernel. -/
def run [Inhabited β] (address : UInt64) (ops : List (Op β)) : Kernel β :=
  ops.foldl Kernel.step (boot address)

/-- Once a kill of `p` has been accepted, no thread of `p` is BLOCKED, and a thread of `p` that
goes on in the call it was in leaves it, for the exit check. -/
theorem killed_process_never_blocks [Inhabited β] (address : UInt64) (ops later : List (Op β))
    (pid : UInt32) (status : Int) (rejectCurrent : Bool)
    (hrun : Machine.Throughout Unwinds Kernel.step (boot address)
      (ops ++ Op.kill pid status rejectCurrent :: later))
    (hkill : (run address ops).killTarget pid rejectCurrent = some p) {k : Kernel β}
    (hk : run address (ops ++ Op.kill pid status rejectCurrent :: later) = k) :
    (∀ t, (k.task t).process = some p → k.status t ≠ .blocked) ∧
      (k.processCurrent = some p → k.status k.current = .ready → k.Unwinds .resume →
        ((k.step .resume).task (k.step .resume).current).doing = .user) := by
  obtain ⟨hbefore, hok, hlater⟩ := Machine.throughout_append.mp hrun
  have h₀ : Unstuck (run address ops) :=
    hbefore.invariant Unstuck (fun _ _ h hok => h.step hok) (unstuck_boot address)
  obtain ⟨hin, hpending⟩ := killTarget_spec hkill status
  have hm : Moved (fun _ => True) (fun _ => False) (fun _ => True) (run address ops)
      ((run address ops).requestProcessTermination pid status rejectCurrent) :=
    h₀.members.requestProcessTermination ..
  have hp := Nat.lt_of_lt_of_le (h₀.members.procs p hin) hm.nextProc
  obtain ⟨h, hpending'⟩ := (h₀.step hok).run hlater hp hpending
  have hfinal : later.foldl Kernel.step
      ((run address ops).step (.kill pid status rejectCurrent)) = k := by
    rw [← hk]
    unfold run
    rw [List.foldl_append]
    rfl
  rw [hfinal] at h hpending'
  refine ⟨fun t ht hb => h.nobody t p ⟨ht, hpending', hb⟩, fun hcur hready hunwinds => ?_⟩
  have hagain : ¬ k.waitsAgain (k.task k.current).doing := fun hw =>
    hunwinds (by rw [killPending, hcur]; exact hpending') (Or.inl ⟨rfl, hready, hw⟩)
  have hstep : k.step .resume = k.resume := if_pos hready
  rw [hstep]
  exact resume_returns hagain

/-- Killed in `thread_sleep_ticks`. -/
theorem killed_process_never_blocks_asleep :
    let ops : List (Op Unit) := [.spawn 0x2000, .schedule, .sleep 5, .schedule]
    ((run 0x1000 ops).status 1 = .blocked ∧ (run 0x1000 ops).killTarget 1 true = some 1) ∧
      (run 0x1000 (ops ++ Op.kill 1 143 true :: [.schedule, .resume])).status 1 ≠ .blocked := by
  intro ops
  refine ⟨by decide +kernel, ?_⟩
  exact (killed_process_never_blocks (p := 1) 0x1000 ops [.schedule, .resume] 1 143 true
    (by decide +kernel) (by decide +kernel) rfl).1 1 (by decide +kernel)

/-- Killed in `pipe_read` of an empty pipe: the next round of the loop waits again. -/
theorem killed_process_blocks_again :
    let ops : List (Op Unit) := [.spawn 0x2000, .schedule, .pipe, .pipeRead 0 1, .schedule]
    let k := run 0x1000 (ops ++ Op.kill 1 143 true :: [.schedule, .resume])
    (run 0x1000 ops).killTarget 1 true = some 1 ∧ (k.task 1).process = some 1 ∧
      k.status 1 = .blocked := by
  decide +kernel

end Kernel

end OrangeOs.Proc
