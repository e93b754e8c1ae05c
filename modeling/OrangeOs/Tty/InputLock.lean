import OrangeOs.Tty.Read

/-! # The lock of the console input

As long as no process exits around a thread that holds the lock, a lock that is taken has a live
thread to give it back.
-/

namespace OrangeOs.Tty

open Ipc Proc Proc.Kernel Function

namespace Console

variable {s : Console} {k : Kernel Body} {t : Tid} {length : UInt64}

/-- No thread ends, and no lock but the one of the input is taken or waited for. -/
abbrev Calm (L : Nat → Prop) (k k' : Kernel Body) : Prop :=
  Moved (fun _ => False) (fun _ => True) L k k'

/-- The lock is with a live thread, and only readers wait for it. -/
structure Kept (s : Console) : Prop where
  members : Members s.kernel
  held : s.kernel.locked inputRequestLock = true →
    ∃ t, s.kernel.status t ≠ .zombie ∧ (s.stage t).holds = true
  waits : ∀ t, (s.kernel.task t).doing = .mutex inputRequestLock → s.stage t ≠ .outside

/-- The current thread has the lock, or is about to be the one who does. -/
structure Holding (s : Console) : Prop where
  members : Members s.kernel
  live : s.kernel.status s.kernel.current ≠ .zombie
  waits : ∀ t, t ≠ s.kernel.current → (s.kernel.task t).doing = .mutex inputRequestLock →
    s.stage t ≠ .outside

theorem Holding.move (h : Holding s) (hm : Calm (fun _ => False) s.kernel k)
    (hcurrent : k.current = s.kernel.current) : Holding { s with kernel := k } := by
  refine ⟨hm.members, ?_, fun t ht hd => ?_⟩
  · rw [hcurrent]
    exact (hm.stays _ not_false h.live).1
  · rw [hcurrent] at ht
    exact h.waits t ht (hm.waits t _ not_false hd)

theorem Holding.blocked (h : Holding s) {stage : Stage} (hstage : stage.holds = true) :
    Kept (s.setStage stage) := by
  have hself : (s.setStage stage).stage s.kernel.current = stage := update_self _ _ _
  refine ⟨h.members, fun _ => ⟨s.kernel.current, h.live, ?_⟩, fun t hd => ?_⟩
  · rw [hself]
    exact hstage
  · by_cases ht : t = s.kernel.current
    · subst ht
      rw [hself]
      intro houtside
      rw [houtside] at hstage
      cases hstage
    · have hother : (s.setStage stage).stage t = s.stage t := update_of_ne ht _ _
      rw [hother]
      exact h.waits t ht hd

theorem mutexRelease_locked (k : Kernel Body) (m : Nat) : (k.mutexRelease m).locked m = false := by
  unfold Kernel.mutexRelease
  dsimp only
  split <;> exact update_self m false k.locked

theorem Holding.finish (h : Holding s) (result : Int) : Kept (s.finish result).2 := by
  have hg := gentle_mutexRelease s.kernel inputRequestLock
  have hm : Calm (fun _ => False) s.kernel
      ((s.kernel.mutexRelease inputRequestLock).enter .user) := h.members.gentleEnter hg nofun
  have hcurrent : ((s.kernel.mutexRelease inputRequestLock).enter .user).current =
      s.kernel.current := hg.current
  refine ⟨hm.members, fun hl => ?_, fun t hd => ?_⟩
  · cases (mutexRelease_locked s.kernel inputRequestLock).symm.trans hl
  · by_cases ht : t = s.kernel.current
    · subst ht
      have huser := enter_doing (s.kernel.mutexRelease inputRequestLock) .user
      rw [hcurrent] at huser
      cases huser.symm.trans hd
    · have hother : (s.finish result).2.stage t = s.stage t :=
        update_of_ne (by rw [hcurrent]; exact ht) _ _
      rw [hother]
      exact h.waits t ht (hm.waits t _ not_false hd)

theorem Holding.accept (h : Holding s) (length : UInt64) (reply : Message Body) :
    Kept (s.accept length reply).2 := by
  unfold Console.accept
  split
  · exact h.finish _
  · exact h.finish _

theorem ipcReceive_current (k : Kernel Body) (source : Int32) :
    (k.ipcReceive source).2.current = k.current := by
  unfold Kernel.ipcReceive
  split <;> rfl

theorem ipcSend_current (k : Kernel Body) (d : Tid) (body : Body) :
    (k.ipcSend d body).2.current = k.current := by
  unfold Kernel.ipcSend
  split <;> rfl

theorem free_of_all (k : Kernel Body) : Free (fun _ => True) k := fun _ hp => absurd trivial hp

theorem Holding.receive (h : Holding s) (service : Tid) (length : UInt64) :
    Kept (s.receive service length).2 := by
  unfold Console.receive
  have hm : Calm (fun _ => False) s.kernel
      (s.kernel.ipcReceive ((s.kernel.ipc service).process.getD 0).toInt32).2 :=
    h.members.ipcReceive h.live fun _ => free_of_all _
  have hcurrent := ipcReceive_current s.kernel ((s.kernel.ipc service).process.getD 0).toInt32
  generalize s.kernel.ipcReceive ((s.kernel.ipc service).process.getD 0).toInt32 = r at *
  obtain ⟨reply, k⟩ := r
  have hnext := h.move hm hcurrent
  cases reply with
  | none => exact hnext.blocked rfl
  | some reply => exact hnext.accept length reply

theorem Holding.request (h : Holding s) (service : Tid) (length : UInt64) :
    Kept (s.request service length).2 := by
  unfold Console.request
  have hm : Calm (fun _ => False) s.kernel
      (s.kernel.ipcSend service ⟨readRequest, length⟩).2 :=
    h.members.ipcSend h.live fun _ => free_of_all _
  have hcurrent := ipcSend_current s.kernel service ⟨readRequest, length⟩
  generalize s.kernel.ipcSend service ⟨readRequest, length⟩ = r at *
  obtain ⟨result, k⟩ := r
  have hnext := h.move hm hcurrent
  cases result with
  | none => exact hnext.blocked rfl
  | some result =>
    dsimp only
    split
    · exact hnext.finish _
    · exact hnext.receive service length

theorem mutexAcquire_current (k : Kernel Body) (m : Nat) :
    (k.mutexAcquire m).current = k.current := by
  unfold Kernel.mutexAcquire
  split <;> rfl

theorem mutexAcquire_task (k : Kernel Body) (m : Nat) (ht : t ≠ k.current) :
    (k.mutexAcquire m).task t = k.task t := by
  unfold Kernel.mutexAcquire
  split
  · exact update_of_ne ht _ _
  · exact (update_of_ne ht _ _).trans (update_of_ne ht _ _)

theorem Kept.acquire (h : Kept s) (hlive : s.kernel.status s.kernel.current ≠ .zombie)
    (hstage : (s.stage s.kernel.current).holds = false) (service : Tid) (length : UInt64) :
    Kept (s.acquire service length).2 := by
  have hm : Calm (fun _ => True) s.kernel (s.kernel.mutexAcquire inputRequestLock) :=
    h.members.mutexAcquire hlive trivial fun _ => free_of_all _
  have hcurrent := mutexAcquire_current s.kernel inputRequestLock
  unfold Console.acquire
  split
  next hl =>
    refine ⟨hm.members, fun _ => ?_, fun t hd => ?_⟩
    · -- the holder is another thread
      obtain ⟨t, ht, hholds⟩ := h.held hl
      have hne : t ≠ s.kernel.current := by
        rintro rfl
        cases hstage.symm.trans hholds
      refine ⟨t, (hm.stays t not_false ht).1, ?_⟩
      exact (congrArg Stage.holds (update_of_ne (hcurrent.symm ▸ hne) _ _)).trans hholds
    · by_cases ht : t = s.kernel.current
      · subst ht
        have hself : (setStage { s with kernel := s.kernel.mutexAcquire inputRequestLock }
            (.acquiring length)).stage s.kernel.current = .acquiring length := by
          unfold setStage
          rw [hcurrent]
          exact update_self _ _ _
        rw [hself]
        exact nofun
      · have hother := update_of_ne (hcurrent.symm ▸ ht) (Stage.acquiring length) s.stage
        refine fun hout => h.waits t ?_ (hother.symm.trans hout)
        exact mutexAcquire_task s.kernel inputRequestLock ht ▸ hd
  next hl =>
    refine Holding.request ⟨hm.members, ?_, fun t ht hd => ?_⟩ service length
    · rw [hcurrent]
      exact (hm.stays _ not_false hlive).1
    · rw [hcurrent] at ht
      exact h.waits t (mutexAcquire_task s.kernel inputRequestLock ht ▸ hd)

theorem Kept.ttyServiceRead (h : Kept s) (hlive : s.kernel.status s.kernel.current ≠ .zombie)
    (hidle : s.stage s.kernel.current = .outside) (length : UInt64) :
    Kept (s.ttyServiceRead length).2 := by
  unfold Console.ttyServiceRead
  split
  · exact h
  next service _ =>
    split
    · exact h
    · exact h.acquire hlive (by rw [hidle]; rfl) service length

theorem Kept.resume (h : Kept s) (hlive : s.kernel.status s.kernel.current ≠ .zombie) :
    Kept s.resume.2 := by
  have hholding : Holding s := ⟨h.members, hlive, fun t _ => h.waits t⟩
  unfold Console.resume
  split
  next service length _ hstage => exact h.acquire hlive (by rw [hstage]; rfl) service length
  next service length _ _ =>
    split
    · exact hholding.finish _
    · exact hholding.receive service length
  next length _ _ =>
    split
    · exact hholding.finish _
    next reply _ => exact hholding.accept length reply
  · exact h

/-! ## Steps of the kernel -/

theorem live_count (h : Members k) {p : ProcId} (hcurrent : k.processCurrent = some p)
    (hlive : k.status k.current ≠ .zombie) (ht : (k.task t).process = some p)
    (hstatus : k.status t ≠ .zombie) (hne : t ≠ k.current) : ¬ k.processLiveThreadCount p ≤ 1 := by
  unfold processLiveThreadCount
  rw [List.countP_eq_length_filter]
  intro hle
  have hmem : ∀ u, (k.task u).process = some p → k.status u ≠ .zombie →
      u ∈ (k.proc p).threads.filter fun t => decide (k.status t ≠ .zombie) := fun u hu hs =>
    List.mem_filter.mpr ⟨(h.member u p).mpr hu, decide_eq_true hs⟩
  have hone := hmem t ht hstatus
  have htwo := hmem k.current hcurrent hlive
  generalize (k.proc p).threads.filter (fun t => decide (k.status t ≠ .zombie)) = l at *
  match l, hle with
  | [u], _ => exact hne ((List.mem_singleton.mp hone).trans (List.mem_singleton.mp htwo).symm)

/-- The other live threads of the current process do not hold the lock. -/
def othersOutside (s : Console) : Prop :=
  match s.kernel.processCurrent with
  | none => True
  | some p => p ≠ kernelProcess → ∀ t ∈ (s.kernel.proc p).threads, t ≠ s.kernel.current →
      s.kernel.status t ≠ .zombie → (s.stage t).holds = false

instance (s : Console) : Decidable s.othersOutside := by
  dsimp only [othersOutside]
  split <;> infer_instance

/-- No process exits around a thread that holds the lock. -/
def Spares (s : Console) : Op → Prop
  | .kernel (.processExit _) => s.kernel.inUser = true → s.idle = true → s.othersOutside
  | .kernel .exitCheck =>
    s.kernel.inUser = true → s.idle = true → s.kernel.killPending = true → s.othersOutside
  | _ => True

instance (s : Console) (op : Op) : Decidable (s.Spares op) := by
  dsimp only [Spares]
  split <;> infer_instance

theorem Kept.spared (h : Kept s) {op : Proc.Op Body} (hok : s.Spares (.kernel op))
    (hpermits : s.permits op = true) (ht : s.kernel.status t ≠ .zombie)
    (hholds : (s.stage t).holds = true) (huser : s.kernel.inUser = true) :
    ¬ s.kernel.callEnds op t := by
  have hready := inUser_ready huser
  have hlive : s.kernel.status s.kernel.current ≠ .zombie := fun hz => nomatch hready.symm.trans hz
  have hne : s.idle = true → t ≠ s.kernel.current := by
    rintro hidle rfl
    rw [eq_of_beq hidle] at hholds
    cases hholds
  have hexit : s.idle = true → s.othersOutside → ¬ s.kernel.exitEnds t := by
    rintro hidle hothers (hself | ⟨p, hp, hcurrent, hprocess⟩)
    · exact hne hidle hself
    · unfold othersOutside at hothers
      rw [hcurrent] at hothers
      have hfalse := hothers hp t ((h.members.member t p).mpr hprocess) (hne hidle) ht
      cases hfalse.symm.trans hholds
  cases op with
  | threadExit status =>
    rintro (hself | ⟨p, _, hcurrent, hcount, hprocess⟩)
    · exact hne hpermits hself
    · exact live_count h.members hcurrent hlive hprocess ht (hne hpermits) hcount
  | processExit status => exact hexit hpermits (hok huser hpermits)
  | exitCheck => exact fun hends => hexit hpermits (hok huser hpermits hends.1) hends.2
  | _ => exact nofun

theorem Kept.kernelStep (h : Kept s) {op : Proc.Op Body} (hok : s.Spares (.kernel op))
    (hpermits : s.permits op = true) : Kept { s with kernel := s.kernel.step op } := by
  have hL : ∀ m, s.kernel.takes op m → m ≠ inputRequestLock := by
    rintro m (rfl | ⟨hresumes, hd⟩) rfl
    · exact absurd (Bool.and_eq_true_iff.mp hpermits).2 (by decide)
    · cases op <;> cases hresumes
      exact h.waits _ hd (eq_of_beq hpermits)
  have hm : Moved (fun t => s.kernel.inUser = true ∧ s.kernel.callEnds op t) (fun _ => True)
      (· ≠ inputRequestLock) s.kernel (s.kernel.step op) :=
    h.members.step hL (fun _ => free_of_all _) fun t huser hends => ⟨huser, hends⟩
  refine ⟨hm.members, fun hl => ?_, fun t hd => ?_⟩
  · obtain ⟨t, ht, hholds⟩ := h.held (hm.locked _ (fun hne => hne rfl) hl)
    have hspared : ¬ (s.kernel.inUser = true ∧ s.kernel.callEnds op t) := fun hends =>
      h.spared hok hpermits ht hholds hends.1 hends.2
    exact ⟨t, (hm.stays t hspared ht).1, hholds⟩
  · exact h.waits t (hm.waits t _ (fun hne => hne rfl) hd)

theorem Kept.step (h : Kept s) {op : Op} (hok : s.Spares op) : Kept (s.step op) := by
  cases op with
  | read length =>
    dsimp only [Console.step]
    split
    next hguard =>
      have hready := inUser_ready hguard.1
      exact h.ttyServiceRead (fun hz => nomatch hready.symm.trans hz) (eq_of_beq hguard.2) length
    · exact h
  | kernel op =>
    dsimp only [Console.step]
    split
    next hpermits => exact h.kernelStep hok hpermits
    · split
      next hguard => exact h.resume fun hz => nomatch hguard.2.symm.trans hz
      · exact h

/-! ## Runs -/

theorem kept_boot (address : UInt64) (service : Option Tid) : Kept (boot address service) := by
  refine ⟨members_boot address, nofun, fun t hd => ?_⟩
  have huser : ((boot address service).kernel.task t).doing = .user := by
    dsimp only [boot, Kernel.boot]
    split <;> rfl
  cases huser.symm.trans hd

/-- Whenever the input lock is taken, a live thread is between `mutex_acquire` and
`mutex_release`. -/
theorem input_lock_has_holder (address : UInt64) (service : Option Tid) (ops : List Op)
    (hrun : Machine.Throughout Spares step (boot address service) ops)
    (hlocked : (run address service ops).kernel.locked inputRequestLock = true) :
    ∃ t, (run address service ops).kernel.status t ≠ .zombie ∧
      ((run address service ops).stage t).holds = true := by
  have hkept : Kept (run address service ops) :=
    hrun.invariant Kept (fun _ _ h hok => h.step hok) (kept_boot address service)
  exact hkept.held hlocked

/-- A process with two threads, the first of which has sent a request. -/
def reading : List Op :=
  [.kernel (.spawn 0x2000), .kernel .schedule, .kernel .createThread, .read 1, .kernel .schedule,
    .kernel .schedule]

/-- The second thread leaves. -/
theorem input_lock_has_holder_reading :
    (run 0x1000 (some 0) (reading ++ [Op.kernel (.threadExit 0)])).kernel.locked
        inputRequestLock = true ∧
      ∃ t, (run 0x1000 (some 0) (reading ++ [Op.kernel (.threadExit 0)])).kernel.status t ≠
          .zombie ∧
        ((run 0x1000 (some 0) (reading ++ [Op.kernel (.threadExit 0)])).stage t).holds = true := by
  have hlocked : (run 0x1000 (some 0) (reading ++ [Op.kernel (.threadExit 0)])).kernel.locked
      inputRequestLock = true := by decide +kernel
  exact ⟨hlocked, input_lock_has_holder 0x1000 (some 0) _ (by decide +kernel) hlocked⟩

/-- The second thread ends the process instead: the lock stays taken, and nobody is left inside. -/
theorem input_lock_orphaned :
    let s := run 0x1000 (some 0) (reading ++ [Op.kernel (.processExit 0)])
    s.kernel.locked inputRequestLock = true ∧
      ∀ t < s.kernel.nextTid, s.kernel.status t ≠ .zombie → (s.stage t).holds = false := by
  decide +kernel

end Console

end OrangeOs.Tty
