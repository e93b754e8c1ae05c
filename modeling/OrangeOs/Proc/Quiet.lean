import OrangeOs.Proc.Steps

/-! # Calls that leave the tables alone

Most calls change only whether threads are ready or blocked, and fields that the tables of
threads and processes do not depend on.
-/

namespace OrangeOs.Proc

open Ipc Function

/-- `x` but for the fields that play no part in the life of a thread, which are those of `y`. -/
abbrev Task.easing (x y : Task) : Task :=
  { x with
    lifecycleClaimed := y.lifecycleClaimed
    exitStatus := y.exitStatus
    joinWaiter := y.joinWaiter
    waitingLock := y.waitingLock
    wakeTick := y.wakeTick
    sleeping := y.sleeping }

namespace Kernel

variable {β : Type}

/-- Threads may have been made ready, and no status has changed otherwise. -/
def Woken (s s' : Threads β) : Prop :=
  ∀ t, (s' t).status = (s t).status ∨ (s t).status = .blocked ∧ (s' t).status = .ready

variable (s : Threads β)

theorem Woken.refl : Woken s s := fun _ => Or.inl rfl

theorem Woken.trans {s s' s'' : Threads β} (h : Woken s s') (h' : Woken s' s'') : Woken s s'' := by
  intro t
  rcases h t with h | ⟨h, hr⟩ <;> rcases h' t with h' | ⟨h', hr'⟩
  · exact Or.inl (h'.trans h)
  · exact Or.inr ⟨h.symm.trans h', hr'⟩
  · exact Or.inr ⟨h, h'.trans hr⟩
  · exact Or.inr ⟨h, hr'⟩

theorem Woken.modify (t : Tid) {f : Thread β → Thread β}
    (hf : (f (s t)).status = (s t).status ∨ (s t).status = .blocked ∧ (f (s t)).status = .ready) :
    Woken s (s.modify t f) := by
  intro u
  by_cases hu : u = t
  · rw [hu, Threads.modify_self]
    exact hf
  · rw [Threads.modify_of_ne s hu]
    exact Or.inl rfl

theorem unblock_status (x : Thread β) :
    x.unblock.status = x.status ∨ x.status = .blocked ∧ x.unblock.status = .ready := by
  unfold Thread.unblock
  split
  next h => exact Or.inr ⟨h, rfl⟩
  · exact Or.inl rfl

theorem Woken.foldl {α : Type} {f : Threads β → α → Threads β} (hf : ∀ s a, Woken s (f s a))
    (l : List α) (s : Threads β) : Woken s (l.foldl f s) := by
  induction l generalizing s with
  | nil => exact .refl s
  | cons a l ih => exact (hf s a).trans (ih _)

theorem ipcSend_woken (current : Tid) (d : Option Tid) (body : Option β) :
    Woken s (Ipc.ipcSend s current d body).2 := by
  unfold Ipc.ipcSend
  split
  next d body =>
    split
    · exact .refl s
    · split
      · split
        · exact .modify s d (unblock_status _)
        · exact (Woken.modify s current (.inl rfl)).trans (.modify _ d (.inl rfl))
      · exact .refl s
  · exact .refl s

theorem ipcReceive_woken (current : Tid) (source : Int32) :
    Woken s (Ipc.ipcReceive s current source).2 := by
  unfold Ipc.ipcReceive
  have hfirst := Woken.modify s current (f := Thread.setFilter source) (.inl rfl)
  dsimp only
  split
  next sender _ =>
    refine ((hfirst.trans (.modify _ current (f := Thread.removeSender sender) (.inl rfl))).trans
      (.modify _ sender (f := fun t => (Thread.endSending 0 t).unblock) (unblock_status _))).trans ?_
    exact .modify _ current (.inl rfl)
  · exact hfirst.trans (.modify _ current (.inl rfl))

theorem ipcAbortThread_woken (t : Tid) : Woken s (Ipc.ipcAbortThread s t) := by
  refine (Woken.trans ?_ (.modify _ t (.inl rfl))).trans (.foldl (fun s u => ?_) _ _)
  · split
    · exact .modify s _ (.inl rfl)
    · exact .refl s
  · exact .modify s u (unblock_status _)

/-- `k'` differs from `k` in fields that the tables do not depend on. -/
structure Quiet (k k' : Kernel β) : Prop where
  zombies : ∀ t, k'.status t = .zombie ↔ k.status t = .zombie
  task : ∀ t, k'.task t = (k.task t).easing (k'.task t)
  proc : ∀ p, k'.proc p = { k.proc p with
    exitStatus := (k'.proc p).exitStatus
    exitRequested := (k'.proc p).exitRequested
    killStatus := (k'.proc p).killStatus
    files := (k'.proc p).files }
  procs : k'.procs = k.procs
  current : k'.current = k.current
  others : k'.others = k.others
  nextTid : k'.nextTid = k.nextTid
  nextProc : k'.nextProc = k.nextProc

/-- `k'` differs from `k` in threads that have become ready and in fields that play no part in
the lives of threads and processes. -/
structure Gentle (k k' : Kernel β) : Prop where
  woken : Woken k.ipc k'.ipc
  task : ∀ t, k'.task t = (k.task t).easing (k'.task t)
  proc : ∀ p, k'.proc p = { k.proc p with files := (k'.proc p).files }
  procs : k'.procs = k.procs
  current : k'.current = k.current
  others : k'.others = k.others
  nextTid : k'.nextTid = k.nextTid
  nextProc : k'.nextProc = k.nextProc
  locked : ∀ m, k'.locked m = true → k.locked m = true

variable (k : Kernel β)

theorem Gentle.refl : Gentle k k :=
  ⟨.refl _, fun _ => rfl, fun _ => rfl, rfl, rfl, rfl, rfl, rfl, fun _ hl => hl⟩

theorem Gentle.trans {k k' k'' : Kernel β} (h : Gentle k k') (h' : Gentle k' k'') :
    Gentle k k'' where
  woken := h.woken.trans h'.woken
  task t := by rw [h'.task t, h.task t]
  proc p := by rw [h'.proc p, h.proc p]
  procs := h'.procs.trans h.procs
  current := h'.current.trans h.current
  others := h'.others.trans h.others
  nextTid := h'.nextTid.trans h.nextTid
  nextProc := h'.nextProc.trans h.nextProc
  locked m hl := h.locked m (h'.locked m hl)

theorem Gentle.quiet {k k' : Kernel β} (h : Gentle k k') : Quiet k k' where
  zombies t := by
    rcases h.woken t with hs | ⟨hb, hr⟩
    · exact (congrArg (· = Status.zombie) hs).to_iff
    · exact ⟨fun hz => absurd (hr.symm.trans hz) nofun, fun hz => absurd (hb.symm.trans hz) nofun⟩
  task := h.task
  proc p := by rw [h.proc p]
  procs := h.procs
  current := h.current
  others := h.others
  nextTid := h.nextTid
  nextProc := h.nextProc

theorem Gentle.process {k k' : Kernel β} (h : Gentle k k') (t : Tid) :
    (k'.task t).process = (k.task t).process := by
  rw [h.task t]

theorem Gentle.foldl {α : Type} {f : Kernel β → α → Kernel β} (hf : ∀ k a, Gentle k (f k a))
    (l : List α) (k : Kernel β) : Gentle k (l.foldl f k) := by
  induction l generalizing k with
  | nil => exact .refl k
  | cons a l ih => exact (hf k a).trans (ih _)

theorem gentle_modifyTask (t : Tid) {f : Task → Task}
    (hf : f (k.task t) = (k.task t).easing (f (k.task t))) : Gentle k (k.modifyTask t f) := by
  refine { Gentle.refl k with task u := ?_ }
  by_cases hu : u = t
  · subst hu
    simp only [modifyTask, update_self]
    exact hf
  · simp only [modifyTask, update_of_ne hu]

variable (p : ProcId)

theorem gentle_modifyProc {f : Process → Process}
    (hf : f (k.proc p) = { k.proc p with files := (f (k.proc p)).files }) :
    Gentle k (k.modifyProc p f) := by
  refine { Gentle.refl k with proc q := ?_ }
  by_cases hq : q = p
  · subst hq
    simp only [modifyProc, update_self]
    exact hf
  · simp only [modifyProc, update_of_ne hq]

theorem gentle_setIpc {ipc : Threads β} (h : Woken k.ipc ipc) : Gentle k (k.setIpc ipc) := by
  refine { Gentle.refl k with woken := h, task t := ?_ }
  simp only [setIpc]
  split <;> rfl

theorem gentle_threadUnblock (t : Tid) : Gentle k (k.threadUnblock t) :=
  gentle_setIpc k (.modify _ t (unblock_status _))

theorem gentle_ipcAbortThread (t : Tid) : Gentle k (k.ipcAbortThread t) :=
  gentle_setIpc k (ipcAbortThread_woken _ t)

/-! ### Futexes -/

theorem gentle_futex (f : Futexes) : Gentle k { k with futex := f } :=
  { Gentle.refl k with }

theorem gentle_wakeWaiter (b : Nat) (t : Tid) (r : Int) : Gentle k (k.wakeWaiter b t r) :=
  (gentle_futex k _).trans (gentle_threadUnblock _ t)

theorem gentle_wakeLoop (b : Nat) (wanted : Waiter → Bool) (r : Int) (n left : Nat) (o : Option Tid)
    (k : Kernel β) : Gentle k (wakeLoop b wanted r n left o k).2 := by
  induction n generalizing left o k with
  | zero => exact .refl k
  | succ n ih =>
    cases left with
    | zero => exact .refl k
    | succ left =>
      cases o with
      | none => exact .refl k
      | some t =>
        simp only [wakeLoop]
        split
        · exact (gentle_wakeWaiter k b t r).trans (ih ..)
        · exact ih ..

theorem gentle_futexWake (uaddr : UInt64) (count : Nat) :
    Gentle k (k.futexWake p uaddr count).2 := gentle_wakeLoop ..

theorem gentle_futexCancelThread (t : Tid) (r : Int) : Gentle k (k.futexCancelThread t r) := by
  unfold futexCancelThread
  split
  · exact gentle_wakeWaiter ..
  · exact .refl k

theorem gentle_futexCancelProcess (r : Int) :
    Gentle k (k.futexCancelProcess p r) := .foldl (fun _ _ => gentle_wakeLoop ..) _ k

/-! ### Pipes, mutexes and the timer -/

theorem gentle_wakeIfWaiting (lock : Lock) (k : Kernel β) (t : Tid) :
    Gentle k (wakeIfWaiting lock k t) := by
  unfold wakeIfWaiting
  split
  · exact gentle_threadUnblock k t
  · exact .refl k

theorem gentle_wakePipeWaiters (i : Nat) : Gentle k (k.wakePipeWaiters i) :=
  .foldl (gentle_wakeIfWaiting _) _ k

theorem gentle_modifyPipe (i : Nat) (f : Pipe → Pipe) : Gentle k (k.modifyPipe i f) :=
  { Gentle.refl k with }

theorem gentle_modifyFile (i : Nat) (f : File → File) : Gentle k (k.modifyFile i f) :=
  { Gentle.refl k with }

theorem gentle_fileRetain (f : Nat) : Gentle k (k.fileRetain f) := by
  unfold fileRetain
  have hfile := k.gentle_modifyFile f fun x => { x with refs := x.refs + 1 }
  dsimp only
  split
  · exact hfile
  · exact hfile.trans (gentle_modifyPipe ..)

theorem gentle_fileRelease (f : Nat) : Gentle k (k.fileRelease f) := by
  unfold fileRelease
  have hfile := k.gentle_modifyFile f fun x => { x with refs := x.refs - 1 }
  split
  · exact .refl k
  · dsimp only
    split
    · exact hfile
    · exact hfile.trans ((gentle_modifyPipe ..).trans (gentle_wakePipeWaiters ..))

theorem gentle_processCloseFiles : Gentle k (k.processCloseFiles p) :=
  (k.gentle_modifyProc p rfl).trans (.foldl gentle_fileRelease _ _)

theorem gentle_pipeCreate : Gentle k (k.pipeCreate p) := by
  unfold pipeCreate
  refine Gentle.trans ?_ (gentle_modifyProc _ p rfl)
  exact { Gentle.refl k with }

theorem gentle_fileClose (f : Nat) : Gentle k (k.fileClose p f) := by
  unfold fileClose
  split
  · exact (k.gentle_modifyProc p rfl).trans (gentle_fileRelease ..)
  · exact .refl k

theorem gentle_mutexRelease (m : Nat) : Gentle k (k.mutexRelease m) := by
  have hlock : Gentle k { k with locked := update k.locked m false } := by
    refine { Gentle.refl k with locked n hl := ?_ }
    by_cases hn : n = m
    · subst hn
      cases (update_self n false k.locked).symm.trans hl
    · exact (update_of_ne hn false k.locked).symm.trans hl
  unfold mutexRelease
  dsimp only
  split
  · exact hlock.trans (gentle_threadUnblock ..)
  · exact hlock

theorem gentle_sleepers (l : List Tid) : Gentle k { k with sleepers := l } :=
  { Gentle.refl k with }

theorem gentle_timerCancel (t : Tid) : Gentle k (k.timerCancelThreadSleep t) := by
  unfold timerCancelThreadSleep
  split
  · exact (gentle_sleepers k _).trans (gentle_modifyTask _ t rfl)
  · exact .refl k

theorem gentle_timerTick : Gentle k k.timerTick := by
  refine Gentle.trans ?_ (.foldl (fun k t => ?_) _ _)
  · exact { Gentle.refl k with }
  · exact (k.gentle_modifyTask t rfl).trans (gentle_threadUnblock ..)

/-! ### Blocking -/

theorem quiet_block {k : Kernel β} (h : k.status k.current ≠ .zombie) : Quiet k k.block := by
  refine ⟨fun t => ?_, fun _ => rfl, fun _ => rfl, rfl, rfl, rfl, rfl, rfl⟩
  unfold block
  rw [modifyIpc_status]
  split
  next heq => exact ⟨nofun, fun hz => absurd (heq ▸ hz) h⟩
  · rfl

end Kernel

end OrangeOs.Proc
