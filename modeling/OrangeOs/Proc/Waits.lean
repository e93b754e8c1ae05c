import OrangeOs.Proc.FutexRuns

/-! # Calls that wait

A thread that has to wait is put on one list and blocks; a thread that returns is on none. Whoever
is in a futex bucket is left alone by all calls that wait for something else.
-/

namespace OrangeOs.Proc

open Ipc Function List Threads

namespace Kernel

variable {β : Type} {k k' : Kernel β} {t : Tid} {d : Doing} {w : Source}

/-! ## Running on -/

theorem Gentle.runs (hg : Gentle k k') (hr : Runs k d) : Runs k' d := by
  refine ⟨?_, ?_⟩
  · rw [hg.current]
    rcases hg.woken k.current with hs | ⟨-, hs⟩
    · exact hs.trans hr.ready
    · exact hs
  · rw [hg.current, hg.task]
    exact hr.doing

theorem Runs.discardThread (hr : Runs k d) (ht : t ≠ k.current) : Runs (k.discardThread t) d := by
  have hd := discardThread_spec k t
  refine ⟨?_, ?_⟩
  · rw [hd.current, hd.status _ ht.symm]
    exact hr.ready
  · rw [hd.current, hd.task _ ht.symm]
    exact hr.doing

theorem Runs.reapProcess (hr : Runs k d) (p : ProcId) : Runs (k.reapProcess p) d := by
  unfold Kernel.reapProcess
  split
  · exact hr
  · split
    · exact hr
    · next t _ =>
      split
      · exact hr
      · next hguard =>
        have hfreed : Runs ((k.releaseProcessAddressSpace p).discardThread t) d :=
          Runs.discardThread ⟨hr.ready, hr.doing⟩ fun heq => hguard (Or.inl heq)
        unfold unlinkChild
        split <;> exact ⟨hfreed.ready, hfreed.doing⟩

theorem Listed.enter (hl : Listed (k.enter d) t w) : Listed k t w := by
  refine hl.mono id id (fun _ => id) id (fun hn => ?_) fun x hj => ?_
  · unfold Kernel.enter
    rwa [modifyTask_proj Task.waitingLock rfl]
  · unfold Kernel.enter at hj
    rwa [modifyTask_proj Task.joinWaiter rfl] at hj

theorem Dozing.enter (h : Dozing k) (d : Doing) : Dozing (k.enter d) :=
  ⟨h.1, fun t ht => (modifyTask_proj Task.sleeping rfl t).trans (h.2 t ht)⟩

theorem Listed.block (hl : Listed k.block t w) : Listed k t w := by
  have hmail : ∀ u, mail (k.block.ipc u) = mail (k.ipc u) := modify_proj mail rfl
  refine hl.mono id id (fun d hd => ?_) (fun hr => ?_) id fun _ => id
  · exact (congrArg (·.1.1) (hmail d) : _ = (k.ipc d).ipcSenders) ▸ hd
  · exact (congrArg (·.2) (hmail t)).symm.trans hr

section

variable (h : Settled k)
include h

theorem safe_enterUser (hnot : ∀ w, ¬Listed k k.current w) : Safe k (k.enter .user) := by
  refine ⟨still_modifyTask k _ rfl, h.eased { (Eased.refl k : Eased none k k) with
    listed _ _ hl := Or.inl hl.enter
    keeps t w hl := Or.inr ⟨rfl, ?_⟩
    dozing hd := hd.enter _ }⟩
  have ht : t ≠ k.current := by
    rintro rfl
    exact hnot w hl.enter
  unfold Kernel.enter
  rw [modifyTask_task, if_neg ht]

theorem safe_return (hr : Runs k d) (hd : ∀ x, d ≠ .join x) : Safe k (k.enter .user) :=
  safe_enterUser h (h.unlisted hr hd)

/-- The current thread, on no list but that of the call `d`, has been put on it and blocks. -/
theorem settled_wait (e : Eased d.source k k') (hc : k'.current = k.current)
    (hself : ∀ w, Listed k k.current w → d.source = some w) : Settled (k'.block.enter d) := by
  have hlisted : ∀ {t w}, Listed (k'.block.enter d) t w → Listed k' t w := fun hl => hl.enter.block
  refine ⟨(e.posted h.posted).congr (modify_proj post rfl), Dozing.enter (e.dozing h.dozing) d,
    e.ring h.ring, fun t w hl => ?_, fun t w hl => ?_⟩
  · rcases e.listed t w (hlisted hl) with hold | ⟨rfl, -⟩
    · exact Nat.lt_of_lt_of_le (h.born t w hold) e.nextTid
    · exact e.ring h.ring _ mem_cons_self
  · have hstatus : (k'.block.enter d).status t = if t = k'.current then .blocked else k'.status t :=
      modifyIpc_status ..
    have hdoing : ((k'.block.enter d).task t).doing =
        if t = k'.current then d else (k'.task t).doing :=
      (congrArg Task.doing (modifyTask_task ..)).trans (apply_ite Task.doing ..)
    unfold Expects
    rw [hstatus, hdoing]
    by_cases ht : t = k'.current
    · rw [if_pos ht, if_pos ht]
      refine Or.inr ⟨?_, Or.inr rfl⟩
      rcases e.listed t w (hlisted hl) with hold | ⟨-, hw⟩
      · rw [ht, hc] at hold
        exact hself w hold
      · exact hw
    · rw [if_neg ht, if_neg ht]
      have hold := (e.listed t w (hlisted hl)).resolve_right fun hcur => ht hcur.1
      rcases e.keeps t w (hlisted hl) with hz | ⟨hs, hd⟩
      · exact Or.inl hz
      · rw [hs, hd]
        exact h.expects t w hold

theorem safe_wait (hs : Still k k') (e : Eased d.source k k') (hc : k'.current = k.current)
    (hself : ∀ w, Listed k k.current w → d.source = some w)
    (hidle : (k.futex.node k.current).waiting = false) : Safe k (k'.block.enter d) := by
  have hblock : Still k' k'.block := still_modifyIpc k' _ fun ha =>
    absurd ha (not_asleep_of_idle (hc ▸ hs.idle_eq hidle))
  exact ⟨(hs.trans hblock).trans (still_modifyTask _ _ rfl), settled_wait h e hc hself⟩

theorem safe_waitUnlisted (hs : Still k k') (e : Eased d.source k k') (hc : k'.current = k.current)
    (hnot : ∀ w, ¬Listed k k.current w) : Safe k (k'.block.enter d) :=
  safe_wait h hs e hc (fun w hl => absurd hl (hnot w)) ((Bool.not_eq_true _).mp (hnot .futex))

/-! ## Children and threads -/

theorem safe_waitRound (hm : Members k) (hr : Runs k d) (hd : ∀ x, d ≠ .join x)
    (pid options : UInt32) : Safe k (k.waitRound pid options).2 := by
  have hnot := h.unlisted hr hd
  unfold Kernel.waitRound
  cases k.findChild pid with
  | none => exact safe_return h hr hd
  | some c =>
    dsimp only
    split
    · have hreaped := (reaps_reapProcess k c).edits.safe hm h
      exact hreaped.trans (safe_return hreaped.settled (hr.reapProcess c) hd)
    · split
      · exact safe_return h hr hd
      · exact safe_waitUnlisted h (.refl k) (.refl k) rfl hnot

theorem safe_joinLoop (hm : Members k) (hself : ∀ w, Listed k k.current w → w = .join t) :
    Safe k (k.joinLoop t) := by
  unfold Kernel.joinLoop
  split
  · refine safe_wait h (.refl k) (.refl k) rfl (fun w hl => hself w hl ▸ rfl) ?_
    exact (Bool.not_eq_true _).mp fun hw => nomatch hself .futex hw
  · have e : Eased none k (k.modifyTask t fun x => { x with joinWaiter := none }) :=
      eased_modifyTask k t rfl (Or.inl rfl) Or.inl nofun
    have h1 : Safe k (k.modifyTask t fun x => { x with joinWaiter := none }) :=
      ⟨still_modifyTask k t rfl, h.eased e⟩
    have hm1 : Moved (fun _ => False) (fun _ => False) (fun _ => False) k
      (k.modifyTask t fun x => { x with joinWaiter := none }) :=
        hm.modifyTask t rfl fun _ hd => Or.inr hd
    have hjoin : ∀ w,
        ¬Listed (k.modifyTask t fun x => { x with joinWaiter := none }) k.current w := by
      intro w hl
      cases hself w (e.still_listed hl)
      have hnone : ((k.modifyTask t fun x => { x with joinWaiter := none }).task t).joinWaiter =
          none := by rw [modifyTask_task, if_pos rfl]
      cases hnone.symm.trans hl
    generalize hk1 : k.modifyTask t (fun x => { x with joinWaiter := none }) = k1 at *
    have h2 := h1.trans ((reaps_reapKernelThread k1 t).edits.safe hm1.members h1.settled)
    have hc : (k1.reapKernelThread t).current = k.current := by
      unfold reapKernelThread
      rw [← hk1]
      split
      · rfl
      · exact (discardThread_spec _ t).current
    have hreaped : Eased none k1 (k1.reapKernelThread t) := by
      unfold reapKernelThread
      split
      · exact .refl k1
      · have hlife := eased_modifyTask_same k1 t (f := fun x => { x with lifecycle := .reaped }) rfl
        exact hlife.trans (eased_discardThread (hlife.dozing h1.settled.dozing) t)
    exact h2.trans (safe_enterUser h2.settled fun w hl => hjoin w (hreaped.still_listed (hc ▸ hl)))

theorem safe_threadJoin (hm : Members k) (hr : Runs k .user) (t : Tid) : Safe k (k.threadJoin t) := by
  have hnot := h.unlisted hr nofun
  unfold Kernel.threadJoin
  split
  · exact .refl h
  · by_cases hz : k.status t = .zombie
    · have hg := k.gentle_modifyTask t (f := fun x => { x with lifecycleClaimed := true }) rfl
      have h1 := safe_modifyTask h t (f := fun x => { x with lifecycleClaimed := true }) rfl rfl
      have hm1 : Moved (fun _ => False) (fun _ => False) (fun _ => False) k _ := hm.gentle hg
      simp only [hz, ne_eq, not_true_eq_false, if_false, Option.none_or]
      exact h1.trans (safe_joinLoop h1.settled hm1.members fun w hl =>
        absurd hl (h1.settled.unlisted (hg.runs hr) nofun w))
    · dsimp only
      unfold Kernel.joinLoop
      rw [if_pos hz, modifyTask_status, if_pos hz]
      exact safe_waitUnlisted h (still_modifyTask k t rfl) (eased_modifyTask k t rfl (Or.inl rfl)
        Or.inl fun u hj => Or.inr ⟨(Option.some.inj hj).symm, rfl⟩) rfl hnot

/-! ## Locks -/

section Locks

variable (hr : Runs k d) (hd : ∀ x, d ≠ .join x)
include hr hd

theorem safe_waitForLock (lock : Lock) {d' : Doing} (hd' : d'.source = some .lock) :
    Safe k (k.waitForLock lock d') := by
  have hnot := h.unlisted hr hd
  exact safe_waitUnlisted h (still_modifyTask k _ rfl) (eased_modifyTask k _ rfl (Or.inl rfl)
    (fun _ => Or.inr ⟨rfl, hd'⟩) fun _ => Or.inl) rfl hnot

theorem safe_pipeDone (i : Nat) (g : Pipe → Pipe) :
    Safe k (((k.modifyPipe i g).wakePipeWaiters i).enter .user) := by
  have h1 : Safe k (k.modifyPipe i g) := safe_files h _ k.file k.nextFile
  have h2 := h1.trans (safe_wakePipeWaiters h1.settled i)
  have hg := (k.gentle_modifyPipe i g).trans (gentle_wakePipeWaiters _ i)
  exact h2.trans (safe_return h2.settled (hg.runs hr) hd)

theorem safe_pipeRead (i n : Nat) : Safe k (k.pipeRead i n).2 := by
  unfold Kernel.pipeRead
  split
  · exact safe_pipeDone h hr hd i _
  · split
    · exact safe_return h hr hd
    · exact safe_waitForLock h hr hd _ rfl

theorem safe_pipeWrite (i n : Nat) : Safe k (k.pipeWrite i n).2 := by
  unfold Kernel.pipeWrite
  split
  · exact safe_return h hr hd
  · split
    · exact safe_pipeDone h hr hd i _
    · exact safe_waitForLock h hr hd _ rfl

theorem safe_mutexAcquire (m : Nat) : Safe k (k.mutexAcquire m) := by
  unfold Kernel.mutexAcquire
  split
  · have h1 := safe_locked h (update k.locked m true)
    exact h1.trans (safe_return h1.settled (d := d) ⟨hr.ready, hr.doing⟩ hd)
  · exact safe_waitForLock h hr hd _ rfl

end Locks

theorem safe_resume (hm : Members k) (hr : k.status k.current = .ready) : Safe k k.resume := by
  have hr : Runs k (k.task k.current).doing := ⟨hr, rfl⟩
  unfold Kernel.resume
  generalize (k.task k.current).doing = d at hr
  cases d with
  | join t =>
    refine safe_joinLoop h hm fun w hl => ?_
    have hsource := ((h.expects _ w hl).resolve_left (by rw [hr.ready]; nofun)).1
    rw [hr.doing] at hsource
    exact (Option.some.inj hsource).symm
  | wait pid => exact safe_waitRound h hm hr nofun pid 0
  | pipeRead i n => exact safe_pipeRead h hr nofun i n
  | pipeWrite i n => exact safe_pipeWrite h hr nofun i n
  | mutex m => exact safe_mutexAcquire h hr nofun m
  | user | futex | send | receive | sleep => exact safe_return h hr nofun

/-! ## Sleep and messages -/

theorem safe_sleep (hr : Runs k .user) (hc : (k.task k.current).sleeping = true) (p : Tid → Bool) :
    Safe k (({ k with sleepers :=
      k.sleepers.takeWhile p ++ k.current :: k.sleepers.dropWhile p } :
        Kernel β).block.enter .sleep) := by
  have hnot := h.unlisted hr nofun
  have hsplit := takeWhile_append_dropWhile (p := p) (l := k.sleepers)
  have hmem : ∀ t, t ∈ k.sleepers.takeWhile p ++ k.current :: k.sleepers.dropWhile p →
      t = k.current ∨ t ∈ k.sleepers := by
    intro t ht
    rw [← hsplit]
    simp only [mem_append, mem_cons] at ht ⊢
    tauto
  have hnodup := h.dozing.1
  rw [← hsplit] at hnodup
  have hstill : Still k { k with
    sleepers := k.sleepers.takeWhile p ++ k.current :: k.sleepers.dropWhile p } :=
      { Still.refl k with }
  refine safe_waitUnlisted h hstill
    { (Eased.refl k : Eased (some .sleep) k k) with
      listed t w hl := ?_
      keeps _ _ _ := Or.inr ⟨rfl, rfl⟩
      dozing hd := ⟨nodup_middle.mpr (nodup_cons.mpr ⟨?_, hnodup⟩), fun t ht => ?_⟩ } rfl
    hnot
  · cases w with
    | sleep => exact (hmem t hl).elim (fun ht => Or.inr ⟨ht, rfl⟩) Or.inl
    | futex | send | receive | lock | join => exact Or.inl hl
  · rw [hsplit]
    exact hnot .sleep
  · rcases hmem t ht with rfl | ht
    · exact hc
    · exact hd.2 t ht

theorem safe_threadSleepTicks (hr : Runs k .user) (n : Nat) : Safe k (k.threadSleepTicks n) := by
  have hnot := h.unlisted hr nofun
  unfold Kernel.threadSleepTicks
  split
  · exact .refl h
  · dsimp only
    split
    · exact safe_waitUnlisted h (.refl k) (.refl k) rfl hnot
    · have h1 : Safe k (k.modifyTask k.current fun t =>
          { t with wakeTick := k.systemTicks + n, sleeping := true }) :=
        ⟨still_modifyTask k _ rfl,
          h.eased (eased_modifyTask k _ rfl (Or.inr (hnot .sleep)) Or.inl fun _ => Or.inl)⟩
      have hg := k.gentle_modifyTask k.current (f := fun t =>
        { t with wakeTick := k.systemTicks + n, sleeping := true }) rfl
      refine h1.trans (safe_sleep h1.settled (hg.runs hr) ?_ _)
      rw [modifyTask_task]
      exact congrArg Task.sleeping (if_pos rfl)

/-! ## Messages -/

omit h in
theorem setIpc_of_status {ipc : Threads β} (hs : ∀ t, (ipc t).status = (k.ipc t).status) :
    k.setIpc ipc = { k with ipc } := by
  unfold setIpc
  congr 1
  funext t
  refine if_neg ?_
  rintro ⟨hb, hr⟩
  cases hb.symm.trans ((hs t).symm.trans hr)

theorem safe_ipcWait (hr : Runs k .user) {ipc : Threads β}
    (hs : ∀ t, (ipc t).status = (k.ipc t).status) (hp : Posted ipc)
    (hsend : ∀ u, ∀ t ∈ (ipc u).ipcSenders,
      t ∈ (k.ipc u).ipcSenders ∨ t = k.current ∧ d.source = some .send)
    (hreceive : ∀ t, (ipc t).ipcReceiving = true →
      (k.ipc t).ipcReceiving = true ∨ t = k.current ∧ d.source = some .receive) :
    Safe k (((k.setIpc ipc).block).enter d) := by
  have hnot := h.unlisted hr nofun
  rw [setIpc_of_status hs]
  have hstill : Still k { k with ipc } := { Still.refl k with status t ht := (hs t).trans ht.2 }
  refine safe_waitUnlisted h hstill
    { (Eased.refl k : Eased d.source k k) with
      listed t w hl := ?_
      keeps t _ _ := Or.inr ⟨hs t, rfl⟩
      posted _ := hp } rfl hnot
  cases w with
  | send =>
    obtain ⟨u, hu⟩ := hl
    exact (hsend u t hu).imp_left fun hu => ⟨u, hu⟩
  | receive => exact hreceive t hl
  | futex | sleep | lock | join => exact Or.inl hl

theorem safe_ipcSend (hr : Runs k .user) (t : Tid) (body : β) : Safe k (k.ipcSend t body).2 := by
  have hnot := h.unlisted hr nofun
  unfold Kernel.ipcSend
  rcases ipcSend_cases k.ipc k.current t body with
    hfail | ⟨hne, -, pid, -, ⟨hrecv, -, hhand⟩ | hqueue⟩
  · rw [hfail]
    exact safe_setIpc h (.refl _) h.posted (fun _ _ => id) (fun _ => id) fun u _ hb hready =>
      nomatch hb.symm.trans hready
  · rw [hhand]
    have hpost : ∀ u, post (k.ipc.modify t (fun x => (x.accept ⟨pid, body⟩).unblock) u) =
        post (k.ipc u) := modify_proj post (post_unblock _)
    refine safe_setIpc h (.modify _ t (unblock_status _)) (h.posted.congr hpost)
      (fun d u hu => (congrArg (·.1) (hpost d) : _ = (k.ipc d).ipcSenders) ▸ hu) (fun u hu => ?_)
      fun u w hb hready hold hl => ?_
    · by_cases heq : u = t
      · exact heq ▸ hrecv
      · rwa [modify_of_ne _ heq] at hu
    · by_cases heq : u = t
      · subst heq
        cases h.only (t := u) (by rw [hb]; nofun) (w := .receive) hrecv hold
        have hgone : (k.ipc.modify u (fun x => (x.accept ⟨pid, body⟩).unblock) u).ipcReceiving =
            false := by
          rw [modify_self]
          exact congrArg (·.2) (mail_unblock _)
        cases hgone.symm.trans hl
      · rw [modify_of_ne _ heq] at hready
        exact nomatch hb.symm.trans hready
  · rw [hqueue]
    have hout : ∀ d, k.current ∉ (k.ipc d).ipcSenders := fun d hd => hnot .send ⟨d, hd⟩
    refine safe_ipcWait h hr (fun u => ?_) (h.posted.enqueue hout hne _)
      (fun d u hu => ?_) fun u hu => Or.inl ?_
    · exact (modify_proj Thread.status (by rfl) u).trans (modify_proj Thread.status (by rfl) u)
    · exact ((mem_enqueue hne _).mp hu).imp_right fun heq => ⟨heq.1, rfl⟩
    · rwa [modify_proj Thread.ipcReceiving (by rfl), modify_proj Thread.ipcReceiving (by rfl)] at hu

theorem safe_ipcReceive (hr : Runs k .user) (source : Int32) : Safe k (k.ipcReceive source).2 := by
  have hw := ipcReceive_woken k.ipc k.current source
  unfold Kernel.ipcReceive
  rcases ipcReceive_cases k.ipc k.current source with ⟨-, hwait⟩ | ⟨sender, hsender, -, htake⟩
  · rw [hwait]
    refine safe_ipcWait h hr (modify_proj Thread.status rfl)
      (h.posted.congr (modify_proj post rfl)) (fun d u hu => Or.inl ?_) fun u hu => ?_
    · rwa [modify_proj Thread.ipcSenders rfl] at hu
    · by_cases huc : u = k.current
      · exact Or.inr ⟨huc, rfl⟩
      · rw [modify_of_ne _ huc] at hu
        exact Or.inl hu
  · have hne : sender ≠ k.current := fun heq => h.posted.not_self k.current (heq ▸ hsender)
    rw [htake hne] at hw ⊢
    have hleft := h.posted.taken hsender
    refine safe_setIpc h hw (h.posted.left hleft) (fun d u hu => ((hleft.mem d u).mp hu).1)
      (fun u hu => ?_) fun u w hb hready hold hl => ?_
    · unfold taken at hu
      split at hu
      · next heq => exact heq ▸ hu
      · split at hu
        · next heq =>
          rw [Thread.unblock_status] at hu
          exact heq ▸ hu
        · exact hu
    · by_cases hus : u = sender
      · subst hus
        cases h.only (t := u) (by rw [hb]; nofun) (w := .send) ⟨_, hsender⟩ hold
        obtain ⟨d, hd⟩ := hl
        exact absurd rfl ((hleft.mem d u).mp hd).2
      · unfold taken at hready
        rw [if_neg hus] at hready
        split at hready
        · next heq => cases hb.symm.trans (heq ▸ hready)
        · cases hb.symm.trans hready

end

end Kernel

end OrangeOs.Proc
