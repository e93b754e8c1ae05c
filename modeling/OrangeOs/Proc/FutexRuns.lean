import OrangeOs.Proc.FutexQueues

/-! # Runs of threads that wait for futexes

A step that is no business of the futexes leaves every thread in a bucket asleep. `futex_wait`
queues a thread, `futex_wake` and the two cancellations take threads out, and the last step of
`process_exit` may wake a thread that is still queued: the main thread of the parent.
-/

namespace OrangeOs.Proc

open Ipc Function List Threads

namespace Kernel

variable {β : Type} {k k' : Kernel β} {q : Nat → List Tid} {t : Tid} {p : ProcId}

/-! ## Steps that leave the waiting threads alone -/

/-- `t` is in a bucket and BLOCKED. -/
def Asleep (k : Kernel β) (t : Tid) : Prop :=
  (k.futex.node t).waiting = true ∧ k.status t = .blocked

/-- Whoever is asleep in `k` is so in `k'`, and nobody else is in a bucket. -/
structure Still (k k' : Kernel β) : Prop where
  head : k'.futex.head = k.futex.head
  count : k'.futex.waiterCount = k.futex.waiterCount
  node : ∀ t, Asleep k t → k'.futex.node t = k.futex.node t
  idle : ∀ t, (k'.futex.node t).waiting = true → (k.futex.node t).waiting = true
  status : ∀ t, Asleep k t → k'.status t = .blocked
  task : ∀ t, Asleep k t → (k'.task t).process = (k.task t).process
  address : ∀ t p, Asleep k t → (k.task t).process = some p →
    (k'.proc p).address = (k.proc p).address
  nextTid : k.nextTid ≤ k'.nextTid

theorem Still.refl (k : Kernel β) : Still k k :=
  ⟨rfl, rfl, fun _ _ => rfl, fun _ h => h, fun _ h => h.2, fun _ _ => rfl, fun _ _ _ _ => rfl,
    Nat.le_refl _⟩

theorem Still.asleep (h : Still k k') (ht : Asleep k t) : Asleep k' t :=
  ⟨by rw [h.node t ht]; exact ht.1, h.status t ht⟩

theorem Still.trans {k'' : Kernel β} (h : Still k k') (h' : Still k' k'') : Still k k'' where
  head := h'.head.trans h.head
  count := h'.count.trans h.count
  node t ht := (h'.node t (h.asleep ht)).trans (h.node t ht)
  idle t ht := h.idle t (h'.idle t ht)
  status t ht := h'.status t (h.asleep ht)
  task t ht := (h'.task t (h.asleep ht)).trans (h.task t ht)
  address t p ht hp := (h'.address t p (h.asleep ht) ((h.task t ht).trans hp)).trans
    (h.address t p ht hp)
  nextTid := Nat.le_trans h.nextTid h'.nextTid

theorem Still.idle_eq (h : Still k k') (ht : (k.futex.node t).waiting = false) :
    (k'.futex.node t).waiting = false := by
  rw [← Bool.not_eq_true] at ht ⊢
  exact fun hw => ht (h.idle t hw)

theorem not_asleep_of_idle (h : (k.futex.node t).waiting = false) : ¬Asleep k t := by
  intro hs
  rw [hs.1] at h
  cases h

/-- The waiting threads are left alone, and every thread on a list is in the call it is for. -/
structure Safe (k k' : Kernel β) : Prop extends Still k k' where
  settled : Settled k'

theorem Safe.refl (h : Settled k) : Safe k k := ⟨.refl k, h⟩

theorem Safe.trans {k'' : Kernel β} (h : Safe k k') (h' : Safe k' k'') : Safe k k'' :=
  ⟨h.toStill.trans h'.toStill, h'.settled⟩

theorem Safe.foldl {α : Type} {f : Kernel β → α → Kernel β}
    (hf : ∀ k a, Settled k → Safe k (f k a)) (l : List α) (h : Settled k) :
    Safe k (l.foldl f k) := by
  induction l generalizing k with
  | nil => exact .refl h
  | cons a l ih => exact (hf k a h).trans (ih (hf k a h).settled)

theorem Queues.asleep (h : Queues k q) {b : Nat} (ht : t ∈ q b) : Asleep k t :=
  ⟨(h.chained.waiting b t ht).1, h.blocked b t ht⟩

theorem Queues.still (h : Queues k q) (hs : Still k k') : Queues k' q := by
  refine ⟨⟨fun b => ?_, h.chained.nodup, fun b t ht => ?_, fun t ht => ?_⟩,
    fun b t ht => hs.status t (h.asleep ht), fun b t ht => ?_, fun b t ht =>
      Nat.lt_of_lt_of_le (h.fresh b t ht) hs.nextTid, hs.count.trans h.count⟩
  · rw [hs.head]
    exact (h.chained.linked b).congr (fun t ht => by rw [hs.node t (h.asleep ht)])
      fun t ht => by rw [hs.node t (h.asleep ht)]
  · rw [hs.node t (h.asleep ht)]
    exact h.chained.waiting b t ht
  · have hmem := h.chained.queued t (hs.idle t ht)
    rw [hs.node t (h.asleep hmem)]
    exact hmem
  · obtain ⟨p, hnode, htask, hhash⟩ := h.process b t ht
    have hsleep := h.asleep ht
    refine ⟨p, by rw [hs.node t hsleep]; exact hnode, (hs.task t hsleep).trans htask, ?_⟩
    rw [hs.node t hsleep, hs.address t p hsleep htask]
    exact hhash

/-! ### Parts of steps -/

theorem still_modifyTask (k : Kernel β) (t : Tid) {f : Task → Task}
    (hp : (f (k.task t)).process = (k.task t).process) : Still k (k.modifyTask t f) :=
  { Still.refl k with task u _ := modifyTask_proj Task.process hp u }

theorem still_modifyIpc (k : Kernel β) (t : Tid) {f : Thread β → Thread β}
    (hs : Asleep k t → (f (k.ipc t)).status = .blocked) : Still k (k.modifyIpc t f) := by
  refine { Still.refl k with status u hu := ?_ }
  rw [modifyIpc_status]
  split
  · next heq =>
    rw [heq] at hu
    exact hs hu
  · exact hu.2

section Parts

variable (h : Settled k)
include h

theorem safe_modifyTask (t : Tid) {f : Task → Task}
    (hp : (f (k.task t)).process = (k.task t).process)
    (hf : lists (f (k.task t)) = lists (k.task t)) : Safe k (k.modifyTask t f) :=
  ⟨still_modifyTask k t hp, h.eased (eased_modifyTask_same k t hf)⟩

theorem safe_modifyProc (p : ProcId) {f : Process → Process}
    (ha : (f (k.proc p)).address = (k.proc p).address) : Safe k (k.modifyProc p f) :=
  ⟨{ Still.refl k with address _ r _ _ := modifyProc_proj Process.address ha r },
    h.eased { (Eased.refl k : Eased none k k) with }⟩

theorem safe_files (pipe : Nat → Pipe) (file : Nat → File) (n : Nat) :
    Safe k { k with pipe, file, nextFile := n } :=
  ⟨{ Still.refl k with }, h.eased { (Eased.refl k : Eased none k k) with }⟩

theorem safe_locked (locked : Nat → Bool) : Safe k { k with locked } :=
  ⟨{ Still.refl k with }, h.eased { (Eased.refl k : Eased none k k) with }⟩

theorem safe_timerCancel (t : Tid) : Safe k (k.timerCancelThreadSleep t) := by
  refine ⟨?_, h.eased (eased_timerCancel h.dozing t)⟩
  unfold timerCancelThreadSleep
  split
  · refine Still.trans ?_ (still_modifyTask _ t rfl)
    exact { Still.refl k with }
  · exact .refl k

/-! ### Wake-ups -/

/-- Some threads are made ready, and none of them is left on a list whose call would return. -/
theorem safe_setIpc {ipc : Threads β} (hw : Woken k.ipc ipc) (hp : Posted ipc)
    (hsend : ∀ d, ∀ t ∈ (ipc d).ipcSenders, t ∈ (k.ipc d).ipcSenders)
    (hreceive : ∀ t, (ipc t).ipcReceiving = true → (k.ipc t).ipcReceiving = true)
    (hfree : ∀ t w, k.status t = .blocked → (ipc t).status = .ready → Listed k t w →
      Listed (k.setIpc ipc) t w → w = .lock ∨ ∃ x, w = .join x) : Safe k (k.setIpc ipc) := by
  have hlists := setIpc_lists k ipc
  have hlisted : ∀ t w, Listed (k.setIpc ipc) t w → Listed k t w := fun t w hl =>
    hl.mono id id (fun d => hsend d t) (hreceive t) (hlists t).2.2 fun x hj =>
      (hlists x).1.symm.trans hj
  have hjoin : ∀ t w, k.status t = .blocked → (ipc t).status = .ready →
      Listed (k.setIpc ipc) t w → ∃ x, w = .join x := by
    intro t w hb hr hl
    refine (hfree t w hb hr (hlisted t w hl) hl).resolve_left ?_
    rintro rfl
    have hnone : ((k.setIpc ipc).task t).waitingLock = none := by
      simp only [setIpc]
      rw [if_pos ⟨hb, hr⟩]
    exact hl hnone
  have htask := (gentle_setIpc k hw).task
  refine ⟨{ Still.refl k with status t ht := ?_, task t _ := by rw [htask] },
    ⟨hp, ⟨h.dozing.1, fun t ht => (hlists t).2.1.trans (h.dozing.2 t ht)⟩, h.ring,
      fun t w hl => h.born t w (hlisted t w hl), fun t w hl => ?_⟩⟩
  · rcases hw t with hs | ⟨hb, hr⟩
    · exact hs.trans ht.2
    · obtain ⟨x, hx⟩ := hjoin t .futex hb hr ht.1
      cases hx
  · unfold Expects
    rw [htask]
    rcases h.expects t w (hlisted t w hl) with hz | ⟨hsource, hb⟩
    · exact Or.inl (((gentle_setIpc k hw).quiet.zombies t).mpr hz)
    · refine Or.inr ⟨hsource, ?_⟩
      rcases hw t with hs | ⟨hblocked, hr⟩
      · exact hb.imp_right fun hb => hs.trans hb
      · exact Or.inl (hjoin t w hblocked hr hl)

theorem safe_threadUnblock
    (hfree : ∀ w, k.status t = .blocked → Listed k t w → w = .lock ∨ ∃ x, w = .join x) :
    Safe k (k.threadUnblock t) := by
  have hmail : ∀ u, mail (k.ipc.modify t Thread.unblock u) = mail (k.ipc u) :=
    modify_proj mail (mail_unblock _)
  refine safe_setIpc h (.modify _ t (unblock_status _))
    (h.posted.congr fun u => congrArg (·.1) (hmail u))
    (fun d u hu => (congrArg (·.1.1) (hmail d) : _ = (k.ipc d).ipcSenders) ▸ hu)
    (fun u hu => (congrArg (·.2) (hmail u)).symm.trans hu) fun u w hb hr hold _ => ?_
  by_cases hu : u = t
  · subst hu
    exact hfree w hb hold
  · rw [modify_of_ne _ hu] at hr
    cases (show (k.ipc u).status = .blocked from hb).symm.trans hr

theorem safe_unblockListed (hl : Listed k t w) (hw : w = .lock ∨ ∃ x, w = .join x) :
    Safe k (k.threadUnblock t) :=
  safe_threadUnblock h fun w' hb hl' =>
    h.only (t := t) (by rw [hb]; nofun) hl hl' ▸ hw

theorem safe_ipcAbortThread (t : Tid) : Safe k (k.ipcAbortThread t) := by
  have hmem := (h.posted.abort t).mem
  have hreceive : ∀ u, (Ipc.ipcAbortThread k.ipc t u).ipcReceiving = true →
      (k.ipc u).ipcReceiving = true := by
    intro u hu
    rw [h.posted.abort_receiving] at hu
    split at hu
    · cases hu
    · exact hu
  refine safe_setIpc h (ipcAbortThread_woken _ t) (h.posted.left (h.posted.abort t))
    (fun d u hu => ((hmem d u).mp hu).1) hreceive fun u w hb hr hold hl => ?_
  -- the only threads woken are those that send to `t`, and they are in no other queue
  have hu : u ∈ (k.ipc t).ipcSenders := by
    by_contra hnot
    rw [h.posted.abort_apply, if_neg hnot, h.posted.leave_eq] at hr
    have hsame : (k.ipc u).status = .ready := by
      split at hr
      · next heq => exact heq ▸ hr
      · exact hr
    cases hsame.symm.trans hb
  cases h.only (t := u) (by rw [hb]; nofun) (w := .send) ⟨t, hu⟩ hold
  obtain ⟨d, hd⟩ := hl
  exact absurd (Or.inr hu) ((hmem d u).mp hd).2

end Parts

theorem discardThread_futex (k : Kernel β) (t : Tid) : (k.discardThread t).futex = k.futex := by
  obtain ⟨l, hl, -⟩ := removeFromScheduler_spec k t
  unfold discardThread threadFreeObject unlinkThreadFromProcess timerCancelThreadSleep
  rw [hl]
  split
  · split <;> rfl
  · split <;> split <;> rfl

theorem safe_discardThread (h : Settled k) (ht : ¬Asleep k t) : Safe k (k.discardThread t) := by
  have hd := discardThread_spec k t
  have hfutex := discardThread_futex k t
  have hne : ∀ {u}, Asleep k u → u ≠ t := fun hu heq => ht (heq ▸ hu)
  refine ⟨⟨by rw [hfutex], by rw [hfutex], fun _ _ => by rw [hfutex], fun u hu => hfutex ▸ hu,
    fun u hu => (hd.status u (hne hu)).trans hu.2, fun u hu => by rw [hd.task u (hne hu)],
    fun u p hu _ => ?_, Nat.le_of_eq hd.nextTid.symm⟩, h.eased (eased_discardThread h.dozing t)⟩
  rw [hd.proc]
  split <;> rfl

theorem not_asleep_of_zombie (h : k.status t = .zombie) : ¬Asleep k t :=
  fun hs => nomatch hs.2.symm.trans h

/-! ### Pipes, mutexes and the timer -/

section Wakes

variable (h : Settled k)
include h

theorem safe_wakePipeWaiters (i : Nat) : Safe k (k.wakePipeWaiters i) := by
  refine Safe.foldl (fun k t hk => ?_) _ h
  unfold wakeIfWaiting
  split
  · next hwait =>
    have hlock : Listed k t .lock := by
      intro hnone
      cases hwait.2.symm.trans hnone
    exact safe_unblockListed hk hlock (Or.inl rfl)
  · exact .refl hk

theorem safe_fileRelease (f : Nat) : Safe k (k.fileRelease f) := by
  have hpipe : ∀ i (g : Pipe → Pipe) (x : File → File),
      Safe k (((k.modifyFile f x).modifyPipe i g).wakePipeWaiters i) := fun i g x =>
    have hfiles : Safe k ((k.modifyFile f x).modifyPipe i g) := safe_files h _ _ k.nextFile
    hfiles.trans (safe_wakePipeWaiters hfiles.settled i)
  unfold fileRelease
  split
  · exact .refl h
  · dsimp only
    split
    · exact safe_files h k.pipe _ k.nextFile
    · exact hpipe ..

theorem safe_processCloseFiles (p : ProcId) : Safe k (k.processCloseFiles p) :=
  have hfiles : Safe k (k.modifyProc p fun x => { x with files := [] }) := safe_modifyProc h p rfl
  hfiles.trans (Safe.foldl (fun _ f hk => safe_fileRelease hk f) _ hfiles.settled)

theorem safe_pipeCreate (p : ProcId) : Safe k (k.pipeCreate p) := by
  have hfiles := safe_files h (update k.pipe k.nextFile ⟨1, 1, 0⟩) (update (update k.file k.nextFile
    ⟨1, .pipe .read k.nextFile⟩) (k.nextFile + 1) ⟨1, .pipe .write k.nextFile⟩) (k.nextFile + 2)
  unfold pipeCreate
  exact hfiles.trans (safe_modifyProc hfiles.settled p (by rfl))

theorem safe_fileClose (p : ProcId) (f : Nat) : Safe k (k.fileClose p f) := by
  unfold fileClose
  split
  · have hfiles : Safe k (k.modifyProc p fun x => { x with files := x.files.erase f }) :=
      safe_modifyProc h p rfl
    exact hfiles.trans (safe_fileRelease hfiles.settled f)
  · exact .refl h

theorem safe_mutexRelease (m : Nat) : Safe k (k.mutexRelease m) := by
  have hlocked := safe_locked h (update k.locked m false)
  unfold mutexRelease
  dsimp only
  split
  · next t ht =>
    have hwait := find?_some ht
    rw [decide_eq_true_eq] at hwait
    have hlock : Listed k t .lock := by
      intro hnone
      cases hwait.2.symm.trans hnone
    exact hlocked.trans (safe_unblockListed hlocked.settled (w := .lock) hlock (Or.inl rfl))
  · exact hlocked

theorem safe_wakeSleepers (l : List Tid)
    (hl : ∀ t ∈ l, t ∉ k.sleepers ∧ (k.status t = .zombie ∨ (k.task t).doing = .sleep)) :
    Safe k (l.foldl (fun k t =>
      (k.modifyTask t fun x => { x with sleeping := false }).threadUnblock t) k) := by
  induction l generalizing k with
  | nil => exact .refl h
  | cons t l ih =>
    obtain ⟨ht, hdoing⟩ := hl t mem_cons_self
    have h1 : Safe k (k.modifyTask t fun x => { x with sleeping := false }) :=
      ⟨still_modifyTask k t rfl,
        h.eased (eased_modifyTask k t rfl (Or.inr ht) Or.inl fun _ => Or.inl)⟩
    have hdoing1 : ∀ u, ((k.modifyTask t fun x => { x with sleeping := false }).task u).doing =
        (k.task u).doing := modifyTask_proj Task.doing rfl
    have hg := (k.gentle_modifyTask t (f := fun x => { x with sleeping := false }) rfl).trans
      (gentle_threadUnblock _ t)
    have h2 := h1.trans (safe_threadUnblock h1.settled fun w hb hlist => by
      have hz : k.status t ≠ .zombie := by rw [show k.status t = _ from hb]; nofun
      have hsource := ((h1.settled.expects t w hlist).resolve_left hz).1
      rw [hdoing1, hdoing.resolve_left hz] at hsource
      cases hsource
      exact absurd hlist ht)
    refine h2.trans (ih h2.settled fun u hu => ?_)
    obtain ⟨hnot, hd⟩ := hl u (mem_cons_of_mem _ hu)
    refine ⟨hnot, hd.imp (hg.quiet.zombies u).mpr fun hd => ?_⟩
    rw [hg.task u]
    exact hd

theorem safe_timerTick : Safe k k.timerTick := by
  unfold timerTick
  dsimp only
  generalize hdue : takeWhile (fun t => decide ((k.task t).wakeTick ≤ k.systemTicks + 1))
    k.sleepers = due
  have hsplit := takeWhile_append_dropWhile (l := k.sleepers)
    (p := fun t => decide ((k.task t).wakeTick ≤ k.systemTicks + 1))
  rw [hdue] at hsplit
  have hdrop : k.sleepers.drop due.length = k.sleepers.dropWhile
      fun t => decide ((k.task t).wakeTick ≤ k.systemTicks + 1) := by
    nth_rewrite 1 [← hsplit]
    exact drop_left
  have hnodup := h.dozing.1
  rw [← hsplit, ← hdrop] at hnodup
  have h1 : Safe k { k with
      systemTicks := k.systemTicks + 1, sleepers := k.sleepers.drop due.length } :=
    ⟨{ Still.refl k with }, h.eased { (Eased.refl k : Eased none k k) with
      listed t _ hlist := Or.inl (hlist.mono id (fun ht => drop_subset _ _ ht) (fun _ => id) id id
        fun _ => id)
      keeps _ _ _ := Or.inr ⟨rfl, rfl⟩
      dozing hd := ⟨hd.1.sublist (drop_sublist ..), fun t ht => hd.2 t (drop_subset _ _ ht)⟩ }⟩
  refine h1.trans (safe_wakeSleepers h1.settled due fun t ht => ⟨fun hlate => ?_, ?_⟩)
  · exact (nodup_append.mp hnodup).2.2 t ht t hlate rfl
  · have hmem : t ∈ k.sleepers := by
      rw [← hsplit]
      exact mem_append_left _ ht
    refine (h.expects t .sleep hmem).imp id fun hfits => ?_
    generalize (k.task t).doing = d at hfits
    cases d <;> cases hfits.1
    rfl

end Wakes

/-! ### Creation -/

theorem safe_allocProcess (h : Settled k) (hm : Members k) (address : UInt64) :
    Safe k (k.allocProcess address).2 := by
  refine ⟨{ Still.refl k with address u r _ hr := ?_ },
    h.eased { (Eased.refl k : Eased none k k) with }⟩
  have hother : (k.allocProcess address).2.proc r = k.proc r :=
    update_of_ne (Nat.ne_of_lt (hm.procFresh u r hr)) _ _
  rw [hother]

section Creation

variable [Inhabited β]

theorem safe_addThread (h : Settled k) (p : ProcId) :
    Safe k ((k.threadAllocForProcess p).2.threadAppend k.nextTid) := by
  have hnew : ∀ w, ¬Listed k k.nextTid w := fun w hl => Nat.lt_irrefl _ (h.born _ w hl)
  have ha := addThread_spec k p
  have hipc : ((k.threadAllocForProcess p).2.threadAppend k.nextTid).ipc =
      (k.threadAllocForProcess p).2.ipc := by
    obtain ⟨l, hl⟩ := threadAppend_rest (k.threadAllocForProcess p).2 k.nextTid
    rw [hl]
  have hmail : ∀ u, mail ((k.threadAllocForProcess p).2.ipc u) =
      if u = k.nextTid then (([], none, false), false) else mail (k.ipc u) := by
    intro u
    simp only [threadAllocForProcess, linkThreadToProcess, modifyIpc, modifyTask, modifyProc]
    split
    · next heq =>
      rw [heq, modify_self, update_self]
      rfl
    · next hne => rw [modify_of_ne _ hne, update_of_ne hne]
  have hsame : ((k.threadAllocForProcess p).2.threadAppend k.nextTid).futex =
        (k.futex.setNode k.nextTid fun _ => newWaiter) ∧
      ((k.threadAllocForProcess p).2.threadAppend k.nextTid).sleepers = k.sleepers := by
    unfold threadAppend
    split <;> exact ⟨rfl, rfl⟩
  generalize (k.threadAllocForProcess p).2.threadAppend k.nextTid = k' at *
  rw [← hipc] at hmail
  obtain ⟨hfutex, hsleepers⟩ := hsame
  have hpost : ∀ u, post (k'.ipc u) =
      if u = k.nextTid then ([], none, false) else post (k.ipc u) := by
    intro u
    refine (congrArg (·.1) (hmail u)).trans ?_
    split <;> rfl
  have hnode : ∀ u, k'.futex.node u = if u = k.nextTid then newWaiter else k.futex.node u := by
    intro u
    rw [hfutex]
    exact update_apply ..
  have hlisted : ∀ t w, Listed k' t w → Listed k t w := by
    refine fun t w hl => hl.mono (fun hw => ?_) (fun hs => hsleepers ▸ hs) (fun d hd => ?_)
      (fun hr => ?_) (fun hn => ?_) fun x hj => ?_
    · rw [hnode] at hw
      split at hw
      · cases hw
      · exact hw
    · have hd : t ∈ (post (k'.ipc d)).1 := hd
      rw [hpost] at hd
      split at hd
      · cases hd
      · exact hd
    · have hr : (mail (k'.ipc t)).2 = true := hr
      rw [hmail] at hr
      split at hr
      · cases hr
      · exact hr
    · rw [ha.task]
      split
      · rfl
      · exact hn
    · rw [ha.task] at hj
      split at hj
      · cases hj
      · exact hj
  have hold : ∀ {t w}, Listed k' t w → t ≠ k.nextTid := by
    rintro t w hl rfl
    exact hnew w (hlisted _ w hl)
  have hne : ∀ {u}, Asleep k u → u ≠ k.nextTid := by
    rintro u hu rfl
    exact hnew .futex hu.1
  refine ⟨⟨by rw [hfutex]; rfl, by rw [hfutex]; rfl, fun u hu => ?_, fun u => hlisted u .futex,
    fun u hu => ?_, fun u hu => ?_, fun u r _ _ => ?_, by rw [ha.nextTid]; exact Nat.le_succ _⟩,
    h.eased ⟨fun t w hl => Or.inl (hlisted t w hl), fun t w hl => Or.inr ⟨?_, ?_⟩, fun hp => ?_,
      fun hd => ?_, fun hr t ht => ?_, by rw [ha.nextTid]; exact Nat.le_succ _⟩⟩
  · rw [hnode, if_neg (hne hu)]
  · rw [ha.status, if_neg (hne hu)]
    exact hu.2
  · rw [ha.task, if_neg (hne hu)]
  · rw [ha.proc]
    split
    · next heq => rw [heq]; rfl
    · rfl
  · rw [ha.status, if_neg (hold hl)]
  · rw [ha.task, if_neg (hold hl)]
  · refine ⟨fun t => ?_, fun {t d} ht => ?_, fun t => ?_, fun t => ?_⟩
    · rw [hpost]
      split
      · exact nodup_nil
      · exact hp.nodup t
    · have hnext := hold (t := t) (w := .send) ⟨d, ht⟩
      rw [hpost] at ht ⊢
      rw [if_neg hnext]
      split at ht
      · cases ht
      · exact hp.queued ht
    · rw [hpost]
      split
      · rfl
      · exact hp.sending t
    · rw [hpost]
      split
      · intro hself
        cases hself
      · exact hp.self t
  · refine ⟨hsleepers ▸ hd.1, fun t ht => ?_⟩
    rw [ha.task, if_neg (hold (t := t) (w := .sleep) ht)]
    exact hd.2 t (hsleepers ▸ ht)
  · rw [ha.nextTid]
    rcases (ha.ring t).mp ht with rfl | ht
    · exact Nat.lt_succ_self _
    · exact Nat.lt_succ_of_lt (hr t ht)

end Creation

theorem Reap.safe (r : Reap k k') (h : Settled k) : Safe k k' := by
  cases r with
  | task t hsame => exact safe_modifyTask h t (by rw [hsame]) (by rw [hsame]; rfl)
  | proc p ha _ _ => exact safe_modifyProc h p ha
  | procs p => exact ⟨{ Still.refl k with }, h.eased { (Eased.refl k : Eased none k k) with }⟩
  | discard hz => exact safe_discardThread h (not_asleep_of_zombie hz)

theorem Edit.safe (e : Edit k k') (hm : Members k) (h : Settled k) : Safe k k' := by
  cases e with
  | reap r => exact r.safe h
  | retain f =>
    unfold fileRetain
    dsimp only
    split <;> exact safe_files h _ _ k.nextFile
  | alloc address => exact safe_allocProcess h hm address
  | add _ => exact safe_addThread h _
  | switch hring =>
    exact ⟨{ Still.refl k with }, h.eased { (Eased.refl k : Eased none k k) with
      listed _ _ := Or.inl
      ring hr t ht := hr t (hring t ht) }⟩

theorem Edits.safe (e : Edits k k') (hm : Members k) (h : Settled k) : Safe k k' := by
  induction e with
  | refl => exact .refl h
  | tail hfirst hlast ih =>
    have hmoved : Moved (fun _ => False) (fun _ => False) (fun _ => False) k _ :=
      Edits.moved hfirst hm
    exact ih.trans (hlast.safe hmoved.members ih.settled)

end Kernel

end OrangeOs.Proc
