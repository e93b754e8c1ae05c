import OrangeOs.Ipc.Posted
import OrangeOs.Proc.Moves

/-! # Where wake-ups find threads

A call that blocks leaves its thread on the list of whatever is to wake it: a futex bucket, the
sleepers, the senders of a thread, or a field of a thread. While every thread on a list is in the
call the list is for, no wake-up meets a thread that waits for something else.
-/

namespace OrangeOs.Proc

open Ipc List Threads

/-- What wakes threads from a list. -/
inductive Source where
  | futex
  | sleep
  | send
  | receive
  | lock
  | join (target : Tid)

/-- The list for a call; the exit of a child finds its parent without one. -/
def Doing.source : Doing → Option Source
  | .user | .wait _ => none
  | .join t => some (.join t)
  | .futex => some .futex
  | .send => some .send
  | .receive => some .receive
  | .pipeRead .. | .pipeWrite .. | .mutex _ => some .lock
  | .sleep => some .sleep

/-- The call returns after `thread_block`, whoever has woken the thread. -/
def Doing.returns : Doing → Bool
  | .futex | .send | .receive | .sleep => true
  | _ => false

def mail {β : Type} (x : Thread β) : (List Tid × Option Tid × Bool) × Bool :=
  (post x, x.ipcReceiving)

theorem mail_unblock {β : Type} (x : Thread β) : mail x.unblock = mail x := by
  unfold Thread.unblock
  split <;> rfl

namespace Kernel

variable {β : Type} {k k' : Kernel β} {t : Tid} {w : Source} {D : Option Source}

theorem setIpc_lists (k : Kernel β) (ipc : Threads β) (u : Tid) :
    ((k.setIpc ipc).task u).joinWaiter = (k.task u).joinWaiter ∧
      ((k.setIpc ipc).task u).sleeping = (k.task u).sleeping ∧
      ((k.task u).waitingLock = none → ((k.setIpc ipc).task u).waitingLock = none) := by
  simp only [setIpc]
  split
  · exact ⟨rfl, rfl, fun _ => rfl⟩
  · exact ⟨rfl, rfl, id⟩

/-- `t` is on the list of a source. -/
def Listed (k : Kernel β) (t : Tid) : Source → Prop
  | .futex => (k.futex.node t).waiting = true
  | .sleep => t ∈ k.sleepers
  | .send => ∃ d, t ∈ (k.ipc d).ipcSenders
  | .receive => (k.ipc t).ipcReceiving = true
  | .lock => (k.task t).waitingLock ≠ none
  | .join x => (k.task x).joinWaiter = some t

theorem Listed.mono (hl : Listed k' t w)
    (hfutex : (k'.futex.node t).waiting = true → (k.futex.node t).waiting = true)
    (hsleep : t ∈ k'.sleepers → t ∈ k.sleepers)
    (hsend : ∀ d, t ∈ (k'.ipc d).ipcSenders → t ∈ (k.ipc d).ipcSenders)
    (hreceive : (k'.ipc t).ipcReceiving = true → (k.ipc t).ipcReceiving = true)
    (hlock : (k.task t).waitingLock = none → (k'.task t).waitingLock = none)
    (hjoin : ∀ x, (k'.task x).joinWaiter = some t → (k.task x).joinWaiter = some t) :
    Listed k t w := by
  cases w with
  | futex => exact hfutex hl
  | sleep => exact hsleep hl
  | send => exact hl.imp hsend
  | receive => exact hreceive hl
  | lock => exact hl ∘ hlock
  | join x => exact hjoin x hl

/-- `t` is dead, or BLOCKED in the call that the list is for; `thread_join` looks again, and its
thread may be ready. -/
def Expects (k : Kernel β) (t : Tid) (w : Source) : Prop :=
  k.status t = .zombie ∨
    (k.task t).doing.source = some w ∧ ((∃ x, w = .join x) ∨ k.status t = .blocked)

/-- The sleepers are marked as such. -/
def Dozing (k : Kernel β) : Prop :=
  k.sleepers.Nodup ∧ ∀ t ∈ k.sleepers, (k.task t).sleeping = true

/-- Every thread on a list expects it, and numbers that have not been given out are on none. -/
structure Settled (k : Kernel β) : Prop where
  posted : Posted k.ipc
  dozing : Dozing k
  ring : ∀ t ∈ k.current :: k.others, t < k.nextTid
  born : ∀ t w, Listed k t w → t < k.nextTid
  expects : ∀ t w, Listed k t w → Expects k t w

theorem Settled.only (h : Settled k) (hz : k.status t ≠ .zombie) {w' : Source}
    (hl : Listed k t w) (hl' : Listed k t w') : w' = w :=
  Option.some.inj ((((h.expects t w' hl').resolve_left hz).1).symm.trans
    ((h.expects t w hl).resolve_left hz).1)

/-- The current thread runs in the call `d`. -/
structure Runs (k : Kernel β) (d : Doing) : Prop where
  ready : k.status k.current = .ready
  doing : (k.task k.current).doing = d

theorem Settled.unlisted (h : Settled k) {d : Doing} (hr : Runs k d) (hd : ∀ x, d ≠ .join x)
    (w : Source) : ¬Listed k k.current w := by
  intro hl
  rcases h.expects _ w hl with hz | ⟨hsource, ⟨x, rfl⟩ | hb⟩
  · cases hr.ready.symm.trans hz
  · rw [hr.doing] at hsource
    cases d <;> cases hsource
    exact hd x rfl
  · cases hr.ready.symm.trans hb

/-! ## Changes that wake nobody -/

/-- From `k` to `k'` threads leave lists and may end, and the current one may be put on the
list `D`. -/
structure Eased (D : Option Source) (k k' : Kernel β) : Prop where
  listed : ∀ t w, Listed k' t w → Listed k t w ∨ t = k'.current ∧ D = some w
  keeps : ∀ t w, Listed k' t w → k'.status t = .zombie ∨
    k'.status t = k.status t ∧ (k'.task t).doing = (k.task t).doing
  posted : Posted k.ipc → Posted k'.ipc
  dozing : Dozing k → Dozing k'
  ring : (∀ t ∈ k.current :: k.others, t < k.nextTid) → ∀ t ∈ k'.current :: k'.others, t < k'.nextTid
  nextTid : k.nextTid ≤ k'.nextTid

theorem Eased.still_listed (e : Eased none k k') (hl : Listed k' t w) : Listed k t w :=
  (e.listed t w hl).resolve_right fun hd => nomatch hd.2

theorem Settled.eased (h : Settled k) (e : Eased none k k') : Settled k' := by
  refine ⟨e.posted h.posted, e.dozing h.dozing, e.ring h.ring, fun t w hl => ?_, fun t w hl => ?_⟩
  · exact Nat.lt_of_lt_of_le (h.born t w (e.still_listed hl)) e.nextTid
  · rcases e.keeps t w hl with hz | ⟨hs, hd⟩
    · exact Or.inl hz
    · unfold Expects
      rw [hs, hd]
      exact h.expects t w (e.still_listed hl)

theorem Eased.refl (k : Kernel β) : Eased D k k :=
  ⟨fun _ _ => Or.inl, fun _ _ _ => Or.inr ⟨rfl, rfl⟩, id, id, id, Nat.le_refl _⟩

theorem Eased.trans {k'' : Kernel β} (e : Eased none k k') (e' : Eased none k' k'') :
    Eased none k k'' where
  listed t w hl := Or.inl (e.still_listed (e'.still_listed hl))
  keeps t w hl := by
    rcases e'.keeps t w hl with hz | ⟨hs, hd⟩
    · exact Or.inl hz
    · rw [hs, hd]
      exact e.keeps t w (e'.still_listed hl)
  posted := e'.posted ∘ e.posted
  dozing := e'.dozing ∘ e.dozing
  ring := e'.ring ∘ e.ring
  nextTid := Nat.le_trans e.nextTid e'.nextTid

def lists (x : Task) : Option Tid × Option Lock × Bool × Doing :=
  (x.joinWaiter, x.waitingLock, x.sleeping, x.doing)

theorem eased_same (hfutex : k'.futex = k.futex) (hsleepers : k'.sleepers = k.sleepers)
    (hmail : ∀ t, mail (k'.ipc t) = mail (k.ipc t))
    (hlists : ∀ t, lists (k'.task t) = lists (k.task t))
    (hstatus : ∀ t, k'.status t = .zombie ∨ k'.status t = k.status t)
    (hring : ∀ t ∈ k'.current :: k'.others, t ∈ k.current :: k.others)
    (hnext : k'.nextTid = k.nextTid) : Eased none k k' := by
  simp only [mail, post, Prod.mk.injEq] at hmail
  simp only [lists, Prod.mk.injEq] at hlists
  refine ⟨fun t w hl => Or.inl ?_,
    fun t _ _ => (hstatus t).imp_right fun hs => ⟨hs, (hlists t).2.2.2⟩,
    fun hp => hp.congr fun t => ?_, fun hd => ⟨?_, fun t ht => ?_⟩,
    fun hr t ht => hnext ▸ hr t (hring t ht), Nat.le_of_eq hnext.symm⟩
  · refine hl.mono ?_ ?_ (fun d => ?_) ?_ ?_ fun x => ?_
    · rw [hfutex]
      exact id
    · rw [hsleepers]
      exact id
    · rw [(hmail d).1.1]
      exact id
    · rw [(hmail t).2]
      exact id
    · rw [(hlists t).2.1]
      exact id
    · rw [(hlists x).1]
      exact id
  · simp only [post, hmail]
  · rw [hsleepers]
    exact hd.1
  · rw [hsleepers] at ht
    rw [(hlists t).2.2.1]
    exact hd.2 t ht

/-- A change of one thread's fields, which may put the current thread on the list for a lock or
for the end of the thread. -/
theorem eased_modifyTask (k : Kernel β) (t : Tid) {f : Task → Task}
    (hd : (f (k.task t)).doing = (k.task t).doing)
    (hs : (f (k.task t)).sleeping = (k.task t).sleeping ∨ t ∉ k.sleepers)
    (hlock : (f (k.task t)).waitingLock ≠ none →
      (k.task t).waitingLock ≠ none ∨ t = k.current ∧ D = some .lock)
    (hjoin : ∀ u, (f (k.task t)).joinWaiter = some u →
      (k.task t).joinWaiter = some u ∨ u = k.current ∧ D = some (.join t)) :
    Eased D k (k.modifyTask t f) := by
  refine { (Eased.refl k : Eased D k k) with
    listed u w hl := ?_
    keeps u _ _ := Or.inr ⟨rfl, modifyTask_proj Task.doing hd u⟩
    dozing hdoze := ⟨hdoze.1, fun u hu => ?_⟩ }
  · cases w with
    | futex | sleep | send | receive => exact Or.inl hl
    | lock =>
      have hl : ((k.modifyTask t f).task u).waitingLock ≠ none := hl
      rw [modifyTask_task] at hl
      split at hl
      · next heq =>
        subst heq
        exact hlock hl
      · exact Or.inl hl
    | join x =>
      have hl : ((k.modifyTask t f).task x).joinWaiter = some u := hl
      rw [modifyTask_task] at hl
      split at hl
      · next heq =>
        subst heq
        exact hjoin u hl
      · exact Or.inl hl
  · rw [modifyTask_task]
    split
    · next heq =>
      subst heq
      exact (hs.resolve_right fun hnot => hnot hu).trans (hdoze.2 u hu)
    · exact hdoze.2 u hu

theorem eased_modifyTask_same (k : Kernel β) (t : Tid) {f : Task → Task}
    (hf : lists (f (k.task t)) = lists (k.task t)) : Eased none k (k.modifyTask t f) :=
  eased_same rfl rfl (fun _ => rfl) (modifyTask_proj lists hf) (fun _ => Or.inr rfl) (fun _ => id) rfl

theorem eased_modifyIpc (k : Kernel β) (t : Tid) {f : Thread β → Thread β}
    (hf : mail (f (k.ipc t)) = mail (k.ipc t))
    (hs : (f (k.ipc t)).status = .zombie ∨ (f (k.ipc t)).status = (k.ipc t).status) :
    Eased none k (k.modifyIpc t f) := by
  refine eased_same rfl rfl (modify_proj mail hf) (fun _ => rfl) (fun u => ?_) (fun _ => id) rfl
  rw [modifyIpc_status]
  split
  · next heq => exact heq ▸ hs
  · exact Or.inr rfl

theorem timerCancel_unlisted (k : Kernel β) (hd : Dozing k) (t : Tid) :
    t ∉ (k.timerCancelThreadSleep t).sleepers := by
  unfold timerCancelThreadSleep
  split
  · exact fun ht => (hd.1.mem_erase_iff.mp ht).1 rfl
  · next hs => exact fun ht => hs (hd.2 t ht)

theorem eased_timerCancel (hd : Dozing k) (t : Tid) :
    Eased none k (k.timerCancelThreadSleep t) := by
  unfold timerCancelThreadSleep
  split
  · have hnot : t ∉ k.sleepers.erase t := fun ht => (hd.1.mem_erase_iff.mp ht).1 rfl
    refine Eased.trans ?_ (eased_modifyTask _ t rfl (Or.inr hnot) Or.inl fun _ => Or.inl)
    exact { (Eased.refl k : Eased none k k) with
      listed _ _ hl := Or.inl (hl.mono id mem_of_mem_erase (fun _ => id) id id fun _ => id)
      keeps _ _ _ := Or.inr ⟨rfl, rfl⟩
      dozing hd := ⟨hd.1.erase t, fun u hu => hd.2 u (mem_of_mem_erase hu)⟩ }
  · exact .refl k

theorem eased_unlinkThread (k : Kernel β) (t : Tid) :
    Eased none k (k.unlinkThreadFromProcess t) := by
  have hlinks : ∀ k : Kernel β, Eased none k ((k.modifyTask t fun x =>
      { x with process := none }).modifyIpc t fun x => { x with process := none }) := fun k =>
    (eased_modifyTask_same k t rfl).trans (eased_modifyIpc _ t rfl (Or.inr rfl))
  unfold unlinkThreadFromProcess
  split
  · exact .refl k
  · split
    · refine Eased.trans ?_ (hlinks _)
      exact { (Eased.refl k : Eased none k k) with }
    · exact hlinks k

theorem eased_discardThread (hd : Dozing k) (t : Tid) : Eased none k (k.discardThread t) := by
  have hring : Eased none k (k.threadRemoveFromScheduler t) := by
    unfold threadRemoveFromScheduler
    split
    · exact .refl k
    · exact { (Eased.refl k : Eased none k k) with
        ring hr u hu := hr u (cons_subset_cons _ erase_subset hu) }
  have hzombie := hring.trans (eased_modifyIpc _ t (f := fun x => { x with status := .zombie }) rfl
    (Or.inl rfl))
  unfold discardThread threadFreeObject
  exact ((hzombie.trans (eased_timerCancel (hzombie.dozing hd) t)).trans
    (eased_unlinkThread _ t)).trans (eased_modifyTask_same _ t (by rfl))

end Kernel

end OrangeOs.Proc
