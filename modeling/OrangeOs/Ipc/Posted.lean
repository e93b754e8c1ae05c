import OrangeOs.Ipc.Rendezvous

/-! # Who waits in which queue

A thread is in the queue of the thread it sends to, once, and in no other. Sending, receiving and
aborting keep it so, for all threads at once or for those that are in a queue.
-/

namespace OrangeOs.Ipc

open List Threads

variable {β : Type} {s s' : Threads β} {t u d : Tid} {L : Tid → Prop}

/-- The senders queued for a thread, the one it sends to, and whether it sends. -/
def post (x : Thread β) : List Tid × Option Tid × Bool :=
  (x.ipcSenders, x.ipcWaitingFor, x.ipcSending)

/-- A queue holds threads that send to its own. -/
structure Posted (s : Threads β) : Prop where
  nodup : ∀ d, (post (s d)).1.Nodup
  queued : ∀ {t d}, t ∈ (post (s d)).1 → (post (s t)).2.1 = some d
  sending : ∀ t, (post (s t)).2.2 = (post (s t)).2.1.isSome
  self : ∀ t, (post (s t)).2.1 ≠ some t

/-- Whoever sends is in the queue. -/
def Held (s : Threads β) : Prop := ∀ t d, (post (s t)).2.1 = some d → t ∈ (post (s d)).1

/-- From `s` to `s'` the threads in `L` leave the queues they are in. -/
structure Left (L : Tid → Prop) (s s' : Threads β) : Prop where
  nodup : ∀ d, (post (s d)).1.Nodup → (post (s' d)).1.Nodup
  mem : ∀ d u, u ∈ (post (s' d)).1 ↔ u ∈ (post (s d)).1 ∧ ¬L u
  rest : ∀ u, ¬L u ∧ (post (s' u)).2 = (post (s u)).2 ∨ L u ∧ (post (s' u)).2 = (none, false)

theorem Thread.unblock_status (th : Thread β) :
    th.unblock = { th with status := if th.status = .blocked then .ready else th.status } := by
  unfold unblock
  split <;> rfl

theorem post_unblock (x : Thread β) : post x.unblock = post x := by
  unfold Thread.unblock
  split <;> rfl

theorem Posted.init (h : ∀ t, post (s t) = ([], none, false)) : Posted s := by
  refine ⟨fun d => ?_, fun {t d} ht => ?_, fun t => ?_, fun t => ?_⟩
  all_goals simp only [h] at *
  · exact nodup_nil
  · cases ht
  · rfl
  · nofun

theorem Posted.congr (h : Posted s) (hpost : ∀ t, post (s' t) = post (s t)) : Posted s' := by
  refine ⟨fun d => ?_, fun {t d} ht => ?_, fun t => ?_, fun t => ?_⟩
  all_goals rw [hpost] at *
  · exact h.nodup d
  · exact h.queued ht
  · exact h.sending t
  · exact h.self t

theorem Held.congr (h : Held s) (hpost : ∀ t, post (s' t) = post (s t)) : Held s' := by
  intro t d ht
  rw [hpost] at ht ⊢
  exact h t d ht

theorem Posted.not_queued (h : Posted s) (ht : (s t).ipcSending = false) (d : Tid) :
    t ∉ (s d).ipcSenders := by
  intro hmem
  have hsend : (s t).ipcSending = (s t).ipcWaitingFor.isSome := h.sending t
  rw [ht, show (s t).ipcWaitingFor = some d from h.queued hmem] at hsend
  cases hsend

theorem Posted.not_self (h : Posted s) (t : Tid) : t ∉ (s t).ipcSenders :=
  fun hmem => h.self t (h.queued hmem)

theorem post_enqueue (hd : d ≠ t) (m : Message β) (u : Tid) :
    post (((s.modify t fun x => x.startSending m d).modify d fun x => x.enqueueSender t) u) =
      (if u = d then (s u).ipcSenders ++ [t] else (s u).ipcSenders,
        if u = t then (some d, true) else ((s u).ipcWaitingFor, (s u).ipcSending)) := by
  by_cases hud : u = d
  · subst hud
    rw [modify_self, modify_of_ne _ hd, if_pos rfl, if_neg hd]
    rfl
  · rw [modify_of_ne _ hud, if_neg hud]
    by_cases hut : u = t
    · rw [hut, modify_self, if_pos rfl]
      rfl
    · rw [modify_of_ne _ hut, if_neg hut]
      rfl

theorem mem_enqueue (hd : d ≠ t) (m : Message β) {r : Tid} : u ∈ (post (((s.modify t fun x =>
      x.startSending m d).modify d fun x => x.enqueueSender t) r)).1 ↔
    u ∈ (post (s r)).1 ∨ u = t ∧ r = d := by
  rw [post_enqueue hd]
  by_cases hr : r = d
  · simp [hr, post]
  · simp [hr, post]

theorem Posted.enqueue (h : Posted s) (hout : ∀ d, t ∉ (s d).ipcSenders) (hd : d ≠ t)
    (m : Message β) :
    Posted ((s.modify t fun x => x.startSending m d).modify d fun x => x.enqueueSender t) := by
  have hpost := post_enqueue (s := s) hd m
  refine ⟨fun r => ?_, fun {u r} hu => ?_, fun u => ?_, fun u => ?_⟩
  · rw [hpost]
    dsimp only
    split
    · exact (h.nodup r).append (nodup_singleton t) (disjoint_singleton.mpr (hout r))
    · exact h.nodup r
  · rw [hpost]
    dsimp only
    rcases (mem_enqueue hd m).mp hu with hold | ⟨rfl, rfl⟩
    · rw [if_neg (by rintro rfl; exact hout r hold)]
      exact h.queued hold
    · rw [if_pos rfl]
  all_goals
    rw [hpost]
    dsimp only
    split
  · rfl
  · exact h.sending u
  · next heq => exact fun hself => hd ((Option.some.inj hself).trans heq)
  · exact h.self u

theorem Held.enqueue (h : Held s) (hd : d ≠ t) (m : Message β) :
    Held ((s.modify t fun x => x.startSending m d).modify d fun x => x.enqueueSender t) := by
  intro u r hu
  rw [post_enqueue hd] at hu
  refine (mem_enqueue hd m).mpr ?_
  dsimp only at hu
  split at hu
  · next heq => exact Or.inr ⟨heq, (Option.some.inj hu).symm⟩
  · exact Or.inl (h u r hu)

theorem Posted.left (h : Posted s) (hl : Left L s s') : Posted s' := by
  refine ⟨fun d => hl.nodup d (h.nodup d), fun {u d} hu => ?_, fun u => ?_, fun u => ?_⟩
  all_goals rcases hl.rest u with ⟨hsame, hrest⟩ | ⟨hgone, hrest⟩ <;> rw [hrest]
  · exact h.queued ((hl.mem d u).mp hu).1
  · exact absurd hgone ((hl.mem d u).mp hu).2
  · exact h.sending u
  · rfl
  · exact h.self u
  · nofun

theorem Held.left (h : Held s) (hl : Left L s s') : Held s' := by
  intro u d hu
  rcases hl.rest u with ⟨hstay, hrest⟩ | ⟨-, hrest⟩
  · rw [hrest] at hu
    exact (hl.mem d u).mpr ⟨h u d hu, hstay⟩
  · rw [hrest] at hu
    cases hu

/-- What `ipc_receive` by `t` leaves when it takes the message of `u`. -/
def taken (s : Threads β) (t u : Tid) : Threads β := fun x =>
  if x = t then ((s t).removeSender u).setFilter ipcAny
  else if x = u then ((s u).endSending 0).unblock else s x

theorem ipcReceive_cases (s : Threads β) (t : Tid) (filter : Int32) :
    (dequeueMatchingSender (s.modify t (Thread.setFilter filter)) t = none ∧
      ipcReceive s t filter =
        (none, s.modify t fun x => { x.setFilter filter with ipcReceiving := true })) ∨
    ∃ u ∈ (s t).ipcSenders,
      dequeueMatchingSender (s.modify t (Thread.setFilter filter)) t = some u ∧
      (u ≠ t → ipcReceive s t filter = (some (s u).ipcMessage, taken s t u)) := by
  unfold ipcReceive taken
  dsimp only
  cases hq : dequeueMatchingSender (s.modify t (Thread.setFilter filter)) t with
  | none =>
    refine Or.inl ⟨rfl, ?_⟩
    rw [modify_modify]
  | some u =>
    refine Or.inr ⟨u, ?_, rfl, fun hut => ?_⟩
    · unfold dequeueMatchingSender at hq
      rw [modify_self] at hq
      exact mem_of_find?_eq_some hq
    · dsimp only
      rw [modify_of_ne _ hut]
      refine congrArg (Prod.mk _) (funext fun x => ?_)
      by_cases hxt : x = t
      · subst hxt
        rw [modify_self, modify_of_ne _ hut.symm, modify_self, modify_self, if_pos rfl]
        rfl
      · rw [modify_of_ne _ hxt, if_neg hxt]
        by_cases hxu : x = u
        · subst hxu
          rw [modify_self, modify_of_ne _ hxt, modify_of_ne _ hxt, if_pos rfl]
        · rw [modify_of_ne _ hxu, modify_of_ne _ hxt, modify_of_ne _ hxt, if_neg hxu]

theorem Posted.taken (h : Posted s) (hu : u ∈ (s t).ipcSenders) : Left (· = u) s (taken s t u) := by
  have hut : u ≠ t := fun heq => h.not_self t (heq ▸ hu)
  have hpost : ∀ x, post (Ipc.taken s t u x) =
      (if x = t then (s x).ipcSenders.erase u else (s x).ipcSenders,
        if x = u then (none, false) else (post (s x)).2) := by
    intro x
    unfold Ipc.taken
    by_cases hxt : x = t
    · subst hxt
      rw [if_pos rfl, if_pos rfl, if_neg hut.symm]
      rfl
    · rw [if_neg hxt, if_neg hxt]
      by_cases hxu : x = u
      · subst hxu
        rw [if_pos rfl, if_pos rfl]
        exact post_unblock _
      · rw [if_neg hxu, if_neg hxu]
        rfl
  refine ⟨fun d hnodup => ?_, fun d x => ?_, fun x => ?_⟩
  all_goals rw [hpost]
  · dsimp only
    split
    · exact hnodup.erase u
    · exact hnodup
  · by_cases hd : d = t
    · rw [if_pos hd]
      exact (h.nodup d).mem_erase_iff.trans and_comm
    · rw [if_neg hd]
      refine ⟨fun hx => ⟨hx, ?_⟩, And.left⟩
      rintro rfl
      exact hd (Option.some.inj ((h.queued hx).symm.trans (h.queued hu)))
  · by_cases hxu : x = u
    · exact Or.inr ⟨hxu, if_pos hxu⟩
    · exact Or.inl ⟨hxu, if_neg hxu⟩

theorem Posted.abort_apply (h : Posted s) (t u : Tid) : ipcAbortThread s t u =
    if u = t then (s t).abort
    else if u ∈ (s t).ipcSenders then
      (((s u).leave t u (s t).ipcWaitingFor).endSending (-1)).unblock
    else (s u).leave t u (s t).ipcWaitingFor :=
  ipcAbortThread_apply (h.nodup t) (h.not_self t) (h.self t) (h.sending t) u

theorem Posted.leave_eq (h : Posted s) (t u : Tid) : (s u).leave t u (s t).ipcWaitingFor =
    { s u with ipcSenders := (s u).ipcSenders.erase t } := by
  unfold Thread.leave
  split
  · rfl
  · next hne =>
    have hnot : t ∉ (s u).ipcSenders := fun hmem => hne (h.queued hmem)
    rw [erase_of_not_mem hnot]

theorem Posted.post_abort (h : Posted s) (t u : Tid) : post (ipcAbortThread s t u) =
    if u = t then ([], none, false)
    else ((s u).ipcSenders.erase t,
      if u ∈ (s t).ipcSenders then (none, false)
      else ((s u).ipcWaitingFor, (s u).ipcSending)) := by
  rw [h.abort_apply, h.leave_eq]
  split
  · rfl
  · split
    · exact post_unblock _
    · rfl

theorem Posted.abort_receiving (h : Posted s) (t u : Tid) :
    (ipcAbortThread s t u).ipcReceiving = if u = t then false else (s u).ipcReceiving := by
  rw [h.abort_apply, h.leave_eq, Thread.unblock_status]
  split
  · rfl
  · split <;> rfl

theorem Posted.abort (h : Posted s) (t : Tid) :
    Left (fun u => u = t ∨ u ∈ (s t).ipcSenders) s (ipcAbortThread s t) := by
  refine ⟨fun d hnodup => ?_, fun d u => ?_, fun u => ?_⟩
  all_goals rw [h.post_abort]
  · split
    · exact nodup_nil
    · exact hnodup.erase t
  · by_cases hd : d = t
    · rw [if_pos hd, hd]
      exact iff_of_false not_mem_nil fun hmem => hmem.2 (Or.inr hmem.1)
    · rw [if_neg hd]
      refine (h.nodup d).mem_erase_iff.trans ⟨fun hu => ⟨hu.2, ?_⟩, fun hu =>
        ⟨fun heq => hu.2 (Or.inl heq), hu.1⟩⟩
      rintro (heq | ht)
      · exact hu.1 heq
      · exact hd (Option.some.inj ((h.queued hu.2).symm.trans (h.queued ht)))
  · split
    · next heq => exact Or.inr ⟨Or.inl heq, rfl⟩
    · next hne =>
      dsimp only
      split
      · next hmem => exact Or.inr ⟨Or.inr hmem, rfl⟩
      · next hmem => exact Or.inl ⟨not_or.mpr ⟨hne, hmem⟩, rfl⟩

end OrangeOs.Ipc
