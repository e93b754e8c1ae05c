import OrangeOs.Ipc.Ledger
import OrangeOs.Ipc.Posted

/-! # Threads and phases

What the fields of the threads say about the phases of the ledger, and that sending,
receiving and aborting keep it so.
-/

namespace OrangeOs.Ipc

open Function List Thread Threads

variable {β : Type}

/-- The fields of a thread that is in a phase. -/
def Fits (th : Thread (Tagged β)) : Phase β → Prop
  | .outside => th.status = .ready ∧ th.ipcSending = false ∧ th.ipcReceiving = false ∧
      th.ipcWaitingFor = none
  | .sending w c none => th.status = (if w then .blocked else .ready) ∧ th.ipcSending = true ∧
      th.ipcReceiving = false ∧ th.ipcWaitingFor = some c.dst ∧ th.ipcMessage = c.message ∧
      th.ipcStatus = 0
  | .sending w _ (some r) => th.status ≠ .zombie ∧ (w = false → th.status = .ready) ∧
      th.ipcSending = false ∧ th.ipcReceiving = false ∧ th.ipcWaitingFor = none ∧
      th.ipcStatus = r
  | .receiving w f none => th.status = (if w then .blocked else .ready) ∧ th.ipcSending = false ∧
      th.ipcReceiving = true ∧ th.ipcWaitingFor = none ∧ th.ipcReceiveFrom = f ∧ th.ipcStatus = 0
  | .receiving w _ (some c) => w = true ∧ th.status = .ready ∧ th.ipcSending = false ∧
      th.ipcReceiving = false ∧ th.ipcWaitingFor = none ∧ th.ipcMessage = c.message ∧
      th.ipcStatus = 0
  | .gone => th.status = .zombie ∧ th.ipcSending = false ∧ th.ipcReceiving = false ∧
      th.ipcWaitingFor = none

structure Wired (threads : Threads (Tagged β)) (phase : Tid → Phase β) : Prop where
  fits : ∀ t, Fits (threads t) (phase t)
  posted : Posted threads
  held : Held threads
  pid : ∀ {t w c out}, phase t = .sending w c out →
    c.pid = (threads t).process.getD 0 ∧ c.dst ≠ t

variable {th : Thread (Tagged β)} {p : Phase β} {c : Call β} {w : Bool} {t : Tid}

theorem Fits.waiting (h : Fits th p) (d : Tid) :
    th.ipcWaitingFor = some d ↔ ∃ w c, p = .sending w c none ∧ c.dst = d := by
  match p, h with
  | .outside, ⟨_, _, _, h1⟩ | .sending _ _ none, ⟨_, _, _, h1, _⟩
  | .sending _ _ (some _), ⟨_, _, _, _, h1, _⟩ | .receiving _ _ none, ⟨_, _, _, h1, _⟩
  | .receiving _ _ (some _), ⟨_, _, _, _, h1, _⟩ | .gone, ⟨_, _, _, h1⟩ => simp [h1]

theorem Fits.receiving (h : Fits th p) (hr : th.ipcReceiving = true) :
    ∃ w, p = .receiving w th.ipcReceiveFrom none ∧
      th.status = if w then .blocked else .ready := by
  match p, h with
  | .outside, ⟨_, _, h1, _⟩ | .sending _ _ none, ⟨_, _, h1, _⟩ | .gone, ⟨_, _, h1, _⟩
  | .sending _ _ (some _), ⟨_, _, _, h1, _⟩ | .receiving _ _ (some _), ⟨_, _, _, h1, _⟩ =>
    cases h1.symm.trans hr
  | .receiving w f none, ⟨h1, _, _, _, h2, _⟩ => exact ⟨w, by rw [h2], h1⟩

theorem Fits.setSenders {th' : Thread (Tagged β)} (h : Fits th p)
    (hsame : th' = { th with ipcSenders := th'.ipcSenders }) : Fits th' p := by
  rw [hsame]
  match p, h with
  | .outside, h | .sending _ _ none, h | .sending _ _ (some _), h | .receiving _ _ none, h
  | .receiving _ _ (some _), h | .gone, h => exact h

theorem Fits.accept {f : Int32} (h : Fits th (.receiving true f none)) :
    Fits ((th.accept c.message).unblock) (.receiving true f (some c)) := by
  obtain ⟨h1, h2, -, h4, -, h6⟩ := h
  rw [unblock_status]
  exact ⟨rfl, by simp [Thread.accept, h1], h2, rfl, h4, rfl, h6⟩

theorem Fits.startSending (h : Fits th .outside) :
    Fits (th.startSending c.message c.dst) (.sending false c none) := by
  obtain ⟨h1, -, h3, -⟩ := h
  exact ⟨h1, rfl, h3, rfl, rfl, rfl⟩

theorem Fits.endSending (r : Int) (h : Fits th (.sending w c none)) :
    Fits ((th.endSending r).unblock) (.sending w c (some r)) := by
  obtain ⟨h1, -, h3, -⟩ := h
  rw [unblock_status]
  have hs : (th.endSending r).status = if w then .blocked else .ready := h1
  cases w with
  | false => exact ⟨by simp [hs], fun _ => by simp [hs], rfl, h3, rfl, rfl⟩
  | true => exact ⟨by simp [hs], by simp, rfl, h3, rfl, rfl⟩

/-! ## Steps -/

theorem Fits.unblock (h : Fits th p) (hsend : th.ipcSending = false)
    (hrecv : th.ipcReceiving = false) : Fits th.unblock p := by
  rw [unblock_status]
  match p, h with
  | .outside, ⟨h1, h2⟩ => exact ⟨by simp [h1], h2⟩
  | .sending _ _ none, ⟨_, h1, _⟩ => cases h1.symm.trans hsend
  | .sending w _ (some _), ⟨h1, h2, h3⟩ =>
    refine ⟨?_, fun hw => by simp [h2 hw], h3⟩
    by_cases hb : th.status = .blocked
    · simp [hb]
    · simp [hb, h1]
  | .receiving _ _ none, ⟨_, _, h1, _⟩ => cases h1.symm.trans hrecv
  | .receiving _ _ (some _), ⟨hw, h1, h2⟩ => exact ⟨hw, by simp [h1], h2⟩
  | .gone, ⟨h1, h2⟩ => exact ⟨by simp [h1], h2⟩

theorem Fits.abort (h : Fits th p) (hsend : th.ipcSending = false)
    (hrecv : th.ipcReceiving = false) : Fits th.abort p := by
  match p, h with
  | .outside, ⟨h1, _⟩ => exact ⟨h1, rfl, rfl, rfl⟩
  | .sending _ _ none, ⟨_, h1, _⟩ => cases h1.symm.trans hsend
  | .sending _ _ (some _), ⟨h1, h2, _, _, _, h3⟩ => exact ⟨h1, h2, rfl, rfl, rfl, h3⟩
  | .receiving _ _ none, ⟨_, _, h1, _⟩ => cases h1.symm.trans hrecv
  | .receiving _ _ (some _), ⟨hw, h1, _, _, _, h2, h3⟩ => exact ⟨hw, h1, rfl, rfl, rfl, h2, h3⟩
  | .gone, ⟨h1, _⟩ => exact ⟨h1, rfl, rfl, rfl⟩

section Wiring

variable {threads threads' : Threads (Tagged β)} {phase phase' : Tid → Phase β}
  (h : Wired threads phase)
include h

theorem Wired.queued {d : Tid} :
    t ∈ (threads d).ipcSenders ↔ ∃ w c, phase t = .sending w c none ∧ c.dst = d :=
  ⟨fun ht => ((h.fits t).waiting d).mp (h.posted.queued ht),
    fun hc => h.held t d (((h.fits t).waiting d).mpr hc)⟩

theorem Wired.replace (hthreads : ∀ u, u ≠ t → threads' u = threads u)
    (hphases : ∀ u, u ≠ t → phase' u = phase u) (hfits : Fits (threads' t) (phase' t))
    (hpost : post (threads' t) = post (threads t))
    (hproc : (threads' t).process = (threads t).process)
    (hpid : ∀ {w c out}, phase' t = .sending w c out → ∃ w' out', phase t = .sending w' c out') :
    Wired threads' phase' := by
  have hposts : ∀ u, post (threads' u) = post (threads u) := by
    intro u
    by_cases hu : u = t
    · rw [hu, hpost]
    · rw [hthreads u hu]
  refine ⟨fun u => ?_, h.posted.congr hposts, h.held.congr hposts, ?_⟩
  · by_cases hu : u = t
    · rw [hu]
      exact hfits
    · rw [hthreads u hu, hphases u hu]
      exact h.fits u
  · intro u w c out hu
    by_cases hut : u = t
    · subst hut
      obtain ⟨w', out', hwas⟩ := hpid hu
      rw [hproc]
      exact h.pid hwas
    · rw [hphases u hut] at hu
      rw [hthreads u hut]
      exact h.pid hu

theorem Wired.edit (t : Tid) (f : Thread (Tagged β) → Thread (Tagged β))
    (hfits : Fits (f (threads t)) p) (hpost : post (f (threads t)) = post (threads t))
    (hproc : (f (threads t)).process = (threads t).process)
    (hpid : ∀ {w c out}, p = .sending w c out → ∃ w' out', phase t = .sending w' c out') :
    Wired (threads.modify t f) (update phase t p) := by
  refine h.replace (t := t) (fun u hu => modify_of_ne _ hu _)
    (fun u hu => update_of_ne hu _ _) ?_ ?_ ?_ ?_
  all_goals simp only [modify_self, update_self]
  · exact hfits
  · exact hpost
  · exact hproc
  · exact hpid

theorem Wired.outside (hready : (threads t).status = .ready)
    (hsend : (threads t).ipcSending = false) (hrecv : (threads t).ipcReceiving = false)
    (hwait : (threads t).ipcWaitingFor = none) :
    Wired threads (update phase t .outside) := by
  refine h.replace (t := t) (fun _ _ => rfl) (fun u hu => update_of_ne hu _ _) ?_ rfl rfl ?_
  all_goals rw [update_self]
  · exact ⟨hready, hsend, hrecv, hwait⟩
  · simp

theorem Wired.enqueue (ht : phase t = .outside) (hdt : c.dst ≠ t)
    (hpid : c.pid = (threads t).process.getD 0) :
    Wired ((threads.modify t fun x => x.startSending c.message c.dst).modify c.dst fun x =>
      x.enqueueSender t) (update phase t (.sending false c none)) := by
  have hout := h.fits t
  rw [ht] at hout
  refine ⟨fun u => ?_, h.posted.enqueue (h.posted.not_queued hout.2.1) hdt _, h.held.enqueue hdt _,
    fun {u w x out} hu => ?_⟩
  · by_cases hud : u = c.dst
    · rw [hud, modify_self, modify_of_ne _ hdt, update_of_ne hdt]
      exact (h.fits _).setSenders rfl
    · rw [modify_of_ne _ hud]
      by_cases hut : u = t
      · rw [hut, modify_self, update_self]
        exact Fits.startSending hout
      · rw [modify_of_ne _ hut, update_of_ne hut]
        exact h.fits u
  · rw [modify_proj Thread.process (by rfl), modify_proj Thread.process (by rfl)]
    by_cases hut : u = t
    · subst hut
      rw [update_self] at hu
      cases hu
      exact ⟨hpid, hdt⟩
    · rw [update_of_ne hut] at hu
      exact h.pid hu

theorem Wired.dequeue {u : Tid} (ht : phase t = .outside) (hu : phase u = .sending w c none)
    (hdst : c.dst = t) : Wired (taken threads t u) (update phase u (.sending w c (some 0))) := by
  have hut : u ≠ t := fun heq => (h.pid hu).2 (hdst.trans heq.symm)
  have hleft := h.posted.taken (h.queued.mpr ⟨w, c, hu, hdst⟩)
  refine ⟨fun x => ?_, h.posted.left hleft, h.held.left hleft, fun {x w' x' out} hx => ?_⟩
  · unfold taken
    by_cases hxu : x = u
    · rw [hxu, if_neg hut, if_pos rfl, update_self]
      exact Fits.endSending 0 (hu ▸ h.fits u)
    · rw [update_of_ne hxu, if_neg hxu]
      split
      · next hxt =>
        have hout := h.fits t
        rw [ht] at hout
        rw [hxt, ht]
        exact hout
      · exact h.fits x
  · have hproc : (taken threads t u x).process = (threads x).process := by
      unfold taken
      rw [unblock_status]
      split
      · next heq => rw [heq]; rfl
      · split
        · next heq => rw [heq]; rfl
        · rfl
    rw [hproc]
    by_cases hxu : x = u
    · subst hxu
      rw [update_self] at hx
      cases hx
      exact h.pid hu
    · rw [update_of_ne hxu] at hx
      exact h.pid hx

theorem Wired.abort (hself : Fits (threads' t) (phase' t))
    (hpost : post (threads' t) = ([], none, false))
    (hproc : (threads' t).process = (threads t).process)
    (hpid : ∀ {w c out}, phase' t = .sending w c out → ∃ w' out', phase t = .sending w' c out')
    (hthreads : ∀ u, u ≠ t → threads' u = ipcAbortThread threads t u)
    (hphases : ∀ u, u ≠ t → phase' u = (phase u).refuse t) : Wired threads' phase' := by
  have happly : ∀ u, u ≠ t → threads' u =
      if u ∈ (threads t).ipcSenders then
        (({ threads u with
          ipcSenders := (threads u).ipcSenders.erase t } : Thread (Tagged β)).endSending (-1)).unblock
      else { threads u with ipcSenders := (threads u).ipcSenders.erase t } := by
    intro u hu
    rw [hthreads u hu, h.posted.abort_apply, if_neg hu, h.posted.leave_eq]
  have hprocs : ∀ u, (threads' u).process = (threads u).process := by
    intro u
    by_cases hu : u = t
    · rw [hu, hproc]
    · rw [happly u hu, unblock_status]
      split <;> rfl
  have hposts : ∀ u, post (threads' u) = post (ipcAbortThread threads t u) := by
    intro u
    by_cases hu : u = t
    · rw [hu, hpost, h.posted.post_abort, if_pos rfl]
    · rw [hthreads u hu]
  have hleft := h.posted.abort t
  refine ⟨fun u => ?_, (h.posted.left hleft).congr hposts, (h.held.left hleft).congr hposts,
    fun {u w c out} hu => ?_⟩
  · by_cases hu : u = t
    · rw [hu]
      exact hself
    · have hleft : Fits { threads u with ipcSenders := (threads u).ipcSenders.erase t } (phase u) :=
        (h.fits u).setSenders rfl
      rw [happly u hu, hphases u hu]
      split
      · next hmem =>
        obtain ⟨w, c, hc, hdst⟩ := h.queued.mp hmem
        rw [hc] at hleft ⊢
        rw [Phase.refuse, if_pos hdst]
        exact hleft.endSending (-1)
      · next hmem =>
        rw [Phase.refuse_eq_self fun w c hc hdst => hmem (h.queued.mpr ⟨w, c, hc, hdst⟩)]
        exact hleft
  · rw [hprocs]
    by_cases hut : u = t
    · subst hut
      obtain ⟨w', out', hwas⟩ := hpid hu
      exact h.pid hwas
    · rw [hphases u hut] at hu
      obtain ⟨out', hwas, -⟩ := Phase.refuse_eq_sending hu
      exact h.pid hwas

end Wiring

end OrangeOs.Ipc
