import OrangeOs.Ipc.Wiring
import OrangeOs.Lib.Machine

/-! # Exactly-once delivery

Threads call `ipc_send` and `ipc_receive`, give up the CPU, are woken and return,
exit or are told to exit, in any order. Every step is a move of the ledger, so
messages are delivered once and reported truthfully, as long as three things do
not happen: a receiver waits with the status of an older call, a message is handed
to a thread before it has blocked, or a thread is woken in an undecided call.
-/

namespace OrangeOs.Ipc

open Machine Function Thread Threads

variable {β : Type}

/-- The threads, and the account that the code does not keep. -/
structure System (β : Type) where
  threads : Threads (Tagged β)
  ledger : Ledger β

/-- A call of `ipc_send` by `t`. -/
def System.newCall (s : System β) (t d : Tid) (body : β) : Call β :=
  ⟨s.ledger.log.calls.length, t, d, (s.threads t).process.getD 0, body⟩

theorem System.newCall_dst (s : System β) (t d : Tid) (body : β) : (s.newCall t d body).dst = d := rfl

theorem System.newCall_message {s : System β} {t d : Tid} {body : β} {pid : UInt32}
    (h : (s.threads t).process = some pid) :
    (s.newCall t d body).message = ⟨pid, ⟨(s.newCall t d body).id, body⟩⟩ := by
  rw [Call.message, System.newCall, h]
  rfl

/-- The receiver of a call that returned 0 at once. -/
def Ledger.handTo (L : Ledger β) (c : Call β) (r : Int) : Ledger β :=
  match r, L.phase c.dst with
  | 0, .receiving w f _ => L.setPhase c.dst (.receiving w f (some c))
  | _, _ => L

/-- The sender whose message was taken. -/
def Ledger.settle (L : Ledger β) (sender : Option Tid) : Ledger β :=
  match sender with
  | none => L
  | some u =>
    match L.phase u with
    | .sending w c _ => L.setPhase u (.sending w c (some 0))
    | _ => L

theorem Ledger.handTo_zero {phase : Tid → Phase β} {log : Log β} {c : Call β} {w : Bool}
    {f : Int32} {got : Option (Call β)} (h : phase c.dst = .receiving w f got) :
    Ledger.handTo ⟨phase, log⟩ c 0 =
      Ledger.setPhase ⟨phase, log⟩ c.dst (.receiving w f (some c)) := by
  unfold Ledger.handTo
  dsimp only
  rw [h]
  rfl

theorem Ledger.settle_some {phase : Tid → Phase β} {log : Log β} {u : Tid} {w : Bool} {c : Call β}
    {out : Option Int} (h : phase u = .sending w c out) :
    Ledger.settle ⟨phase, log⟩ (some u) =
      Ledger.setPhase ⟨phase, log⟩ u (.sending w c (some 0)) := by
  unfold Ledger.settle
  dsimp only
  rw [h]

inductive Action (β : Type) where
  | send (t d : Tid) (body : β)
  | receive (t : Tid) (filter : Int32)
  | block (t : Tid)
  | resume (t : Tid)
  | exit (t : Tid)
  | kill (t : Tid)
  | finish (t : Tid)
  | wake (t : Tid)

def System.send (s : System β) (t d : Tid) (body : β) : System β :=
  match s.ledger.phase t with
  | .outside =>
    let c := s.newCall t d body
    let log := s.ledger.log.addCall c
    match ipcSend s.threads t (some d) (some ⟨c.id, body⟩) with
    | (some r, threads) =>
      ⟨threads, { s.ledger with log := log.addResult c.id r }.handTo c r⟩
    | (none, threads) =>
      ⟨threads, { s.ledger with log := log }.setPhase t (.sending false c none)⟩
  | _ => s

def System.receive (s : System β) (t : Tid) (filter : Int32) : System β :=
  match s.ledger.phase t with
  | .outside =>
    let sender := dequeueMatchingSender (s.threads.modify t (Thread.setFilter filter)) t
    match ipcReceive s.threads t filter with
    | (some message, threads) =>
      ⟨threads, { s.ledger with
        log := s.ledger.log.addReceipt ⟨t, filter, message⟩ }.settle sender⟩
    | (none, threads) => ⟨threads, s.ledger.setPhase t (.receiving false filter none)⟩
  | _ => s

/-- `thread_block` sets the status; between the release of `ipc_lock` and this other
threads may run. -/
def System.block (s : System β) (t : Tid) : System β :=
  match s.ledger.phase t with
  | .sending false c out =>
    ⟨s.threads.modify t Thread.block, s.ledger.setPhase t (.sending true c out)⟩
  | .receiving false f got =>
    ⟨s.threads.modify t Thread.block, s.ledger.setPhase t (.receiving true f got)⟩
  | _ => s

/-- A thread that is not blocked any more returns from its call. -/
def System.resume (s : System β) (t : Tid) : System β :=
  if (s.threads t).status = .ready then
    match s.ledger.phase t with
    | .sending true c _ =>
      { s with ledger := { s.ledger with
        log := s.ledger.log.addResult c.id (ipcSendResult (s.threads t)) }.setPhase t .outside }
    | .receiving true f _ =>
      match ipcReceiveResult (s.threads t) with
      | .error _ => { s with ledger := s.ledger.setPhase t .outside }
      | .ok message =>
        { s with ledger := { s.ledger with
          log := s.ledger.log.addReceipt ⟨t, f, message⟩ }.setPhase t .outside }
    | _ => s
  else s

/-- `thread_exit_with_status` on itself, or `process_exit` on another thread of the
process. -/
def System.exit (s : System β) (t : Tid) : System β :=
  ⟨(ipcAbortThread s.threads t).modify t fun th => { th with status := .zombie },
    { s.ledger with phase := fun u => (s.ledger.phase u).refuse t }.setPhase t .gone⟩

/-- `request_process_termination` on a thread of the process, or `process_exit` on itself:
the thread goes on until it exits. -/
def System.kill (s : System β) (t : Tid) : System β :=
  ⟨(ipcAbortThread s.threads t).modify t Thread.unblock,
    { s.ledger with phase := fun u => (s.ledger.phase u).refuse t }⟩

/-- The end of `process_exit`, after the files of the process have been closed. -/
def System.finish (s : System β) (t : Tid) : System β :=
  match s.ledger.phase t with
  | .outside => ⟨s.threads.modify t fun th => { th with status := .zombie },
      s.ledger.setPhase t .gone⟩
  | _ => s

/-- `thread_unblock` by another part of the kernel. -/
def System.wake (s : System β) (t : Tid) : System β :=
  { s with threads := s.threads.modify t Thread.unblock }

def Action.apply (s : System β) : Action β → System β
  | .send t d body => s.send t d body
  | .receive t filter => s.receive t filter
  | .block t => s.block t
  | .resume t => s.resume t
  | .exit t => s.exit t
  | .kill t => s.kill t
  | .finish t => s.finish t
  | .wake t => s.wake t

/-- The thread is not waiting for a message to be taken or to arrive. -/
def Thread.decided (th : Thread β) : Prop := th.ipcSending = false ∧ th.ipcReceiving = false

def Allowed (s : System β) : Action β → Prop
  | .send t d _ => (s.threads d).ipcReceiving = true →
      sourceMatches (s.threads d) (s.threads t) = true → (s.threads d).status = .blocked
  | .receive t filter =>
    dequeueMatchingSender (s.threads.modify t (Thread.setFilter filter)) t = none →
      (s.threads t).ipcStatus = 0
  | .kill t => (s.threads t).decided
  | .wake t => (s.threads t).decided
  | _ => True

/-! ## Steps -/

/-- A step that is a move and keeps the threads wired. -/
structure Good (s s' : System β) : Prop where
  move : Move s.ledger s'.ledger
  wired : Wired s'.threads s'.ledger.phase

section Steps

variable {s : System β} (h : Wired s.threads s.ledger.phase)
include h

theorem Wired.send {t d : Tid} {body : β} (hallowed : Allowed s (.send t d body)) :
    Good s (s.send t d body) := by
  unfold System.send
  cases ht : s.ledger.phase t with
  | sending | receiving | gone => exact ⟨.stay, h⟩
  | outside =>
    dsimp only
    rcases ipcSend_cases s.threads t d ⟨(s.newCall t d body).id, body⟩ with
      hfail | ⟨hdt, -, pid, hpid, ⟨hrecv, hsource, hhand⟩ | hqueue⟩
    · rw [hfail]
      exact ⟨.reject _ _ rfl (by decide), h⟩
    · obtain ⟨w, hphase, hstatus⟩ := (h.fits d).receiving hrecv
      have hw : w = true := by
        cases w with
        | true => rfl
        | false => cases hstatus.symm.trans (hallowed hrecv hsource)
      subst hw
      have hto : s.ledger.phase (s.newCall t d body).dst =
          .receiving true (s.threads d).ipcReceiveFrom none := hphase
      rw [hhand, ← System.newCall_message hpid]
      dsimp only
      rw [Ledger.handTo_zero hto]
      refine ⟨.hand _ _ rfl hto hsource, ?_⟩
      dsimp only [Ledger.setPhase, System.newCall_dst]
      refine h.edit d _ (Fits.accept (hphase ▸ h.fits d)) (post_unblock _) ?_ (by simp)
      rw [unblock_status]
      rfl
    · rw [hqueue, ← System.newCall_message hpid]
      refine ⟨.queue (s.newCall t d body) rfl ht, ?_⟩
      dsimp only
      exact h.enqueue (c := s.newCall t d body) ht hdt rfl

theorem Wired.dequeued {t u : Tid} {filter : Int32}
    (hu : dequeueMatchingSender (s.threads.modify t (setFilter filter)) t = some u) :
    ∃ w c, s.ledger.phase u = .sending w c none ∧ c.dst = t ∧ u ≠ t ∧
      (s.threads u).ipcMessage = c.message ∧ admits filter c.pid = true := by
  unfold dequeueMatchingSender at hu
  rw [modify_self] at hu
  obtain ⟨w, c, hc, hdst⟩ := h.queued.mp (List.mem_of_find?_eq_some hu)
  have hfits := h.fits u
  rw [hc] at hfits
  obtain ⟨hpid, hne⟩ := h.pid hc
  have hut : u ≠ t := fun heq => hne (hdst.trans heq.symm)
  have hadm := List.find?_some hu
  rw [modify_of_ne _ hut, sourceMatches, ← hpid] at hadm
  exact ⟨w, c, hc, hdst, hut, hfits.2.2.2.2.1, hadm⟩

theorem Wired.receive {t : Tid} {filter : Int32} (hallowed : Allowed s (.receive t filter)) :
    Good s (s.receive t filter) := by
  unfold System.receive
  cases ht : s.ledger.phase t with
  | sending | receiving | gone => exact ⟨.stay, h⟩
  | outside =>
    dsimp only
    rcases ipcReceive_cases s.threads t filter with ⟨hq, hwait⟩ | ⟨u, -, hq, htake⟩
    · rw [hwait]
      refine ⟨.wait t filter ht, ?_⟩
      dsimp only [Ledger.setPhase]
      refine h.edit t _ ?_ rfl rfl (by simp)
      have hfits := h.fits t
      rw [ht] at hfits
      obtain ⟨h1, h2, -, h4⟩ := hfits
      exact ⟨h1, h2, rfl, h4, rfl, hallowed hq⟩
    · obtain ⟨w, c, hc, hdst, hut, hmsg, hadm⟩ := h.dequeued hq
      rw [htake hut, hq, hmsg]
      dsimp only
      rw [Ledger.settle_some hc]
      exact ⟨.take t u filter w c hc hdst hadm, h.dequeue ht hc hdst⟩

theorem Wired.block {t : Tid} : Good s (s.block t) := by
  have hfits := h.fits t
  unfold System.block
  cases ht : s.ledger.phase t with
  | outside | gone => exact ⟨.stay, h⟩
  | sending w c out =>
    cases w with
    | true => exact ⟨.stay, h⟩
    | false =>
      refine ⟨.blockSender t c out ht, h.edit t _ ?_ rfl rfl ?_⟩
      · rw [ht] at hfits
        cases out with
        | none =>
          obtain ⟨-, h2, h3, h4, h5, h6⟩ := hfits
          exact ⟨rfl, h2, h3, h4, h5, h6⟩
        | some r =>
          obtain ⟨-, -, h2, h3, h4, h5⟩ := hfits
          exact ⟨by simp [Thread.block], by simp, h2, h3, h4, h5⟩
      · intro w' c' out' heq
        cases heq
        exact ⟨_, _, ht⟩
  | receiving w f got =>
    cases w with
    | true => exact ⟨.stay, h⟩
    | false =>
      rw [ht] at hfits
      cases got with
      | some c => cases hfits.1
      | none =>
        refine ⟨.blockReceiver t f ht, h.edit t _ ?_ rfl rfl (by simp)⟩
        obtain ⟨-, h2, h3, h4, h5, h6⟩ := hfits
        exact ⟨rfl, h2, h3, h4, h5, h6⟩

theorem Wired.resume {t : Tid} : Good s (s.resume t) := by
  have hfits := h.fits t
  unfold System.resume
  split
  · next hready =>
    cases ht : s.ledger.phase t with
    | outside | gone => exact ⟨.stay, h⟩
    | sending w c out =>
      rw [ht] at hfits
      cases w with
      | false => exact ⟨.stay, h⟩
      | true =>
        cases out with
        | none => cases hfits.1.symm.trans hready
        | some r =>
          obtain ⟨-, -, h2, h3, h4, h5⟩ := hfits
          rw [ipcSendResult, h5]
          exact ⟨.finishSend t c r ht, h.outside hready h2 h3 h4⟩
    | receiving w f got =>
      rw [ht] at hfits
      cases w with
      | false => exact ⟨.stay, h⟩
      | true =>
        cases got with
        | none => cases hfits.1.symm.trans hready
        | some c =>
          obtain ⟨-, -, h2, h3, h4, h5, h6⟩ := hfits
          have hr : ipcReceiveResult (s.threads t) = .ok c.message := by
            rw [ipcReceiveResult, if_neg (by simp [h6]), h5]
          rw [hr]
          exact ⟨.finishReceive t f c ht, h.outside hready h2 h3 h4⟩
  · exact ⟨.stay, h⟩

theorem Wired.abort_self (t : Tid) : ipcAbortThread s.threads t t = (s.threads t).abort := by
  rw [h.posted.abort_apply, if_pos rfl]

theorem Wired.exit {t : Tid} : Good s (s.exit t) := by
  refine ⟨.exit t, h.abort (t := t) ?_ ?_ ?_ ?_ ?_ ?_⟩
  all_goals dsimp only [System.exit, Ledger.setPhase]
  · rw [modify_self, update_self, h.abort_self]
    exact ⟨rfl, rfl, rfl, rfl⟩
  · rw [modify_self, h.abort_self]
    rfl
  · rw [modify_self, h.abort_self]
    rfl
  · simp
  · exact fun u hu => modify_of_ne _ hu _
  · exact fun u hu => update_of_ne hu _ _

theorem Wired.kill {t : Tid} (hallowed : Allowed s (.kill t)) : Good s (s.kill t) := by
  have hself : (s.ledger.phase t).refuse t = s.ledger.phase t := by
    refine Phase.refuse_eq_self fun w c hc hdst => ?_
    exact (h.pid hc).2 hdst
  refine ⟨.kill t, h.abort (t := t) ?_ ?_ ?_ ?_ ?_ fun u _ => rfl⟩
  all_goals dsimp only [System.kill]
  · rw [modify_self, h.abort_self, hself]
    exact ((h.fits t).abort hallowed.1 hallowed.2).unblock rfl rfl
  · rw [modify_self, h.abort_self, post_unblock]
    rfl
  · rw [modify_self, h.abort_self, unblock_status]
    rfl
  · rw [hself]
    exact fun hc => ⟨_, _, hc⟩
  · exact fun u hu => modify_of_ne _ hu _

theorem Wired.finish {t : Tid} : Good s (s.finish t) := by
  unfold System.finish
  cases ht : s.ledger.phase t with
  | sending | receiving | gone => exact ⟨.stay, h⟩
  | outside =>
    have hfits := h.fits t
    rw [ht] at hfits
    refine ⟨.finish t, ?_⟩
    dsimp only [Ledger.setPhase]
    exact h.edit t _ ⟨rfl, hfits.2⟩ rfl rfl (by simp)

theorem Wired.wake {t : Tid} (hallowed : Allowed s (.wake t)) : Good s (s.wake t) := by
  refine ⟨.stay, h.replace (t := t) (fun u hu => modify_of_ne _ hu _) (fun _ _ => rfl) ?_
    ?_ ?_ fun hc => ⟨_, _, hc⟩⟩
  all_goals dsimp only [System.wake]; rw [modify_self]
  · exact (h.fits t).unblock hallowed.1 hallowed.2
  · exact post_unblock _
  · rw [unblock_status]

theorem Wired.step {a : Action β} (hallowed : Allowed s a) : Good s (a.apply s) := by
  cases a with
  | send t d body => exact h.send hallowed
  | receive t filter => exact h.receive hallowed
  | block t => exact h.block
  | resume t => exact h.resume
  | exit t => exact h.exit
  | kill t => exact h.kill hallowed
  | finish t => exact h.finish
  | wake t => exact h.wake hallowed

end Steps

/-! ## Runs -/

/-- The threads as `thread_alloc_for_process` leaves them. -/
def boot (process : Tid → Option UInt32) (empty : Message (Tagged β)) : System β where
  threads t :=
    { process := process t
      status := .ready
      ipcSending := false
      ipcReceiving := false
      ipcReceiveFrom := ipcAny
      ipcStatus := 0
      ipcMessage := empty
      ipcWaitingFor := none
      ipcSenders := [] }
  ledger := ⟨fun _ => .outside, ⟨[], [], []⟩⟩

theorem boot_wired (process : Tid → Option UInt32) (empty : Message (Tagged β)) :
    Wired (boot process empty).threads (boot process empty).ledger.phase :=
  ⟨fun _ => ⟨rfl, rfl, rfl, rfl⟩, .init fun _ => rfl, nofun, by simp [boot]⟩

/-- The destination has been given the message and is about to return it. -/
def System.InHand (s : System β) (c : Call β) : Prop :=
  ∃ f, s.ledger.phase c.dst = .receiving true f (some c) ∧ admits f c.pid = true ∧
    (s.threads c.dst).status = .ready ∧ ipcReceiveResult (s.threads c.dst) = .ok c.message

/-- Messages have been delivered once, and senders have been told the truth. -/
structure ExactlyOnce (s : System β) : Prop where
  distinct : ∀ {c c'}, c ∈ s.ledger.log.calls → c' ∈ s.ledger.log.calls → c.id = c'.id → c = c'
  delivered : ∀ {c}, c ∈ s.ledger.log.calls → (c.id, 0) ∈ s.ledger.log.results →
    (∃ r ∈ s.ledger.log.receipts, r.For c) ∨ s.InHand c ∨ (s.threads c.dst).status = .zombie
  withheld : ∀ {c r}, c ∈ s.ledger.log.calls → (c.id, r) ∈ s.ledger.log.results → r ≠ 0 →
    ∀ x ∈ s.ledger.log.receipts, x.message.body.id ≠ c.id
  genuine : ∀ {r}, r ∈ s.ledger.log.receipts → ∃ c ∈ s.ledger.log.calls, r.For c
  once : (s.ledger.log.receipts.map fun r => r.message.body.id).Nodup

theorem ExactlyOnce.of_accounted {s : System β} (hw : Wired s.threads s.ledger.phase)
    (ha : Accounted s.ledger) : ExactlyOnce s := by
  refine ⟨ha.log.unique, ?_, ?_, ha.log.genuine, ha.log.once⟩
  · intro c hc hr
    rcases ha.delivered hc hr with ⟨r, hmem, hid⟩ | ⟨f, hf⟩ | hgone
    · obtain ⟨c', hc', hfor⟩ := ha.log.genuine hmem
      have hcc : c' = c := ha.log.unique hc' hc (by rw [← hid, hfor.1]; rfl)
      exact Or.inl ⟨r, hmem, hcc ▸ hfor⟩
    · refine Or.inr (Or.inl ⟨f, hf, (ha.handed hf).2.2.2.2.2, ?_⟩)
      have hfits := hw.fits c.dst
      rw [hf] at hfits
      obtain ⟨-, hready, -, -, -, hmsg, hstatus⟩ := hfits
      exact ⟨hready, by rw [ipcReceiveResult, if_neg (by simp [hstatus]), hmsg]⟩
    · have hfits := hw.fits c.dst
      rw [hgone] at hfits
      exact Or.inr (Or.inr hfits.1)
  · intro c r hc hr hne x hx hid
    exact ha.log.failed hr hne ⟨x, hx, hid⟩

/-- Messages are delivered exactly once along every run that meets the conditions. -/
theorem ipc_exactly_once (process : Tid → Option UInt32) (empty : Message (Tagged β))
    (run : List (Action β)) (h : Throughout Allowed Action.apply (boot process empty) run) :
    ExactlyOnce (run.foldl Action.apply (boot process empty)) := by
  have hend := h.invariant
    (fun s => Wired s.threads s.ledger.phase ∧ Accounted s.ledger)
    (fun s a hs hok => ⟨(hs.1.step hok).wired, (hs.1.step hok).move.accounted hs.2⟩)
    ⟨boot_wired process empty, Accounted.init fun _ => rfl⟩
  exact .of_accounted hend.1 hend.2

/-- Three processes with one thread each. -/
def trio : System Nat := boot (fun t => some t.toUInt32) ⟨0, ⟨0, 0⟩⟩

theorem ipc_exactly_once_trio :
    ExactlyOnce ([.receive 1 ipcAny, .block 1, .send 2 1 20, .resume 1].foldl Action.apply trio) :=
  ipc_exactly_once _ _ _
    ⟨fun _ => rfl, trivial, fun _ _ => rfl, trivial, trivial⟩

/-- Thread 3 exits while thread 1 waits to send to it. The status of that call stays, so
the next `ipc_receive` of thread 1 drops the message of thread 2, whose `ipc_send` has
returned 0. -/
theorem stale_status_loses_message :
    ¬ExactlyOnce ([.send 1 3 10, .block 1, .exit 3, .resume 1, .receive 1 ipcAny, .block 1,
      .send 2 1 20, .resume 1].foldl Action.apply trio) := by
  intro h
  rcases h.delivered (c := ⟨1, 2, 1, 2, 20⟩) List.mem_cons_self List.mem_cons_self with
    ⟨r, hr, -⟩ | ⟨f, hf, -⟩ | hgone
  · cases hr
  · cases hf
  · cases hgone

end OrangeOs.Ipc
