import OrangeOs.Ipc.SenderQueues

/-! # Runs of senders and receivers

Threads send, receive, are aborted, exit and are freed, in any order. A sender that has been queued
makes no call until its call is over. The queues stay well formed, a sender joins at the end of a
queue, and a receiver takes the first sender that it admits.
-/

namespace OrangeOs.Ipc

open Links Function
open scoped List

/-- The threads with numbers below `count`, and which of them have been freed. -/
structure Senders (β : Type) where
  node : Nodes β
  count : Nat
  freed : Tid → Bool

/-- A step of thread `t`, or done to it. A thread exits, and may then be freed; `block` is the
status that `thread_block` sets, `wake` a `thread_unblock` from elsewhere. -/
inductive QueueOp (β : Type) where
  | send (t : Tid) (destination : Option Tid) (message : Option β)
  | receive (t : Tid) (source : Int32)
  | abort (t : Tid)
  | exit (t : Tid)
  | free (t : Tid)
  | block (t : Tid)
  | wake (t : Tid)

namespace Senders

variable {β : Type}

/-- A thread that can make a call: it is there, has not exited, and is not in a queue. -/
def acts (s : Senders β) (t : Tid) : Bool :=
  decide (t < s.count) && !s.freed t && decide ((s.node t).status ≠ .zombie) &&
    !(s.node t).ipcSending

def step (s : Senders β) : QueueOp β → Senders β
  | .send t d m => if s.acts t = true then { s with node := (s.node.ipcSend t d m).2 } else s
  | .receive t source =>
    if s.acts t = true then { s with node := (s.node.ipcReceive s.count t source).2 } else s
  | .abort t => { s with node := s.node.ipcAbortThread s.count t }
  | .exit t =>
    { s with node := (s.node.ipcAbortThread s.count t).set t fun n => { n with status := .zombie } }
  | .free t =>
    if (s.node t).status = .zombie then
      { s with
        node := s.node.set t fun n => { n with process := none }
        freed := update s.freed t true }
    else s
  | .block t => if (s.node t).status = .zombie then s
      else { s with node := s.node.set t fun n => { n with status := .blocked } }
  | .wake t => { s with node := s.node.set t Nodes.threadUnblock }

/-- Threads as `thread_alloc_for_process` makes them, of the given processes. -/
def init (count : Nat) (process : Tid → Option UInt32) (empty : Message β) : Senders β where
  node t := {
    process := process t
    status := .ready
    ipcSending := false
    ipcReceiving := false
    ipcReceiveFrom := ipcAny
    ipcStatus := 0
    ipcMessage := empty
    ipcWaitingFor := none
    ipcSenderHead := none
    ipcSenderTail := none
    ipcNextSender := none }
  count := count
  freed := fun _ => false

/-- The queue of a thread: what the pointers lead through. -/
def senders (s : Senders β) (r : Tid) : List Tid :=
  walk (fun t => (s.node t).ipcNextSender) s.count (s.node r).ipcSenderHead

/-! ## What holds of the queues -/

/-- Every queue is a finite list without repetition that ends with its tail, of threads that send
to its owner and have not been freed; a thread is in one queue only. -/
structure Proper (s : Senders β) : Prop where
  path : ∀ r, Path (fun t => (s.node t).ipcNextSender) (s.node r).ipcSenderHead (s.senders r)
  nodup : ∀ r, (s.senders r).Nodup
  tail : ∀ r, (s.node r).ipcSenderTail = (s.senders r).getLast?
  sending : ∀ r, ∀ t ∈ s.senders r,
    (s.node t).ipcSending = true ∧ (s.node t).ipcWaitingFor = some r ∧ s.freed t = false
  once : ∀ t r r', t ∈ s.senders r → t ∈ s.senders r' → r = r'

/-- `ipc_receive` by `t` takes the message of the first sender that the filter admits, and this
sender leaves the queue; if there is none, the queues stay as they are. -/
def TakesFirst (s : Senders β) (t : Tid) (filter : Int32) : Prop :=
  (s.node.ipcReceive s.count t filter).1 = none ∧
      (∀ u ∈ s.senders t, s.node.admitted filter u = false) ∧
      (∀ r, (s.step (.receive t filter)).senders r = s.senders r) ∨
    ∃ l u rest, s.senders t = l ++ u :: rest ∧ (∀ v ∈ l, s.node.admitted filter v = false) ∧
      s.node.admitted filter u = true ∧
      (s.node.ipcReceive s.count t filter).1 = some (s.node u).ipcMessage ∧
      (s.step (.receive t filter)).senders t = l ++ rest ∧
      ∀ r, r ≠ t → (s.step (.receive t filter)).senders r = s.senders r

/-- In a step a queue gets a new last sender, the one that sends, or keeps some of its senders in
their order. -/
def KeepsOrder (s : Senders β) (op : QueueOp β) : Prop :=
  ∀ r, (s.step op).senders r <+ s.senders r ∨
    ∃ t m, op = .send t (some r) m ∧ (s.step op).senders r = s.senders r ++ [t]

/-! ## Steps -/

variable {s : Senders β} {q : Tid → List Tid}

/-- The queues hold the lists `q`, without freed threads. -/
structure Holds (s : Senders β) (q : Tid → List Tid) : Prop where
  formed : s.node.Formed s.count q
  freed : ∀ t r, t ∈ q r → s.freed t = false

theorem Holds.senders_eq (h : Holds s q) (r : Tid) : s.senders r = q r :=
  (h.formed.chained.path r).walk_eq (h.formed.length_le r)

theorem Holds.proper (h : Holds s q) : s.Proper := by
  have heq := h.senders_eq
  refine ⟨fun r => ?_, fun r => ?_, fun r => ?_, fun r t ht => ?_, fun t r r' ht ht' => ?_⟩
  · rw [heq]
    exact h.formed.chained.path r
  · rw [heq]
    exact h.formed.apart.nodup r
  · rw [heq]
    exact h.formed.chained.tail r
  · rw [heq] at ht
    have hwait : (s.node t).ipcWaitingFor = some r := h.formed.posted.queued ht
    have hsend : (s.node t).ipcSending = (s.node t).ipcWaitingFor.isSome := h.formed.posted.sending t
    rw [hwait] at hsend
    exact ⟨hsend, hwait, h.freed t r ht⟩
  · rw [heq] at ht ht'
    exact h.formed.apart.only t r r' ht ht'

theorem acts_iff {t : Tid} : s.acts t = true ↔ t < s.count ∧ s.freed t = false ∧
    (s.node t).status ≠ .zombie ∧ (s.node t).ipcSending = false := by
  unfold acts
  simp only [Bool.and_eq_true, decide_eq_true_eq, Bool.not_eq_true']
  tauto

theorem Holds.send (h : Holds s q) (t : Tid) (d : Option Tid) (m : Option β) :
    ∃ q', Holds (s.step (.send t d m)) q' ∧
      (q' = q ∨ ∃ r, d = some r ∧ q' = update q r (q r ++ [t])) := by
  unfold step
  dsimp only
  split
  · next hacts =>
    obtain ⟨hlt, hfreed, hlive, hidle⟩ := acts_iff.mp hacts
    obtain ⟨q', hformed, -, hq'⟩ := h.formed.ipcSend hlt hlive hidle d m
    refine ⟨q', ⟨hformed, fun u r hu => ?_⟩, hq'⟩
    rcases hq' with rfl | ⟨r', -, rfl⟩
    · exact h.freed u r hu
    · by_cases hr : r = r'
      · subst hr
        rw [update_self, List.mem_append, List.mem_singleton] at hu
        rcases hu with hu | rfl
        · exact h.freed u r hu
        · exact hfreed
      · rw [update_of_ne hr] at hu
        exact h.freed u r hu
  · exact ⟨q, h, Or.inl rfl⟩

theorem Holds.receive (h : Holds s q) {t : Tid} (hacts : s.acts t = true) (filter : Int32) :
    ∃ q', Holds (s.step (.receive t filter)) q' ∧
      (((s.node.ipcReceive s.count t filter).1 = none ∧ q' = q ∧
          ∀ u ∈ q t, s.node.admitted filter u = false) ∨
        ∃ l u rest, q t = l ++ u :: rest ∧ (∀ v ∈ l, s.node.admitted filter v = false) ∧
          s.node.admitted filter u = true ∧
          (s.node.ipcReceive s.count t filter).1 = some (s.node u).ipcMessage ∧
          q' = update q t (l ++ rest)) := by
  obtain ⟨q', hformed, -, hq'⟩ := h.formed.ipcReceive t filter
  have hstep : s.step (.receive t filter) =
      { s with node := (s.node.ipcReceive s.count t filter).2 } := if_pos hacts
  rw [hstep]
  refine ⟨q', ⟨hformed, fun u r hu => ?_⟩, hq'⟩
  rcases hq' with ⟨-, rfl, -⟩ | ⟨l, v, rest, hq, -, -, -, rfl⟩
  · exact h.freed u r hu
  · by_cases hr : r = t
    · subst hr
      rw [update_self, List.mem_append] at hu
      refine h.freed u r ?_
      rw [hq]
      simp only [List.mem_append, List.mem_cons]
      tauto
    · rw [update_of_ne hr] at hu
      exact h.freed u r hu

theorem Holds.abort (h : Holds s q) (t : Tid) {s' : Senders β}
    (hnode : s'.node.Formed s.count (update (fun r => (q r).erase t) t []))
    (hcount : s'.count = s.count) (hfreed : s'.freed = s.freed) :
    Holds s' (update (fun r => (q r).erase t) t []) := by
  refine ⟨hcount ▸ hnode, fun u r hu => ?_⟩
  rw [hfreed]
  by_cases hr : r = t
  · rw [hr, update_self] at hu
    cases hu
  · rw [update_of_ne hr] at hu
    exact h.freed u r (List.mem_of_mem_erase hu)

theorem erased_sublist (q : Tid → List Tid) (t r : Tid) :
    update (fun r => (q r).erase t) t [] r <+ q r := by
  by_cases hr : r = t
  · rw [hr, update_self]
    exact List.nil_sublist _
  · rw [update_of_ne hr]
    exact List.erase_sublist

theorem Holds.step (h : Holds s q) (op : QueueOp β) :
    ∃ q', Holds (s.step op) q' ∧ ∀ r, q' r <+ q r ∨
      ∃ t m, op = .send t (some r) m ∧ q' r = q r ++ [t] := by
  have hsame : ∀ r, q r <+ q r ∨ ∃ t m, op = .send t (some r) m ∧ q r = q r ++ [t] :=
    fun r => Or.inl (List.Sublist.refl _)
  cases op with
  | send t d m =>
    obtain ⟨q', hholds, hq'⟩ := h.send t d m
    refine ⟨q', hholds, fun r => ?_⟩
    rcases hq' with rfl | ⟨r', rfl, rfl⟩
    · exact hsame r
    · by_cases hr : r = r'
      · subst hr
        exact Or.inr ⟨t, m, rfl, update_self ..⟩
      · rw [update_of_ne hr]
        exact Or.inl (List.Sublist.refl _)
  | receive t filter =>
    by_cases hacts : s.acts t = true
    · obtain ⟨q', hholds, hq'⟩ := h.receive hacts filter
      refine ⟨q', hholds, fun r => Or.inl ?_⟩
      rcases hq' with ⟨-, rfl, -⟩ | ⟨l, u, rest, hq, -, -, -, rfl⟩
      · exact List.Sublist.refl _
      · by_cases hr : r = t
        · rw [hr, update_self, hq]
          exact (List.Sublist.refl l).append (List.sublist_cons_self u rest)
        · rw [update_of_ne hr]
    · have hstep : s.step (.receive t filter) = s := if_neg hacts
      rw [hstep]
      exact ⟨q, h, hsame⟩
  | abort t =>
    obtain ⟨hformed, -⟩ := h.formed.ipcAbortThread t rfl
    exact ⟨_, h.abort t hformed rfl rfl, fun r => Or.inl (erased_sublist q t r)⟩
  | exit t =>
    obtain ⟨hformed, -⟩ := h.formed.ipcAbortThread t rfl
    have hout : ∀ r, t ∉ update (fun r => (q r).erase t) t [] r := by
      intro r
      by_cases hrt : r = t
      · rw [hrt, update_self]
        exact List.not_mem_nil
      · rw [update_of_ne hrt]
        exact fun hmem => ((h.formed.apart.nodup r).mem_erase_iff.mp hmem).1 rfl
    have hexit := hformed.set t (f := fun n => { n with status := .zombie }) rfl
      fun r hr => absurd hr (hout r)
    exact ⟨_, h.abort t hexit rfl rfl, fun r => Or.inl (erased_sublist q t r)⟩
  | free t =>
    dsimp only [Senders.step]
    split
    · next hz =>
      have hformed : (s.node.set t fun n => { n with process := none }).Formed s.count q :=
        h.formed.set t rfl (h.formed.live t)
      refine ⟨q, ⟨hformed, fun u r hu => ?_⟩, hsame⟩
      have hut : u ≠ t := by
        rintro rfl
        exact h.formed.live u r hu hz
      exact (update_of_ne hut _ _).trans (h.freed u r hu)
    · exact ⟨q, h, hsame⟩
  | block t =>
    dsimp only [Senders.step]
    split
    · exact ⟨q, h, hsame⟩
    · have hformed : (s.node.set t fun n => { n with status := .blocked }).Formed s.count q :=
        h.formed.set t rfl fun _ _ => nofun
      exact ⟨q, ⟨hformed, h.freed⟩, hsame⟩
  | wake t =>
    exact ⟨q, ⟨h.formed.set t (Nodes.wires_unblock _) fun r hr =>
      Nodes.unblock_live (h.formed.live t r hr), h.freed⟩, hsame⟩

/-! ## Runs -/

def run (count : Nat) (process : Tid → Option UInt32) (empty : Message β) (ops : List (QueueOp β)) :
    Senders β := ops.foldl step (init count process empty)

theorem holds_init (count : Nat) (process : Tid → Option UInt32) (empty : Message β) :
    Holds (init count process empty) fun _ => [] :=
  ⟨⟨⟨fun _ => rfl, fun _ => rfl⟩, .init fun _ => rfl, nofun, nofun, nofun⟩, nofun⟩

theorem holds_run (count : Nat) (process : Tid → Option UInt32) (empty : Message β)
    (ops : List (QueueOp β)) : ∃ q, Holds (run count process empty ops) q := by
  have hrun : ∀ (ops : List (QueueOp β)) (s : Senders β), (∃ q, Holds s q) →
      ∃ q, Holds (ops.foldl Senders.step s) q := by
    intro ops
    induction ops with
    | nil => exact fun _ h => h
    | cons op ops ih =>
      rintro s ⟨q, h⟩
      obtain ⟨q', h', -⟩ := h.step op
      exact ih _ ⟨q', h'⟩
  exact hrun ops _ ⟨_, holds_init count process empty⟩

/-- In every state of every run the queues are well formed; a sender is queued behind all others,
the order of a queue never changes, and a receiver takes the first sender that it admits. -/
theorem sender_queues_are_fifo (count : Nat) (process : Tid → Option UInt32) (empty : Message β)
    (ops : List (QueueOp β)) :
    let s := run count process empty ops
    s.Proper ∧ (∀ op, s.KeepsOrder op) ∧
      ∀ t filter, s.acts t = true → s.TakesFirst t filter := by
  intro s
  obtain ⟨q, h⟩ : ∃ q, Holds s q := holds_run count process empty ops
  refine ⟨h.proper, fun op r => ?_, fun t filter hacts => ?_⟩
  · obtain ⟨q', h', hq'⟩ := h.step op
    rw [h'.senders_eq, h.senders_eq]
    exact hq' r
  · obtain ⟨q', h', hq'⟩ := h.receive hacts filter
    unfold TakesFirst
    simp only [h'.senders_eq, h.senders_eq]
    rcases hq' with ⟨hnone, rfl, hall⟩ | ⟨l, u, rest, hq, hl, hu, hmessage, rfl⟩
    · exact Or.inl ⟨hnone, hall, fun _ => rfl⟩
    · exact Or.inr ⟨l, u, rest, hq, hl, hu, hmessage, update_self .., fun r hr =>
        update_of_ne hr ..⟩

/-- A receiver that filters takes the second of three senders. -/
example :
    let s : Senders Nat := run 4 (fun t => some t.toUInt32) ⟨0, 0⟩
      [.send 1 (some 0) (some 7), .send 2 (some 0) (some 8), .send 3 (some 0) (some 9)]
    s.senders 0 = [1, 2, 3] ∧ (s.step (.receive 0 2)).senders 0 = [1, 3] ∧
      (s.node.ipcReceive s.count 0 2).1 = some ⟨2, 8⟩ := by
  decide +kernel

end Senders

end OrangeOs.Ipc
