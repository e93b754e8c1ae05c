import Mathlib.Data.List.Perm.Subperm
import OrangeOs.Ipc.Posted
import OrangeOs.Lib.Links

/-! # The queues of senders

`ipc.c` with its pointers: a thread has a queue of senders from `ipc_sender_head` to
`ipc_sender_tail`, linked through `ipc_next_sender`. The list of each queue is what `Rendezvous`
has in its place, and every call does to the lists what it does there.
-/

namespace OrangeOs.Ipc

open Links Function List

/-- The IPC fields of `struct thread`. -/
structure Node (β : Type) where
  process : Option UInt32
  status : Status
  ipcSending : Bool
  ipcReceiving : Bool
  ipcReceiveFrom : Int32
  ipcStatus : Int
  ipcMessage : Message β
  ipcWaitingFor : Option Tid
  ipcSenderHead : Option Tid
  ipcSenderTail : Option Tid
  ipcNextSender : Option Tid

/-- The thread with a list for its queue. -/
def Node.thread {β : Type} (n : Node β) (senders : List Tid) : Thread β where
  process := n.process
  status := n.status
  ipcSending := n.ipcSending
  ipcReceiving := n.ipcReceiving
  ipcReceiveFrom := n.ipcReceiveFrom
  ipcStatus := n.ipcStatus
  ipcMessage := n.ipcMessage
  ipcWaitingFor := n.ipcWaitingFor
  ipcSenders := senders

abbrev Nodes (β : Type) := Tid → Node β

namespace Nodes

variable {β : Type}

def set (s : Nodes β) (t : Tid) (f : Node β → Node β) : Nodes β := update s t (f (s t))

theorem set_apply (s : Nodes β) (t : Tid) (f : Node β → Node β) (u : Tid) :
    s.set t f u = if u = t then f (s t) else s u := update_apply _ _ _ _

theorem set_proj {γ : Type} (g : Node β → γ) {s : Nodes β} {t : Tid} {f : Node β → Node β}
    (h : g (f (s t)) = g (s t)) (u : Tid) : g (s.set t f u) = g (s u) := Updates.proj g h u

/-! ## Queues -/

def sourceMatches (receiver sender : Node β) : Bool :=
  receiver.ipcReceiveFrom == ipcAny ||
    receiver.ipcReceiveFrom == (sender.process.getD 0).toInt32

def enqueueSender (s : Nodes β) (receiver sender : Tid) : Nodes β :=
  let s := s.set sender fun n => { n with ipcNextSender := none }
  let s := match (s receiver).ipcSenderTail with
    | some tail => s.set tail fun n => { n with ipcNextSender := some sender }
    | none => s.set receiver fun n => { n with ipcSenderHead := some sender }
  s.set receiver fun n => { n with ipcSenderTail := some sender }

/-- The loops of `remove_sender` and `dequeue_matching_sender`: `previous` and `current` where
the search stops. -/
def seek (s : Nodes β) (stop : Tid → Bool) : Nat → Option Tid → Option Tid → Option Tid × Option Tid
  | 0, previous, current => (previous, current)
  | _ + 1, previous, none => (previous, none)
  | n + 1, previous, some t =>
    if stop t = true then (previous, some t) else seek s stop n (some t) (s t).ipcNextSender

/-- What both do with the sender they have found. -/
def unlinkSender (s : Nodes β) (receiver : Tid) (previous : Option Tid) (sender : Tid) : Nodes β :=
  let s := match previous with
    | some p => s.set p fun n => { n with ipcNextSender := (s sender).ipcNextSender }
    | none => s.set receiver fun n => { n with ipcSenderHead := (s sender).ipcNextSender }
  let s :=
    if (s receiver).ipcSenderTail = some sender then
      s.set receiver fun n => { n with ipcSenderTail := previous }
    else s
  s.set sender fun n => { n with ipcNextSender := none }

/-- `count` bounds the number of threads, and so of the rounds of a loop. -/
def removeSender (count : Nat) (s : Nodes β) (receiver sender : Tid) : Nodes β :=
  match s.seek (· == sender) count none (s receiver).ipcSenderHead with
  | (previous, some current) => s.unlinkSender receiver previous current
  | (_, none) => s

def dequeueMatchingSender (count : Nat) (s : Nodes β) (receiver : Tid) : Option Tid × Nodes β :=
  match s.seek (fun t => sourceMatches (s receiver) (s t)) count none (s receiver).ipcSenderHead with
  | (previous, some sender) => (some sender, s.unlinkSender receiver previous sender)
  | (_, none) => (none, s)

/-! ## Calls -/

def threadUnblock (n : Node β) : Node β :=
  if n.status = .blocked then { n with status := .ready } else n

/-- `ipc_send` by thread `current` up to `thread_block`; `none` if it blocks. -/
def ipcSend (s : Nodes β) (current : Tid) (destination : Option Tid) (message : Option β) :
    Option Int × Nodes β :=
  match destination, message with
  | some d, some body =>
    if d = current ∨ (s d).status = .zombie then (some (-1), s)
    else
      match (s current).process, (s d).process with
      | some pid, some _ =>
        if (s d).ipcReceiving = true ∧ sourceMatches (s d) (s current) = true then
          (some 0, s.set d fun n => threadUnblock { n with
            ipcMessage := ⟨pid, body⟩, ipcReceiving := false, ipcReceiveFrom := ipcAny })
        else
          let s := s.set current fun n => { n with
            ipcMessage := ⟨pid, body⟩, ipcSending := true, ipcStatus := 0
            ipcWaitingFor := some d }
          (none, s.enqueueSender d current)
      | _, _ => (some (-1), s)
  | _, _ => (some (-1), s)

/-- `ipc_receive` by thread `current` up to `thread_block`; `none` if it blocks. -/
def ipcReceive (count : Nat) (s : Nodes β) (current : Tid) (sourcePid : Int32) :
    Option (Message β) × Nodes β :=
  let s := s.set current fun n => { n with ipcReceiveFrom := sourcePid }
  match s.dequeueMatchingSender count current with
  | (some sender, s) =>
    let message := (s sender).ipcMessage
    let s := s.set sender fun n => threadUnblock { n with
      ipcSending := false, ipcStatus := 0, ipcWaitingFor := none }
    (some message, s.set current fun n => { n with ipcReceiveFrom := ipcAny })
  | (none, s) => (none, s.set current fun n => { n with ipcReceiving := true })

def fail (n : Node β) : Node β :=
  threadUnblock { n with
    ipcNextSender := none, ipcSending := false, ipcWaitingFor := none, ipcStatus := -1 }

/-- The loop of `ipc_abort_thread`: the senders that wait for the target fail. -/
def failSenders : Nat → Option Tid → Nodes β → Nodes β
  | 0, _, s => s
  | _ + 1, none, s => s
  | n + 1, some t, s => failSenders n (s t).ipcNextSender (s.set t fail)

def ipcAbortThread (count : Nat) (s : Nodes β) (target : Tid) : Nodes β :=
  let s := match (s target).ipcSending, (s target).ipcWaitingFor with
    | true, some d => s.removeSender count d target
    | _, _ => s
  let sender := (s target).ipcSenderHead
  failSenders count sender (s.set target fun n => { n with
    ipcSending := false, ipcReceiving := false, ipcWaitingFor := none, ipcReceiveFrom := ipcAny
    ipcSenderHead := none, ipcSenderTail := none })

variable {s s' : Nodes β} {q : Tid → List Tid} {r t : Tid}

/-! ## Pointers and lists -/

/-- The pointers of a thread, the one it sends to, and whether it sends. -/
def wires (n : Node β) : (Option Tid × Option Tid × Option Tid) × Option Tid × Bool :=
  ((n.ipcSenderHead, n.ipcSenderTail, n.ipcNextSender), n.ipcWaitingFor, n.ipcSending)

/-- The queues hold the lists `q`. -/
structure Chained (s : Nodes β) (q : Tid → List Tid) : Prop where
  path : ∀ r, Path (fun t => (s t).ipcNextSender) (s r).ipcSenderHead (q r)
  tail : ∀ r, (s r).ipcSenderTail = (q r).getLast?

/-- No list has a thread twice, and no thread is in two of them. -/
structure Apart (q : Tid → List Tid) : Prop where
  nodup : ∀ r, (q r).Nodup
  only : ∀ t r r', t ∈ q r → t ∈ q r' → r = r'

theorem Chained.congr (h : Chained s q) (hwires : ∀ u, (wires (s' u)).1 = (wires (s u)).1) :
    Chained s' q := by
  simp only [wires, Prod.mk.injEq] at hwires
  refine ⟨fun r => ?_, fun r => (hwires r).2.1.trans (h.tail r)⟩
  rw [(hwires r).1]
  exact (h.path r).congr fun t _ => (hwires t).2.2

theorem enqueueSender_apply (htail : (s r).ipcSenderTail ≠ some t) (u : Tid) :
    s.enqueueSender r t u = { s u with
      ipcNextSender := if u = t then none
        else if (s r).ipcSenderTail = some u then some t else (s u).ipcNextSender
      ipcSenderHead := if u = r ∧ (s r).ipcSenderTail = none then some t else (s u).ipcSenderHead
      ipcSenderTail := if u = r then some t else (s u).ipcSenderTail } := by
  have hsame : (s.set t (fun n => { n with ipcNextSender := none }) r).ipcSenderTail =
      (s r).ipcSenderTail := set_proj Node.ipcSenderTail rfl r
  unfold enqueueSender
  rw [hsame]
  cases hlast : (s r).ipcSenderTail with
  | none =>
    simp only [set_apply]
    by_cases hut : u = t <;> by_cases hur : u = r <;> by_cases hrt : r = t <;> simp_all
  | some last =>
    simp only [set_apply, Option.some.injEq, eq_comm (a := last) (b := u)]
    by_cases hut : u = t <;> by_cases hur : u = r <;> by_cases hul : u = last <;> simp_all

theorem Chained.tail_mem (h : Chained s q) (ht : (s r).ipcSenderTail = some t) : t ∈ q r :=
  mem_of_getLast? ((h.tail r).symm.trans ht)

theorem Chained.enqueue (h : Chained s q) (ha : Apart q) (ht : ∀ r, t ∉ q r) :
    Chained (s.enqueueSender r t) (update q r (q r ++ [t])) := by
  have happly := enqueueSender_apply (s := s) (r := r) (t := t) fun hlast => ht r (h.tail_mem hlast)
  refine ⟨fun r' => ?_, fun r' => ?_⟩
  · by_cases hr : r' = r
    · subst hr
      have hempty : (s r').ipcSenderTail = none ↔ q r' = [] := by
        rw [h.tail, getLast?_eq_none_iff]
      have hsnoc : Path (fun u => (s.enqueueSender r' t u).ipcNextSender)
          (if q r' = [] then some t else (s r').ipcSenderHead) (q r' ++ [t]) := by
        refine (h.path r').snoc (ha.nodup r') (by rw [happly]; exact if_pos rfl) fun u hu => ?_
        have hut : u ≠ t := fun heq => ht r' (heq ▸ hu)
        rw [happly]
        rw [if_neg hut, h.tail]
      rw [update_self, happly]
      simpa only [hempty, true_and] using hsnoc
    · rw [update_of_ne hr]
      have hhead : (s.enqueueSender r t r').ipcSenderHead = (s r').ipcSenderHead := by
        rw [happly]
        exact if_neg fun hc => hr hc.1
      rw [hhead]
      refine (h.path r').congr fun u hu => ?_
      have hut : u ≠ t := fun heq => ht r' (heq ▸ hu)
      have hlast : (s r).ipcSenderTail ≠ some u :=
        fun hlast => hr (ha.only u r' r hu (h.tail_mem hlast))
      rw [happly]
      rw [if_neg hut, if_neg hlast]
  · rw [happly]
    by_cases hr : r' = r
    · subst hr
      rw [update_self, getLast?_concat]
      exact if_pos rfl
    · rw [update_of_ne hr, ← h.tail]
      exact if_neg hr

theorem unlinkSender_apply (s : Nodes β) (r : Tid) (previous : Option Tid) (t u : Tid) :
    s.unlinkSender r previous t u = { s u with
      ipcNextSender := if u = t then none
        else if previous = some u then (s t).ipcNextSender else (s u).ipcNextSender
      ipcSenderHead := if u = r ∧ previous = none then (s t).ipcNextSender else (s u).ipcSenderHead
      ipcSenderTail := if u = r ∧ (s r).ipcSenderTail = some t then previous
        else (s u).ipcSenderTail } := by
  unfold unlinkSender
  cases previous with
  | none =>
    have hsame : (s.set r (fun n => { n with ipcSenderHead := (s t).ipcNextSender }) r).ipcSenderTail
        = (s r).ipcSenderTail := by
      rw [set_apply, if_pos rfl]
    rw [hsame]
    by_cases hlast : (s r).ipcSenderTail = some t
    · simp only [set_apply, hlast, if_true]
      by_cases hut : u = t <;> by_cases hur : u = r <;> by_cases htr : t = r <;> simp_all
    · simp only [set_apply, hlast, if_false]
      by_cases hut : u = t <;> by_cases hur : u = r <;> by_cases htr : t = r <;> simp_all
  | some p =>
    have hsame : (s.set p (fun n => { n with ipcNextSender := (s t).ipcNextSender }) r).ipcSenderTail
        = (s r).ipcSenderTail := set_proj Node.ipcSenderTail rfl r
    rw [hsame]
    simp only [Option.some.injEq, eq_comm (a := p) (b := u)]
    by_cases hlast : (s r).ipcSenderTail = some t
    · simp only [set_apply, hlast, if_true]
      by_cases hut : u = t <;> by_cases hur : u = r <;> by_cases hup : u = p <;>
        by_cases htr : t = r <;> by_cases hrp : r = p <;> simp_all
    · simp only [set_apply, hlast, if_false]
      by_cases hut : u = t <;> by_cases hup : u = p <;> by_cases htp : t = p <;> simp_all

theorem Apart.not_mem (h : Apart q) {l rest : List Tid} (hq : q r = l ++ t :: rest) :
    t ∉ l ++ rest :=
  (nodup_cons.mp (perm_middle.nodup_iff.mp (hq ▸ h.nodup r))).1

theorem Apart.erase_eq (h : Apart q) {l rest : List Tid} (hq : q r = l ++ t :: rest) :
    (q r).erase t = l ++ rest := by
  have htl : t ∉ l := fun ht => h.not_mem hq (mem_append_left _ ht)
  rw [hq, erase_append_right _ htl, erase_cons_head]

theorem Chained.unlink (h : Chained s q) (ha : Apart q) {l rest : List Tid}
    (hq : q r = l ++ t :: rest) :
    Chained (s.unlinkSender r l.getLast? t) (update q r (l ++ rest)) := by
  have happly := unlinkSender_apply s r l.getLast? t
  have hnodup := ha.nodup r
  rw [hq] at hnodup
  have hpath := h.path r
  rw [hq] at hpath
  have hne : ∀ u ∈ l ++ rest, u ≠ t := fun u hu heq => ha.not_mem hq (heq ▸ hu)
  refine ⟨fun r' => ?_, fun r' => ?_⟩
  · by_cases hr : r' = r
    · subst hr
      have hunlink : Path (fun u => (s.unlinkSender r' l.getLast? t u).ipcNextSender)
          (if l = [] then (s t).ipcNextSender else (s r').ipcSenderHead) (l ++ rest) := by
        refine hpath.unlink hnodup (fun u hu => ?_) fun u hu => ?_
        · rw [happly]
          exact if_neg (hne u (mem_append_left _ hu))
        · rw [happly]
          dsimp only
          rw [if_neg (hne u (mem_append_right _ hu)), if_neg]
          intro hlast
          exact (nodup_append.mp hnodup).2.2 u (mem_of_getLast? hlast) u
            (mem_cons_of_mem t hu) rfl
      rw [update_self, happly]
      simpa only [getLast?_eq_none_iff, true_and] using hunlink
    · rw [update_of_ne hr]
      have hhead : (s.unlinkSender r l.getLast? t r').ipcSenderHead = (s r').ipcSenderHead := by
        rw [happly]
        exact if_neg fun hc => hr hc.1
      rw [hhead]
      refine (h.path r').congr fun u hu => ?_
      have hin : u ∉ q r := fun hin => hr (ha.only u r' r hu hin)
      rw [hq] at hin
      rw [happly]
      dsimp only
      rw [if_neg fun heq => hin (by simp [heq]), if_neg fun hlast => hin
        (mem_append_left _ (mem_of_getLast? hlast))]
  · rw [happly]
    by_cases hr : r' = r
    · subst hr
      rw [update_self]
      simp only [true_and, h.tail, hq]
      cases rest with
      | nil => simp
      | cons v rest =>
        have hvt : (l ++ t :: v :: rest).getLast? ≠ some t := by
          intro hlast
          rw [append_cons, getLast?_append_of_ne_nil _ (cons_ne_nil v rest)] at hlast
          exact hne t (mem_append_right l (mem_of_getLast? hlast)) rfl
        rw [if_neg hvt]
        simp
    · rw [update_of_ne hr, ← h.tail]
      exact if_neg fun hc => hr hc.1

/-! ## Searching a queue -/

theorem seek_eq {stop : Tid → Bool} {l rest : List Tid} {n : Nat} {previous current : Option Tid}
    (h : Path (fun t => (s t).ipcNextSender) current (l ++ t :: rest))
    (hl : ∀ u ∈ l, stop u = false) (ht : stop t = true) (hn : l.length < n) :
    s.seek stop n previous current = (l.getLast?.or previous, some t) := by
  induction l generalizing n previous current with
  | nil =>
    obtain ⟨rfl, -⟩ := h
    cases n with
    | zero => simp at hn
    | succ n =>
      rw [seek, if_pos ht]
      rfl
  | cons v l ih =>
    obtain ⟨rfl, hrest⟩ := h
    cases n with
    | zero => simp at hn
    | succ n =>
      rw [seek, if_neg (by simp [hl v mem_cons_self]),
        ih hrest (fun u hu => hl u (mem_cons_of_mem v hu)) (by simpa using hn)]
      cases l with
      | nil => rfl
      | cons w l => simp [getLast?_cons]

theorem seek_none {stop : Tid → Bool} {l : List Tid} {n : Nat} {previous current : Option Tid}
    (h : Path (fun t => (s t).ipcNextSender) current l) (hl : ∀ u ∈ l, stop u = false)
    (hn : l.length ≤ n) : (s.seek stop n previous current).2 = none := by
  induction l generalizing n previous current with
  | nil =>
    have hnone : current = none := h
    subst hnone
    cases n <;> rfl
  | cons v l ih =>
    obtain ⟨rfl, hrest⟩ := h
    cases n with
    | zero => simp at hn
    | succ n =>
      rw [seek, if_neg (by simp [hl v mem_cons_self])]
      exact ih hrest (fun u hu => hl u (mem_cons_of_mem v hu)) (by simpa using hn)

/-! ## The queues of a state -/

/-- The lists in place of the pointers. -/
def lists (s : Nodes β) (q : Tid → List Tid) : Threads β := fun t => (s t).thread (q t)

/-- The queues hold the lists `q`, which are those of the threads that send: none of them has
exited or waits for itself. -/
structure Formed (s : Nodes β) (count : Nat) (q : Tid → List Tid) : Prop where
  chained : Chained s q
  posted : Posted (lists s q)
  held : Held (lists s q)
  lt : ∀ t r, t ∈ q r → t < count
  live : ∀ t r, t ∈ q r → (s t).status ≠ .zombie

variable {count : Nat}

theorem Formed.apart (h : Formed s count q) : Apart q :=
  ⟨h.posted.nodup, fun _ _ _ hr hr' =>
    Option.some.inj ((h.posted.queued hr).symm.trans (h.posted.queued hr'))⟩

theorem Formed.length_le (h : Formed s count q) (r : Tid) : (q r).length ≤ count := by
  have hsub : q r ⊆ range count := fun t ht => mem_range.mpr (h.lt t r ht)
  have hle := ((h.apart.nodup r).subperm hsub).length_le
  rwa [length_range] at hle

theorem Formed.same (h : Formed s count q) (hwires : ∀ u, wires (s' u) = wires (s u))
    (hlive : ∀ u r, u ∈ q r → (s' u).status ≠ .zombie) : Formed s' count q :=
  have hpost : ∀ u, post (lists s' q u) = post (lists s q u) := fun u =>
    congrArg (fun x => (q u, x.2)) (hwires u)
  ⟨h.chained.congr fun u => congrArg (·.1) (hwires u), h.posted.congr hpost, h.held.congr hpost,
    h.lt, hlive⟩

theorem Formed.set (h : Formed s count q) (t : Tid) {f : Node β → Node β}
    (hwires : wires (f (s t)) = wires (s t))
    (hlive : ∀ r, t ∈ q r → (f (s t)).status ≠ .zombie) : Formed (s.set t f) count q := by
  refine h.same (set_proj wires hwires) fun u r hu => ?_
  rw [set_apply]
  split
  · next heq => exact hlive r (heq ▸ hu)
  · exact h.live u r hu

theorem wires_unblock (n : Node β) : wires (threadUnblock n) = wires n := by
  unfold threadUnblock
  split <;> rfl

theorem unblock_live {n : Node β} (h : n.status ≠ .zombie) : (threadUnblock n).status ≠ .zombie := by
  unfold threadUnblock
  split
  · nofun
  · exact h

theorem Formed.left (h : Formed s count q) {q' : Tid → List Tid} {L : Tid → Prop}
    (hchained : Chained s' q') (hleft : Left L (lists s q) (lists s' q'))
    (hstatus : ∀ u, ¬L u → (s' u).status = (s u).status) : Formed s' count q' := by
  have hmem : ∀ u r, u ∈ q' r → u ∈ q r ∧ ¬L u := fun u r => (hleft.mem r u).mp
  refine ⟨hchained, h.posted.left hleft, h.held.left hleft, fun u r hu => h.lt u r (hmem u r hu).1,
    fun u r hu => ?_⟩
  rw [hstatus u (hmem u r hu).2]
  exact h.live u r (hmem u r hu).1

/-! ## Calls and lists -/

theorem thread_unblock (n : Node β) (l : List Tid) :
    (threadUnblock n).thread l = (n.thread l).unblock := by
  unfold threadUnblock Thread.unblock
  split
  · next hb => rw [if_pos (show (n.thread l).status = .blocked from hb)]; rfl
  · next hb => rw [if_neg (show (n.thread l).status ≠ .blocked from hb)]

theorem lists_set (s : Nodes β) (q : Tid → List Tid) (t : Tid) {f : Node β → Node β}
    {g : Thread β → Thread β} (hfg : (f (s t)).thread (q t) = g ((s t).thread (q t))) :
    lists (s.set t f) q = (lists s q).modify t g := by
  funext u
  unfold lists Threads.modify
  rw [set_apply, update_apply]
  split
  · next heq => rw [heq, hfg]
  · rfl

theorem Formed.enqueue (h : Formed s count q) (ht : t < count) (hlive : (s t).status ≠ .zombie)
    (hidle : (s t).ipcSending = false) (hrt : r ≠ t) {m : Message β} {s1 : Nodes β}
    (hs1 : s.set t (fun n => { n with
      ipcMessage := m, ipcSending := true, ipcStatus := 0, ipcWaitingFor := some r }) = s1) :
    Formed (s1.enqueueSender r t) count (update q r (q r ++ [t])) ∧
      lists (s1.enqueueSender r t) (update q r (q r ++ [t])) =
        ((lists s q).modify t fun x => x.startSending m r).modify r fun x => x.enqueueSender t := by
  have hset := set_apply s t fun n => { n with
    ipcMessage := m, ipcSending := true, ipcStatus := 0, ipcWaitingFor := some r }
  rw [hs1] at hset
  have hout : ∀ r, t ∉ q r := h.posted.not_queued hidle
  have hchained : Chained s1 q := hs1 ▸ h.chained.congr (set_proj (fun n => (wires n).1) rfl)
  have happly := enqueueSender_apply (s := s1) (r := r) (t := t)
    fun hlast => hout r (hchained.tail_mem hlast)
  have hlists : lists (s1.enqueueSender r t) (update q r (q r ++ [t])) =
      ((lists s q).modify t fun x => x.startSending m r).modify r fun x => x.enqueueSender t := by
    funext u
    have hthread : (s1.enqueueSender r t u).thread = (s1 u).thread := by
      rw [happly]
      rfl
    unfold lists Threads.modify
    rw [hthread, hset]
    by_cases hut : u = t
    · subst hut
      rw [update_of_ne hrt.symm, update_of_ne hrt.symm, update_self, if_pos rfl]
      rfl
    · rw [if_neg hut]
      by_cases hur : u = r
      · subst hur
        rw [update_self, update_self, update_of_ne hut]
        rfl
      · rw [update_of_ne hur, update_of_ne hur, update_of_ne hut]
  have hmem : ∀ u r', u ∈ update q r (q r ++ [t]) r' → u ∈ q r' ∨ u = t ∧ r' = r := by
    intro u r' hu
    have hu : u ∈ (post (lists (s1.enqueueSender r t) (update q r (q r ++ [t])) r')).1 := hu
    rw [hlists] at hu
    exact (mem_enqueue hrt m).mp hu
  have hstatus : ∀ u, (s1.enqueueSender r t u).status = (s u).status := fun u =>
    (congrArg Thread.status (congrFun hlists u)).trans
      ((Threads.modify_proj Thread.status (by rfl) u).trans
        (Threads.modify_proj Thread.status (by rfl) u))
  refine ⟨⟨hchained.enqueue h.apart hout, hlists ▸ h.posted.enqueue hout hrt m,
    hlists ▸ h.held.enqueue hrt m, fun u r' hu => ?_, fun u r' hu => ?_⟩, hlists⟩
  · rcases hmem u r' hu with hu | ⟨rfl, -⟩
    · exact h.lt u r' hu
    · exact ht
  · rw [hstatus]
    rcases hmem u r' hu with hu | ⟨rfl, -⟩
    · exact h.live u r' hu
    · exact hlive

/-- What `ipc_send` does to the lists: nothing, or the sender becomes the last of a queue. -/
theorem Formed.ipcSend (h : Formed s count q) (ht : t < count) (hlive : (s t).status ≠ .zombie)
    (hidle : (s t).ipcSending = false) (d : Option Tid) (m : Option β) :
    ∃ q', Formed (s.ipcSend t d m).2 count q' ∧
      Ipc.ipcSend (lists s q) t d m = ((s.ipcSend t d m).1, lists (s.ipcSend t d m).2 q') ∧
      (q' = q ∨ ∃ r, d = some r ∧ q' = update q r (q r ++ [t])) := by
  cases d with
  | none => exact ⟨q, h, rfl, Or.inl rfl⟩
  | some r =>
    cases m with
    | none => exact ⟨q, h, rfl, Or.inl rfl⟩
    | some body =>
      unfold Nodes.ipcSend Ipc.ipcSend
      have hstatus : (lists s q r).status = (s r).status := rfl
      have hpid : ∀ u, (lists s q u).process = (s u).process := fun _ => rfl
      have hreceiving : (lists s q r).ipcReceiving = (s r).ipcReceiving := rfl
      have hmatches : Ipc.sourceMatches (lists s q r) (lists s q t) =
        Nodes.sourceMatches (s r) (s t) := rfl
      simp only [hstatus, hpid, hreceiving, hmatches]
      by_cases hbad : r = t ∨ (s r).status = .zombie
      · rw [if_pos hbad, if_pos hbad]
        exact ⟨q, h, rfl, Or.inl rfl⟩
      · rw [if_neg hbad, if_neg hbad]
        cases (s t).process with
        | none => exact ⟨q, h, rfl, Or.inl rfl⟩
        | some pid =>
          cases (s r).process with
          | none => exact ⟨q, h, rfl, Or.inl rfl⟩
          | some _ =>
            dsimp only
            split
            · have hset : Formed (s.set r fun n => threadUnblock { n with
                  ipcMessage := ⟨pid, body⟩, ipcReceiving := false
                  ipcReceiveFrom := ipcAny }) count q :=
                h.set r (wires_unblock _) fun r' hr => unblock_live (h.live r r' hr)
              refine ⟨q, hset, congrArg (Prod.mk (some 0)) (Eq.symm ?_), Or.inl rfl⟩
              refine lists_set s q r ?_
              exact thread_unblock _ _
            · obtain ⟨hformed, hlists⟩ := h.enqueue (m := ⟨pid, body⟩) ht hlive hidle
                (fun heq => hbad (Or.inl heq)) rfl
              exact ⟨_, hformed, by rw [hlists], Or.inr ⟨r, rfl, rfl⟩⟩

/-! ### Receiving -/

theorem Formed.receive (h : Formed s count q) {l rest : List Tid} (hq : q r = l ++ t :: rest)
    {s' : Nodes β} (hs' : ((s.unlinkSender r l.getLast? t).set t fun n => threadUnblock { n with
      ipcSending := false, ipcStatus := 0, ipcWaitingFor := none }).set r
        (fun n => { n with ipcReceiveFrom := ipcAny }) = s') :
    Formed s' count (update q r (l ++ rest)) ∧
      lists s' (update q r (l ++ rest)) = taken (lists s q) r t := by
  have happly := unlinkSender_apply s r l.getLast? t
  have hchained := h.chained.unlink h.apart hq
  have hmem : t ∈ q r := by
    rw [hq]
    simp
  have hrt : t ≠ r := fun heq => h.posted.not_self r (heq ▸ hmem)
  generalize s.unlinkSender r l.getLast? t = s1 at happly hchained hs'
  have hs1 : ∀ u, s' u = if u = r then { s1 u with ipcReceiveFrom := ipcAny }
      else if u = t then threadUnblock { s1 t with
        ipcSending := false, ipcStatus := 0, ipcWaitingFor := none } else s1 u := by
    intro u
    rw [← hs', set_apply, set_apply, set_apply, if_neg hrt.symm]
    split
    · next heq => rw [heq]
    · rfl
  have hlists : lists s' (update q r (l ++ rest)) = taken (lists s q) r t := by
    funext u
    unfold lists taken
    rw [hs1, happly, happly]
    by_cases hur : u = r
    · rw [if_pos hur, if_pos hur, hur, update_self, ← h.apart.erase_eq hq]
      rfl
    · rw [if_neg hur, if_neg hur, update_of_ne hur]
      split
      · next heq =>
        rw [heq]
        exact thread_unblock _ _
      · rfl
  refine ⟨h.left (L := (· = t)) (hchained.congr fun u => ?_) ?_ fun u hut => ?_, hlists⟩
  · rw [hs1]
    split
    · rfl
    · split
      · next heq => rw [heq, wires_unblock]; rfl
      · rfl
  · rw [hlists]
    exact h.posted.taken hmem
  · rw [hs1, if_neg hut, happly]
    split <;> rfl

theorem taken_setFilter (s : Threads β) {t u : Tid} (hut : u ≠ t) (filter : Int32) :
    taken (s.modify t (Thread.setFilter filter)) t u = taken s t u := by
  funext x
  unfold taken
  rw [Threads.modify_self, Threads.modify_of_ne _ hut]
  by_cases hxt : x = t
  · rw [if_pos hxt, if_pos hxt]
    rfl
  · rw [if_neg hxt, if_neg hxt, Threads.modify_of_ne _ hxt]

/-- Whether `ipc_receive` with a filter would take the message of `t`. -/
def admitted (s : Nodes β) (filter : Int32) (t : Tid) : Bool :=
  admits filter ((s t).process.getD 0)

/-- What `ipc_receive` does to the lists: the first sender that the filter admits leaves the
queue. -/
theorem Formed.ipcReceive (h : Formed s count q) (t : Tid) (filter : Int32) :
    ∃ q', Formed (s.ipcReceive count t filter).2 count q' ∧
      Ipc.ipcReceive (lists s q) t filter =
        ((s.ipcReceive count t filter).1, lists (s.ipcReceive count t filter).2 q') ∧
      (((s.ipcReceive count t filter).1 = none ∧ q' = q ∧
          ∀ u ∈ q t, s.admitted filter u = false) ∨
        ∃ l u rest, q t = l ++ u :: rest ∧ (∀ v ∈ l, s.admitted filter v = false) ∧
          s.admitted filter u = true ∧
          (s.ipcReceive count t filter).1 = some (s u).ipcMessage ∧
          q' = update q t (l ++ rest)) := by
  have hfind : Ipc.dequeueMatchingSender ((lists s q).modify t (Thread.setFilter filter)) t =
      (q t).find? fun u => s.admitted filter u := by
    unfold Ipc.dequeueMatchingSender Ipc.sourceMatches
    rw [Threads.modify_self]
    refine congrArg (fun p => (q t).find? p) (funext fun u => ?_)
    rw [Threads.modify_proj Thread.process rfl]
    rfl
  have h0 : Formed (s.set t fun n => { n with ipcReceiveFrom := filter }) count q :=
    h.set t rfl (h.live t)
  have hlists0 : lists (s.set t fun n => { n with ipcReceiveFrom := filter }) q =
      (lists s q).modify t (Thread.setFilter filter) := lists_set s q t rfl
  have hstop : (fun u => sourceMatches (s.set t (fun n => { n with ipcReceiveFrom := filter }) t)
      (s.set t (fun n => { n with ipcReceiveFrom := filter }) u)) = fun u => s.admitted filter u := by
    funext u
    rw [sourceMatches, set_proj Node.process rfl, set_apply, if_pos rfl]
    rfl
  have hmessage : ∀ u, (s.set t (fun n => { n with ipcReceiveFrom := filter }) u).ipcMessage =
      (s u).ipcMessage := set_proj Node.ipcMessage rfl
  unfold Nodes.ipcReceive dequeueMatchingSender
  dsimp only
  generalize s.set t (fun n => { n with ipcReceiveFrom := filter }) = s0 at *
  rw [hstop]
  rcases ipcReceive_cases (lists s q) t filter with ⟨hq, hwait⟩ | ⟨u, hmem, hq, htake⟩
  · rw [hfind] at hq
    have hnone : ∀ u ∈ q t, s.admitted filter u = false := by simpa using hq
    have hseek : (s0.seek (fun u => s.admitted filter u) count none (s0 t).ipcSenderHead).2 = none :=
      seek_none (h0.chained.path t) hnone (h.length_le t)
    generalize s0.seek (fun u => s.admitted filter u) count none (s0 t).ipcSenderHead = out at hseek
    obtain ⟨previous, current⟩ := out
    have hcur : current = none := hseek
    subst hcur
    have h1 : Formed (s0.set t fun n => { n with ipcReceiving := true }) count q :=
      h0.set t rfl (h0.live t)
    refine ⟨q, h1, hwait.trans (congrArg (Prod.mk none) (Eq.symm ?_)), Or.inl ⟨rfl, rfl, hnone⟩⟩
    rw [lists_set s0 q t (g := fun x => { x with ipcReceiving := true }) rfl, hlists0,
      Threads.modify_modify]
  · rw [hfind] at hq
    have hut : u ≠ t := fun heq => h.posted.not_self t (heq ▸ hmem)
    obtain ⟨hu, l, rest, hq, hl⟩ := find?_eq_some_iff_append.mp hq
    have hl : ∀ v ∈ l, s.admitted filter v = false := by simpa using hl
    have hpath := h0.chained.path t
    have hlen := h.length_le t
    rw [hq] at hpath hlen
    have hseek : s0.seek (fun u => s.admitted filter u) count none (s0 t).ipcSenderHead =
        (l.getLast?, some u) := by
      rw [seek_eq hpath hl hu (by rw [length_append, length_cons] at hlen; omega),
        Option.or_none]
    rw [hseek]
    dsimp only
    obtain ⟨hformed, hlists⟩ := h0.receive hq rfl
    have htaken : (s0.unlinkSender t l.getLast? u u).ipcMessage = (s u).ipcMessage := by
      rw [unlinkSender_apply]
      exact hmessage u
    rw [htaken, htake hut]
    refine ⟨_, hformed, congrArg (Prod.mk _) ?_, Or.inr ⟨l, u, rest, hq, hl, hu, rfl, rfl⟩⟩
    rw [hlists, hlists0, taken_setFilter _ hut]

/-! ### Aborting -/

theorem failSenders_apply {l : List Tid} {n : Nat} {current : Option Tid}
    (h : Path (fun t => (s t).ipcNextSender) current l) (hnodup : l.Nodup) (hn : l.length ≤ n)
    (u : Tid) : failSenders n current s u = if u ∈ l then fail (s u) else s u := by
  induction l generalizing s n current with
  | nil =>
    have hnone : current = none := h
    subst hnone
    cases n <;> rfl
  | cons t l ih =>
    obtain ⟨rfl, hrest⟩ := h
    obtain ⟨ht, hnodup⟩ := nodup_cons.mp hnodup
    cases n with
    | zero => simp at hn
    | succ n =>
      have hpath : Path (fun v => (s.set t fail v).ipcNextSender) (s t).ipcNextSender l := by
        refine hrest.congr fun v hv => ?_
        have hvt : v ≠ t := fun heq => ht (heq ▸ hv)
        rw [set_apply, if_neg hvt]
      rw [failSenders, ih hpath hnodup (by simpa using hn), set_apply]
      by_cases hut : u = t
      · subst hut
        simp [ht]
      · simp [hut]

theorem Formed.leave (h : Formed s count q) (t : Tid) {s1 : Nodes β}
    (hs1 : (match (s t).ipcSending, (s t).ipcWaitingFor with
      | true, some d => s.removeSender count d t
      | _, _ => s) = s1) :
    Chained s1 fun r => (q r).erase t := by
  have hsending : (s t).ipcSending = (s t).ipcWaitingFor.isSome := h.posted.sending t
  cases hwait : (s t).ipcWaitingFor with
  | none =>
    rw [hwait] at hsending
    rw [hsending, hwait] at hs1
    have hsame : (fun r => (q r).erase t) = q :=
      funext fun r => erase_of_not_mem (h.posted.not_queued hsending r)
    rw [hsame, ← hs1]
    exact h.chained
  | some d =>
    rw [hwait] at hsending
    rw [hsending, hwait] at hs1
    have hin : t ∈ q d := h.held t d hwait
    obtain ⟨l, rest, hq⟩ := append_of_mem hin
    have hpath := h.chained.path d
    have hlen := h.length_le d
    rw [hq] at hpath hlen
    have hbefore : ∀ u ∈ l, (u == t) = false := by
      intro u hu
      rw [beq_eq_false_iff_ne]
      rintro rfl
      exact h.apart.not_mem hq (mem_append_left _ hu)
    have hfuel : l.length < count := by
      rw [length_append, length_cons] at hlen
      omega
    have hremove : s.removeSender count d t = s.unlinkSender d l.getLast? t := by
      unfold removeSender
      rw [seek_eq hpath hbefore (beq_self_eq_true t) hfuel, Option.or_none]
    have hlists : (fun r => (q r).erase t) = update q d (l ++ rest) := by
      funext r
      by_cases hr : r = d
      · rw [hr, update_self, h.apart.erase_eq hq]
      · rw [update_of_ne hr]
        exact erase_of_not_mem fun ht => hr (h.apart.only t r d ht hin)
    have hs1 : s.removeSender count d t = s1 := hs1
    rw [hlists, ← hs1, hremove]
    exact h.chained.unlink h.apart hq

theorem Chained.drain (h : Chained s q) (ha : Apart q) (hself : t ∉ q t)
    {f : Node β → Node β} (hhead : (f (s t)).ipcSenderHead = none)
    (htail : (f (s t)).ipcSenderTail = none)
    (hnext : (f (s t)).ipcNextSender = (s t).ipcNextSender) (hlen : (q t).length ≤ count)
    {s' : Nodes β} (hs' : failSenders count (s t).ipcSenderHead (s.set t f) = s') :
    (∀ u, s' u = if u ∈ q t then fail (s u) else if u = t then f (s t) else s u) ∧
      Chained s' (update q t []) := by
  have hset := set_apply s t f
  have happly : ∀ u, s' u = if u ∈ q t then fail (s u) else if u = t then f (s t) else s u := by
    intro u
    have hpath : Path (fun v => (s.set t f v).ipcNextSender) (s t).ipcSenderHead (q t) :=
      (h.path t).congr fun v _ => set_proj Node.ipcNextSender hnext v
    rw [← hs', failSenders_apply hpath (ha.nodup t) hlen, hset]
    by_cases hu : u ∈ q t
    · rw [if_pos hu, if_pos hu, if_neg (by rintro rfl; exact hself hu)]
    · rw [if_neg hu, if_neg hu]
  have hown : s' t = f (s t) := by rw [happly, if_neg hself, if_pos rfl]
  have hends : ∀ r, r ≠ t → (s' r).ipcSenderHead = (s r).ipcSenderHead ∧
      (s' r).ipcSenderTail = (s r).ipcSenderTail := by
    intro r hr
    rw [happly, if_neg hr]
    split
    · have hwires := wires_unblock { s r with
        ipcNextSender := none, ipcSending := false, ipcWaitingFor := none, ipcStatus := -1 }
      exact ⟨congrArg (·.1.1) hwires, congrArg (·.1.2.1) hwires⟩
    · exact ⟨rfl, rfl⟩
  refine ⟨happly, fun r => ?_, fun r => ?_⟩
  · by_cases hr : r = t
    · rw [hr, update_self, hown]
      exact hhead
    · rw [update_of_ne hr, (hends r hr).1]
      refine (h.path r).congr fun u hu => ?_
      rw [happly, if_neg fun hut => hr (ha.only u r t hu hut)]
      split
      · next heq => rw [heq, hnext]
      · rfl
  · by_cases hr : r = t
    · rw [hr, update_self, hown]
      exact htail
    · rw [update_of_ne hr, ← h.tail r, (hends r hr).2]

theorem removeSender_thread (s : Nodes β) (d t u : Tid) (l : List Tid) :
    (s.removeSender count d t u).thread l = (s u).thread l := by
  unfold removeSender
  generalize s.seek (· == t) count none (s d).ipcSenderHead = out
  obtain ⟨previous, current⟩ := out
  cases current with
  | none => rfl
  | some current =>
    dsimp only
    rw [unlinkSender_apply]
    rfl

/-- What `ipc_abort_thread` does to the lists: the target leaves the queue it is in, and its own
queue is emptied. -/
theorem Formed.ipcAbortThread (h : Formed s count q) (t : Tid) {q' : Tid → List Tid}
    (hq' : update (fun r => (q r).erase t) t [] = q') :
    Formed (s.ipcAbortThread count t) count q' ∧
      Ipc.ipcAbortThread (lists s q) t = lists (s.ipcAbortThread count t) q' := by
  unfold Nodes.ipcAbortThread
  dsimp only
  have hthread : ∀ u l, ((match (s t).ipcSending, (s t).ipcWaitingFor with
      | true, some d => s.removeSender count d t
      | _, _ => s) u).thread l = (s u).thread l := by
    intro u l
    cases (s t).ipcSending with
    | false => rfl
    | true =>
      cases (s t).ipcWaitingFor with
      | none => rfl
      | some d => exact removeSender_thread s d t u l
  have hleave := h.leave t rfl
  have herased : Apart fun r => (q r).erase t :=
    ⟨fun r => (h.apart.nodup r).erase t, fun u r r' hu hu' =>
      h.apart.only u r r' (mem_of_mem_erase hu) (mem_of_mem_erase hu')⟩
  have hself : t ∉ q t := h.posted.not_self t
  have hown : (q t).erase t = q t := erase_of_not_mem hself
  generalize (match (s t).ipcSending, (s t).ipcWaitingFor with
    | true, some d => s.removeSender count d t
    | _, _ => s) = s1 at hthread hleave ⊢
  obtain ⟨happly, hchained⟩ := hleave.drain herased (hown.symm ▸ hself) (f := fun n => { n with
    ipcSending := false, ipcReceiving := false, ipcWaitingFor := none, ipcReceiveFrom := ipcAny
    ipcSenderHead := none, ipcSenderTail := none }) rfl rfl rfl (hown.symm ▸ h.length_le t) rfl
  rw [hq'] at hchained
  simp only [hown] at happly
  generalize failSenders count _ _ = s' at happly hchained ⊢
  have hlists : Ipc.ipcAbortThread (lists s q) t = lists s' q' := by
    funext u
    rw [h.posted.abort_apply, h.posted.leave_eq, show (lists s q t).ipcSenders = q t from rfl, ← hq']
    unfold lists
    rw [happly u]
    by_cases hut : u = t
    · subst hut
      rw [if_pos rfl, if_neg hself, if_pos rfl, update_self, ← hthread u]
      rfl
    · rw [if_neg hut, if_neg hut, update_of_ne hut]
      by_cases hu : u ∈ q t
      · rw [if_pos hu, if_pos hu, ← hthread u]
        unfold fail
        rw [thread_unblock]
        rfl
      · rw [if_neg hu, if_neg hu, ← hthread u]
        rfl
  refine ⟨h.left hchained (hlists ▸ h.posted.abort t) fun u hu => ?_, hlists⟩
  have hnot : u ∉ q t := fun hmem => hu (Or.inr hmem)
  rw [happly, if_neg hnot, if_neg fun heq => hu (Or.inl heq)]
  exact congrArg Thread.status (hthread u [])

end Nodes

end OrangeOs.Ipc
