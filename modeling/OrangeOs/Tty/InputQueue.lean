import OrangeOs.Lib.Machine
import OrangeOs.Lib.RingBuffer

/-! # The queues of the console input

Characters and keyboard events wait in rings that keep one slot empty. A full ring refuses ordinary
input; a newline or a control character takes the slot of the oldest entry.
-/

namespace OrangeOs.Tty

open Function List

/-- `TTY_INPUT_QUEUE_SIZE` and `KEYBOARD_QUEUE_SIZE`. -/
def inputQueueSize : Nat := 4096

structure InputQueue (α : Type*) where
  data : Nat → α
  head : Nat
  tail : Nat

namespace InputQueue

variable {α : Type*} {urgent : α → Bool} {q : InputQueue α}

/-- `next == tail`. -/
def full (q : InputQueue α) : Bool := (q.head + 1) % inputQueueSize == q.tail

def put (q : InputQueue α) (c : α) : InputQueue α :=
  { q with data := update q.data q.head c, head := (q.head + 1) % inputQueueSize }

def advance (q : InputQueue α) : InputQueue α := { q with tail := (q.tail + 1) % inputQueueSize }

/-- `tty_input_char` and `enqueue_event`: what goes into a full ring is `urgent`. -/
def enqueue (urgent : α → Bool) (q : InputQueue α) (c : α) : InputQueue α :=
  if q.full = false then q.put c else if urgent c then q.advance.put c else q

/-- `tty_take_input_char` and `keyboard_pop_event`. -/
def dequeue (q : InputQueue α) : Option α × InputQueue α :=
  if q.tail ≠ q.head then (some (q.data q.tail), q.advance) else (none, q)

/-- The entries as a ring buffer, which also counts them. -/
def ring (q : InputQueue α) : RingBuffer α :=
  ⟨q.data, q.tail, q.head, (q.head + inputQueueSize - q.tail) % inputQueueSize⟩

def contents (q : InputQueue α) : List α := q.ring.contents inputQueueSize

structure Valid (q : InputQueue α) : Prop where
  head : q.head < inputQueueSize
  tail : q.tail < inputQueueSize

theorem Valid.put (h : q.Valid) (c : α) : (q.put c).Valid := ⟨Nat.mod_lt _ (by decide), h.tail⟩

theorem Valid.advance (h : q.Valid) : q.advance.Valid := ⟨h.head, Nat.mod_lt _ (by decide)⟩

section Contents

variable (h : q.Valid)

include h

theorem ring_valid : q.ring.Valid inputQueueSize := by
  obtain ⟨hh, ht⟩ := h
  unfold inputQueueSize at hh ht
  refine ⟨ht, ?_, ?_⟩ <;> simp only [ring, inputQueueSize] <;> omega

theorem contents_put (hroom : q.full = false) (c : α) : (q.put c).contents = q.contents ++ [c] := by
  have hring := ring_valid h
  obtain ⟨hh, ht⟩ := h
  simp only [full, inputQueueSize, beq_eq_false_iff_ne] at hroom hh ht
  have hcount : q.ring.count < inputQueueSize := Nat.mod_lt _ (by decide)
  have hpush : (q.put c).ring = q.ring.push1 inputQueueSize c := by
    simp only [ring, put, RingBuffer.push1, inputQueueSize, RingBuffer.mk.injEq, true_and]
    omega
  rw [contents, hpush]
  exact hring.contents_push1 hcount c

theorem contents_advance (hne : q.tail ≠ q.head) :
    q.contents = q.data q.tail :: q.advance.contents := by
  have hring := ring_valid h
  obtain ⟨hh, ht⟩ := h
  simp only [inputQueueSize] at hh ht
  have hcount : 1 ≤ q.ring.count := by
    simp only [ring, inputQueueSize]
    omega
  have hrest : (q.ring.pop inputQueueSize 1).2 = q.advance.ring := by
    rw [hring.pop_eq]
    simp only [ring, advance, inputQueueSize, RingBuffer.mk.injEq, true_and]
    omega
  have hfirst : (q.ring.pop inputQueueSize 1).1 = [q.data q.tail] := by
    rw [hring.pop_eq]
    exact congrArg (fun i => [q.data i]) (Nat.mod_eq_of_lt ht)
  have happend := hring.pop_append hcount
  rw [hrest, hfirst] at happend
  exact happend.symm

theorem advance_full (hfull : q.full = true) : q.tail ≠ q.head ∧ q.advance.full = false := by
  obtain ⟨hh, ht⟩ := h
  simp only [full, advance, inputQueueSize, beq_iff_eq, beq_eq_false_iff_ne] at hfull hh ht ⊢
  omega

theorem enqueue_full (hfull : q.full = true) {c : α} (hc : urgent c = true) :
    (q.enqueue urgent c).contents = q.contents.tail ++ [c] := by
  obtain ⟨hne, hroom⟩ := advance_full h hfull
  rw [enqueue, if_neg (by simp [hfull]), if_pos hc, contents_put h.advance hroom,
    contents_advance h hne, tail_cons]

end Contents

end InputQueue

/-! ## Runs -/

/-- A queue, with everything that was entered and taken out so far. -/
structure Input (α : Type*) where
  queue : InputQueue α
  entered : List α
  taken : List α

namespace Input

variable {α : Type*} {urgent : α → Bool} {s : Input α}

inductive Op (α : Type*) where
  | enter (c : α)
  | take

def step (urgent : α → Bool) (s : Input α) : Op α → Input α
  | .enter c => { s with queue := s.queue.enqueue urgent c, entered := s.entered ++ [c] }
  | .take =>
    { s with queue := s.queue.dequeue.2, taken := s.taken ++ s.queue.dequeue.1.toList }

def boot (data : Nat → α) : Input α := ⟨⟨data, 0, 0⟩, [], []⟩

/-- What was taken out and what is still queued. -/
def kept (s : Input α) : List α := s.taken ++ s.queue.contents

/-- The urgent entries that were taken out or are queued are exactly the entered ones. -/
def Complete (urgent : α → Bool) (s : Input α) : Prop :=
  s.kept.filter urgent = s.entered.filter urgent

/-- No urgent entry is the oldest one when another one goes into a full queue. -/
def Spared (urgent : α → Bool) (s : Input α) : Op α → Prop
  | .enter c => s.queue.full = true → urgent c = true → urgent (s.queue.data s.queue.tail) = false
  | .take => True

structure Inv (s : Input α) : Prop where
  valid : s.queue.Valid
  order : s.kept <+ s.entered

theorem step_valid (urgent : α → Bool) (hvalid : s.queue.Valid) (op : Op α) :
    (s.step urgent op).queue.Valid := by
  cases op <;> simp only [step, InputQueue.enqueue, InputQueue.dequeue] <;> split_ifs
  exacts [hvalid.put _, hvalid.advance.put _, hvalid, hvalid.advance, hvalid]

theorem kept_take (urgent : α → Bool) (hvalid : s.queue.Valid) :
    (s.step urgent .take).kept = s.kept := by
  simp only [kept, step, InputQueue.dequeue]
  split
  · next hne =>
    rw [InputQueue.contents_advance hvalid hne]
    simp
  · simp

theorem step_spec (urgent : α → Bool) (h : s.Inv) (op : Op α) : (s.step urgent op).Inv ∧
    (Complete urgent (s.step urgent op) ↔ Complete urgent s ∧ Spared urgent s op) := by
  unfold Complete
  obtain ⟨hvalid, horder⟩ := h
  have hvalid' := step_valid urgent hvalid op
  cases op with
  | take =>
    have hkept := kept_take urgent hvalid
    refine ⟨⟨hvalid', hkept ▸ horder⟩, ?_⟩
    rw [hkept]
    simp [step, Spared]
  | enter c =>
    have hentered : (s.step urgent (.enter c)).entered = s.entered ++ [c] := rfl
    cases hfull : s.queue.full with
    | false =>
      have hkept : (s.step urgent (.enter c)).kept = s.kept ++ [c] := by
        simp [kept, step, InputQueue.enqueue, hfull, InputQueue.contents_put hvalid hfull]
      refine ⟨⟨hvalid', hkept ▸ horder.append_right [c]⟩, ?_⟩
      rw [hkept, hentered]
      simp [Spared, hfull]
    | true =>
      cases hc : urgent c with
      | false =>
        have hkept : (s.step urgent (.enter c)).kept = s.kept := by
          simp [kept, step, InputQueue.enqueue, hfull, hc]
        refine ⟨⟨hvalid', hkept ▸ horder.trans (sublist_append_left ..)⟩, ?_⟩
        rw [hkept, hentered]
        simp [Spared, hc]
      | true =>
        have hold := InputQueue.contents_advance hvalid (InputQueue.advance_full hvalid hfull).1
        generalize s.queue.advance.contents = rest at hold
        have hkept : (s.step urgent (.enter c)).kept = s.taken ++ rest ++ [c] := by
          simp [kept, step, InputQueue.enqueue_full hvalid hfull hc, hold]
        rw [kept, hold] at horder
        have hrest : s.taken ++ rest <+ s.entered :=
          ((sublist_cons_self ..).append_left _).trans horder
        refine ⟨⟨hvalid', hkept ▸ hrest.append_right [c]⟩, ?_⟩
        have hlen := (horder.filter urgent).length_le
        rw [hkept, hentered, kept, hold, Spared]
        simp only [filter_append, append_left_inj]
        cases hx : urgent (s.queue.data s.queue.tail) with
        | false => simp [hx]
        | true =>
          -- an urgent entry is lost for good: there are more entered than kept
          simp only [hfull, hc, filter_append, filter_cons, hx, if_true, length_append,
            length_cons] at hlen ⊢
          refine ⟨fun heq => ?_, fun h => absurd (h.2 trivial trivial) (by decide)⟩
          have := congrArg length heq
          rw [length_append] at this
          omega

/-- What the queue makes of a run. -/
structure Account (urgent : α → Bool) (ops : List (Op α)) (s s' : Input α) : Prop where
  /-- Entries stay in order. -/
  order : s'.kept <+ s'.entered
  /-- A full queue makes room by giving up its oldest entry. -/
  oldest : ∀ c, s'.queue.full = true → urgent c = true →
    (s'.step urgent (.enter c)).queue.contents = s'.queue.contents.tail ++ [c]
  urgents : Complete urgent s' ↔ Machine.Throughout (Spared urgent) (step urgent) s ops

theorem contents_boot (data : Nat → α) : (boot data).queue.contents = [] := by
  simp [boot, InputQueue.contents, InputQueue.ring, RingBuffer.contents, inputQueueSize]

theorem inv_boot (data : Nat → α) : (boot data).Inv :=
  ⟨⟨Nat.zero_lt_succ _, Nat.zero_lt_succ _⟩, by rw [kept, contents_boot]; exact Sublist.refl []⟩

theorem run_account (urgent : α → Bool) (data : Nat → α) (ops : List (Op α)) :
    Account urgent ops (boot data) (ops.foldl (step urgent) (boot data)) := by
  obtain ⟨⟨hvalid, horder⟩, hiff⟩ := Machine.foldl_throughout (I := Inv) (P := Complete urgent)
    (fun _ op h => step_spec urgent h op) (inv_boot data) ops
  refine ⟨horder, fun c hfull hc => InputQueue.enqueue_full hvalid hfull hc, hiff.trans ?_⟩
  exact and_iff_right (by rw [Complete, kept, contents_boot]; rfl)

theorem fill (urgent : α → Bool) (data : Nat → α) {xs : List α}
    (hlen : xs.length < inputQueueSize) :
    ∃ q, (xs.map .enter).foldl (step urgent) (boot data) = ⟨q, xs, []⟩ ∧ q.Valid ∧
      q.head = xs.length ∧ q.tail = 0 ∧ q.contents = xs := by
  induction xs using reverseRecOn with
  | nil => exact ⟨_, rfl, (inv_boot data).valid, rfl, rfl, contents_boot data⟩
  | append_singleton xs x ih =>
    rw [length_append, length_singleton] at hlen
    obtain ⟨q, hrun, hvalid, hhead, htail, hq⟩ := ih (by omega)
    have hroom : q.full = false := by
      simp only [InputQueue.full, hhead, htail, Nat.mod_eq_of_lt hlen]
      rfl
    refine ⟨q.put x, ?_, hvalid.put x, ?_, htail, ?_⟩
    · rw [map_append, foldl_append, hrun]
      simp [step, InputQueue.enqueue, hroom]
    · rw [length_append, ← hhead]
      exact Nat.mod_eq_of_lt (hhead ▸ hlen)
    · rw [InputQueue.contents_put hvalid hroom, hq]

theorem overflow (data : Nat → α) {xs : List α} (hlen : xs.length + 1 = inputQueueSize) {c : α}
    (hc : urgent c = true) :
    (((xs ++ [c]).map .enter).foldl (step urgent) (boot data)).kept = xs.tail ++ [c] := by
  obtain ⟨q, hrun, hvalid, hhead, htail, hq⟩ := fill urgent data (Nat.lt_of_succ_le hlen.le)
  have hfull : q.full = true := by
    rw [InputQueue.full, hhead, htail, hlen, Nat.mod_self]
    rfl
  rw [map_append, foldl_append, hrun, ← hq]
  exact InputQueue.enqueue_full hvalid hfull hc

/-! ## Characters and events -/

/-- The characters that the two queues compare with. -/
def urgentChar (c : UInt8) : Bool := [10, 13, 3, 4, 12, 21, 23, 26, 28].contains c

structure KeyboardEvent where
  type : UInt8
  ch : UInt8
  consoleIndex : UInt8
  special : UInt8

/-- `KEYBOARD_EVENT_CHAR` is 0. -/
def urgentEvent (e : KeyboardEvent) : Bool := e.type == 0 && urgentChar e.ch

/-- All newlines and control characters come through exactly if none of them is the oldest entry
when another one goes into a full queue. -/
theorem urgent_input_kept_iff (chars : Nat → UInt8) (ops : List (Op UInt8))
    (events : Nat → KeyboardEvent) (keys : List (Op KeyboardEvent)) :
    Account urgentChar ops (boot chars) (ops.foldl (step urgentChar) (boot chars)) ∧
      Account urgentEvent keys (boot events) (keys.foldl (step urgentEvent) (boot events)) :=
  ⟨run_account _ _ _, run_account _ _ _⟩

/-- A newline, 4094 letters, and one more newline: the first one is lost. -/
theorem queued_newline_discarded :
    (((((10 : UInt8) :: replicate 4094 97) ++ [10]).map Op.enter).foldl (step urgentChar)
      (boot fun _ => 0)).kept = replicate 4094 97 ++ [10] :=
  overflow _ (by rw [length_cons, length_replicate]; rfl) rfl

end Input

end OrangeOs.Tty
