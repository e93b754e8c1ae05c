import OrangeOs.Lib.Links
import OrangeOs.Lib.RingBuffer
import OrangeOs.Ipc.Rendezvous

/-! # Pipes

`pipe_read`, `pipe_write`, `file_retain` and `file_release` of `file.c` on one pipe and the file
objects of its two ends. What runs under the guard of the pipe is one step: `thread_block_with_lock`
makes the thread BLOCKED before it gives the guard back. The file objects and the pipe stay as they
are when they are freed; nobody has a reference to use them with.
-/

namespace OrangeOs.Pipe

open Function List
open Ipc (Tid)

def pipeCapacity : Nat := 4096

/-- `struct pipe_object` but for its guard. -/
structure PipeObject extends RingBuffer UInt8 where
  readers : Nat
  writers : Nat

/-- The kind of a file object of a pipe. -/
inductive End where
  | read
  | write
deriving DecidableEq

/-- The call a thread is in, with its arguments. -/
inductive Call where
  | read (length : Nat)
  | write (input : List UInt8)

/-- A call that has returned: the number of bytes it found in the pipe, its result, what it has put
into its buffer, and the pipe at the end of its critical section. -/
structure Return where
  thread : Tid
  call : Call
  found : Nat
  result : Int
  output : List UInt8
  pipe : PipeObject

/-- The pipe, the reference counts of its ends, and the threads of the scheduler's ring.
`waitingLock` says whether the field points to this pipe, `blocked` whether the thread is BLOCKED
in one of the two calls. -/
structure State where
  pipe : PipeObject
  refs : End → Nat
  ring : List Tid
  blocked : Tid → Bool
  waitingLock : Tid → Bool
  call : Tid → Option Call
  log : List Return

/-- `pipe_create`: the data are zeros. -/
def pipeCreate (ring : List Tid) : State where
  pipe := { data := fun _ => 0, head := 0, tail := 0, count := 0, readers := 1, writers := 1 }
  refs := fun _ => 1
  ring := ring
  blocked := fun _ => false
  waitingLock := fun _ => false
  call := fun _ => none
  log := []

namespace State

/-- `thread_unblock`. -/
def threadUnblock (s : State) (t : Tid) : State :=
  if s.blocked t = true then
    { s with
      waitingLock := update s.waitingLock t false
      blocked := update s.blocked t false }
  else s

/-- What `wake_pipe_waiters` does to a thread it meets. -/
def wakeWaiter (s : State) (t : Tid) : State :=
  if s.blocked t = true ∧ s.waitingLock t = true then s.threadUnblock t else s

/-- `wake_pipe_waiters`, called by thread `t`. -/
def wakePipeWaiters (s : State) (t : Tid) : State :=
  ((Links.behind s.ring t).foldl wakeWaiter s).wakeWaiter t

/-- The end of a round that finds nothing to do. -/
def threadBlockWithLock (s : State) (t : Tid) : State :=
  { s with
    waitingLock := update s.waitingLock t true
    blocked := update s.blocked t true }

/-- A round of `pipe_read` of thread `t`; it gives a result and the buffer if the call returns. -/
def pipeRead (s : State) (t : Tid) (length : Nat) : State × Option (Int × List UInt8) :=
  if s.pipe.count ≠ 0 then
    let n := if length < s.pipe.count then length else s.pipe.count
    let out := s.pipe.pop pipeCapacity n
    ({ s with pipe := { s.pipe with toRingBuffer := out.2 } }.wakePipeWaiters t,
      some (n, out.1))
  else if s.pipe.writers = 0 then (s, some (0, []))
  else (s.threadBlockWithLock t, none)

/-- A round of `pipe_write` of thread `t`. -/
def pipeWrite (s : State) (t : Tid) (input : List UInt8) : State × Option Int :=
  if s.pipe.readers = 0 then (s, some (-1))
  else if s.pipe.count < pipeCapacity then
    let n := if input.length < pipeCapacity - s.pipe.count then input.length
      else pipeCapacity - s.pipe.count
    let ring := s.pipe.push pipeCapacity (input.take n)
    ({ s with pipe := { s.pipe with toRingBuffer := ring } }.wakePipeWaiters t, some n)
  else (s.threadBlockWithLock t, none)

def fileRetain (s : State) (e : End) : State :=
  { s with
    refs := update s.refs e (s.refs e + 1)
    pipe := match e with
      | .read => { s.pipe with readers := s.pipe.readers + 1 }
      | .write => { s.pipe with writers := s.pipe.writers + 1 } }

/-- `file_release`, called by thread `t`. -/
def fileRelease (s : State) (t : Tid) (e : End) : State :=
  if s.refs e = 0 then s
  else
    { s with
      refs := update s.refs e (s.refs e - 1)
      pipe := match e with
        | .read =>
          if s.pipe.readers ≠ 0 then { s.pipe with readers := s.pipe.readers - 1 } else s.pipe
        | .write =>
          if s.pipe.writers ≠ 0 then { s.pipe with writers := s.pipe.writers - 1 }
          else s.pipe }.wakePipeWaiters t

/-- A call of thread `t` returns; its last round began with `found` bytes in the pipe. -/
def finish (s : State) (t : Tid) (call : Call) (found : Nat) (result : Int)
    (output : List UInt8) : State :=
  { s with
    call := update s.call t none
    log := s.log ++ [⟨t, call, found, result, output, s.pipe⟩] }

/-- A thread that is not BLOCKED goes round the loop of its call. -/
def step (s : State) (t : Tid) : State :=
  if s.blocked t = true then s
  else
    match s.call t with
    | none => s
    | some (.read length) =>
      match s.pipeRead t length with
      | (s', none) => s'
      | (s', some (result, output)) => s'.finish t (.read length) s.pipe.count result output
    | some (.write input) =>
      match s.pipeWrite t input with
      | (s', none) => s'
      | (s', some result) => s'.finish t (.write input) s.pipe.count result []

end State

/-- What threads do: a call, the next round of a call, a change of the references to an end, a
wake-up that has nothing to do with the pipe, and threads that come and go. -/
inductive Op where
  | read (t : Tid) (length : Nat)
  | write (t : Tid) (input : List UInt8)
  | run (t : Tid)
  | retain (e : End)
  | release (t : Tid) (e : End)
  | unblock (t : Tid)
  | enter (t : Tid)
  | leave (t : Tid)

def apply (s : State) : Op → State
  | .read t length =>
    if t ∈ s.ring ∧ s.call t = none then
      { s with call := update s.call t (some (.read length)) }
    else s
  | .write t input =>
    if t ∈ s.ring ∧ s.call t = none then
      { s with call := update s.call t (some (.write input)) }
    else s
  | .run t => if t ∈ s.ring then s.step t else s
  | .retain e => s.fileRetain e
  | .release t e => s.fileRelease t e
  | .unblock t => s.threadUnblock t
  | .enter t => if t ∈ s.ring then s else { s with ring := s.ring ++ [t] }
  | .leave t =>
    { s with
      ring := s.ring.filter (· != t)
      blocked := update s.blocked t false
      call := update s.call t none }

def run (ring : List Tid) (ops : List Op) : State := ops.foldl apply (pipeCreate ring)

/-! ## The stream -/

def Return.delivered (r : Return) : List UInt8 :=
  match r.call with
  | .read _ => r.output.take r.result.toNat
  | .write _ => []

def Return.accepted (r : Return) : List UInt8 :=
  match r.call with
  | .read _ => []
  | .write input => input.take r.result.toNat

/-- A read returns what there is, up to its length, and end of file only on an empty pipe without
writers; a write takes what there is space for, or fails without readers. -/
def Return.Justified (r : Return) : Prop :=
  match r.call with
  | .read length => r.result = min length r.found ∧ r.output.length = min length r.found ∧
      (0 < length → r.result = 0 → r.pipe.count = 0 ∧ r.pipe.writers = 0)
  | .write input => (r.result = -1 ∧ r.pipe.readers = 0) ∨
      r.result = min input.length (pipeCapacity - r.found)

/-- The buffer holds what writes have put in and reads have not taken out. -/
structure Flow (b : RingBuffer UInt8) (log : List Return) : Prop where
  valid : b.Valid pipeCapacity
  stream : log.flatMap Return.delivered ++ b.contents pipeCapacity = log.flatMap Return.accepted
  justified : ∀ r ∈ log, r.Justified

variable {b : RingBuffer UInt8} {log : List Return}

theorem Flow.returned (h : Flow b log) {b' : RingBuffer UInt8} {r : Return}
    (hvalid : b'.Valid pipeCapacity) (hstream : b.contents pipeCapacity ++ r.accepted =
      r.delivered ++ b'.contents pipeCapacity) (hr : r.Justified) : Flow b' (log ++ [r]) := by
  refine ⟨hvalid, ?_, ?_⟩
  · simp only [flatMap_append, flatMap_cons, flatMap_nil, append_nil]
    rw [append_assoc, ← hstream, ← append_assoc, h.stream]
  · intro q hq
    rcases mem_append.mp hq with hq | hq
    · exact h.justified q hq
    · exact mem_singleton.mp hq ▸ hr

theorem Flow.read (h : Flow b log) {r : Return} {length n : Nat} (hn : n = min length b.count)
    (hcall : r.call = .read length) (hfound : r.found = b.count) (hresult : r.result = n)
    (houtput : r.output = (b.pop pipeCapacity n).1) (hne : b.count ≠ 0) :
    Flow (b.pop pipeCapacity n).2 (log ++ [r]) := by
  have hle : n ≤ b.count := by omega
  have hlength : r.output.length = n := by
    rw [houtput, h.valid.pop_eq]
    simp
  refine h.returned (h.valid.pop hle) ?_ ?_
  · simp only [Return.accepted, Return.delivered, hcall, append_nil]
    rw [hresult, Int.toNat_natCast, take_of_length_le (Nat.le_of_eq hlength), houtput]
    exact (h.valid.pop_append hle).symm
  · simp only [Return.Justified, hcall, hresult, hlength, hfound]
    omega

theorem Flow.write (h : Flow b log) {r : Return} {input : List UInt8} {n : Nat}
    (hn : n = min input.length (pipeCapacity - b.count)) (hcall : r.call = .write input)
    (hfound : r.found = b.count) (hresult : r.result = n) :
    Flow (b.push pipeCapacity (input.take n)) (log ++ [r]) := by
  have hcount := h.valid.count
  have hlength : (input.take n).length ≤ n := length_take_le n input
  have hroom : b.count + (input.take n).length ≤ pipeCapacity := by omega
  obtain ⟨hvalid, hcontents⟩ := h.valid.push hroom
  refine h.returned hvalid ?_ ?_
  · simp only [Return.accepted, Return.delivered, hcall, hresult, Int.toNat_natCast,
      nil_append]
    exact hcontents.symm
  · simp only [Return.Justified, hcall, hresult, hfound]
    omega

/-! ## The waiters -/

/-- A round of the call would find nothing to do. -/
def Call.Stuck (p : PipeObject) : Call → Prop
  | .read _ => p.count = 0 ∧ p.writers ≠ 0
  | .write _ => p.count = pipeCapacity ∧ p.readers ≠ 0

/-- A BLOCKED thread can be found by the wake-up, and has to wait. -/
structure Waits (s : State) : Prop where
  found : ∀ t, s.blocked t = true → t ∈ s.ring ∧ s.waitingLock t = true
  stuck : ∀ t, s.blocked t = true → ∃ c, s.call t = some c ∧ c.Stuck s.pipe

variable {s : State} {t : Tid}

/-- Threads were woken and nothing else has changed. -/
structure Roused (s s' : State) : Prop where
  pipe : s'.pipe = s.pipe
  ring : s'.ring = s.ring
  call : s'.call = s.call
  log : s'.log = s.log
  blocked : ∀ t, s'.blocked t = true → s.blocked t = true ∧ s'.waitingLock t = s.waitingLock t

theorem Roused.refl (s : State) : Roused s s := ⟨rfl, rfl, rfl, rfl, fun _ h => ⟨h, rfl⟩⟩

theorem Roused.trans {s s' s'' : State} (h : Roused s s') (h' : Roused s' s'') : Roused s s'' := by
  refine ⟨h'.pipe.trans h.pipe, h'.ring.trans h.ring, h'.call.trans h.call, h'.log.trans h.log, ?_⟩
  intro t ht
  obtain ⟨hs', hl'⟩ := h'.blocked t ht
  obtain ⟨hs, hl⟩ := h.blocked t hs'
  exact ⟨hs, hl'.trans hl⟩

theorem roused_threadUnblock (s : State) (t : Tid) : Roused s (s.threadUnblock t) := by
  unfold State.threadUnblock
  split
  · refine ⟨rfl, rfl, rfl, rfl, fun u hu => ?_⟩
    dsimp only at hu ⊢
    by_cases hut : u = t
    · rw [hut, update_self] at hu
      cases hu
    · rw [update_of_ne hut] at hu ⊢
      exact ⟨hu, rfl⟩
  · exact Roused.refl s

theorem roused_wakeWaiter (s : State) (t : Tid) : Roused s (s.wakeWaiter t) := by
  unfold State.wakeWaiter
  split
  · exact roused_threadUnblock s t
  · exact Roused.refl s

theorem wakeWaiter_self (s : State) (t : Tid) (h : (s.wakeWaiter t).blocked t = true) :
    s.waitingLock t = false := by
  have hb := ((roused_wakeWaiter s t).blocked t h).1
  unfold State.wakeWaiter State.threadUnblock at h
  by_cases hl : s.waitingLock t = true
  · rw [if_pos ⟨hb, hl⟩, if_pos hb] at h
    dsimp only at h
    rw [update_self] at h
    cases h
  · exact Bool.eq_false_iff.mpr hl

theorem roused_scan (ts : List Tid) (s : State) : Roused s (ts.foldl State.wakeWaiter s) ∧
    ∀ t ∈ ts, (ts.foldl State.wakeWaiter s).blocked t = true → s.waitingLock t = false := by
  induction ts generalizing s with
  | nil => exact ⟨Roused.refl s, nofun⟩
  | cons u ts ih =>
    obtain ⟨hrest, hmet⟩ := ih (s.wakeWaiter u)
    have hone := roused_wakeWaiter s u
    refine ⟨hone.trans hrest, fun t ht hb => ?_⟩
    obtain ⟨hb', -⟩ := hrest.blocked t hb
    rcases mem_cons.mp ht with rfl | ht
    · exact wakeWaiter_self s t hb'
    · exact (hone.blocked t hb').2 ▸ hmet t ht hb

theorem roused_wakePipeWaiters (s : State) (t : Tid) : Roused s (s.wakePipeWaiters t) :=
  (roused_scan _ s).1.trans (roused_wakeWaiter _ t)

theorem wakePipeWaiters_blocked
    (h : ∀ u, s.blocked u = true → u ∈ s.ring ∧ s.waitingLock u = true) (u : Tid) :
    (s.wakePipeWaiters t).blocked u = false := by
  rw [Bool.eq_false_iff]
  intro hu
  obtain ⟨hscan, hmet⟩ := roused_scan (Links.behind s.ring t) s
  obtain ⟨hu', -⟩ := (roused_wakeWaiter _ t).blocked u hu
  obtain ⟨hb, hl⟩ := hscan.blocked u hu'
  obtain ⟨hring, hlock⟩ := h u hb
  by_cases hut : u = t
  · subst hut
    exact Bool.false_ne_true ((wakeWaiter_self _ u hu).symm.trans (hl.trans hlock))
  · exact Bool.false_ne_true ((hmet u (Links.mem_behind hring hut) hu').symm.trans hlock)

/-! ## The invariant -/

/-- The stream is whole and everybody BLOCKED has to wait. -/
structure Sound (s : State) : Prop where
  flow : Flow s.pipe.toRingBuffer s.log
  waits : Waits s

theorem sound_pipeCreate (ring : List Tid) : Sound (pipeCreate ring) := by
  have hvalid : (pipeCreate ring).pipe.Valid pipeCapacity :=
    ⟨Nat.succ_pos 4095, Nat.zero_le _, rfl⟩
  exact ⟨⟨hvalid, rfl, nofun⟩, nofun, nofun⟩

theorem Waits.roused (h : Waits s) {s' : State} (hr : Roused s s') : Waits s' := by
  refine ⟨fun t ht => ?_, fun t ht => ?_⟩
  · obtain ⟨hb, hl⟩ := hr.blocked t ht
    rw [hr.ring, hl]
    exact h.found t hb
  · rw [hr.call, hr.pipe]
    exact h.stuck t (hr.blocked t ht).1

theorem Waits.of_none (h : ∀ t, s.blocked t = false) : Waits s := by
  have hnot : ∀ t, s.blocked t ≠ true := fun t => Bool.eq_false_iff.mp (h t)
  exact ⟨fun t ht => absurd ht (hnot t), fun t ht => absurd ht (hnot t)⟩

theorem Waits.finish (h : Waits s) (hb : s.blocked t = false) (c : Call) (found : Nat)
    (result : Int) (output : List UInt8) : Waits (s.finish t c found result output) := by
  refine ⟨h.found, fun u hu => ?_⟩
  have hut : u ≠ t := fun heq => Bool.false_ne_true (hb.symm.trans (heq ▸ hu))
  obtain ⟨d, hd, hstuck⟩ := h.stuck u hu
  exact ⟨d, (update_of_ne hut _ _).trans hd, hstuck⟩

theorem Waits.block (h : Waits s) (hring : t ∈ s.ring) {c : Call} (hc : s.call t = some c)
    (hstuck : c.Stuck s.pipe) : Waits (s.threadBlockWithLock t) := by
  refine ⟨fun u hu => ?_, fun u hu => ?_⟩
  all_goals by_cases hut : u = t
  · subst hut
    exact ⟨hring, update_self _ _ _⟩
  · have hu' : s.blocked u = true := (update_of_ne hut _ _).symm.trans hu
    exact ⟨(h.found u hu').1, (update_of_ne hut _ _).trans (h.found u hu').2⟩
  · subst hut
    exact ⟨c, hc, hstuck⟩
  · have hu' : s.blocked u = true := (update_of_ne hut _ _).symm.trans hu
    exact h.stuck u hu'

section

variable (h : Sound s)
include h

theorem Sound.transferred {b : RingBuffer UInt8} {c : Call} {found : Nat} {result : Int}
    {output : List UInt8}
    (hflow : Flow b (s.log ++ [⟨t, c, found, result, output, { s.pipe with toRingBuffer := b }⟩])) :
    Sound (({ s with pipe := { s.pipe with toRingBuffer := b } }.wakePipeWaiters t).finish t c
      found result output) := by
  generalize hs' : ({ s with pipe := { s.pipe with toRingBuffer := b } } : State) = s'
  have hfound : ∀ u, s'.blocked u = true → u ∈ s'.ring ∧ s'.waitingLock u = true := by
    rw [← hs']
    exact h.waits.found
  have hnone := wakePipeWaiters_blocked (t := t) hfound
  have hr := roused_wakePipeWaiters s' t
  refine ⟨?_, (Waits.of_none hnone).finish (hnone t) c found result output⟩
  unfold State.finish
  rw [hr.pipe, hr.log, ← hs']
  exact hflow

theorem Sound.pipeRead (hring : t ∈ s.ring) (hb : s.blocked t = false)
    {length : Nat} (hc : s.call t = some (.read length)) :
    Sound (match s.pipeRead t length with
      | (s', none) => s'
      | (s', some (result, output)) =>
        s'.finish t (.read length) s.pipe.count result output) := by
  unfold State.pipeRead
  by_cases hcount : s.pipe.count ≠ 0
  · rw [if_pos hcount]
    refine h.transferred (h.flow.read ?_ rfl rfl rfl rfl hcount)
    split <;> omega
  · rw [if_neg hcount]
    have hempty : s.pipe.count = 0 := not_not.mp hcount
    by_cases hw : s.pipe.writers = 0
    · rw [if_pos hw]
      refine ⟨h.flow.returned h.flow.valid (append_nil _) ⟨?_, ?_, fun _ _ => ⟨hempty, hw⟩⟩,
        h.waits.finish hb _ _ _ _⟩
      all_goals simp [hempty]
    · rw [if_neg hw]
      exact ⟨h.flow, h.waits.block hring hc ⟨hempty, hw⟩⟩

theorem Sound.pipeWrite (hring : t ∈ s.ring) (hb : s.blocked t = false)
    {input : List UInt8} (hc : s.call t = some (.write input)) :
    Sound (match s.pipeWrite t input with
      | (s', none) => s'
      | (s', some result) => s'.finish t (.write input) s.pipe.count result []) := by
  unfold State.pipeWrite
  by_cases hreaders : s.pipe.readers = 0
  · rw [if_pos hreaders]
    exact ⟨h.flow.returned h.flow.valid (append_nil _) (Or.inl ⟨rfl, hreaders⟩),
      h.waits.finish hb _ _ _ _⟩
  · rw [if_neg hreaders]
    by_cases hcount : s.pipe.count < pipeCapacity
    · rw [if_pos hcount]
      refine h.transferred (h.flow.write ?_ rfl rfl rfl)
      split <;> omega
    · rw [if_neg hcount]
      have hfull : s.pipe.count = pipeCapacity :=
        Nat.le_antisymm h.flow.valid.count (Nat.not_lt.mp hcount)
      exact ⟨h.flow, h.waits.block hring hc ⟨hfull, hreaders⟩⟩

theorem Sound.step (hring : t ∈ s.ring) : Sound (s.step t) := by
  unfold State.step
  split
  · exact h
  next hb =>
    have hb' : s.blocked t = false := Bool.eq_false_iff.mpr hb
    cases hc : s.call t with
    | none => exact h
    | some c =>
      cases c with
      | read length => exact h.pipeRead hring hb' hc
      | write input => exact h.pipeWrite hring hb' hc

theorem Sound.fileRetain (e : End) : Sound (s.fileRetain e) := by
  have hstuck : ∀ c : Call, c.Stuck s.pipe → c.Stuck (s.fileRetain e).pipe := by
    intro c hc
    cases e <;> cases c <;> obtain ⟨h1, h2⟩ := hc <;> refine ⟨h1, ?_⟩
    all_goals first | exact h2 | exact Nat.succ_ne_zero _
  refine ⟨?_, h.waits.found, fun t ht => ?_⟩
  · cases e <;> exact h.flow
  · obtain ⟨c, hc, hst⟩ := h.waits.stuck t ht
    exact ⟨c, hc, hstuck c hst⟩

theorem Sound.fileRelease (t : Tid) (e : End) : Sound (s.fileRelease t e) := by
  unfold State.fileRelease
  split
  · exact h
  · generalize hs' : State.mk _ _ _ _ _ _ _ = s'
    have hring : s'.pipe.toRingBuffer = s.pipe.toRingBuffer := by
      rw [← hs']
      cases e <;> dsimp only <;> split <;> rfl
    have hlog : s'.log = s.log := by rw [← hs']
    have hfound : ∀ u, s'.blocked u = true → u ∈ s'.ring ∧ s'.waitingLock u = true := by
      rw [← hs']
      exact h.waits.found
    have hr := roused_wakePipeWaiters s' t
    refine ⟨?_, Waits.of_none (wakePipeWaiters_blocked hfound)⟩
    rw [hr.pipe, hr.log, hring, hlog]
    exact h.flow

theorem Sound.call (hc : s.call t = none) (c : Call) :
    Sound { s with call := update s.call t (some c) } := by
  refine ⟨h.flow, h.waits.found, fun u hu => ?_⟩
  obtain ⟨d, hd, hstuck⟩ := h.waits.stuck u hu
  have hut : u ≠ t := by
    rintro rfl
    rw [hc] at hd
    cases hd
  exact ⟨d, (update_of_ne hut _ _).trans hd, hstuck⟩

theorem Sound.leave (t : Tid) : Sound (apply s (.leave t)) := by
  have hother : ∀ u, (apply s (.leave t)).blocked u = true → u ≠ t ∧ s.blocked u = true := by
    intro u hu
    have hut : u ≠ t := by
      rintro rfl
      have hself : update s.blocked u false u = true := hu
      rw [update_self] at hself
      cases hself
    exact ⟨hut, (update_of_ne hut _ _).symm.trans hu⟩
  refine ⟨h.flow, fun u hu => ?_, fun u hu => ?_⟩
  · obtain ⟨hut, hb⟩ := hother u hu
    obtain ⟨hring, hlock⟩ := h.waits.found u hb
    exact ⟨mem_filter.mpr ⟨hring, bne_iff_ne.mpr hut⟩, hlock⟩
  · obtain ⟨hut, hb⟩ := hother u hu
    obtain ⟨c, hc, hstuck⟩ := h.waits.stuck u hb
    exact ⟨c, (update_of_ne hut _ _).trans hc, hstuck⟩

theorem Sound.apply (op : Op) : Sound (apply s op) := by
  cases op with
  | read t length =>
    dsimp only [Pipe.apply]
    split
    next hc => exact h.call hc.2 _
    · exact h
  | write t input =>
    dsimp only [Pipe.apply]
    split
    next hc => exact h.call hc.2 _
    · exact h
  | run t =>
    dsimp only [Pipe.apply]
    split
    next hring => exact h.step hring
    · exact h
  | retain e => exact h.fileRetain e
  | release t e => exact h.fileRelease t e
  | unblock t =>
    have hr := roused_threadUnblock s t
    refine ⟨?_, h.waits.roused hr⟩
    dsimp only [Pipe.apply]
    rw [hr.pipe, hr.log]
    exact h.flow
  | enter t =>
    dsimp only [Pipe.apply]
    split
    · exact h
    · refine ⟨h.flow, fun u hu => ?_, h.waits.stuck⟩
      obtain ⟨hring, hlock⟩ := h.waits.found u hu
      exact ⟨mem_append_left _ hring, hlock⟩
  | leave t => exact h.leave t

end

theorem sound_run (ring : List Tid) (ops : List Op) : Sound (run ring ops) :=
  foldlRecOn ops Pipe.apply (sound_pipeCreate ring) fun _ h op _ => h.apply op

/-- What writes have taken is what reads have returned and then what is in the buffer; a call moves
as many bytes as it asks for and finds, or finds space for; reads and writes fail only without the
other end; and nobody is BLOCKED who would find something to do. -/
theorem pipe_is_a_stream (ring : List Tid) (ops : List Op) :
    (run ring ops).pipe.count ≤ pipeCapacity ∧
    (run ring ops).pipe.tail =
      ((run ring ops).pipe.head + (run ring ops).pipe.count) % pipeCapacity ∧
    (run ring ops).log.flatMap Return.delivered ++ (run ring ops).pipe.contents pipeCapacity =
      (run ring ops).log.flatMap Return.accepted ∧
    (∀ r ∈ (run ring ops).log, ∀ length, r.call = .read length →
      r.result = min length r.found ∧ r.output.length = min length r.found) ∧
    (∀ r ∈ (run ring ops).log, ∀ input, r.call = .write input →
      r.result = -1 ∨ r.result = min input.length (pipeCapacity - r.found)) ∧
    (∀ r ∈ (run ring ops).log, ∀ length, r.call = .read length → 0 < length → r.result = 0 →
      r.pipe.count = 0 ∧ r.pipe.writers = 0) ∧
    (∀ r ∈ (run ring ops).log, ∀ input, r.call = .write input → r.result = -1 →
      r.pipe.readers = 0) ∧
    (∀ t length, (run ring ops).blocked t = true →
      (run ring ops).call t = some (.read length) →
      (run ring ops).pipe.count = 0 ∧ (run ring ops).pipe.writers ≠ 0) ∧
    (∀ t input, (run ring ops).blocked t = true →
      (run ring ops).call t = some (.write input) →
      (run ring ops).pipe.count = pipeCapacity ∧ (run ring ops).pipe.readers ≠ 0) := by
  have h := sound_run ring ops
  have hread : ∀ r ∈ (run ring ops).log, ∀ length, r.call = .read length →
      r.result = min length r.found ∧ r.output.length = min length r.found ∧
        (0 < length → r.result = 0 → r.pipe.count = 0 ∧ r.pipe.writers = 0) := by
    intro r hr length hcall
    have hj := h.flow.justified r hr
    unfold Return.Justified at hj
    rw [hcall] at hj
    exact hj
  have hwrite : ∀ r ∈ (run ring ops).log, ∀ input, r.call = .write input →
      (r.result = -1 ∧ r.pipe.readers = 0) ∨
        r.result = min input.length (pipeCapacity - r.found) := by
    intro r hr input hcall
    have hj := h.flow.justified r hr
    unfold Return.Justified at hj
    rw [hcall] at hj
    exact hj
  refine ⟨h.flow.valid.count, h.flow.valid.tail, h.flow.stream, ?_, ?_, ?_, ?_, ?_, ?_⟩
  · exact fun r hr length hcall => ⟨(hread r hr length hcall).1, (hread r hr length hcall).2.1⟩
  · exact fun r hr input hcall => (hwrite r hr input hcall).imp_left And.left
  · exact fun r hr length hcall => (hread r hr length hcall).2.2
  · intro r hr input hcall hfail
    rcases hwrite r hr input hcall with ⟨-, hnone⟩ | hdone
    · exact hnone
    · omega
  · intro t length hb hcall
    obtain ⟨c, hc, hstuck⟩ := h.waits.stuck t hb
    cases hcall.symm.trans hc
    exact hstuck
  · intro t input hb hcall
    obtain ⟨c, hc, hstuck⟩ := h.waits.stuck t hb
    cases hcall.symm.trans hc
    exact hstuck

/-- Thread 1 writes three bytes, thread 2 reads two of them. -/
def handover : List Op := [.write 1 [7, 8, 9], .run 1, .read 2 2, .run 2]

theorem pipe_is_a_stream_handover :
    (run [1, 2] handover).log.map (fun r => (r.thread, r.found, r.result, r.output)) =
      [(1, 0, 3, []), (2, 3, 2, [7, 8])] ∧
    [7, 8] ++ (run [1, 2] handover).pipe.contents pipeCapacity = [7, 8, 9] := by
  have hlog : (run [1, 2] handover).log.map (fun r => (r.thread, r.found, r.result, r.output)) =
      [(1, 0, 3, []), (2, 3, 2, [7, 8])] := by decide +kernel
  have hout : (run [1, 2] handover).log.flatMap Return.delivered = [7, 8] := by decide +kernel
  have hin : (run [1, 2] handover).log.flatMap Return.accepted = [7, 8, 9] := by decide +kernel
  refine ⟨hlog, ?_⟩
  rw [← hout, ← hin]
  exact (pipe_is_a_stream [1, 2] handover).2.2.1

/-- Readers and writers are never BLOCKED at the same time. -/
theorem pipe_waits_one_way (ring : List Tid) (ops : List Op) :
    (∀ t, (run ring ops).blocked t = true →
      ∃ length, (run ring ops).call t = some (.read length)) ∨
    ∀ t, (run ring ops).blocked t = true →
      ∃ input, (run ring ops).call t = some (.write input) := by
  by_cases hempty : (run ring ops).pipe.count = 0
  · refine Or.inl fun t hb => ?_
    obtain ⟨c | c, hc, hstuck⟩ := (sound_run ring ops).waits.stuck t hb
    · exact ⟨c, hc⟩
    · exact absurd (hempty.symm.trans hstuck.1) (by decide)
  · refine Or.inr fun t hb => ?_
    obtain ⟨c | c, hc, hstuck⟩ := (sound_run ring ops).waits.stuck t hb
    · exact absurd hstuck.1 hempty
    · exact ⟨c, hc⟩

end OrangeOs.Pipe
