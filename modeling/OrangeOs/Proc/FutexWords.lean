import OrangeOs.Proc.FutexSafety

/-! # Futex words

`futex_wait` and `futex_wake` with the words of user memory that they are about. Words and the
rights to them change between any two steps; a thread leaves its bucket by `futex_wake` only.
-/

namespace OrangeOs.Proc

open Ipc Function

/-- `FUTEX_ERR_INVAL` and `FUTEX_ERR_AGAIN`. -/
def futexErrInval : Int := -1
def futexErrAgain : Int := -2

/-- What the page tables allow a process to do with a word; a page to be copied on the next
write is writable. -/
inductive Access where
  | none
  | readable
  | writable
deriving DecidableEq

/-- The kernel, and the aligned words of each address space. -/
structure Words (β : Type) where
  kernel : Kernel β
  word : ProcId → UInt64 → UInt32
  access : ProcId → UInt64 → Access

namespace Words

variable {β : Type}

/-- `valid_address` in `futex.c`. -/
def validAddress (s : Words β) (p : ProcId) (a : UInt64) : Bool :=
  p != kernelProcess && a &&& 3 == 0 && (s.kernel.proc p).cr3 && s.access p a == .writable

/-- `copy_from_user` of one word. -/
def copyFromUser (s : Words β) (p : ProcId) (a : UInt64) : Option UInt32 :=
  if s.access p a = .none then none else some (s.word p a)

/-- `futex_wait` by the current thread: the value it returns, or nothing if it blocks. -/
def futexWait (s : Words β) (p : ProcId) (a : UInt64) (expected : UInt32) :
    Option Int × Words β :=
  if s.kernel.processCurrent ≠ some p ∨ s.validAddress p a = false then (some futexErrInval, s)
  else if (s.kernel.proc p).exitRequested = true ∨ s.validAddress p a = false ∨
      s.copyFromUser p a = none then (some futexErrInval, s)
  else
    match s.copyFromUser p a with
    | none => (some futexErrInval, s)
    | some actual =>
      if actual ≠ expected then (some futexErrAgain, s)
      else (none, { s with kernel := s.kernel.futexWait a })

def futexWake (s : Words β) (p : ProcId) (a : UInt64) (count : UInt32) : Int × Words β :=
  if s.validAddress p a = false then (futexErrInval, s)
  else if count = 0 then (0, s)
  else
    let (woke, kernel) := s.kernel.futexWake p a count.toNat
    (woke, { s with kernel := kernel })

end Words

/-- A store to a word and a change of the rights to it may come at any time, `schedule` between
any two calls; the other steps are taken by the current thread. -/
inductive WordOp where
  | store (p : ProcId) (a : UInt64) (v : UInt32)
  | map (p : ProcId) (a : UInt64) (access : Access)
  | schedule
  | resume
  | spawn (address : UInt64)
  | fork (address : UInt64)
  | createThread
  | wait (a : UInt64) (expected : UInt32)
  | wake (a : UInt64) (count : UInt32)

/-- The steps of the kernel that such runs are made of. -/
def Op.peaceful {β : Type} : Op β → Bool
  | .schedule | .resume | .spawn _ | .fork _ | .createThread | .futexWait _ | .futexWake .. => true
  | _ => false

namespace Words

variable {β : Type} [Inhabited β]

def other (s : Words β) (op : Op β) : Words β := { s with kernel := s.kernel.step op }

def step (s : Words β) : WordOp → Words β
  | .store p a v =>
    { s with word := fun q b => if q = p ∧ b = a then v else s.word q b }
  | .map p a access =>
    { s with access := fun q b => if q = p ∧ b = a then access else s.access q b }
  | .schedule => s.other .schedule
  | .resume => s.other .resume
  | .spawn address => s.other (.spawn address)
  | .fork address => s.other (.fork address)
  | .createThread => s.other .createThread
  | .wait a expected =>
    match s.kernel.processCurrent with
    | some p => if s.kernel.inUser = true then (s.futexWait p a expected).2 else s
    | none => s
  | .wake a count =>
    match s.kernel.processCurrent with
    | some p => if s.kernel.inUser = true then (s.futexWake p a count).2 else s
    | none => s

/-- The state after a run from the boot of the kernel. -/
def run (address : UInt64) (word : ProcId → UInt64 → UInt32) (access : ProcId → UInt64 → Access)
    (ops : List WordOp) : Words β :=
  ops.foldl step ⟨Kernel.boot address, word, access⟩

end Words

namespace Kernel

variable {β : Type} {k k' : Kernel β} {t : Tid} {p : ProcId}

/-! ## No exits -/

def Calm (k : Kernel β) : Prop := ∀ p, (k.proc p).exitRequested = false

theorem Calm.modifyProc (h : Calm k) (p : ProcId) {f : Process → Process}
    (hf : (f (k.proc p)).exitRequested = (k.proc p).exitRequested) : Calm (k.modifyProc p f) := by
  intro r
  rw [modifyProc_proc]
  split
  · exact hf.trans (h p)
  · exact h r

theorem Calm.gentle (h : Calm k) (hg : Gentle k k') : Calm k' := by
  intro r
  rw [hg.proc r]
  exact h r

theorem Calm.discardThread (h : Calm k) (t : Tid) : Calm (k.discardThread t) := by
  intro r
  rw [(discardThread_spec k t).proc r]
  split <;> exact h r

theorem Calm.allocProcess (h : Calm k) (address : UInt64) : Calm (k.allocProcess address).2 := by
  intro r
  by_cases hr : r = k.nextProc
  · have hself : (k.allocProcess address).2.proc k.nextProc = newProcess k.nextPid address :=
      update_self _ _ _
    rw [hr, hself]
    rfl
  · have hother : (k.allocProcess address).2.proc r = k.proc r := update_of_ne hr _ _
    rw [hother]
    exact h r

theorem Calm.addThread [Inhabited β] (h : Calm k) (p : ProcId) :
    Calm ((k.threadAllocForProcess p).2.threadAppend k.nextTid) := by
  intro r
  rw [(addThread_spec k p).proc r]
  split
  · exact h p
  · exact h r

theorem Edit.calm (e : Edit k k') (h : Calm k) : Calm k' := by
  cases e with
  | reap r =>
    cases r with
    | task | procs => exact h
    | proc p _ _ hrequested => exact h.modifyProc p hrequested
    | discard _ => exact h.discardThread _
  | retain f => exact h.gentle (gentle_fileRetain k f)
  | switch => exact h
  | alloc address => exact h.allocProcess address
  | add _ => exact h.addThread _

theorem Edits.calm (e : Edits k k') (h : Calm k) : Calm k' := by
  induction e with
  | refl => exact h
  | tail _ hlast ih => exact hlast.calm ih

theorem Calm.waitRound (h : Calm k) (pid options : UInt32) : Calm (k.waitRound pid options).2 := by
  unfold Kernel.waitRound
  split
  · exact h
  · split
    · exact (reaps_reapProcess k _).edits.calm h
    · split <;> exact h

theorem Calm.joinLoop (h : Calm k) (t : Tid) : Calm (k.joinLoop t) := by
  unfold Kernel.joinLoop
  split
  · exact h
  · exact (reaps_reapKernelThread (k.modifyTask t fun x =>
      { x with joinWaiter := none }) t).edits.calm h

theorem Calm.pipeDone (h : Calm k) (i : Nat) (g : Pipe → Pipe) :
    Calm (((k.modifyPipe i g).wakePipeWaiters i).enter .user) :=
  have hcalm : Calm ((k.modifyPipe i g).wakePipeWaiters i) :=
    h.gentle ((k.gentle_modifyPipe i g).trans (gentle_wakePipeWaiters _ i))
  hcalm

theorem Calm.resume (h : Calm k) : Calm k.resume := by
  unfold Kernel.resume
  split
  · exact h.joinLoop _
  · exact h.waitRound _ 0
  · unfold Kernel.pipeRead
    split
    · exact h.pipeDone _ _
    · split <;> exact h
  · unfold Kernel.pipeWrite
    split
    · exact h
    · split
      · exact h.pipeDone _ _
      · exact h
  · unfold Kernel.mutexAcquire
    split <;> exact h
  · exact h

theorem Calm.futexWait (h : Calm k) (a : UInt64) : Calm (k.futexWait a) := by
  unfold Kernel.futexWait
  split
  · exact h
  · split <;> exact h

section Steps

variable [Inhabited β]

theorem Calm.step (h : Calm k) (ht : Tidy k) {op : Op β} (hop : op.peaceful = true) :
    Calm (k.step op) := by
  have hcall : ∀ {k'}, Calm k' → Calm (if k.inUser = true then k' else k) := by
    intro k' hk'
    split
    · exact hk'
    · exact h
  cases op with
  | schedule => exact (edits_schedule k).calm h
  | resume =>
    dsimp only [Kernel.step]
    split
    · exact h.resume
    · exact h
  | spawn address => exact hcall ((edits_spawn k address).calm h)
  | fork address => exact hcall ((edits_processFork k address).calm h)
  | createThread => exact hcall ((edits_processCreateThread ht.members).calm h)
  | futexWait a => exact hcall (h.futexWait a)
  | futexWake a n =>
    refine hcall ?_
    dsimp only [Kernel.call]
    split
    · exact h.gentle (gentle_futexWake ..)
    · exact h
  | timerTick | kill | exitCheck | join | detach | threadExit | processExit | wait | send | receive
  | pipe | close | pipeRead | pipeWrite | acquire | release | sleep => cases hop

theorem Tidy.peaceful (h : Tidy k) {op : Op β} (hop : op.peaceful = true) : Tidy (k.step op) := by
  refine h.step fun p hp => ?_
  have hnone : k.exits op = none := by
    cases op <;> first | rfl | cases hop
  rw [hnone] at hp
  cases hp

end Steps

/-! ## Queued threads -/

/-- `t` is queued for the address `a` of `p`. -/
def QueuedFor (k : Kernel β) (p : ProcId) (a : UInt64) (t : Tid) : Prop :=
  (k.futex.node t).waiting = true ∧ (k.futex.node t).process = some p ∧ (k.futex.node t).uaddr = a

theorem Queues.asleep_of_queued {q : Nat → List Tid} (h : Queues k q) {a : UInt64}
    (ht : k.QueuedFor p a t) : Asleep k t :=
  h.asleep (h.chained.queued t ht.1)

theorem Still.queuedFor (h : Still k k') {a : UInt64} (hs : Asleep k t) (ht : k.QueuedFor p a t) :
    k'.QueuedFor p a t ∧ k'.status t = .blocked := by
  refine ⟨?_, h.status t hs⟩
  unfold QueuedFor
  rw [h.node t hs]
  exact ht

theorem Queues.queuedFor_wake {q : Nat → List Tid} (h : Queues k q) (p : ProcId) (a : UInt64)
    (n : Nat) (p' : ProcId) (a' : UInt64) (t : Tid) : (k.futexWake p a n).2.QueuedFor p' a' t ↔
      k.QueuedFor p' a' t ∧ t ∉ (k.waitersFor p a).take n := by
  obtain ⟨-, ⟨q', hq', hmem⟩, hwoke⟩ := h.futexWake p a n
  unfold QueuedFor
  rw [(hwoke.key t).1, (hwoke.key t).2]
  have hwaiting : ((k.futexWake p a n).2.futex.node t).waiting = true ↔
      (k.futex.node t).waiting = true ∧ t ∉ (k.waitersFor p a).take n := by
    constructor
    · intro hw
      obtain ⟨hin, hnot⟩ := (hmem _ t).mp (hq'.chained.queued t hw)
      exact ⟨(h.chained.waiting _ t hin).1, hnot⟩
    · rintro ⟨hw, hnot⟩
      exact (hq'.chained.waiting _ t ((hmem _ t).mpr ⟨h.chained.queued t hw, hnot⟩)).1
  rw [hwaiting]
  tauto

end Kernel

namespace Words

variable {β : Type} {s : Words β}

/-! ## What the calls do -/

/-- `futex_wait(p, a, v)` queues the current thread if the word is `v`, and otherwise returns. -/
structure WaitsExactly (s : Words β) (p : ProcId) (a : UInt64) (v : UInt32) : Prop where
  invalid : s.kernel.processCurrent ≠ some p ∨ s.validAddress p a = false →
    s.futexWait p a v = (some futexErrInval, s)
  again : s.kernel.processCurrent = some p → s.validAddress p a = true → s.word p a ≠ v →
    s.futexWait p a v = (some futexErrAgain, s)
  blocks : s.kernel.processCurrent = some p → s.validAddress p a = true → s.word p a = v →
    s.kernel.status s.kernel.current = .ready →
    (s.futexWait p a v).1 = none ∧
      (s.futexWait p a v).2.kernel.status s.kernel.current = .blocked ∧
      (s.futexWait p a v).2.kernel.QueuedFor p a s.kernel.current ∧
      ∀ t, t ≠ s.kernel.current →
        (s.futexWait p a v).2.kernel.status t = s.kernel.status t ∧
        ∀ p' a', (s.futexWait p a v).2.kernel.QueuedFor p' a' t ↔ s.kernel.QueuedFor p' a' t

/-- `futex_wake(p, a, n)` makes `n` of the threads queued for the pair ready, or all of them if
there are fewer, and leaves the other threads as they are. -/
structure WakesExactly (s : Words β) (p : ProcId) (a : UInt64) (n : UInt32) : Prop where
  invalid : s.validAddress p a = false → s.futexWake p a n = (futexErrInval, s)
  wakes : s.validAddress p a = true → ∃ ws : List Tid,
    (ws.Nodup ∧ ∀ t, t ∈ ws ↔ s.kernel.QueuedFor p a t) ∧
    (s.futexWake p a n).1 = min n.toNat ws.length ∧
    (∀ t, (s.futexWake p a n).2.kernel.status t =
      if t ∈ ws.take n.toNat then .ready else s.kernel.status t) ∧
    (∀ t p' a', (s.futexWake p a n).2.kernel.QueuedFor p' a' t ↔
      s.kernel.QueuedFor p' a' t ∧ t ∉ ws.take n.toNat) ∧
    (ws.length ≤ n.toNat → ∀ t, s.kernel.QueuedFor p a t →
      (s.futexWake p a n).2.kernel.status t = .ready)

/-- A queued thread stays queued and BLOCKED, unless the step is a `futex_wake` in its process
that makes it ready. -/
def KeepsQueued [Inhabited β] (s : Words β) (op : WordOp) : Prop :=
  ∀ p a t, s.kernel.QueuedFor p a t →
    (s.step op).kernel.QueuedFor p a t ∧ (s.step op).kernel.status t = .blocked ∨
    (∃ n, op = .wake a n) ∧ s.kernel.processCurrent = some p ∧
      (s.step op).kernel.status t = .ready

theorem copyFromUser_of_valid {p : ProcId} {a : UInt64} (h : s.validAddress p a = true) :
    s.copyFromUser p a = some (s.word p a) := by
  unfold validAddress at h
  simp only [Bool.and_eq_true, beq_iff_eq] at h
  unfold copyFromUser
  rw [h.2]
  rfl

theorem futexWait_of_valid {p : ProcId} {a : UInt64} {v : UInt32}
    (hcalm : s.kernel.Calm) (hp : s.kernel.processCurrent = some p)
    (h : s.validAddress p a = true) : s.futexWait p a v =
      if s.word p a ≠ v then (some futexErrAgain, s)
      else (none, { s with kernel := s.kernel.futexWait a }) := by
  unfold futexWait
  rw [if_neg (by simp [hp, h]), if_neg (by simp [hcalm p, h, copyFromUser_of_valid h]),
    copyFromUser_of_valid h]

theorem waits_exactly (h : s.kernel.Tidy) (hcalm : s.kernel.Calm) (p : ProcId) (a : UInt64)
    (v : UInt32) : s.WaitsExactly p a v := by
  refine ⟨fun hinvalid => if_pos hinvalid, fun hp hvalid hne => ?_, fun hp hvalid heq hready => ?_⟩
  · rw [futexWait_of_valid hcalm hp hvalid, if_pos hne]
  · rw [futexWait_of_valid hcalm hp hvalid, if_neg (not_not.mpr heq)]
    obtain ⟨q, hq⟩ := h.formed.2
    have hk : p ≠ kernelProcess := by
      unfold validAddress at hvalid
      simp only [Bool.and_eq_true, bne_iff_ne] at hvalid
      exact hvalid.1.1.1
    obtain ⟨-, hslept⟩ := hq.futexWait hp hk (hcalm p) (by rw [hready]; nofun)
      (h.members.taskFresh _ p hp) a
    refine ⟨rfl, ?_, hslept.self, fun t ht => ⟨?_, fun p' a' => ?_⟩⟩
    · rw [hslept.status, if_pos rfl]
    · rw [hslept.status, if_neg ht]
    · obtain ⟨h1, h2, h3⟩ := hslept.key t ht
      unfold Kernel.QueuedFor
      rw [h1, h2, h3]

theorem wakes_exactly (h : s.kernel.Tidy) (p : ProcId) (a : UInt64) (n : UInt32) :
    s.WakesExactly p a n := by
  refine ⟨fun hinvalid => if_pos hinvalid, fun hvalid => ?_⟩
  obtain ⟨q, hq⟩ := h.formed.2
  obtain ⟨hcount, -, hwoke⟩ := hq.futexWake p a n.toNat
  have hmem : ∀ t, t ∈ s.kernel.waitersFor p a ↔ s.kernel.QueuedFor p a t :=
    fun t => hq.mem_waitersFor
  have hnodup : (s.kernel.waitersFor p a).Nodup := by
    rw [hq.waitersFor_eq]
    exact (hq.chained.nodup _).filter _
  have hcall : (s.futexWake p a n).1 = min n.toNat (s.kernel.waitersFor p a).length ∧
      (∀ t, (s.futexWake p a n).2.kernel.status t =
        if t ∈ (s.kernel.waitersFor p a).take n.toNat then .ready else s.kernel.status t) ∧
      ∀ t p' a', (s.futexWake p a n).2.kernel.QueuedFor p' a' t ↔
        s.kernel.QueuedFor p' a' t ∧ t ∉ (s.kernel.waitersFor p a).take n.toNat := by
    unfold futexWake
    rw [if_neg (by simp [hvalid])]
    by_cases hn : n = 0
    · rw [if_pos hn, hn]
      simp
    · rw [if_neg hn]
      dsimp only
      refine ⟨?_, hwoke.status, fun t p' a' => hq.queuedFor_wake p a n.toNat p' a' t⟩
      rw [hcount]
  obtain ⟨hwoken, hstatus, hqueued⟩ := hcall
  refine ⟨s.kernel.waitersFor p a, ⟨hnodup, hmem⟩, hwoken, hstatus, hqueued, fun hn t ht => ?_⟩
  rw [hstatus, List.take_of_length_le hn, if_pos ((hmem t).mpr ht)]

/-! ## Runs -/

theorem futexWait_state (s : Words β) (p : ProcId) (a : UInt64) (v : UInt32) :
    (s.futexWait p a v).2.kernel = s.kernel ∨
      (s.futexWait p a v).2.kernel = s.kernel.futexWait a := by
  unfold futexWait
  split
  · exact Or.inl rfl
  · split
    · exact Or.inl rfl
    · split
      · exact Or.inl rfl
      · split
        · exact Or.inl rfl
        · exact Or.inr rfl

theorem futexWake_state (s : Words β) (p : ProcId) (a : UInt64) (n : UInt32) :
    (s.futexWake p a n).2.kernel = s.kernel ∨
      (s.futexWake p a n).2.kernel = (s.kernel.futexWake p a n.toNat).2 := by
  unfold futexWake
  split
  · exact Or.inl rfl
  · split
    · exact Or.inl rfl
    · exact Or.inr rfl

variable [Inhabited β]

theorem step_kernel (s : Words β) (op : WordOp) : (s.step op).kernel = s.kernel ∨
    ∃ fop : Op β, fop.peaceful = true ∧ (s.step op).kernel = s.kernel.step fop := by
  cases op with
  | store | map => exact Or.inl rfl
  | schedule => exact Or.inr ⟨.schedule, rfl, rfl⟩
  | resume => exact Or.inr ⟨.resume, rfl, rfl⟩
  | spawn address => exact Or.inr ⟨.spawn address, rfl, rfl⟩
  | fork address => exact Or.inr ⟨.fork address, rfl, rfl⟩
  | createThread => exact Or.inr ⟨.createThread, rfl, rfl⟩
  | wait a v =>
    dsimp only [step]
    split
    · split
      · next p _ huser =>
        have hcall : s.kernel.step (.futexWait a) = s.kernel.futexWait a := if_pos huser
        refine (futexWait_state s p a v).imp id fun h => ⟨.futexWait a, rfl, ?_⟩
        rw [h, hcall]
      · exact Or.inl rfl
    · exact Or.inl rfl
  | wake a n =>
    dsimp only [step]
    split
    · split
      · next p hp huser =>
        have hcall : s.kernel.step (.futexWake a n.toNat) =
            (s.kernel.futexWake p a n.toNat).2 := by
          change (if s.kernel.inUser = true then s.kernel.call (.futexWake a n.toNat)
            else s.kernel) = _
          rw [if_pos huser]
          dsimp only [Kernel.call]
          rw [hp]
        refine (futexWake_state s p a n).imp id fun h => ⟨.futexWake a n.toNat, rfl, ?_⟩
        rw [h, hcall]
      · exact Or.inl rfl
    · exact Or.inl rfl

def Kept (s : Words β) : Prop := s.kernel.Tidy ∧ s.kernel.Calm

theorem Kept.step (h : s.Kept) (op : WordOp) : (s.step op).Kept := by
  unfold Kept
  rcases step_kernel s op with heq | ⟨fop, hop, heq⟩
  · rw [heq]
    exact h
  · rw [heq]
    exact ⟨h.1.peaceful hop, h.2.step h.1 hop⟩

theorem kept_run (address : UInt64) (word : ProcId → UInt64 → UInt32)
    (access : ProcId → UInt64 → Access) (ops : List WordOp) :
    (run address word access ops : Words β).Kept := by
  have hrun : ∀ (ops : List WordOp) (s : Words β), s.Kept → (ops.foldl Words.step s).Kept := by
    intro ops
    induction ops with
    | nil => exact fun _ h => h
    | cons op ops ih => exact fun s h => ih _ (h.step op)
  refine hrun ops _ ⟨Kernel.tidy_boot address, fun p => ?_⟩
  dsimp only [Kernel.boot]
  split <;> rfl

theorem keeps_queued (h : s.Kept) (op : WordOp) : s.KeepsQueued op := by
  intro p a t ht
  obtain ⟨q, hq⟩ := h.1.formed.2
  have hasleep := hq.asleep_of_queued ht
  have hsame : s.kernel.QueuedFor p a t ∧ s.kernel.status t = .blocked := ⟨ht, hasleep.2⟩
  have haside : ∀ op : Op β, Kernel.aside op = true →
      (s.kernel.step op).QueuedFor p a t ∧ (s.kernel.step op).status t = .blocked :=
    fun _ hop => (h.1.safe hop).toStill.queuedFor hasleep ht
  cases op with
  | store | map => exact Or.inl hsame
  | schedule => exact Or.inl (haside .schedule rfl)
  | resume => exact Or.inl (haside .resume rfl)
  | spawn address => exact Or.inl (haside (.spawn address) rfl)
  | fork address => exact Or.inl (haside (.fork address) rfl)
  | createThread => exact Or.inl (haside .createThread rfl)
  | wait b v =>
    refine Or.inl ?_
    dsimp only [Words.step]
    split
    · next r hr =>
      split
      · next huser =>
        have hready := Kernel.inUser_ready huser
        have hne : t ≠ s.kernel.current := by
          rintro rfl
          cases hready.symm.trans hasleep.2
        have hwait := waits_exactly h.1 h.2 r b v
        cases hvalid : s.validAddress r b with
        | false =>
          rw [hwait.invalid (Or.inr hvalid)]
          exact hsame
        | true =>
          by_cases hv : s.word r b = v
          · obtain ⟨-, -, -, hother⟩ := hwait.blocks hr hvalid hv hready
            obtain ⟨hstatus, hqueued⟩ := hother t hne
            exact ⟨(hqueued p a).mpr ht, hstatus.trans hasleep.2⟩
          · rw [hwait.again hr hvalid hv]
            exact hsame
      · exact hsame
    · exact hsame
  | wake b n =>
    dsimp only [Words.step]
    split
    · next r hr =>
      split
      · have hwake := wakes_exactly h.1 r b n
        cases hvalid : s.validAddress r b with
        | false =>
          rw [hwake.invalid hvalid]
          exact Or.inl hsame
        | true =>
          obtain ⟨ws, ⟨-, hws⟩, -, hstatus, hqueued, -⟩ := hwake.wakes hvalid
          by_cases hin : t ∈ ws.take n.toNat
          · obtain ⟨-, hp, ha⟩ := (hws t).mp (List.mem_of_mem_take hin)
            cases ht.2.1.symm.trans hp
            cases ht.2.2.symm.trans ha
            refine Or.inr ⟨⟨n, rfl⟩, hr, ?_⟩
            rw [hstatus, if_pos hin]
          · refine Or.inl ⟨(hqueued t p a).mpr ⟨ht, hin⟩, ?_⟩
            rw [hstatus, if_neg hin]
            exact hasleep.2
      · exact Or.inl hsame
    · exact Or.inl hsame

/-- In every state of every run: queued threads are BLOCKED, and stay so until a `futex_wake`
makes them ready; `futex_wait` queues on an unchanged word only; `futex_wake` wakes and counts
exactly the threads it is asked for, all of them if they are not too many. -/
theorem futex_wakeups_are_exact (address : UInt64) (word : ProcId → UInt64 → UInt32)
    (access : ProcId → UInt64 → Access) (ops : List WordOp) :
    let s : Words β := run address word access ops
    (∀ p a t, s.kernel.QueuedFor p a t → s.kernel.status t = .blocked) ∧
      (∀ op, s.KeepsQueued op) ∧ (∀ p a v, s.WaitsExactly p a v) ∧
      ∀ p a n, s.WakesExactly p a n := by
  intro s
  have h : s.Kept := kept_run address word access ops
  obtain ⟨q, hq⟩ := h.1.formed.2
  exact ⟨fun p a t ht => (hq.asleep_of_queued ht).2, keeps_queued h, waits_exactly h.1 h.2,
    wakes_exactly h.1⟩

example :
    let s : Words Unit := run 0x1000 (fun _ _ => 7) (fun _ _ => .writable) [.spawn 0x2000, .schedule,
      .createThread, .wait 0x10 7, .schedule, .schedule, .store 1 0x10 8]
    s.kernel.status 1 = .blocked ∧ (s.futexWait 1 0x10 7).1 = some futexErrAgain ∧
      (s.futexWake 1 0x10 5).1 = 1 := by
  decide +kernel

end Words

end OrangeOs.Proc
