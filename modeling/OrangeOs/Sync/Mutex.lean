import OrangeOs.Lib.Links
import OrangeOs.Lib.Machine
import OrangeOs.Ipc.Rendezvous
import Mathlib.Data.List.Basic

/-! # The sleeping mutex of the kernel

`mutex_acquire` and `mutex_release` of `sync.c` on one mutex, by threads that may be preempted
wherever they hold no spinlock. What runs under the guard is one step. A thread that finds the
mutex taken has published `waiting_lock` before it gives the guard back, and becomes BLOCKED in a
later step, in `thread_block`.
-/

namespace OrangeOs.Sync

open Function
open Ipc (Tid)

/-- Where a thread is in the code of the mutex. -/
inductive Pc where
  /-- In neither function and without the mutex. -/
  | outside
  /-- In `mutex_acquire`, before it takes the guard. -/
  | acquire
  /-- It has given the guard back and has not reached `thread_block`. -/
  | window
  /-- In `thread_block`. -/
  | sleep
  /-- `mutex_acquire` has returned. -/
  | holding
  /-- In `mutex_release`, before it takes the guard. -/
  | release
  /-- In `mutex_release`, after it gave the guard back. -/
  | leaving
deriving DecidableEq

/-- The mutex, the scheduler's ring and the threads; `waitingLock` says whether the field points
to this mutex. -/
structure State where
  isLocked : Bool
  ring : List Tid
  blocked : Tid → Bool
  waitingLock : Tid → Bool
  pc : Tid → Pc

/-- `mutex_init`, with all threads elsewhere. -/
def init (ring : List Tid) : State :=
  ⟨false, ring, fun _ => false, fun _ => false, fun _ => .outside⟩

namespace State

def move (s : State) (t : Tid) (p : Pc) : State := { s with pc := update s.pc t p }

theorem move_self (s : State) (t : Tid) (p : Pc) : (s.move t p).pc t = p :=
  update_self _ _ _

theorem move_of_ne (s : State) {t u : Tid} (p : Pc) (h : u ≠ t) : (s.move t p).pc u = s.pc u :=
  update_of_ne h _ _

/-- The ring from `current->next` on, up to `current`. -/
def after (s : State) (t : Tid) : List Tid :=
  (s.ring.dropWhile (· != t)).drop 1 ++ s.ring.takeWhile (· != t)

/-- `thread_unblock`. -/
def threadUnblock (s : State) (t : Tid) : State :=
  if s.blocked t = true then
    { s with
      waitingLock := update s.waitingLock t false
      blocked := update s.blocked t false }
  else s

/-- The scan of `mutex_release`. -/
def firstWaiter (s : State) (t : Tid) : Option Tid :=
  (s.after t).find? fun u => s.blocked u && s.waitingLock u

/-- The next step of thread `t`. -/
def step (s : State) (t : Tid) : State :=
  match s.pc t with
  | .outside | .holding => s
  | .acquire =>
    if s.isLocked = false then { s with isLocked := true }.move t .holding
    else { s with waitingLock := update s.waitingLock t true }.move t .window
  | .window => { s with blocked := update s.blocked t true }.move t .sleep
  | .sleep => if s.blocked t = true then s else s.move t .acquire
  | .release =>
    let s' := { s with isLocked := false }
    match s'.firstWaiter t with
    | some u => (s'.threadUnblock u).move t .leaving
    | none => s'.move t .leaving
  | .leaving => s.move t .outside

end State

/-- A call, or the next step of a thread. Only threads of the ring run. -/
inductive Op where
  | acquire (t : Tid)
  | release (t : Tid)
  | run (t : Tid)

def Op.thread : Op → Tid
  | .acquire t | .release t | .run t => t

def apply (s : State) (op : Op) : State :=
  if op.thread ∈ s.ring then
    match op with
    | .acquire t => if s.pc t = .outside then s.move t .acquire else s
    | .release t => if s.pc t = .holding then s.move t .release else s
    | .run t => s.step t
  else s

namespace State

/-- From the return of `mutex_acquire` to the critical section of `mutex_release`. -/
def holds (s : State) (t : Tid) : Prop := s.pc t = .holding ∨ s.pc t = .release

/-- In one of the two functions and not BLOCKED. -/
def active (s : State) (t : Tid) : Prop :=
  s.pc t ≠ .outside ∧ s.pc t ≠ .holding ∧ s.blocked t = false

end State

/-! ## One holder -/

structure Owned (s : State) : Prop where
  locked : ∀ t, s.holds t → s.isLocked = true
  one : ∀ t u, s.holds t → s.holds u → t = u

variable {s : State} {t : Tid}

theorem owned_init (ring : List Tid) : Owned (init ring) := by
  constructor <;> simp [init, State.holds]

theorem State.holds_move {p : Pc} {u : Tid} (h : (s.move t p).holds u) :
    u = t ∧ (p = .holding ∨ p = .release) ∨ u ≠ t ∧ s.holds u := by
  by_cases hu : u = t
  · subst hu
    unfold State.holds at h
    rw [State.move_self] at h
    exact Or.inl ⟨rfl, h⟩
  · unfold State.holds at h
    rw [State.move_of_ne _ _ hu] at h
    exact Or.inr ⟨hu, h⟩

theorem Owned.move (h : Owned s) {p : Pc} (hp : p = .holding ∨ p = .release → s.holds t) :
    Owned (s.move t p) := by
  have hback : ∀ u, (s.move t p).holds u → s.holds u := by
    intro u hu
    rcases State.holds_move hu with ⟨rfl, hto⟩ | ⟨-, hu⟩
    · exact hp hto
    · exact hu
  exact ⟨fun u hu => h.locked u (hback u hu), fun u v hu hv => h.one u v (hback u hu) (hback v hv)⟩

theorem threadUnblock_rest (s : State) (t : Tid) : (s.threadUnblock t).isLocked = s.isLocked ∧
    (s.threadUnblock t).ring = s.ring ∧ (s.threadUnblock t).pc = s.pc := by
  unfold State.threadUnblock
  split <;> exact ⟨rfl, rfl, rfl⟩

theorem Owned.released (h : Owned s) (hpc : s.pc t = .release) {s' : State} (hs' : s'.pc = s.pc) :
    Owned (s'.move t .leaving) := by
  have hnone : ∀ u, ¬ (s'.move t .leaving).holds u := by
    intro u hu
    rcases State.holds_move hu with ⟨-, hto⟩ | ⟨hut, hu⟩
    · rcases hto with hto | hto <;> cases hto
    · unfold State.holds at hu
      rw [hs'] at hu
      exact hut (h.one u t hu (Or.inr hpc))
  exact ⟨fun u hu => absurd hu (hnone u), fun u _ hu _ => absurd hu (hnone u)⟩

theorem Owned.step (h : Owned s) : Owned (s.step t) := by
  unfold State.step
  cases hpc : s.pc t with
  | outside => exact h
  | holding => exact h
  | acquire =>
    dsimp only
    split
    next hfree =>
      have honly : ∀ u, ({ s with isLocked := true }.move t .holding).holds u → u = t := by
        intro u hu
        rcases State.holds_move hu with ⟨hut, -⟩ | ⟨-, hu⟩
        · exact hut
        · have hlocked := h.locked u hu
          rw [hfree] at hlocked
          cases hlocked
      exact ⟨fun _ _ => rfl, fun u v hu hv => (honly u hu).trans (honly v hv).symm⟩
    · have hw : Owned { s with waitingLock := update s.waitingLock t true } := { h with }
      exact hw.move (by simp)
  | window =>
    have hb : Owned { s with blocked := update s.blocked t true } := { h with }
    exact hb.move (by simp)
  | sleep =>
    dsimp only
    split
    · exact h
    · exact h.move (by simp)
  | release =>
    dsimp only
    split
    next u _ =>
      exact h.released hpc (threadUnblock_rest { s with isLocked := false } u).2.2
    · exact h.released hpc rfl
  | leaving => exact h.move (by simp)

theorem Owned.apply (h : Owned s) (op : Op) : Owned (apply s op) := by
  unfold Sync.apply
  split
  next =>
    cases op with
    | acquire t =>
      dsimp only
      split
      · exact h.move (by simp)
      · exact h
    | release t =>
      dsimp only
      split
      next hpc => exact h.move fun _ => Or.inl hpc
      · exact h
    | run t => exact h.step
  · exact h

/-! ## No lost wake-up -/

/-- No release runs while a thread stands between the guard and `thread_block`. -/
def Allowed (s : State) : Op → Prop
  | .run t => s.pc t = .release → ∀ u ∈ s.ring, s.pc u ≠ .window
  | _ => True

/-- A blocked thread is one that the scan finds; a thread about to block has a holder to wait for;
and with the mutex free, blocked threads leave one that will look at it again. -/
structure Awake (s : State) : Prop where
  member : ∀ t, s.pc t ≠ .outside → t ∈ s.ring
  blocked : ∀ t, s.blocked t = true → s.pc t = .sleep ∧ s.waitingLock t = true
  window : ∀ t, s.pc t = .window → s.isLocked = true ∧ s.waitingLock t = true
  look : s.isLocked = false → (∃ t, s.blocked t = true) →
    ∃ u, (s.pc u = .acquire ∨ s.pc u = .sleep) ∧ s.blocked u = false

theorem awake_init (ring : List Tid) : Awake (init ring) := by
  constructor <;> simp [init]

theorem State.mem_after {u : Tid} (hu : u ∈ s.ring) (hne : u ≠ t) : u ∈ s.after t :=
  Links.mem_behind hu hne

theorem Awake.move (h : Awake s) {p : Pc} (hring : t ∈ s.ring) (hb : s.blocked t = false)
    (hp : p ≠ .window)
    (hlook : s.isLocked = false → s.pc t = .acquire ∨ s.pc t = .sleep → p = .acquire ∨ p = .sleep) :
    Awake (s.move t p) := by
  refine ⟨fun u hu => ?_, fun u hu => ?_, fun u hu => ?_, fun hfree hsome => ?_⟩
  · by_cases hut : u = t
    · exact hut ▸ hring
    · rw [State.move_of_ne _ _ hut] at hu
      exact h.member u hu
  · have hut : u ≠ t := fun heq => Bool.false_ne_true (hb.symm.trans (heq ▸ hu))
    rw [State.move_of_ne _ _ hut]
    exact h.blocked u hu
  · have hut : u ≠ t := fun heq => by
      rw [heq, State.move_self] at hu
      exact hp hu
    rw [State.move_of_ne _ _ hut] at hu
    exact h.window u hu
  · obtain ⟨u, hu, hub⟩ := h.look hfree hsome
    refine ⟨u, ?_, hub⟩
    by_cases hut : u = t
    · subst hut
      rw [State.move_self]
      exact hlook hfree hu
    · rw [State.move_of_ne _ _ hut]
      exact hu

theorem Awake.not_blocked (h : Awake s) (hpc : s.pc t ≠ .sleep) : s.blocked t = false := by
  cases hb : s.blocked t with
  | false => rfl
  | true => exact absurd (h.blocked t hb).1 hpc

theorem Awake.release (h : Awake s) (hpc : s.pc t = .release)
    (hok : ∀ u ∈ s.ring, s.pc u ≠ .window) : Awake (s.step t) := by
  have hnowindow : ∀ u, s.pc u ≠ .window := fun u hu => hok u (h.member u (by simp [hu])) hu
  have hb : s.blocked t = false := h.not_blocked (by simp [hpc])
  have hpcs : ∀ u, u ≠ t → ∀ s' : State, s'.pc = s.pc → (s'.move t .leaving).pc u = s.pc u := by
    intro u hut s' hs'
    rw [State.move_of_ne _ _ hut, hs']
  have hmember : ∀ u (s' : State), s'.pc = s.pc → (s'.move t .leaving).pc u ≠ .outside →
      u ∈ s.ring := by
    intro u s' hs' hu
    by_cases hut : u = t
    · exact hut ▸ h.member t (by simp [hpc])
    · rw [hpcs u hut s' hs'] at hu
      exact h.member u hu
  have hwindow : ∀ u (s' : State), s'.pc = s.pc → (s'.move t .leaving).pc u ≠ .window := by
    intro u s' hs' hu
    by_cases hut : u = t
    · rw [hut, State.move_self] at hu
      cases hu
    · rw [hpcs u hut s' hs'] at hu
      exact hnowindow u hu
  unfold State.step
  rw [hpc]
  dsimp only
  cases hfind : ({ s with isLocked := false } : State).firstWaiter t with
  | none =>
    have hnone : ∀ u, s.blocked u ≠ true := by
      intro u hu
      obtain ⟨hsleep, hwait⟩ := h.blocked u hu
      have hut : u ≠ t := ne_of_apply_ne s.pc (by rw [hsleep, hpc]; nofun)
      have hmem : u ∈ ({ s with isLocked := false } : State).after t :=
        State.mem_after (s := { s with isLocked := false }) (h.member u (by simp [hsleep])) hut
      have := List.find?_eq_none.mp hfind u hmem
      simp [hu, hwait] at this
    exact ⟨fun u hu => hmember u _ rfl hu, fun u hu => absurd hu (hnone u),
      fun u hu => absurd hu (hwindow u _ rfl), fun _ hsome => absurd hsome.choose_spec (hnone _)⟩
  | some w =>
    have hw : s.blocked w = true ∧ s.waitingLock w = true := by
      have := List.find?_some hfind
      simpa using this
    have hwt : w ≠ t := fun heq => by
      rw [heq, hb] at hw
      exact Bool.false_ne_true hw.1
    have hunblock : ({ s with isLocked := false } : State).threadUnblock w =
        { s with
          isLocked := false
          waitingLock := update s.waitingLock w false
          blocked := update s.blocked w false } := if_pos hw.1
    dsimp only
    rw [hunblock]
    refine ⟨fun u hu => hmember u _ rfl hu, fun u hu => ?_,
      fun u hu => absurd hu (hwindow u _ rfl), fun _ _ => ⟨w, Or.inr ?_, ?_⟩⟩
    · have huw : u ≠ w := fun heq => by
        change update s.blocked w false u = true at hu
        rw [heq, update_self] at hu
        cases hu
      change update s.blocked w false u = true at hu
      rw [update_of_ne huw] at hu
      obtain ⟨hsleep, hwait⟩ := h.blocked u hu
      have hut : u ≠ t := ne_of_apply_ne s.pc (by rw [hsleep, hpc]; nofun)
      refine ⟨(hpcs u hut _ rfl).trans hsleep, ?_⟩
      change update s.waitingLock w false u = true
      rw [update_of_ne huw]
      exact hwait
    · exact (hpcs w hwt _ rfl).trans (h.blocked w hw.1).1
    · exact update_self _ _ _

theorem Awake.step (h : Awake s) (hring : t ∈ s.ring) (hok : Allowed s (.run t)) :
    Awake (s.step t) := by
  cases hpc : s.pc t with
  | outside | holding =>
    unfold State.step
    rw [hpc]
    exact h
  | release => exact h.release hpc (hok hpc)
  | leaving =>
    unfold State.step
    rw [hpc]
    exact h.move hring (h.not_blocked (by simp [hpc])) (by simp) (by simp [hpc])
  | sleep =>
    unfold State.step
    rw [hpc]
    dsimp only
    split
    · exact h
    next hb => exact h.move hring (Bool.not_eq_true _ |>.mp hb) (by simp) fun _ _ => Or.inl rfl
  | acquire =>
    have hb := h.not_blocked (t := t) (by simp [hpc])
    unfold State.step
    rw [hpc]
    dsimp only
    split
    · have hlock : Awake { s with isLocked := true } :=
        { h with window := fun u hu => ⟨rfl, (h.window u hu).2⟩, look := nofun }
      exact hlock.move hring hb (by simp) nofun
    next hfree =>
      have hlocked : s.isLocked = true := by simpa using hfree
      refine ⟨fun u hu => ?_, fun u hu => ?_, fun u hu => ⟨hlocked, ?_⟩,
        fun hf => absurd hf hfree⟩
      · by_cases hut : u = t
        · exact hut ▸ hring
        · rw [State.move_of_ne _ _ hut] at hu
          exact h.member u hu
      · have hut : u ≠ t := fun heq => Bool.false_ne_true (hb.symm.trans (heq ▸ hu))
        obtain ⟨hsleep, hwait⟩ := h.blocked u hu
        exact ⟨(State.move_of_ne _ _ hut).trans hsleep,
          (update_of_ne hut _ _).trans hwait⟩
      · by_cases hut : u = t
        · subst hut
          exact update_self _ _ _
        · rw [State.move_of_ne _ _ hut] at hu
          exact (update_of_ne hut _ _).trans (h.window u hu).2
  | window =>
    obtain ⟨hlocked, hwait⟩ := h.window t hpc
    unfold State.step
    rw [hpc]
    refine ⟨fun u hu => ?_, fun u hu => ?_, fun u hu => ?_, fun hf => ?_⟩
    · by_cases hut : u = t
      · exact hut ▸ hring
      · rw [State.move_of_ne _ _ hut] at hu
        exact h.member u hu
    · by_cases hut : u = t
      · subst hut
        exact ⟨State.move_self _ _ _, hwait⟩
      · have hu' : s.blocked u = true := (update_of_ne hut _ _).symm.trans hu
        exact ⟨(State.move_of_ne _ _ hut).trans (h.blocked u hu').1, (h.blocked u hu').2⟩
    · have hut : u ≠ t := fun heq => by
        rw [heq, State.move_self] at hu
        cases hu
      rw [State.move_of_ne _ _ hut] at hu
      exact h.window u hu
    · exact absurd (hf.symm.trans hlocked) Bool.false_ne_true

theorem Awake.apply (h : Awake s) {op : Op} (hok : Allowed s op) : Awake (apply s op) := by
  unfold Sync.apply
  split
  next hring =>
    cases op with
    | acquire t =>
      dsimp only
      split
      next hpc =>
        exact h.move hring (h.not_blocked (by simp [hpc])) (by simp) fun _ _ => Or.inl rfl
      · exact h
    | release t =>
      dsimp only
      split
      next hpc => exact h.move hring (h.not_blocked (by simp [hpc])) (by simp) (by simp [hpc])
      · exact h
    | run t => exact h.step hring hok
  · exact h

instance (s : State) (op : Op) : Decidable (Allowed s op) := by
  cases op <;> dsimp only [Allowed] <;> infer_instance

/-- The state after a run of the threads of the ring. -/
def run (ring : List Tid) (ops : List Op) : State := ops.foldl apply (init ring)

theorem step_frame {u : Tid} (hu : u ≠ t) :
    (s.step t).ring = s.ring ∧ (s.step t).pc u = s.pc u := by
  have hmove : ∀ (s' : State) (p : Pc), s'.ring = s.ring → s'.pc = s.pc →
      (s'.move t p).ring = s.ring ∧ (s'.move t p).pc u = s.pc u := by
    intro s' p hring hpc
    exact ⟨hring, (State.move_of_ne _ _ hu).trans (congrFun hpc u)⟩
  unfold State.step
  cases s.pc t with
  | outside | holding => exact ⟨rfl, rfl⟩
  | window | leaving => exact hmove _ _ rfl rfl
  | acquire =>
    dsimp only
    split
    · exact hmove _ _ rfl rfl
    · exact hmove _ _ rfl rfl
  | sleep =>
    dsimp only
    split
    · exact ⟨rfl, rfl⟩
    · exact hmove _ _ rfl rfl
  | release =>
    dsimp only
    split
    next w _ =>
      obtain ⟨-, hring, hpc⟩ := threadUnblock_rest { s with isLocked := false } w
      exact hmove _ _ hring hpc
    · exact hmove _ _ rfl rfl

theorem run_outside {ring : List Tid} {u : Tid} (hu : u ∉ ring) (ops : List Op) :
    (run ring ops).pc u = .outside := by
  have hkeep : ∀ (ops : List Op) (s : State), u ∉ s.ring →
      (ops.foldl apply s).pc u = s.pc u := by
    intro ops
    induction ops with
    | nil => exact fun _ _ => rfl
    | cons op ops ih =>
      intro s hs
      have hstep : (apply s op).ring = s.ring ∧ (apply s op).pc u = s.pc u := by
        unfold apply
        split
        next hop =>
          have hne : u ≠ op.thread := fun heq => hs (heq ▸ hop)
          cases op with
          | acquire t | release t =>
            dsimp only
            split
            · exact ⟨rfl, State.move_of_ne _ _ hne⟩
            · exact ⟨rfl, rfl⟩
          | run t => exact step_frame hne
        · exact ⟨rfl, rfl⟩
      exact (ih (apply s op) (hstep.1 ▸ hs)).trans hstep.2
  exact hkeep ops (init ring) hu

/-- In every run in which no release falls between a waiter's guard and its `thread_block`: one
thread holds the mutex at most, and a free mutex does not leave its waiters asleep. -/
theorem kernel_mutex_loses_no_wakeup (ring : List Tid) (ops : List Op)
    (h : Machine.Throughout Allowed apply (init ring) ops) :
    (∀ t u, (run ring ops).holds t → (run ring ops).holds u → t = u) ∧
    ¬ ((run ring ops).isLocked = false ∧ (∀ u, ¬ (run ring ops).active u) ∧
      ∃ t, (run ring ops).pc t = .sleep ∧ (run ring ops).blocked t = true) := by
  have hinv : Owned (run ring ops) ∧ Awake (run ring ops) :=
    h.invariant (fun s => Owned s ∧ Awake s)
      (fun s op hs hok => ⟨hs.1.apply op, hs.2.apply hok⟩) ⟨owned_init ring, awake_init ring⟩
  obtain ⟨howned, hawake⟩ := hinv
  refine ⟨howned.one, ?_⟩
  rintro ⟨hfree, hidle, t, -, ht⟩
  obtain ⟨u, hpc, hb⟩ := hawake.look hfree ⟨t, ht⟩
  refine hidle u ⟨?_, ?_, hb⟩
  · rcases hpc with hpc | hpc <;> simp [hpc]
  · rcases hpc with hpc | hpc <;> simp [hpc]

/-- Thread 1 finds the mutex with thread 0 and sleeps. -/
def oneSleeps : List Op := [.acquire 0, .run 0, .acquire 1, .run 1, .run 1]

/-- It is woken by the release and has not yet looked again. -/
def oneWoken : List Op := oneSleeps ++ [.release 0, .run 0]

theorem kernel_mutex_loses_no_wakeup_two :
    (run [0, 1] oneSleeps).blocked 1 = true ∧ (run [0, 1] oneWoken).isLocked = false ∧
    ¬ ((run [0, 1] oneWoken).isLocked = false ∧ (∀ u, ¬ (run [0, 1] oneWoken).active u) ∧
      ∃ t, (run [0, 1] oneWoken).pc t = .sleep ∧ (run [0, 1] oneWoken).blocked t = true) :=
  ⟨by decide, by decide, (kernel_mutex_loses_no_wakeup [0, 1] oneWoken (by decide)).2⟩

/-- Thread 1 finds the mutex taken and is preempted before `thread_block`. -/
def preempted : List Op :=
  [.acquire 0, .run 0, .acquire 1, .run 1, .release 0, .run 0, .run 0, .run 1]

/-- The release of thread 0 finds no blocked thread, and thread 1 sleeps at a free mutex. -/
theorem kernel_mutex_window :
    (run [0, 1] preempted).isLocked = false ∧ (∀ u, ¬ (run [0, 1] preempted).active u) ∧
    ∃ t, (run [0, 1] preempted).pc t = .sleep ∧ (run [0, 1] preempted).blocked t = true := by
  refine ⟨by decide, fun u hu => ?_, 1, by decide, by decide⟩
  by_cases hmem : u ∈ [0, 1]
  · rcases List.mem_pair.mp hmem with rfl | rfl
    · exact hu.1 (by decide)
    · exact absurd hu.2.2 (by decide)
  · exact hu.1 (run_outside hmem _)

end OrangeOs.Sync
