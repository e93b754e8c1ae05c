import OrangeOs.Lib.Machine
import Mathlib.Logic.Function.Basic

/-! # The user mutex

`user_mutex_lock` and `user_mutex_unlock` of `thread_runtime.h`, one atomic access to the two
words of the mutex at a time. `futex_wait` compares the word and puts the caller on the queue in
one step, `futex_wake` takes the first waiter off it; a waiter may also leave the queue without
a wake-up.
-/

namespace OrangeOs.User

open Function List

/-- What `sys_gettid` returns; it tells the threads of a program apart. -/
abbrev Tid := UInt32

/-- The tid of the `n`-th thread that the kernel creates: `next_tid` counts from 1. -/
def nextTid (n : Nat) : Tid := UInt32.ofNat (n + 1)

namespace Mutex

/-- Where a thread is in the code of the mutex. -/
inductive Pc where
  /-- In neither function. -/
  | user
  /-- Before the exchange of 0 for 1. -/
  | lock
  /-- It exchanged 0 for 1 and has to store its tid. -/
  | store
  /-- In the loop, before the exchange of 1 for 2. -/
  | promote
  /-- Before `futex_wait`. -/
  | wait
  /-- In `futex_wait`, blocked as long as it is on the queue. -/
  | waiting
  /-- Before the load of the owner. -/
  | unlock
  /-- Before the load of the state. -/
  | loadState
  /-- Before the owner becomes 0. -/
  | clearOwner
  /-- Before the exchange of the state for 0. -/
  | exchange
  /-- The exchange gave 2: before `futex_wake`. -/
  | wake
deriving DecidableEq

/-- `user_mutex_t` with the queue of its state word and the threads. `holds` is the time from a
lock that returned 0 to the exchange of the unlock. -/
structure State where
  word : UInt32
  owner : Tid
  waiters : List Tid
  pc : Tid → Pc
  holds : Tid → Bool

/-- `user_mutex_init`. -/
def init : State := ⟨0, 0, [], fun _ => .user, fun _ => false⟩

namespace State

def move (s : State) (t : Tid) (p : Pc) : State := { s with pc := update s.pc t p }

theorem move_pc (s : State) (t u : Tid) (p : Pc) :
    (s.move t p).pc u = if u = t then p else s.pc u := update_apply _ _ _ _

@[simp] theorem move_pc_self (s : State) (t : Tid) (p : Pc) : (s.move t p).pc t = p := by
  rw [move_pc, if_pos rfl]

theorem move_pc_of_ne (s : State) {t u : Tid} (p : Pc) (h : u ≠ t) :
    (s.move t p).pc u = s.pc u := by
  rw [move_pc, if_neg h]

@[simp] theorem move_word (s : State) (t : Tid) (p : Pc) : (s.move t p).word = s.word := rfl
@[simp] theorem move_owner (s : State) (t : Tid) (p : Pc) : (s.move t p).owner = s.owner := rfl
@[simp] theorem move_waiters (s : State) (t : Tid) (p : Pc) :
    (s.move t p).waiters = s.waiters := rfl
@[simp] theorem move_holds (s : State) (t : Tid) (p : Pc) : (s.move t p).holds = s.holds := rfl

/-- The next atomic access of thread `t`, and the result of the call that it ends. -/
def step (s : State) (t : Tid) : Option Int × State :=
  match s.pc t with
  | .user => (none, s)
  | .lock =>
    if s.word = 0 then (none, { s with word := 1 }.move t .store) else (none, s.move t .promote)
  | .store =>
    (some 0, { s with owner := t, holds := update s.holds t true }.move t .user)
  | .promote =>
    if s.word = 1 then (none, { s with word := 2 }.move t .wait)
    else if s.word = 0 then (none, s)
    else (none, s.move t .wait)
  | .wait =>
    if s.word = 2 then (none, { s with waiters := t :: s.waiters }.move t .waiting)
    else (none, s.move t .promote)
  | .waiting => if t ∈ s.waiters then (none, s) else (none, s.move t .promote)
  | .unlock =>
    if s.owner ≠ t then (some (-1), s.move t .user) else (none, s.move t .loadState)
  | .loadState =>
    if s.word = 0 then (some (-1), s.move t .user) else (none, s.move t .clearOwner)
  | .clearOwner => (none, { s with owner := 0 }.move t .exchange)
  | .exchange =>
    let s' := { s with word := 0, holds := update s.holds t false }
    if s.word = 2 then (none, s'.move t .wake) else (some 0, s'.move t .user)
  | .wake => (some 0, { s with waiters := s.waiters.drop 1 }.move t .user)

/-- Blocked in `futex_wait`. -/
def blocked (s : State) (t : Tid) : Prop := t ∈ s.waiters

instance (s : State) (t : Tid) : Decidable (s.blocked t) := inferInstanceAs (Decidable (_ ∈ _))

/-- In the loop of `user_mutex_lock`. -/
def slow (s : State) (t : Tid) : Prop :=
  s.pc t = .promote ∨ s.pc t = .wait ∨ s.pc t = .waiting

instance (s : State) (t : Tid) : Decidable (s.slow t) := inferInstanceAs (Decidable (_ ∨ _))

end State

/-- What may happen next. -/
inductive Op where
  | lock (t : Tid)
  | unlock (t : Tid)
  | run (t : Tid)
  /-- `futex_wait` returns without a wake-up. -/
  | spurious (t : Tid)

def Op.thread : Op → Tid
  | .lock t | .unlock t | .run t | .spurious t => t

def apply (s : State) : Op → State
  | .lock t => if s.pc t = .user then s.move t .lock else s
  | .unlock t => if s.pc t = .user then s.move t .unlock else s
  | .run t => (s.step t).2
  | .spurious t => { s with waiters := s.waiters.erase t }

/-! ## Exclusion -/

namespace State

/-- The thread has exchanged 0 for 1 and has not yet exchanged the state for 0. -/
def inside (s : State) (t : Tid) : Prop := s.pc t = .store ∨ s.holds t = true

end State

/-- One thread at most is inside, and then the word is not 0. A thread that unlocks without the
mutex has a tid that tells it from no owner. -/
structure Exclusive (s : State) : Prop where
  free : ∀ t, s.inside t → s.word ≠ 0
  one : ∀ t u, s.inside t → s.inside u → t = u
  caller : ∀ t, s.pc t = .unlock → s.holds t = true ∨ t ≠ 0
  past : ∀ t, s.pc t = .loadState ∨ s.pc t = .clearOwner ∨ s.pc t = .exchange → s.holds t = true
  owner : s.owner = 0 ∨ s.holds s.owner = true
  cleared : ∀ t, s.pc t = .exchange → s.owner = 0

theorem exclusive_init : Exclusive init := by
  constructor <;> simp [init, State.inside]

variable {s : State} {t : Tid}

section

variable (h : Exclusive s)
include h

theorem Exclusive.not_owner (h0 : t ≠ 0) (ht : s.holds t ≠ true) : s.owner ≠ t := by
  intro heq
  rcases h.owner with hzero | hholds
  · exact h0 (heq.symm.trans hzero)
  · exact ht (heq ▸ hholds)

theorem Exclusive.move {p : Pc} (hto : p ≠ .store)
    (hcall : p = .unlock → s.holds t = true ∨ t ≠ 0)
    (hpast : p = .loadState ∨ p = .clearOwner ∨ p = .exchange → s.holds t = true)
    (hclear : p = .exchange → s.owner = 0) : Exclusive (s.move t p) := by
  have hinside : ∀ u, (s.move t p).inside u → s.inside u := by
    intro u hu
    rcases hu with hu | hu
    · rw [State.move_pc] at hu
      split at hu
      · exact absurd hu hto
      · exact Or.inl hu
    · exact Or.inr hu
  refine ⟨fun u hu => h.free u (hinside u hu),
    fun u v hu hv => h.one u v (hinside u hu) (hinside v hv), ?_, ?_, h.owner, ?_⟩
  all_goals
    intro u hu
    rw [State.move_pc] at hu
    by_cases hut : u = t
    · subst hut
      rw [if_pos rfl] at hu
      first | exact hcall hu | exact hpast hu | exact hclear hu
    · rw [if_neg hut] at hu
      first | exact h.caller u hu | exact h.past u hu | exact h.cleared u hu

theorem Exclusive.acquired (hword : s.word = 0) :
    Exclusive ({ s with word := 1 }.move t .store) := by
  have hnone : ∀ u, ¬ s.inside u := fun u hu => h.free u hu hword
  have hinside : ∀ u, ({ s with word := 1 }.move t .store).inside u → u = t := by
    intro u hu
    by_contra hut
    rcases hu with hu | hu
    · rw [State.move_pc, if_neg hut] at hu
      exact hnone u (Or.inl hu)
    · exact hnone u (Or.inr hu)
  refine ⟨fun _ _ => by simp,
    fun u v hu hv => (hinside u hu).trans (hinside v hv).symm, ?_, ?_, h.owner, ?_⟩
  all_goals
    intro u hu
    rw [State.move_pc] at hu
    split at hu
    · simp at hu
    · first | exact h.caller u hu | exact h.past u hu | exact h.cleared u hu

theorem Exclusive.stored (hpc : s.pc t = .store) :
    Exclusive ({ s with
      owner := t, holds := update s.holds t true }.move t .user) := by
  have hin : s.inside t := Or.inl hpc
  have hholds : ∀ u, update s.holds t true u = true ↔ u = t ∨ s.holds u = true := by
    intro u
    rw [update_apply]
    by_cases hut : u = t
    · simp [hut]
    · simp [hut]
  have hinside : ∀ u, ({ s with
      owner := t, holds := update s.holds t true }.move t .user).inside u →
      s.inside u := by
    intro u hu
    rcases hu with hu | hu
    · rw [State.move_pc] at hu
      split at hu
      · cases hu
      · exact Or.inl hu
    · rcases (hholds u).mp hu with rfl | hu
      · exact hin
      · exact Or.inr hu
  refine ⟨fun u hu => h.free u (hinside u hu),
    fun u v hu hv => h.one u v (hinside u hu) (hinside v hv), ?_, ?_,
    Or.inr ((hholds t).mpr (Or.inl rfl)), ?_⟩
  all_goals
    intro u hu
    rw [State.move_pc] at hu
    split at hu
    · simp at hu
    next hut =>
      first
      | exact (h.caller u hu).imp_left fun hu => (hholds u).mpr (Or.inr hu)
      | exact (hholds u).mpr (Or.inr (h.past u hu))
      | exact absurd (h.one u t (Or.inr (h.past u (Or.inr (Or.inr hu)))) hin) hut

theorem Exclusive.released (hpc : s.pc t = .exchange) {p : Pc} (hp : p = .wake ∨ p = .user) :
    Exclusive ({ s with word := 0, holds := update s.holds t false }.move t p) := by
  have hin : s.inside t := Or.inr (h.past t (Or.inr (Or.inr hpc)))
  have hother : ∀ u, u ≠ t → ¬ s.inside u := fun u hut hu => hut (h.one u t hu hin)
  have hholds : ∀ u, u ≠ t → update s.holds t false u = s.holds u :=
    fun u hut => update_of_ne hut _ _
  have hnone : ∀ u, ¬ ({ s with
      word := 0, holds := update s.holds t false }.move t p).inside u := by
    intro u hu
    by_cases hut : u = t
    · subst hut
      rcases hu with hu | hu
      · rw [State.move_pc_self] at hu
        rcases hp with rfl | rfl <;> cases hu
      · simp at hu
    · rcases hu with hu | hu
      · rw [State.move_pc, if_neg hut] at hu
        exact hother u hut (Or.inl hu)
      · exact hother u hut (Or.inr ((hholds u hut).symm.trans hu))
  refine ⟨fun u hu => absurd hu (hnone u),
    fun u v hu _ => absurd hu (hnone u), ?_, ?_, Or.inl (h.cleared t hpc), ?_⟩
  all_goals
    intro u hu
    rw [State.move_pc] at hu
    split at hu
    · rcases hp with rfl | rfl <;> simp at hu
    next hut =>
      first
      | exact (h.caller u hu).imp_left fun hu => (hholds u hut).trans hu
      | exact (hholds u hut).trans (h.past u hu)
      | exact h.cleared u hu

theorem Exclusive.step : Exclusive (s.step t).2 := by
  unfold State.step
  cases hpc : s.pc t with
  | user => exact h
  | lock =>
    dsimp only
    split
    next hword => exact h.acquired hword
    · exact h.move (by simp) nofun (by simp) nofun
  | store => exact h.stored hpc
  | promote =>
    dsimp only
    by_cases h1 : s.word = 1
    · rw [if_pos h1]
      have h2 : Exclusive { s with word := 2 } := { h with free := fun _ _ => by simp }
      exact h2.move (by simp) nofun (by simp) nofun
    · by_cases h0 : s.word = 0
      · rw [if_neg h1, if_pos h0]
        exact h
      · rw [if_neg h1, if_neg h0]
        exact h.move (by simp) nofun (by simp) nofun
  | wait =>
    dsimp only
    split
    · have hq : Exclusive { s with waiters := t :: s.waiters } := { h with }
      exact hq.move (by simp) nofun (by simp) nofun
    · exact h.move (by simp) nofun (by simp) nofun
  | waiting =>
    dsimp only
    split
    · exact h
    · exact h.move (by simp) nofun (by simp) nofun
  | unlock =>
    dsimp only
    split
    · exact h.move (by simp) nofun (by simp) nofun
    next ho =>
      refine h.move (by simp) nofun (fun _ => ?_) nofun
      by_contra hholds
      rcases h.caller t hpc with hheld | hp
      · exact hholds hheld
      · exact ho (h.not_owner hp hholds)
  | loadState =>
    dsimp only
    split
    · exact h.move (by simp) nofun (by simp) nofun
    · exact h.move (by simp) nofun (fun _ => h.past t (Or.inl hpc)) nofun
  | clearOwner =>
    have hholds := h.past t (Or.inr (Or.inl hpc))
    have h0 : Exclusive { s with owner := 0 } :=
      { h with owner := Or.inl rfl, cleared := fun _ _ => rfl }
    exact h0.move (by simp) nofun (fun _ => hholds) fun _ => rfl
  | exchange =>
    dsimp only
    split
    · exact h.released hpc (Or.inl rfl)
    · exact h.released hpc (Or.inr rfl)
  | wake =>
    have hq : Exclusive { s with waiters := s.waiters.drop 1 } := { h with }
    exact hq.move (by simp) nofun (by simp) nofun

theorem Exclusive.apply {op : Op} (hcall : ∀ t, op = .unlock t → s.holds t = true ∨ t ≠ 0) :
    Exclusive (apply s op) := by
  cases op with
  | lock t =>
    dsimp only [Mutex.apply]
    split
    next hpc => exact h.move (by simp) nofun (by simp) nofun
    · exact h
  | unlock t =>
    dsimp only [Mutex.apply]
    split
    next hpc => exact h.move (by simp) (fun _ => hcall t rfl) (by simp) nofun
    · exact h
  | run t => exact h.step
  | spurious t => exact { h with }

end

/-! ## What a step leaves alone -/

theorem step_other {u : Tid} (hu : u ≠ t) :
    (s.step t).2.pc u = s.pc u ∧ (s.step t).2.holds u = s.holds u := by
  have hmove : ∀ (s' : State) (p : Pc), s'.pc = s.pc → s'.holds u = s.holds u →
      (s'.move t p).pc u = s.pc u ∧ (s'.move t p).holds u = s.holds u := by
    intro s' p hpc hholds
    rw [State.move_pc_of_ne _ _ hu, hpc]
    exact ⟨rfl, hholds⟩
  have hupdate : ∀ b, update s.holds t b u = s.holds u :=
    fun b => update_of_ne hu _ _
  unfold State.step
  cases s.pc t with
  | user => exact ⟨rfl, rfl⟩
  | store => exact hmove _ _ rfl (hupdate true)
  | clearOwner | wake => exact hmove _ _ rfl rfl
  | promote =>
    dsimp only
    split
    · exact hmove _ _ rfl rfl
    · split
      · exact ⟨rfl, rfl⟩
      · exact hmove _ _ rfl rfl
  | waiting =>
    dsimp only
    split
    · exact ⟨rfl, rfl⟩
    · exact hmove _ _ rfl rfl
  | exchange =>
    dsimp only
    split
    · exact hmove _ _ rfl (hupdate false)
    · exact hmove _ _ rfl (hupdate false)
  | lock | wait | unlock | loadState =>
    dsimp only
    split
    · exact hmove _ _ rfl rfl
    · exact hmove _ _ rfl rfl

theorem step_returns {r : Int} (h : (s.step t).1 = some r) : (s.step t).2.pc t = .user := by
  unfold State.step at h ⊢
  cases hpc : s.pc t with
  | user | clearOwner => rw [hpc] at h; cases h
  | store | wake => simp
  | promote =>
    rw [hpc] at h
    dsimp only at h
    split at h
    · cases h
    · split at h <;> cases h
  | lock | wait | waiting =>
    rw [hpc] at h
    dsimp only at h
    split at h <;> cases h
  | unlock | loadState | exchange =>
    rw [hpc] at h
    dsimp only at h ⊢
    split at h
    all_goals first | (cases h; done) | simp_all

/-! ## The queue -/

/-- Some thread will look after the waiters. -/
def Noticed (s : State) : Prop :=
  s.waiters ≠ [] → s.word = 2 ∨ (∃ u, s.pc u = .wake) ∨ ∃ u, s.slow u ∧ ¬ s.blocked u

structure Queued (s : State) : Prop where
  waiting : ∀ t ∈ s.waiters, s.pc t = .waiting
  nodup : s.waiters.Nodup
  noticed : Noticed s

theorem queued_init : Queued init := by
  constructor <;> simp [init, Noticed]

theorem noticed_of_slow (hslow : s.slow t) (ht : t ∉ s.waiters) : Noticed s :=
  fun _ => Or.inr (Or.inr ⟨t, hslow, ht⟩)

theorem Queued.not_mem (h : Queued s) (hpc : s.pc t ≠ .waiting) : t ∉ s.waiters :=
  fun hmem => hpc (h.waiting t hmem)

theorem Queued.move (h : Queued s) {s' : State} (hwaiters : s'.waiters = s.waiters)
    (hword : s'.word = s.word ∨ s.word ≠ 2) (hpc : ∀ u, u ≠ t → s'.pc u = s.pc u)
    (hwake : s.pc t ≠ .wake) (hslow : ¬ s.slow t) : Queued s' := by
  have ht : t ∉ s.waiters := h.not_mem fun hw => hslow (Or.inr (Or.inr hw))
  refine ⟨fun u hu => ?_, hwaiters ▸ h.nodup, fun hne => ?_⟩
  · rw [hwaiters] at hu
    rw [hpc u (ne_of_mem_of_not_mem hu ht)]
    exact h.waiting u hu
  · rw [hwaiters] at hne
    rcases h.noticed hne with h2 | ⟨u, hu⟩ | ⟨u, hu, hb⟩
    · exact Or.inl ((hword.resolve_right fun hn => hn h2).trans h2)
    · have hut : u ≠ t := fun heq => hwake (heq ▸ hu)
      exact Or.inr (Or.inl ⟨u, (hpc u hut).trans hu⟩)
    · have hut : u ≠ t := fun heq => hslow (heq ▸ hu)
      refine Or.inr (Or.inr ⟨u, ?_, ?_⟩)
      · unfold State.slow
        rw [hpc u hut]
        exact hu
      · unfold State.blocked
        rw [hwaiters]
        exact hb

theorem Queued.enter_slow (h : Queued s) {s' : State} (hwaiters : s'.waiters = s.waiters)
    (hpc : ∀ u, u ≠ t → s'.pc u = s.pc u) (ht : t ∉ s.waiters) (hslow : s'.slow t) :
    Queued s' := by
  refine ⟨fun u hu => ?_, hwaiters ▸ h.nodup, noticed_of_slow hslow (hwaiters ▸ ht)⟩
  rw [hwaiters] at hu
  rw [hpc u (ne_of_mem_of_not_mem hu ht)]
  exact h.waiting u hu

theorem Queued.step (h : Queued s) : Queued (s.step t).2 := by
  have hother : ∀ (s' : State) (p : Pc), s'.pc = s.pc →
      ∀ u, u ≠ t → (s'.move t p).pc u = s.pc u := by
    intro s' p hs' u hu
    rw [State.move_pc_of_ne _ _ hu, hs']
  unfold State.step
  cases hpc : s.pc t with
  | user => exact h
  | lock =>
    dsimp only
    split
    next hword =>
      refine h.move rfl (Or.inr ?_) (hother _ _ rfl) (by simp [hpc]) (by simp [State.slow, hpc])
      simp [hword]
    · exact h.enter_slow rfl (hother _ _ rfl) (h.not_mem (by simp [hpc])) (by simp [State.slow])
  | store | clearOwner =>
    exact h.move rfl (Or.inl rfl) (hother _ _ rfl) (by simp [hpc]) (by simp [State.slow, hpc])
  | promote =>
    have ht : t ∉ s.waiters := h.not_mem (by simp [hpc])
    dsimp only
    by_cases h1 : s.word = 1
    · rw [if_pos h1]
      exact h.enter_slow rfl (hother _ _ rfl) ht (by simp [State.slow])
    · by_cases h0 : s.word = 0
      · rw [if_neg h1, if_pos h0]
        exact h
      · rw [if_neg h1, if_neg h0]
        exact h.enter_slow rfl (hother _ _ rfl) ht (by simp [State.slow])
  | wait =>
    have ht : t ∉ s.waiters := h.not_mem (by simp [hpc])
    dsimp only
    split
    next h2 =>
      refine ⟨fun u hu => ?_, nodup_cons.mpr ⟨ht, h.nodup⟩, fun _ => Or.inl h2⟩
      rcases mem_cons.mp hu with rfl | hu
      · exact State.move_pc_self _ _ _
      · exact (hother _ _ rfl u (ne_of_mem_of_not_mem hu ht)).trans (h.waiting u hu)
    · exact h.enter_slow rfl (hother _ _ rfl) ht (by simp [State.slow])
  | waiting =>
    dsimp only
    split
    · exact h
    next hw => exact h.enter_slow rfl (hother _ _ rfl) hw (by simp [State.slow])
  | unlock | loadState =>
    have hq : ∀ p, Queued (s.move t p) := fun p =>
      h.move rfl (Or.inl rfl) (hother _ _ rfl) (by simp [hpc]) (by simp [State.slow, hpc])
    dsimp only
    split
    · exact hq _
    · exact hq _
  | exchange =>
    dsimp only
    split
    · have ht : t ∉ s.waiters := h.not_mem (by simp [hpc])
      refine ⟨fun u hu => ?_, h.nodup, fun _ => Or.inr (Or.inl ⟨t, State.move_pc_self _ _ _⟩)⟩
      exact (hother _ _ rfl u (ne_of_mem_of_not_mem hu ht)).trans (h.waiting u hu)
    next h2 =>
      exact h.move rfl (Or.inr h2) (hother _ _ rfl) (by simp [hpc]) (by simp [State.slow, hpc])
  | wake =>
    have ht : t ∉ s.waiters := h.not_mem (by simp [hpc])
    cases hq : s.waiters with
    | nil => exact ⟨nofun, nodup_nil, fun hne => absurd rfl hne⟩
    | cons w rest =>
      have hnodup := h.nodup
      rw [hq] at ht hnodup
      obtain ⟨hw, hrest⟩ := nodup_cons.mp hnodup
      have hwaiting : ∀ u ∈ w :: rest, u ≠ t ∧ s.pc u = .waiting := by
        intro u hu
        exact ⟨ne_of_mem_of_not_mem hu ht, h.waiting u (hq ▸ hu)⟩
      refine ⟨fun u hu => ?_, hrest, noticed_of_slow (t := w) ?_ hw⟩
      · obtain ⟨hut, hu⟩ := hwaiting u (mem_cons_of_mem w hu)
        exact (hother _ _ rfl u hut).trans hu
      · obtain ⟨hwt, hpcw⟩ := hwaiting w mem_cons_self
        exact Or.inr (Or.inr ((hother _ _ rfl w hwt).trans hpcw))

theorem Queued.apply (h : Queued s) (op : Op) : Queued (apply s op) := by
  have hcall : ∀ t p, s.pc t = .user → Queued (s.move t p) := fun t p hpc =>
    h.move (t := t) rfl (Or.inl rfl) (fun u hu => State.move_pc_of_ne s p hu) (by simp [hpc])
      (by simp [State.slow, hpc])
  cases op with
  | lock t =>
    dsimp only [Mutex.apply]
    split
    next hpc => exact hcall t _ hpc
    · exact h
  | unlock t =>
    dsimp only [Mutex.apply]
    split
    next hpc => exact hcall t _ hpc
    · exact h
  | run t => exact h.step
  | spurious t =>
    refine ⟨fun u hu => h.waiting u (mem_of_mem_erase hu), h.nodup.erase t, ?_⟩
    by_cases ht : t ∈ s.waiters
    · exact noticed_of_slow (t := t) (Or.inr (Or.inr (h.waiting t ht))) h.nodup.not_mem_erase
    · intro hne
      have hsame : s.waiters.erase t = s.waiters := erase_of_not_mem ht
      dsimp only [Mutex.apply] at hne ⊢
      rw [hsame] at hne ⊢
      exact h.noticed hne

/-! ## Runs -/

def run (ops : List Op) : State := ops.foldl apply init

def Allowed (_ : State) (op : Op) : Prop := op.thread ≠ 0

theorem run_invariant {ops : List Op} (h : Machine.Throughout Allowed apply init ops) :
    Exclusive (run ops) ∧ Queued (run ops) := by
  refine h.invariant (fun s => Exclusive s ∧ Queued s) ?_ ⟨exclusive_init, queued_init⟩
  intro s op hs hok
  refine ⟨hs.1.apply fun t hop => ?_, hs.2.apply op⟩
  subst hop
  exact Or.inr hok

/-- Without a thread of tid 0: one thread holds the mutex at most, an unlock by another
thread fails and changes nothing, and a blocked thread is not forgotten. -/
theorem user_mutex_exclusion (ops : List Op)
    (h : Machine.Throughout Allowed apply init ops) :
    (∀ t u, (run ops).holds t = true → (run ops).holds u = true → t = u) ∧
    (∀ t, (run ops).pc t = .unlock → (run ops).holds t ≠ true →
      ((run ops).step t).1 = some (-1) ∧ ((run ops).step t).2.word = (run ops).word ∧
        ((run ops).step t).2.owner = (run ops).owner) ∧
    ∀ t, (run ops).blocked t → (run ops).word = 2 ∨ (∃ u, (run ops).pc u = .wake) ∨
      ∃ u, (run ops).slow u ∧ ¬ (run ops).blocked u := by
  obtain ⟨hexcl, hqueue⟩ := run_invariant h
  refine ⟨fun t u ht hu => hexcl.one t u (Or.inr ht) (Or.inr hu), fun t hpc hholds => ?_,
    fun t ht => hqueue.noticed (ne_nil_of_mem ht)⟩
  have howner := hexcl.not_owner ((hexcl.caller t hpc).resolve_left hholds) hholds
  unfold State.step
  rw [hpc]
  rw [if_pos howner]
  exact ⟨rfl, rfl, rfl⟩

/-- Thread 1 locks; thread 2 finds the mutex taken, marks the word and blocks. -/
def secondWaits : List Op := [.lock 1, .run 1, .run 1, .lock 2, .run 2, .run 2, .run 2]

theorem user_mutex_exclusion_contended :
    (run secondWaits).holds 1 = true ∧
    (run secondWaits).blocked 2 ∧
    ∀ t u, (run secondWaits).holds t = true → (run secondWaits).holds u = true → t = u :=
  ⟨by decide, by decide, (user_mutex_exclusion _ (by simp [secondWaits, Machine.Throughout,
    Allowed, Op.thread])).1⟩

/-- Thread 0 unlocks the mutex that thread 1 is about to own. -/
def zeroUnlocks : List Op := [.lock 1, .run 1, .unlock 0, .run 0, .run 0, .run 0]

/-- Then it locks the mutex, and thread 1 stores its number. -/
def zeroLocks : List Op := zeroUnlocks ++ [.run 0, .lock 0, .run 0, .run 0, .run 1]

/-- After `next_tid` has wrapped a thread has the tid 0, which is the owner of a mutex that is
just being locked. Its unlock succeeds, and two threads hold the mutex. -/
theorem user_mutex_tid_zero :
    nextTid 4294967295 = 0 ∧ (run zeroUnlocks).holds 0 = false ∧
    ((run zeroUnlocks).step 0).1 = some 0 ∧ (run zeroLocks).holds 0 = true ∧
    (run zeroLocks).holds 1 = true := by
  decide

/-! ## Progress -/

namespace State

/-- In `user_mutex_lock`. -/
def locking (s : State) (t : Tid) : Prop := s.pc t = .lock ∨ s.pc t = .store ∨ s.slow t

/-- `n` steps of thread `t`, and no other. -/
def alone (s : State) (t : Tid) : Nat → State
  | 0 => s
  | n + 1 => ((s.alone t n).step t).2

end State

theorem slow_step (h : s.slow t) : (s.step t).1 = none ∧ (s.step t).2.slow t := by
  unfold State.step
  rcases h with hpc | hpc | hpc
  · rw [hpc]
    dsimp only
    split
    · exact ⟨rfl, by simp [State.slow]⟩
    · split
      · exact ⟨rfl, Or.inl hpc⟩
      · exact ⟨rfl, by simp [State.slow]⟩
  · rw [hpc]
    dsimp only
    split
    · exact ⟨rfl, by simp [State.slow]⟩
    · exact ⟨rfl, by simp [State.slow]⟩
  · rw [hpc]
    dsimp only
    split
    · exact ⟨rfl, Or.inr (Or.inr hpc)⟩
    · exact ⟨rfl, by simp [State.slow]⟩

theorem slow_alone (h : s.slow t) (n : Nat) : (s.alone t n).slow t := by
  induction n with
  | zero => exact h
  | succ n ih => exact (slow_step ih).2

/-- A thread in `user_mutex_lock` gets a free mutex with its next steps if and only if it has not
failed its first exchange. -/
theorem user_mutex_progress (ops : List Op) (t : Tid) (hfree : (run ops).word = 0)
    (hlock : (run ops).locking t) :
    (∃ n, (((run ops).alone t n).step t).1 = some 0 ∧
      ((run ops).alone t (n + 1)).holds t = true) ↔ ¬ (run ops).slow t := by
  constructor
  · rintro ⟨n, hret, -⟩ hslow
    rw [(slow_step (slow_alone hslow n)).1] at hret
    cases hret
  intro hfast
  rcases hlock with hpc | hpc | hslow
  · have hfirst : (run ops).alone t 1 = { run ops with word := 1 }.move t .store := by
      unfold State.alone State.alone State.step
      rw [hpc]
      rw [if_pos hfree]
    refine ⟨1, ?_, ?_⟩
    · rw [hfirst]
      simp [State.step]
    · change (((run ops).alone t 1).step t).2.holds t = true
      rw [hfirst]
      simp [State.step]
  · refine ⟨0, ?_, ?_⟩
    · simp [State.alone, State.step, hpc]
    · simp [State.alone, State.step, hpc]
  · exact absurd hslow hfast

theorem user_mutex_progress_free :
    (run [.lock 1]).word = 0 ∧ ∃ n, (((run [.lock 1]).alone 1 n).step 1).1 = some 0 ∧
      ((run [.lock 1]).alone 1 (n + 1)).holds 1 = true :=
  ⟨by decide, (user_mutex_progress [.lock 1] 1 (by decide) (Or.inl (by decide))).mpr (by decide)⟩

/-- Thread 2 fails its first exchange while thread 1 holds the mutex, which then unlocks it. -/
def contended : List Op :=
  [.lock 1, .run 1, .run 1, .lock 2, .run 2, .unlock 1, .run 1, .run 1, .run 1, .run 1]

/-- After the unlock the mutex is free, and thread 2 alone never returns. -/
theorem user_mutex_spins :
    (run contended).word = 0 ∧ (run contended).locking 2 ∧ ¬ (run contended).blocked 2 ∧
    ∀ n, (((run contended).alone 2 n).step 2).1 = none := by
  have hslow : (run contended).slow 2 := by decide
  exact ⟨by decide, Or.inr (Or.inr hslow), by decide, fun n => (slow_step (slow_alone hslow n)).1⟩

end Mutex

end OrangeOs.User
