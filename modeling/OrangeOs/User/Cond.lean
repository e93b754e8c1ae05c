import OrangeOs.User.Mutex
import Mathlib.Algebra.Group.Nat.Defs
import Mathlib.Data.Fintype.Card
import Mathlib.Data.Fintype.EquivFin

/-! # Condition variables

`user_cond_wait`, `user_cond_signal` and `user_cond_broadcast` of `thread_runtime.h` on one
condition and one mutex, over the steps of the mutex. The number of increments of `sequence` so
far, and that number at the last load of each thread, are kept beside the state of the program.
-/

namespace OrangeOs.User.Cond

open Function List

/-- Where a thread is in the code of the condition. -/
inductive Phase where
  /-- In none of the three functions. -/
  | user
  /-- In `user_cond_wait`, before the load of `sequence`. -/
  | load
  /-- It loaded `v` and is in `user_mutex_unlock`. -/
  | unlocking (v : UInt32)
  /-- Before `futex_wait`. -/
  | futexWait (v : UInt32)
  /-- In `futex_wait`, blocked as long as it is on the queue. -/
  | waiting
  /-- In `user_mutex_lock`. -/
  | locking
  /-- In signal or broadcast, before the increment. -/
  | increment (all : Bool)
  /-- It made the `n`-th increment: before `futex_wake`. -/
  | wake (all : Bool) (n : Nat)
deriving DecidableEq

namespace Phase

/-- Between the load of `sequence` and the return of `futex_wait`. -/
def inWait : Phase → Bool
  | unlocking _ | futexWait _ | waiting => true
  | _ => false

/-- Where the caller still has the mutex. -/
def critical : Phase → Bool
  | load | increment _ | wake .. => true
  | _ => false

/-- Outside of the functions of the mutex. -/
def calm : Phase → Bool
  | load | futexWait _ | waiting | increment _ | wake .. => true
  | _ => false

def atFutex : Phase → Bool
  | futexWait _ => true
  | _ => false

end Phase

/-- `user_cond_t` with the queue of its word, the mutex and the threads. `calls` counts the calls of
`user_cond_wait`. -/
structure State where
  mutex : Mutex.State
  sequence : UInt32
  waiters : List Tid
  phase : Tid → Phase
  count : Nat
  loaded : Tid → Nat
  calls : Tid → Nat

def init : State := ⟨Mutex.init, 0, [], fun _ => .user, 0, fun _ => 0, fun _ => 0⟩

/-- `futex_wake` of a signal and of a broadcast. -/
def wakeCount (all : Bool) : Nat := if all then 0xFFFFFFFF else 1

namespace State

def go (s : State) (t : Tid) (p : Phase) : State := { s with phase := update s.phase t p }

theorem go_phase (s : State) (t u : Tid) (p : Phase) :
    (s.go t p).phase u = if u = t then p else s.phase u := update_apply _ _ _ _

/-- The call of `user_mutex_lock` at the end of `user_cond_wait`. -/
def relock (s : State) (t : Tid) : State :=
  { s with mutex := s.mutex.move t .lock }.go t .locking

/-- The next atomic access of thread `t`. -/
def step (s : State) (t : Tid) : State :=
  match s.phase t with
  | .user => { s with mutex := (s.mutex.step t).2 }
  | .load =>
    { s with
      mutex := s.mutex.move t .unlock
      loaded := update s.loaded t s.count }.go t (.unlocking s.sequence)
  | .unlocking v =>
    match s.mutex.step t with
    | (none, m) => { s with mutex := m }
    | (some r, m) => { s with mutex := m }.go t (if r = 0 then .futexWait v else .user)
  | .futexWait v =>
    if s.sequence = v then { s with waiters := t :: s.waiters }.go t .waiting else s.relock t
  | .waiting => if t ∈ s.waiters then s else s.relock t
  | .locking =>
    match s.mutex.step t with
    | (none, m) => { s with mutex := m }
    | (some _, m) => { s with mutex := m }.go t .user
  | .increment all =>
    { s with sequence := s.sequence + 1, count := s.count + 1 }.go t (.wake all (s.count + 1))
  | .wake all _ => { s with waiters := s.waiters.drop (wakeCount all) }.go t .user

end State

/-- What may happen next. -/
inductive Op where
  | lock (t : Tid)
  | unlock (t : Tid)
  | wait (t : Tid)
  | signal (t : Tid)
  | broadcast (t : Tid)
  | run (t : Tid)
  /-- `futex_wait` on one of the two words returns without a wake-up. -/
  | spurious (t : Tid)
  | spuriousMutex (t : Tid)

/-- Thread `t` may make a call. -/
def State.idle (s : State) (t : Tid) : Bool := s.phase t == .user && s.mutex.pc t == .user

def apply (s : State) : Op → State
  | .lock t => if s.idle t = true then { s with mutex := s.mutex.move t .lock } else s
  | .unlock t => if s.idle t = true then { s with mutex := s.mutex.move t .unlock } else s
  | .wait t =>
    if s.idle t = true then
      { s with calls := update s.calls t (s.calls t + 1) }.go t .load
    else s
  | .signal t => if s.idle t = true then s.go t (.increment false) else s
  | .broadcast t => if s.idle t = true then s.go t (.increment true) else s
  | .run t => s.step t
  | .spurious t => { s with waiters := s.waiters.erase t }
  | .spuriousMutex t => { s with mutex := { s.mutex with waiters := s.mutex.waiters.erase t } }

/-- Callers have the mutex, and fewer than `2 ^ 32` increments come between a load and its
`futex_wait`. -/
def Allowed (s : State) : Op → Prop
  | .unlock t | .wait t | .signal t | .broadcast t => s.mutex.holds t = true
  | .run t => (s.phase t).atFutex = true → s.count < s.loaded t + 2 ^ 32
  | _ => True

instance (s : State) (op : Op) : Decidable (Allowed s op) := by
  cases op <;> dsimp only [Allowed] <;> infer_instance

def run (ops : List Op) : State := ops.foldl apply init

/-! ## The invariant -/

structure Ordered (s : State) : Prop where
  exclusive : Mutex.Exclusive s.mutex
  held : ∀ t, (s.phase t).critical = true → s.mutex.holds t = true
  calm : ∀ t, (s.phase t).calm = true → s.mutex.pc t = .user
  waiting : ∀ t ∈ s.waiters, s.phase t = .waiting
  nodup : s.waiters.Nodup
  sequence : s.sequence = UInt32.ofNat s.count
  loaded : ∀ t, s.loaded t ≤ s.count
  value : ∀ t v, s.phase t = .unlocking v ∨ s.phase t = .futexWait v →
    v = UInt32.ofNat (s.loaded t)
  woke : ∀ t all n, s.phase t = .wake all n →
    n = s.count ∧ ∀ u, (s.phase u).inWait = true → s.loaded u < n

theorem ordered_init : Ordered init := by
  refine ⟨Mutex.exclusive_init, ?_, ?_, ?_, nodup_nil, rfl, ?_, ?_, ?_⟩
  · intro t hu
    cases hu
  · intro t hu
    cases hu
  all_goals simp [init]

variable {s : State} {t : Tid}

theorem State.go_phase_self (s : State) (t : Tid) (p : Phase) : (s.go t p).phase t = p := by
  rw [go_phase, if_pos rfl]

variable {u : Tid} {p : Phase} {c n : Nat} {op : Op}

theorem State.go_phase_of_ne (s : State) {t : Tid} (p : Phase) (h : u ≠ t) :
    (s.go t p).phase u = s.phase u := by
  rw [go_phase, if_neg h]

theorem State.go_forall (s : State) {P : Tid → Phase → Prop} (ht : P t p)
    (h : ∀ u, u ≠ t → P u (s.phase u)) : ∀ u, P u ((s.go t p).phase u) :=
  (forall_update_iff s.phase P).mpr ⟨ht, h⟩

section

variable (h : Ordered s)
include h

theorem Ordered.not_waiting (hp : s.phase t ≠ .waiting) : t ∉ s.waiters :=
  fun hmem => hp (h.waiting t hmem)

theorem Ordered.critical_one (ht : (s.phase t).critical = true)
    (hu : (s.phase u).critical = true) : u = t :=
  h.exclusive.one u t (Or.inr (h.held u hu)) (Or.inr (h.held t ht))

theorem Ordered.mutexStep (hcrit : (s.phase t).critical = false)
    (hcalm : (s.phase t).calm = false) : Ordered { s with mutex := (s.mutex.step t).2 } := by
  refine { h with exclusive := h.exclusive.step, held := fun u hu => ?_, calm := fun u hu => ?_ }
  · have hut : u ≠ t := fun heq => by
      rw [heq, hcrit] at hu
      cases hu
    exact (Mutex.step_other hut).2.trans (h.held u hu)
  · have hut : u ≠ t := fun heq => by
      rw [heq, hcalm] at hu
      cases hu
    exact (Mutex.step_other hut).1.trans (h.calm u hu)

theorem Ordered.go (hq : t ∉ s.waiters) (hheld : p.critical = true → s.mutex.holds t = true)
    (hcalm : p.calm = true → s.mutex.pc t = .user)
    (hvalue : ∀ v, p = .unlocking v ∨ p = .futexWait v → v = UInt32.ofNat (s.loaded t))
    (hwake : ∀ all n, p ≠ .wake all n) (hin : p.inWait = true → (s.phase t).inWait = true) :
    Ordered (s.go t p) := by
  refine { h with
    held := s.go_forall (P := fun u x => x.critical = true → _) hheld fun u _ => h.held u
    calm := s.go_forall (P := fun u x => x.calm = true → s.mutex.pc u = .user) hcalm
      fun u _ => h.calm u
    waiting u hu :=
      (State.go_phase_of_ne _ _ (ne_of_mem_of_not_mem hu hq)).trans (h.waiting u hu)
    value := s.go_forall (P := fun u x => ∀ v, x = .unlocking v ∨ x = .futexWait v →
      v = UInt32.ofNat (s.loaded u)) hvalue fun u _ => h.value u
    woke u all n hu := ?_ }
  · have hut : u ≠ t := fun heq => by
      rw [heq, State.go_phase_self] at hu
      exact hwake all n hu
    rw [State.go_phase_of_ne _ _ hut] at hu
    obtain ⟨hn, hall⟩ := h.woke u all n hu
    refine ⟨hn, fun w hw => hall w ?_⟩
    by_cases hwt : w = t
    · rw [hwt, State.go_phase_self] at hw
      exact hwt ▸ hin hw
    · rwa [State.go_phase_of_ne _ _ hwt] at hw

theorem Ordered.relock (hq : t ∉ s.waiters) : Ordered (s.relock t) := by
  have hgo := h.go (p := .locking) hq nofun nofun (by simp) nofun nofun
  refine { hgo with
    exclusive := ?_, held := fun u hu => hgo.held u hu, calm := fun u hu => ?_ }
  · exact h.exclusive.move (by simp) nofun (by simp) nofun
  · have hut : u ≠ t := fun heq => by
      rw [heq] at hu
      change ((s.go t .locking).phase t).calm = true at hu
      rw [State.go_phase_self] at hu
      cases hu
    exact (Mutex.State.move_pc_of_ne _ _ hut).trans (hgo.calm u hu)

theorem Ordered.load (hp : s.phase t = .load) :
    Ordered ({ s with
      mutex := s.mutex.move t .unlock
      loaded := update s.loaded t s.count }.go t (.unlocking s.sequence)) := by
  have hcrit : (s.phase t).critical = true := by rw [hp]; rfl
  have hholds := h.held t hcrit
  have hq : t ∉ s.waiters := h.not_waiting (by simp [hp])
  refine { h with
    exclusive := ?_
    held := State.go_forall _ (P := fun u x => x.critical = true → _) nofun fun u _ => h.held u
    calm := State.go_forall _ (P := fun u x => x.calm = true →
      (s.mutex.move t .unlock).pc u = .user) nofun ?_
    waiting u hu :=
      (State.go_phase_of_ne _ _ (ne_of_mem_of_not_mem hu hq)).trans (h.waiting u hu)
    loaded u := ?_
    value := State.go_forall _ (P := fun u x => ∀ v, x = .unlocking v ∨ x = .futexWait v →
      v = UInt32.ofNat (update s.loaded t s.count u)) ?_ ?_
    woke u all n hu := ?_ }
  · exact h.exclusive.move (by simp) (fun _ => Or.inl hholds) (by simp) nofun
  · exact fun u hut hu => (Mutex.State.move_pc_of_ne _ _ hut).trans (h.calm u hu)
  · change update s.loaded t s.count u ≤ s.count
    rw [update_apply]
    split
    · exact Nat.le_refl _
    · exact h.loaded u
  · intro v hv
    rw [update_self, ← h.sequence]
    rcases hv with hv | hv <;> cases hv
    rfl
  · intro u hut v hv
    rw [update_of_ne hut]
    exact h.value u v hv
  · -- the thread that loads has the mutex, so nobody is about to wake
    have hut : u ≠ t := fun heq => by
      rw [heq, State.go_phase_self] at hu
      cases hu
    rw [State.go_phase_of_ne _ _ hut] at hu
    exact absurd (h.critical_one hcrit (by rw [hu]; rfl)) hut

theorem Ordered.enqueue {v : UInt32} (hp : s.phase t = .futexWait v) :
    Ordered ({ s with waiters := t :: s.waiters }.go t .waiting) := by
  have hq : t ∉ s.waiters := h.not_waiting (by simp [hp])
  have hgo := h.go (p := .waiting) hq nofun (fun _ => h.calm t (by rw [hp]; rfl)) (by simp) nofun
    (fun _ => by rw [hp]; rfl)
  refine { hgo with waiting := fun u hu => ?_, nodup := nodup_cons.mpr ⟨hq, h.nodup⟩ }
  rcases mem_cons.mp hu with rfl | hu
  · exact State.go_phase_self _ _ _
  · exact hgo.waiting u hu

theorem Ordered.increment {all : Bool} (hp : s.phase t = .increment all) :
    Ordered ({ s with sequence := s.sequence + 1, count := s.count + 1 }.go t
      (.wake all (s.count + 1))) := by
  have hcrit : (s.phase t).critical = true := by rw [hp]; rfl
  have hq : t ∉ s.waiters := h.not_waiting (by simp [hp])
  refine { h with
    held := State.go_forall _ (P := fun u x => x.critical = true → _) (fun _ => h.held t hcrit)
      fun u _ => h.held u
    calm := State.go_forall _ (P := fun u x => x.calm = true → s.mutex.pc u = .user)
      (fun _ => h.calm t (by rw [hp]; rfl)) fun u _ => h.calm u
    waiting u hu :=
      (State.go_phase_of_ne _ _ (ne_of_mem_of_not_mem hu hq)).trans (h.waiting u hu)
    sequence := ?_
    loaded u := Nat.le_succ_of_le (h.loaded u)
    value := State.go_forall _ (P := fun u x => ∀ v, x = .unlocking v ∨ x = .futexWait v →
      v = UInt32.ofNat (s.loaded u)) (by simp) fun u _ => h.value u
    woke u a n hu := ?_ }
  · change s.sequence + 1 = UInt32.ofNat (s.count + 1)
    rw [h.sequence, UInt32.ofNat_add]
    rfl
  · by_cases hut : u = t
    · rw [hut, State.go_phase_self] at hu
      cases hu
      exact ⟨rfl, fun w _ => Nat.lt_succ_of_le (h.loaded w)⟩
    · rw [State.go_phase_of_ne _ _ hut] at hu
      exact absurd (h.critical_one hcrit (by rw [hu]; rfl)) hut

theorem Ordered.wake {all : Bool} (hp : s.phase t = .wake all n) :
    Ordered ({ s with waiters := s.waiters.drop (wakeCount all) }.go t .user) := by
  have hq : t ∉ s.waiters := h.not_waiting (by simp [hp])
  have hgo := h.go (p := .user) hq nofun nofun (by simp) nofun nofun
  exact { hgo with
    waiting := fun u hu => hgo.waiting u (mem_of_mem_drop hu)
    nodup := h.nodup.sublist (drop_sublist _ _) }

theorem Ordered.step : Ordered (s.step t) := by
  unfold State.step
  cases hp : s.phase t with
  | user => exact h.mutexStep (by rw [hp]; rfl) (by rw [hp]; rfl)
  | load => exact h.load hp
  | unlocking v =>
    have hm := h.mutexStep (t := t) (by rw [hp]; rfl) (by rw [hp]; rfl)
    rcases hstep : s.mutex.step t with ⟨_ | r, m⟩ <;> rw [hstep] at hm
    · exact hm
    · have hpc : m.pc t = .user := by
        have := Mutex.step_returns (s := s.mutex) (t := t) (by rw [hstep])
        rwa [hstep] at this
      have hq : t ∉ s.waiters := h.not_waiting (by simp [hp])
      refine hm.go hq ?_ (fun _ => hpc) ?_ ?_ fun _ => by rw [hp]; rfl
      · split <;> exact nofun
      · intro w hw
        refine h.value t w (Or.inl (hp.trans ?_))
        split at hw <;> simp_all
      · split <;> exact nofun
  | futexWait v =>
    dsimp only
    split
    · exact h.enqueue hp
    · exact h.relock (h.not_waiting (by simp [hp]))
  | waiting =>
    dsimp only
    split
    · exact h
    next hq => exact h.relock hq
  | locking =>
    have hm := h.mutexStep (t := t) (by rw [hp]; rfl) (by rw [hp]; rfl)
    rcases hstep : s.mutex.step t with ⟨_ | r, m⟩ <;> rw [hstep] at hm
    · exact hm
    · exact hm.go (h.not_waiting (by simp [hp])) nofun nofun (by simp) nofun nofun
  | increment all => exact h.increment hp
  | wake all n => exact h.wake hp

omit h in
theorem State.idle_iff : s.idle t = true ↔ s.phase t = .user ∧ s.mutex.pc t = .user := by
  simp [State.idle]

theorem Ordered.call (hidle : s.idle t = true) {p : Mutex.Pc}
    (hto : p = .lock ∨ p = .unlock ∧ s.mutex.holds t = true) :
    Ordered { s with mutex := s.mutex.move t p } := by
  obtain ⟨hp, hpc⟩ := State.idle_iff.mp hidle
  refine { h with exclusive := ?_, calm := fun u hu => ?_ }
  · rcases hto with rfl | ⟨rfl, hholds⟩
    · exact h.exclusive.move (by simp) nofun (by simp) nofun
    · exact h.exclusive.move (by simp) (fun _ => Or.inl hholds) (by simp) nofun
  · have hut : u ≠ t := fun heq => by
      rw [heq, hp] at hu
      cases hu
    exact (Mutex.State.move_pc_of_ne _ _ hut).trans (h.calm u hu)

theorem Ordered.start (hidle : s.idle t = true) (hholds : s.mutex.holds t = true)
    (hp : p = .load ∨ ∃ all, p = .increment all) : Ordered (s.go t p) := by
  obtain ⟨hphase, hpc⟩ := State.idle_iff.mp hidle
  refine h.go (h.not_waiting (by simp [hphase])) (fun _ => hholds) (fun _ => hpc) ?_ ?_ ?_
  · rcases hp with rfl | ⟨all, rfl⟩ <;> simp
  · rcases hp with rfl | ⟨all, rfl⟩ <;> simp
  · intro hin
    rcases hp with rfl | ⟨all, rfl⟩ <;> cases hin

theorem Ordered.apply (hok : Allowed s op) : Ordered (apply s op) := by
  cases op with
  | lock t =>
    dsimp only [Cond.apply]
    split
    next hidle => exact h.call hidle (Or.inl rfl)
    · exact h
  | unlock t =>
    dsimp only [Cond.apply]
    split
    next hidle => exact h.call hidle (Or.inr ⟨rfl, hok⟩)
    · exact h
  | wait t =>
    dsimp only [Cond.apply]
    split
    next hidle => exact { h.start hidle hok (Or.inl rfl) with }
    · exact h
  | signal t =>
    dsimp only [Cond.apply]
    split
    next hidle => exact h.start hidle hok (Or.inr ⟨false, rfl⟩)
    · exact h
  | broadcast t =>
    dsimp only [Cond.apply]
    split
    next hidle => exact h.start hidle hok (Or.inr ⟨true, rfl⟩)
    · exact h
  | run t => exact h.step
  | spurious t =>
    exact { h with
      waiting := fun u hu => h.waiting u (mem_of_mem_erase hu), nodup := h.nodup.erase t }
  | spuriousMutex t => exact { h with exclusive := { h.exclusive with } }

end

theorem ordered_run {ops : List Op} (h : Machine.Throughout Allowed apply init ops) :
    Ordered (run ops) :=
  h.invariant Ordered (fun _ _ hs hok => hs.apply hok) ordered_init

/-! ## What happens to one thread -/

def Op.thread : Op → Tid
  | .lock t | .unlock t | .wait t | .signal t | .broadcast t | .run t | .spurious t
  | .spuriousMutex t => t

/-- An operation of another thread leaves `u` where it is, and never puts it on the queue. -/
structure Frame (s s' : State) (u : Tid) : Prop where
  phase : s'.phase u = s.phase u
  loaded : s'.loaded u = s.loaded u
  calls : s'.calls u = s.calls u
  waiters : u ∈ s'.waiters → u ∈ s.waiters

theorem frame_step (hu : u ≠ t) : Frame s (s.step t) u := by
  have hgo : ∀ (s' : State) (p : Phase), Frame s s' u → Frame s (s'.go t p) u := fun s' p h =>
    ⟨(State.go_phase_of_ne _ _ hu).trans h.phase, h.loaded, h.calls, h.waiters⟩
  have hmutex : ∀ m, Frame s { s with mutex := m } u := fun _ => ⟨rfl, rfl, rfl, id⟩
  unfold State.step
  cases s.phase t with
  | user => exact hmutex _
  | load => exact hgo _ _ ⟨rfl, update_of_ne hu _ _, rfl, id⟩
  | unlocking v =>
    dsimp only
    split
    · exact hmutex _
    · exact hgo _ _ (hmutex _)
  | futexWait v =>
    dsimp only
    split
    · exact hgo _ _ ⟨rfl, rfl, rfl, fun hmem => (mem_cons.mp hmem).resolve_left hu⟩
    · exact hgo _ _ (hmutex _)
  | waiting =>
    dsimp only
    split
    · exact ⟨rfl, rfl, rfl, id⟩
    · exact hgo _ _ (hmutex _)
  | locking =>
    dsimp only
    split
    · exact hmutex _
    · exact hgo _ _ (hmutex _)
  | increment all => exact hgo _ _ ⟨rfl, rfl, rfl, id⟩
  | wake all n => exact hgo _ _ ⟨rfl, rfl, rfl, mem_of_mem_drop⟩

theorem frame_apply (hu : u ≠ op.thread) : Frame s (apply s op) u := by
  have hrefl : Frame s s u := ⟨rfl, rfl, rfl, id⟩
  cases op with
  | lock t | unlock t =>
    dsimp only [apply]
    split
    · exact ⟨rfl, rfl, rfl, id⟩
    · exact hrefl
  | wait t =>
    dsimp only [apply]
    split
    · exact ⟨State.go_phase_of_ne _ _ hu, rfl, update_of_ne hu _ _, id⟩
    · exact hrefl
  | signal t | broadcast t =>
    dsimp only [apply]
    split
    · exact ⟨State.go_phase_of_ne _ _ hu, rfl, rfl, id⟩
    · exact hrefl
  | run t => exact frame_step hu
  | spurious t => exact ⟨rfl, rfl, rfl, mem_of_mem_erase⟩
  | spuriousMutex t => exact ⟨rfl, rfl, rfl, id⟩

theorem le_apply (s : State) (op : Op) (u : Tid) :
    s.count ≤ (apply s op).count ∧ s.calls u ≤ (apply s op).calls u := by
  have hsame : s.count ≤ s.count ∧ s.calls u ≤ s.calls u := ⟨Nat.le_refl _, Nat.le_refl _⟩
  cases op with
  | run t =>
    dsimp only [apply, State.step]
    cases s.phase t with
    | increment all => exact ⟨Nat.le_succ _, Nat.le_refl _⟩
    | user | load | wake => exact hsame
    | unlocking v | futexWait v | waiting | locking =>
      dsimp only
      split <;> exact hsame
  | wait t =>
    dsimp only [apply]
    split
    · refine ⟨Nat.le_refl _, ?_⟩
      change s.calls u ≤ update s.calls t (s.calls t + 1) u
      rw [update_apply]
      split
      next hu => rw [hu]; exact Nat.le_succ _
      · exact Nat.le_refl _
    · exact hsame
  | lock t | unlock t | signal t | broadcast t =>
    dsimp only [apply]
    split <;> exact hsame
  | spurious t | spuriousMutex t => exact hsame

theorem Ordered.loaded_eq (h : Ordered s) {v : UInt32} (hp : s.phase t = .futexWait v)
    (hok : s.count < s.loaded t + 2 ^ 32) (hv : s.sequence = v) : s.loaded t = s.count := by
  have heq : UInt32.ofNat s.count = UInt32.ofNat (s.loaded t) := by
    rw [← h.sequence, hv]
    exact h.value t v (Or.inr hp)
  have hmod := congrArg UInt32.toNat heq
  rw [UInt32.toNat_ofNat', UInt32.toNat_ofNat'] at hmod
  have hle := h.loaded t
  omega

theorem Ordered.blocked_apply (h : Ordered s) (hok : Allowed s op)
    (hu : u ∈ (Cond.apply s op).waiters) :
    (Cond.apply s op).loaded u = s.loaded u ∧ (u ∈ s.waiters ∨ s.loaded u = s.count) := by
  by_cases hut : u = op.thread
  · cases op with
    | lock t | unlock t | wait t | signal t | broadcast t =>
      dsimp only [Cond.apply] at hu ⊢
      refine ⟨by split <;> rfl, Or.inl ?_⟩
      split at hu <;> exact hu
    | spurious t => exact ⟨rfl, Or.inl (mem_of_mem_erase hu)⟩
    | spuriousMutex t => exact ⟨rfl, Or.inl hu⟩
    | run t =>
      subst hut
      dsimp only [Cond.apply, State.step] at hu ⊢
      cases hp : s.phase u with
      | futexWait v =>
        rw [hp] at hu
        dsimp only at hu ⊢
        split at hu
        next hv =>
          rw [if_pos hv]
          exact ⟨rfl, Or.inr (h.loaded_eq hp (hok (by rw [hp]; rfl)) hv)⟩
        next hv => exact absurd hu (h.not_waiting (by simp [hp]))
      | waiting =>
        rw [hp] at hu
        dsimp only at hu ⊢
        split at hu
        next hq => exact ⟨by rw [if_pos hq], Or.inl hq⟩
        next hq => exact absurd hu hq
      | wake all n =>
        rw [hp] at hu
        exact absurd (mem_of_mem_drop hu) (h.not_waiting (by simp [hp]))
      | user | load | increment all =>
        rw [hp] at hu
        exact absurd hu (h.not_waiting (by simp [hp]))
      | unlocking v | locking =>
        rw [hp] at hu
        dsimp only at hu
        split at hu
        · exact absurd hu (h.not_waiting (by simp [hp]))
        · exact absurd hu (h.not_waiting (by simp [hp]))
  · have hf := frame_apply (s := s) hut
    exact ⟨hf.loaded, Or.inl (hf.waiters hu)⟩

/-- Every thread on the queue loaded after the `n`-th increment. -/
structure Announced (n : Nat) (s : State) : Prop where
  count : n ≤ s.count
  waiters : ∀ u ∈ s.waiters, n ≤ s.loaded u

theorem Announced.apply (ha : Announced n s) (h : Ordered s) (hok : Allowed s op) :
    Announced n (Cond.apply s op) := by
  refine ⟨Nat.le_trans ha.count (le_apply s op 0).1, fun u hu => ?_⟩
  obtain ⟨hloaded, hmem | hnow⟩ := h.blocked_apply hok hu
  · rw [hloaded]
    exact ha.waiters u hmem
  · rw [hloaded, hnow]
    exact ha.count

/-- In its `c`-th call, thread `u` is past `futex_wait`, or the `n`-th increment has come between
its load and `futex_wait`. -/
structure Released (u : Tid) (c n : Nat) (s : State) : Prop where
  count : n ≤ s.count
  calls : c ≤ s.calls u
  waiters : s.calls u = c → u ∉ s.waiters
  load : s.calls u = c → s.phase u ≠ .load
  loaded : s.calls u = c → ∀ v, s.phase u = .unlocking v ∨ s.phase u = .futexWait v →
    s.loaded u < n

theorem Released.leave (hr : Released u c n s) {s' : State}
    (hs' : s'.count = s.count ∧ s'.calls = s.calls ∧ s'.waiters = s.waiters)
    (hp : p.inWait = false ∧ p ≠ .load) : Released u c n (s'.go u p) := by
  obtain ⟨hcount, hcalls, hwaiters⟩ := hs'
  refine ⟨hcount ▸ hr.count, ?_, ?_, fun _ => ?_, fun _ v hv => ?_⟩
  · exact hcalls ▸ hr.calls
  · change s'.calls u = c → u ∉ s'.waiters
    rw [hcalls, hwaiters]
    exact hr.waiters
  · rw [State.go_phase_self]
    exact hp.2
  · rw [State.go_phase_self] at hv
    rcases hv with rfl | rfl <;> cases hp.1

theorem Released.step (hr : Released u c n s) (h : Ordered s) (hcall : s.calls u = c)
    (hok : Allowed s (.run u)) : Released u c n (s.step u) := by
  have hq := hr.waiters hcall
  unfold State.step
  cases hp : s.phase u with
  | user =>
    exact { hr with }
  | load => exact absurd hp (hr.load hcall)
  | unlocking v =>
    dsimp only
    split
    · exact { hr with }
    next r m _ =>
      split
      · refine { hr with load _ := ?_, loaded _ _ _ := ?_ }
        · rw [State.go_phase_self]
          exact nofun
        · exact hr.loaded hcall v (Or.inl hp)
      · exact hr.leave ⟨rfl, rfl, rfl⟩ ⟨rfl, nofun⟩
  | futexWait v =>
    dsimp only
    by_cases hv : s.sequence = v
    · have hnow := h.loaded_eq hp (hok (by rw [hp]; rfl)) hv
      have hlt := hr.loaded hcall v (Or.inr hp)
      have hcount := hr.count
      omega
    · rw [if_neg hv]
      exact hr.leave ⟨rfl, rfl, rfl⟩ ⟨rfl, nofun⟩
  | waiting =>
    rw [if_neg hq]
    exact hr.leave ⟨rfl, rfl, rfl⟩ ⟨rfl, nofun⟩
  | locking =>
    dsimp only
    split
    · exact { hr with }
    · exact hr.leave ⟨rfl, rfl, rfl⟩ ⟨rfl, nofun⟩
  | increment all =>
    have hgo : Released u c n (s.go u (.wake all (s.count + 1))) :=
      hr.leave ⟨rfl, rfl, rfl⟩ ⟨rfl, nofun⟩
    exact { hgo with count := Nat.le_succ_of_le hr.count }
  | wake all m =>
    have hgo : Released u c n (s.go u .user) := hr.leave ⟨rfl, rfl, rfl⟩ ⟨rfl, nofun⟩
    exact { hgo with waiters := fun hc hmem => hgo.waiters hc (mem_of_mem_drop hmem) }

theorem Released.apply (hr : Released u c n s) (h : Ordered s) (hok : Allowed s op) :
    Released u c n (Cond.apply s op) := by
  by_cases hut : u = op.thread
  · by_cases hcall : s.calls u = c
    · cases op with
      | run t =>
        subst hut
        exact hr.step h hcall hok
      | lock t | unlock t =>
        dsimp only [Cond.apply]
        split
        · exact { hr with }
        · exact hr
      | wait t =>
        subst hut
        dsimp only [Cond.apply]
        split
        · have hnext : update s.calls u (s.calls u + 1) u = c + 1 := by
            rw [update_self, hcall]
          have hne : update s.calls u (s.calls u + 1) u ≠ c := by
            rw [hnext]
            exact Nat.succ_ne_self c
          exact ⟨hr.count, Nat.le_trans (Nat.le_succ c) (Nat.le_of_eq hnext.symm),
            fun hc => absurd hc hne, fun hc => absurd hc hne, fun hc => absurd hc hne⟩
        · exact hr
      | signal t | broadcast t =>
        subst hut
        dsimp only [Cond.apply]
        split
        · exact hr.leave ⟨rfl, rfl, rfl⟩ ⟨rfl, nofun⟩
        · exact hr
      | spurious t =>
        exact { hr with waiters := fun hc hmem => hr.waiters hc (mem_of_mem_erase hmem) }
      | spuriousMutex t => exact { hr with }
    · -- a later call of the thread
      have hlt : c < (Cond.apply s op).calls u :=
        Nat.lt_of_lt_of_le (Nat.lt_of_le_of_ne hr.calls (Ne.symm hcall)) (le_apply s op u).2
      have hne : (Cond.apply s op).calls u ≠ c := Nat.ne_of_gt hlt
      exact ⟨Nat.le_trans hr.count (le_apply s op u).1, Nat.le_of_lt hlt,
        fun hc => absurd hc hne, fun hc => absurd hc hne, fun hc => absurd hc hne⟩
  · have hf := frame_apply (s := s) hut
    refine ⟨Nat.le_trans hr.count (le_apply s op u).1, hf.calls ▸ hr.calls, ?_, ?_, ?_⟩
    · rw [hf.calls]
      exact fun hc hmem => hr.waiters hc (hf.waiters hmem)
    · rw [hf.calls, hf.phase]
      exact hr.load
    · rw [hf.calls, hf.phase, hf.loaded]
      exact hr.loaded

/-! ## Signals -/

theorem Ordered.length_waiters (h : Ordered s) (ht : t ∉ s.waiters) :
    s.waiters.length ≤ 0xFFFFFFFF := by
  have hnodup : ((t :: s.waiters).map UInt32.toFin).Nodup :=
    (nodup_cons.mpr ⟨ht, h.nodup⟩).map fun a b hab => UInt32.toFin_inj.mp hab
  have hle := hnodup.length_le_card
  rw [length_map, length_cons, Fintype.card_fin] at hle
  exact Nat.le_of_lt_succ (Nat.lt_of_succ_le hle)

theorem Ordered.announced (h : Ordered s) (hp : s.phase t = .wake true n) :
    Announced n (s.step t) := by
  have hq : t ∉ s.waiters := h.not_waiting (by simp [hp])
  have hempty : s.waiters.drop (wakeCount true) = [] :=
    drop_eq_nil_of_le (h.length_waiters hq)
  unfold State.step
  rw [hp]
  refine ⟨Nat.le_of_eq (h.woke t true n hp).1, fun u hu => ?_⟩
  change u ∈ s.waiters.drop (wakeCount true) at hu
  rw [hempty] at hu
  cases hu

/-- The wake-up of a signal sets one thread free that loaded before the increment, if there is
such a thread. -/
theorem Ordered.released (h : Ordered s) (hp : s.phase t = .wake false n)
    (hsome : ∃ u, ((s.step t).phase u).inWait = true ∧ (s.step t).loaded u < n) :
    ∃ u, ((s.step t).phase u).inWait = true ∧ (s.step t).loaded u < n ∧
      Released u ((s.step t).calls u) n (s.step t) := by
  obtain ⟨hn, hbefore⟩ := h.woke t false n hp
  have hstep : s.step t = ({ s with waiters := s.waiters.drop 1 } : State).go t .user := by
    unfold State.step
    rw [hp]
    rfl
  have hcount : n ≤ (s.step t).count := by rw [hstep]; exact Nat.le_of_eq hn
  cases hq : s.waiters with
  | nil =>
    obtain ⟨u, hu, hlt⟩ := hsome
    refine ⟨u, hu, hlt, hcount, Nat.le_refl _, fun _ => ?_, fun _ hload => ?_, fun _ _ _ => hlt⟩
    · rw [hstep]
      rw [hq]
      exact not_mem_nil
    · rw [hload] at hu
      cases hu
  | cons w rest =>
    have hw : s.phase w = .waiting := h.waiting w (by rw [hq]; exact mem_cons_self)
    have hwt : w ≠ t := fun heq => by
      rw [heq, hp] at hw
      cases hw
    have hwphase : (s.step t).phase w = .waiting := by
      rw [hstep, State.go_phase_of_ne _ _ hwt]
      exact hw
    have hlt : (s.step t).loaded w < n := by
      rw [hstep]
      exact hbefore w (by rw [hw]; rfl)
    refine ⟨w, by rw [hwphase]; rfl, hlt, hcount, Nat.le_refl _, fun _ => ?_, fun _ => ?_,
      fun _ _ _ => hlt⟩
    · have hnodup := h.nodup
      rw [hq] at hnodup
      rw [hstep]
      rw [hq]
      exact (nodup_cons.mp hnodup).1
    · rw [hwphase]
      exact nofun

/-- After a broadcast whose increment was the `n`-th, nobody who loaded before it is blocked or
will be. After a signal, if threads that loaded before its increment are still in their waits, one
of them is not blocked and will not be in that call. -/
theorem cond_loses_no_signal (ops : List Op) (t : Tid) (n : Nat) :
    ((run ops).phase t = .wake true n → ∀ later,
      Machine.Throughout Allowed apply init (ops ++ Op.run t :: later) →
      ∀ u ∈ (run (ops ++ Op.run t :: later)).waiters,
        n ≤ (run (ops ++ Op.run t :: later)).loaded u) ∧
    ((run ops).phase t = .wake false n →
      Machine.Throughout Allowed apply init (ops ++ [Op.run t]) →
      (∃ u, ((run (ops ++ [Op.run t])).phase u).inWait = true ∧
        (run (ops ++ [Op.run t])).loaded u < n) →
      ∃ u, ((run (ops ++ [Op.run t])).phase u).inWait = true ∧
        (run (ops ++ [Op.run t])).loaded u < n ∧
        ∀ later, Machine.Throughout Allowed apply init (ops ++ Op.run t :: later) →
          (run (ops ++ Op.run t :: later)).calls u = (run (ops ++ [Op.run t])).calls u →
          u ∉ (run (ops ++ Op.run t :: later)).waiters) := by
  have hsplit : ∀ later, run (ops ++ Op.run t :: later) = later.foldl apply ((run ops).step t) := by
    intro later
    unfold run
    rw [foldl_append]
    rfl
  refine ⟨fun hp later h => ?_, fun hp h hsome => ?_⟩
  · obtain ⟨hops, -, hlater⟩ := Machine.throughout_append.mp h
    have hord := ordered_run hops
    rw [hsplit]
    exact (hlater.invariant (fun s => Ordered s ∧ Announced n s)
      (fun s op hs hok => ⟨hs.1.apply hok, hs.2.apply hs.1 hok⟩)
      ⟨hord.step, hord.announced hp⟩).2.waiters
  · obtain ⟨hops, -, -⟩ := Machine.throughout_append.mp h
    have hord := ordered_run hops
    rw [hsplit] at hsome ⊢
    obtain ⟨u, hu, hlt, hr⟩ := hord.released hp hsome
    refine ⟨u, hu, hlt, fun later h' hcalls => ?_⟩
    obtain ⟨-, -, hlater⟩ := Machine.throughout_append.mp h'
    rw [hsplit] at hcalls ⊢
    exact (hlater.invariant (fun s => Ordered s ∧ Released u (((run ops).step t).calls u) n s)
      (fun s op hs hok => ⟨hs.1.apply hok, hs.2.apply hs.1 hok⟩)
      ⟨hord.step, hr⟩).2.waiters hcalls

/-- Thread 1 waits and thread 2 signals, up to the `futex_wake`. -/
def signalling : List Op :=
  [.lock 1, .run 1, .run 1, .wait 1, .run 1, .run 1, .run 1, .run 1, .run 1, .run 1,
    .lock 2, .run 2, .run 2, .signal 2, .run 2]

/-- The wake-up takes thread 1 out of `futex_wait`. -/
theorem cond_loses_no_signal_once :
    ∃ u, ((run (signalling ++ [Op.run 2])).phase u).inWait = true ∧
      u ∉ (run (signalling ++ [Op.run 2])).waiters := by
  obtain ⟨u, hu, -, hout⟩ := (cond_loses_no_signal signalling 2 1).2
    (by decide +kernel) (by decide +kernel) ⟨1, by decide +kernel, by decide +kernel⟩
  exact ⟨u, hu, hout [] (by decide +kernel) rfl⟩

end OrangeOs.User.Cond
