import Mathlib.Data.List.TakeWhile
import Mathlib.Logic.Function.Basic

/-! # Sleeping threads

The list of sleepers is kept in the order of their wake-up ticks, so that a timer tick only looks
at its front. Ticks are 64-bit words and wrap around, as in `timer.c`.
-/

namespace OrangeOs.Sched

open Function List

/-- `queue` are the threads from `sleep_head` on, those with `sleeping` set, and their wake-up
ticks. -/
structure Sleepers where
  systemTicks : UInt64
  queue : List (Nat × UInt64)
  blocked : Nat → Bool

namespace Sleepers

variable {s : Sleepers} {q : List (Nat × UInt64)}

/-- `set` is a `thread_block` or `thread_unblock` from elsewhere. -/
inductive Op where
  | sleep (t : Nat) (ticks : UInt64)
  | tick
  | cancel (t : Nat)
  | set (t : Nat) (blocked : Bool)

def enter (q : List (Nat × UInt64)) (x : Nat × UInt64) : List (Nat × UInt64) :=
  q.takeWhile (·.2 ≤ x.2) ++ x :: q.dropWhile (·.2 ≤ x.2)

/-- `thread_sleep_ticks` up to the wait; a blocked thread makes no call. -/
def threadSleepTicks (s : Sleepers) (t : Nat) (ticks : UInt64) : Sleepers :=
  if ticks = 0 ∨ s.blocked t then s
  else { s with
    blocked := update s.blocked t true
    queue := if t ∈ s.queue.map Prod.fst then s.queue
      else enter s.queue (t, s.systemTicks + ticks) }

/-- The timer interrupt with `timer_wake_sleepers`. -/
def timerTick (s : Sleepers) : Sleepers :=
  let now := s.systemTicks + 1
  ⟨now, s.queue.dropWhile (·.2 ≤ now), fun t =>
    s.blocked t && decide (t ∉ (s.queue.takeWhile (·.2 ≤ now)).map Prod.fst)⟩

def step (s : Sleepers) : Op → Sleepers
  | .sleep t ticks => s.threadSleepTicks t ticks
  | .tick => s.timerTick
  | .cancel t => { s with queue := s.queue.eraseP (·.1 = t) }
  | .set t blocked => { s with blocked := update s.blocked t blocked }

def run (ops : List Op) : Sleepers := ops.foldl step ⟨0, [], fun _ => false⟩

/-- The list is in order and has no thread twice. -/
structure Sound (q : List (Nat × UInt64)) : Prop where
  sorted : q.Pairwise (·.2 ≤ ·.2)
  nodup : (q.map Prod.fst).Nodup

theorem Sound.sublist {q' : List (Nat × UInt64)} (h : Sound q) (hsub : q' <+ q) : Sound q' :=
  ⟨h.sorted.sublist hsub, h.nodup.sublist (hsub.map _)⟩

theorem Sound.mem_dropWhile (h : Sound q) {x : Nat × UInt64} {now : UInt64} :
    x ∈ q.dropWhile (·.2 ≤ now) ↔ x ∈ q ∧ now < x.2 := by
  induction q with
  | nil => simp
  | cons a q ih =>
    have hq := h.sublist (sublist_cons_self a q)
    have ha := (pairwise_cons.mp h.sorted).1
    by_cases hle : a.2 ≤ now
    · rw [dropWhile_cons_of_pos (by simpa using hle), ih hq, mem_cons]
      refine and_congr_left fun hlt => (or_iff_right ?_).symm
      rintro rfl
      exact UInt64.not_le.mpr hlt hle
    · rw [dropWhile_cons_of_neg (by simpa using hle)]
      refine (and_iff_left_of_imp fun hx => ?_).symm
      rcases mem_cons.mp hx with rfl | hx
      · exact UInt64.not_le.mp hle
      · exact UInt64.lt_of_lt_of_le (UInt64.not_le.mp hle) (ha x hx)

theorem Sound.enter {x : Nat × UInt64} (h : Sound q) (hx : x.1 ∉ q.map Prod.fst) :
    Sound (enter q x) := by
  have hfront : ∀ {a}, a ∈ q.takeWhile (·.2 ≤ x.2) → a.2 ≤ x.2 := fun ha => by
    simpa using mem_takeWhile_imp ha
  have hback : ∀ {b}, b ∈ q.dropWhile (·.2 ≤ x.2) → x.2 ≤ b.2 := fun hb =>
    UInt64.le_of_lt (h.mem_dropWhile.mp hb).2
  refine ⟨pairwise_append.mpr ⟨h.sorted.sublist (takeWhile_sublist _), pairwise_cons.mpr
    ⟨fun b => hback, h.sorted.sublist (dropWhile_sublist _)⟩, fun a ha b hb => ?_⟩, ?_⟩
  · rcases mem_cons.mp hb with rfl | hb
    · exact hfront ha
    · exact UInt64.le_trans (hfront ha) (hback hb)
  · rw [Sleepers.enter, (perm_middle.map _).nodup_iff, takeWhile_append_dropWhile]
    exact nodup_cons.mpr ⟨hx, h.nodup⟩

theorem Sound.step (h : Sound s.queue) (op : Op) : Sound (s.step op).queue := by
  cases op with
  | sleep t ticks =>
    simp only [Sleepers.step, threadSleepTicks]
    split_ifs with _ hx
    exacts [h, h, h.enter hx]
  | tick => exact h.sublist (dropWhile_sublist _)
  | cancel t => exact h.sublist eraseP_sublist
  | set t blocked => exact h

/-- The list of sleepers stays in order, and a tick removes and unblocks exactly the threads whose
time has come. -/
theorem tick_wakes_exactly_due (ops : List Op) : Sound (run ops).queue ∧
    (∀ x, x ∈ ((run ops).step .tick).queue ↔
      x ∈ (run ops).queue ∧ (run ops).systemTicks + 1 < x.2) ∧
    ∀ t, ((run ops).step .tick).blocked t = true ↔ (run ops).blocked t = true ∧
      ∀ w, (t, w) ∈ (run ops).queue → (run ops).systemTicks + 1 < w := by
  have h : Sound (run ops).queue :=
    foldlRecOn (motive := fun s : Sleepers => Sound s.queue) ops step
      ⟨Pairwise.nil, nodup_nil⟩ fun _ h op _ => h.step op
  refine ⟨h, fun x => h.mem_dropWhile, fun t => ?_⟩
  simp only [step, timerTick, Bool.and_eq_true, decide_eq_true_iff]
  refine and_congr_right fun _ => ⟨fun hnot w hw => ?_, fun hall hmem => ?_⟩
  · have hsplit : (t, w) ∈ (run ops).queue.takeWhile (·.2 ≤ (run ops).systemTicks + 1) ++
        (run ops).queue.dropWhile (·.2 ≤ (run ops).systemTicks + 1) := by
      rw [takeWhile_append_dropWhile]
      exact hw
    rcases mem_append.mp hsplit with hdue | hlater
    · exact absurd (mem_map_of_mem hdue) hnot
    · exact (h.mem_dropWhile.mp hlater).2
  · obtain ⟨x, hx, rfl⟩ := mem_map.mp hmem
    have hlt := hall x.2 ((takeWhile_sublist _).mem hx)
    exact UInt64.not_le.mpr hlt (by simpa using mem_takeWhile_imp hx)

end Sleepers

end OrangeOs.Sched
