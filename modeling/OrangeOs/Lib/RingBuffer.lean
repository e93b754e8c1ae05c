import Mathlib.Data.List.Range
import Mathlib.Data.Nat.ModEq
import Mathlib.Logic.Function.Basic

/-! # Ring buffers

A circular buffer kept as an array with a head, a tail and a count. Elements go in at the tail and
come out at the head, in loops that move one index and leave the count to the end.
-/

namespace OrangeOs

open Function List

structure RingBuffer (α : Type*) where
  data : Nat → α
  head : Nat
  tail : Nat
  count : Nat

namespace RingBuffer

variable {α : Type*} (cap : Nat)

/-- The elements in the buffer, oldest first. -/
def contents (r : RingBuffer α) : List α :=
  (List.range r.count).map fun i => r.data ((r.head + i) % cap)

/-- The loop that reads `n` elements. -/
def readLoop : Nat → RingBuffer α → List α × RingBuffer α
  | 0, r => ([], r)
  | n + 1, r =>
    let rest := readLoop n { r with head := (r.head + 1) % cap }
    (r.data r.head :: rest.1, rest.2)

/-- The loop that writes the elements of a list. -/
def writeLoop : List α → RingBuffer α → RingBuffer α
  | [], r => r
  | x :: xs, r =>
    writeLoop xs
      { r with data := update r.data r.tail x, tail := (r.tail + 1) % cap }

def pop (r : RingBuffer α) (n : Nat) : List α × RingBuffer α :=
  let out := readLoop cap n r
  (out.1, { out.2 with count := out.2.count - n })

def push (r : RingBuffer α) (xs : List α) : RingBuffer α :=
  let r' := writeLoop cap xs r
  { r' with count := r'.count + xs.length }

/-- The indices of a buffer of `cap` elements. -/
structure Valid (r : RingBuffer α) : Prop where
  head : r.head < cap
  count : r.count ≤ cap
  tail : r.tail = (r.head + r.count) % cap

variable {cap} {r : RingBuffer α}

/-! ## Taking elements out -/

theorem readLoop_snd (n : Nat) (r : RingBuffer α) (h : r.head < cap) :
    (readLoop cap n r).2 = { r with head := (r.head + n) % cap } := by
  induction n generalizing r with
  | zero => simp [readLoop, Nat.mod_eq_of_lt h]
  | succ n ih =>
    have hlt : (r.head + 1) % cap < cap := Nat.mod_lt _ (by omega)
    simp only [readLoop]
    rw [ih _ hlt]
    simp [Nat.mod_add_mod, Nat.add_assoc, Nat.add_comm 1 n]

theorem readLoop_fst (n : Nat) (r : RingBuffer α) (h : r.head < cap) :
    (readLoop cap n r).1 = (range n).map fun i => r.data ((r.head + i) % cap) := by
  induction n generalizing r with
  | zero => rfl
  | succ n ih =>
    have hlt : (r.head + 1) % cap < cap := Nat.mod_lt _ (by omega)
    simp only [readLoop]
    rw [ih _ hlt, range_succ_eq_map, map_cons, map_map]
    have hfirst : (r.head + 0) % cap = r.head := Nat.mod_eq_of_lt h
    rw [hfirst]
    congr 1
    apply map_congr_left
    intro i _
    simp [Nat.mod_add_mod, Nat.add_assoc, Nat.add_comm 1 i]

theorem Valid.pop_eq (h : r.Valid cap) (n : Nat) :
    r.pop cap n = ((range n).map fun i => r.data ((r.head + i) % cap),
      { r with head := (r.head + n) % cap, count := r.count - n }) := by
  simp only [RingBuffer.pop, readLoop_snd n r h.head, readLoop_fst n r h.head]

theorem Valid.pop_append (h : r.Valid cap) {n : Nat} (hn : n ≤ r.count) :
    (r.pop cap n).1 ++ (r.pop cap n).2.contents cap = r.contents cap := by
  obtain ⟨m, hm⟩ := Nat.exists_eq_add_of_le hn
  simp only [h.pop_eq, contents, hm, Nat.add_sub_cancel_left]
  rw [range_add, map_append, map_map]
  congr 1
  apply map_congr_left
  intro i _
  simp [Nat.mod_add_mod, Nat.add_assoc]

theorem Valid.pop (h : r.Valid cap) {n : Nat} (hn : n ≤ r.count) : (r.pop cap n).2.Valid cap := by
  have hcap : 0 < cap := Nat.lt_of_le_of_lt (Nat.zero_le _) h.head
  have hcount := h.count
  rw [h.pop_eq]
  refine ⟨Nat.mod_lt _ hcap, by dsimp only; omega, ?_⟩
  have hsum : r.head + n + (r.count - n) = r.head + r.count := by omega
  rw [Nat.mod_add_mod, hsum]
  exact h.tail

/-! ## Putting elements in -/

/-- One round of the loop, with the count. -/
def push1 (cap : Nat) (r : RingBuffer α) (x : α) : RingBuffer α :=
  { r with
    data := update r.data r.tail x
    tail := (r.tail + 1) % cap
    count := r.count + 1 }

theorem writeLoop_rest (xs : List α) (r : RingBuffer α) :
    (writeLoop cap xs r).head = r.head ∧ (writeLoop cap xs r).count = r.count := by
  induction xs generalizing r with
  | nil => exact ⟨rfl, rfl⟩
  | cons x xs ih => exact ih _

theorem writeLoop_setCount (xs : List α) (r : RingBuffer α) (c : Nat) :
    writeLoop cap xs { r with count := c } = { writeLoop cap xs r with count := c } := by
  induction xs generalizing r with
  | nil => rfl
  | cons x xs ih =>
    exact ih { r with data := update r.data r.tail x, tail := (r.tail + 1) % cap }

theorem push_setCount (r : RingBuffer α) (c : Nat) (xs : List α) :
    push cap { r with count := c } xs = { writeLoop cap xs r with count := c + xs.length } := by
  unfold push
  rw [writeLoop_setCount]

theorem push_cons (r : RingBuffer α) (x : α) (xs : List α) :
    r.push cap (x :: xs) = (r.push1 cap x).push cap xs := by
  generalize hq : ({ r with
    data := update r.data r.tail x, tail := (r.tail + 1) % cap } : RingBuffer α) = q
  have hcount : q.count = r.count := by rw [← hq]
  have hone : r.push1 cap x = { q with count := r.count + 1 } := by rw [← hq]; rfl
  have hloop : writeLoop cap (x :: xs) r = writeLoop cap xs q := by rw [← hq]; rfl
  have hsum : r.count + (xs.length + 1) = r.count + 1 + xs.length := by omega
  rw [hone]
  refine Eq.trans ?_ (push_setCount q (r.count + 1) xs).symm
  simp only [push, hloop, (writeLoop_rest xs q).2, hcount, length_cons, hsum]

theorem index_ne {head i j : Nat} (hij : i < j) (hj : j < cap) :
    (head + i) % cap ≠ (head + j) % cap := by
  intro heq
  have hmod : i ≡ j [MOD cap] := Nat.ModEq.add_left_cancel' head heq
  have := Nat.ModEq.eq_of_lt_of_lt hmod (by omega) hj
  omega

theorem Valid.contents_push1 (h : r.Valid cap) (hroom : r.count < cap) (x : α) :
    (r.push1 cap x).contents cap = r.contents cap ++ [x] := by
  simp only [contents, push1]
  rw [range_succ, map_append, map_singleton, ← h.tail, update_self]
  congr 1
  apply map_congr_left
  intro i hi
  rw [mem_range] at hi
  have hne : (r.head + i) % cap ≠ r.tail := by
    rw [h.tail]
    exact index_ne hi hroom
  rw [update_of_ne hne]

theorem Valid.push1 (h : r.Valid cap) (hroom : r.count < cap) (x : α) :
    (r.push1 cap x).Valid cap := by
  refine ⟨h.head, hroom, ?_⟩
  simp only [RingBuffer.push1]
  rw [h.tail, Nat.mod_add_mod, Nat.add_assoc]

theorem Valid.push {xs : List α} (h : r.Valid cap) (hroom : r.count + xs.length ≤ cap) :
    (r.push cap xs).Valid cap ∧ (r.push cap xs).contents cap = r.contents cap ++ xs := by
  induction xs generalizing r with
  | nil => exact ⟨h, (append_nil _).symm⟩
  | cons x xs ih =>
    rw [length_cons] at hroom
    have hone : r.count < cap := by omega
    obtain ⟨hvalid, hcontents⟩ := ih (h.push1 hone x) (by simp only [RingBuffer.push1]; omega)
    rw [push_cons]
    refine ⟨hvalid, ?_⟩
    rw [hcontents, h.contents_push1 hone, append_assoc]
    rfl

end RingBuffer

end OrangeOs
