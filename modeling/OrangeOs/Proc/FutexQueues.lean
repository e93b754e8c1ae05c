import Mathlib.Algebra.BigOperators.Group.Finset.Piecewise
import OrangeOs.Proc.FutexLists
import OrangeOs.Proc.Registrations

/-! # Threads in futex queues

A thread in a bucket is BLOCKED, belongs to the process it waits in and hashes to the bucket. The
loops along a bucket wake the threads that are wanted, the first of them when there are more than
they may wake, and leave the other threads as they are.
-/

namespace OrangeOs.Proc

open Ipc Function List

theorem futexHash_lt (process address : UInt64) : futexHash process address < futexBucketCount := by
  have hand : ∀ x : UInt32, (x &&& 63).toNat < 64 := by
    intro x
    rw [UInt32.toNat_and]
    exact Nat.lt_of_le_of_lt Nat.and_le_right (by decide)
  exact hand _

theorem Futexes.Chained.setResult {f : Futexes} {q : Nat → List Tid} (h : f.Chained q) (t : Tid)
    (r : Int) : (f.setNode t fun w => { w with result := r }).Chained q := by
  have hwaiting : ∀ u, ((f.setNode t fun w => { w with result := r }).node u).waiting =
      (f.node u).waiting := Updates.proj Waiter.waiting rfl
  have hbucket : ∀ u, ((f.setNode t fun w => { w with result := r }).node u).bucket =
      (f.node u).bucket := Updates.proj Waiter.bucket rfl
  refine ⟨fun b => (h.linked b).congr (fun u _ => Updates.proj Waiter.next (by rfl) u)
    fun u _ => Updates.proj Waiter.prev (by rfl) u, h.nodup, fun b u hu => ?_, fun u hu => ?_⟩
  · rw [hwaiting, hbucket]
    exact h.waiting b u hu
  · rw [hwaiting] at hu
    rw [hbucket]
    exact h.queued u hu

/-- The lists with `t` in front of the bucket `b`. -/
def queueUp (f : Futexes) (b : Nat) (t : Tid) (p : ProcId) (a : UInt64) : Futexes :=
  (f.setNode t fun w => { w with result := 0 }).enqueueWaiter b t p a

theorem Futexes.Chained.queueUp {f : Futexes} {q : Nat → List Tid} (h : f.Chained q) {t : Tid}
    (ht : (f.node t).waiting = false) (b : Nat) (p : ProcId) (a : UInt64) :
    (queueUp f b t p a).Chained (update q b (t :: q b)) ∧
      ∀ u, ((queueUp f b t p a).node u).key =
        if u = t then (true, b, some p, a) else (f.node u).key := by
  have hkey : ∀ u, ((f.setNode t fun w => { w with result := 0 }).node u).key = (f.node u).key :=
    Updates.proj Waiter.key rfl
  obtain ⟨hchained, hqueued⟩ := (h.setResult t 0).enqueue (b := b)
    ((Updates.proj Waiter.waiting (by rfl) t).trans ht) p a
  simp only [hkey] at hqueued
  exact ⟨hchained, hqueued⟩

namespace Kernel

variable {β : Type} {k k' : Kernel β} {q : Nat → List Tid} {b : Nat} {t : Tid}

/-- The buckets hold the lists `q`, and every thread in them is asleep. -/
structure Queues (k : Kernel β) (q : Nat → List Tid) : Prop where
  chained : k.futex.Chained q
  blocked : ∀ b, ∀ t ∈ q b, k.status t = .blocked
  process : ∀ b, ∀ t ∈ q b, ∃ p, (k.futex.node t).process = some p ∧
    (k.task t).process = some p ∧ futexHash (k.proc p).address (k.futex.node t).uaddr = b
  fresh : ∀ b, ∀ t ∈ q b, t < k.nextTid
  count : k.futex.waiterCount = ∑ b ∈ Finset.range futexBucketCount, (q b).length

theorem Queues.lt (h : Queues k q) (ht : t ∈ q b) : b < futexBucketCount := by
  obtain ⟨p, -, -, rfl⟩ := h.process b t ht
  exact futexHash_lt _ _

theorem Queues.length_le (h : Queues k q) (b : Nat) : (q b).length ≤ k.nextTid := by
  have hsub : (q b) ⊆ range k.nextTid := fun t ht => mem_range.mpr (h.fresh b t ht)
  have hle := ((h.chained.nodup b).subperm hsub).length_le
  rwa [length_range] at hle

/-! ## One thread is woken -/

/-- The threads `ws` have been made ready, and nobody waits for anything else than before. -/
structure Woke (k k' : Kernel β) (ws : List Tid) : Prop where
  gentle : Gentle k k'
  status : ∀ t, k'.status t = if t ∈ ws then .ready else k.status t
  key : ∀ t, (k'.futex.node t).process = (k.futex.node t).process ∧
    (k'.futex.node t).uaddr = (k.futex.node t).uaddr
  proc : k'.proc = k.proc
  posted : Posted k.ipc → Posted k'.ipc
  dozing : Dozing k → Dozing k'
  listed : ∀ t w, Listed k' t w → Listed k t w
  queued : ∀ t ∈ ws, Listed k t .futex

theorem Woke.refl (k : Kernel β) : Woke k k [] :=
  ⟨.refl k, fun t => by simp, fun _ => ⟨rfl, rfl⟩, rfl, id, id, fun _ _ => id, nofun⟩

theorem Woke.trans {k'' : Kernel β} {ws ws' : List Tid} (h : Woke k k' ws)
    (h' : Woke k' k'' ws') : Woke k k'' (ws ++ ws') := by
  refine ⟨h.gentle.trans h'.gentle, fun t => ?_, fun t => ⟨?_, ?_⟩, h'.proc.trans h.proc,
    h'.posted ∘ h.posted, h'.dozing ∘ h.dozing, fun t w hl => h.listed t w (h'.listed t w hl),
    fun t ht => (mem_append.mp ht).elim (h.queued t) fun ht => h.listed t _ (h'.queued t ht)⟩
  · rw [h'.status, h.status]
    by_cases ht' : t ∈ ws'
    · simp [ht']
    · by_cases ht : t ∈ ws <;> simp [ht, ht']
  · exact (h'.key t).1.trans (h.key t).1
  · exact (h'.key t).2.trans (h.key t).2

theorem Queues.woke (h : Queues k q) {q' : Nat → List Tid} {ws : List Tid} (hw : Woke k k' ws)
    (hchained : k'.futex.Chained q') (hsub : ∀ b, ∀ t ∈ q' b, t ∈ q b ∧ t ∉ ws)
    (hcount : k'.futex.waiterCount = ∑ b ∈ Finset.range futexBucketCount, (q' b).length) :
    Queues k' q' := by
  refine ⟨hchained, fun b t ht => ?_, fun b t ht => ?_, fun b t ht => ?_, hcount⟩
  · obtain ⟨hq, hws⟩ := hsub b t ht
    rw [hw.status, if_neg hws]
    exact h.blocked b t hq
  · obtain ⟨p, hnode, htask, hhash⟩ := h.process b t (hsub b t ht).1
    refine ⟨p, (hw.key t).1.trans hnode, (hw.gentle.process t).trans htask, ?_⟩
    rw [(hw.key t).2, hw.gentle.proc p]
    exact hhash
  · rw [hw.gentle.nextTid]
    exact h.fresh b t (hsub b t ht).1

theorem sum_length_update {q : Nat → List Tid} {b : Nat} (hb : b < futexBucketCount)
    (l : List Tid) :
    ∑ i ∈ Finset.range futexBucketCount, (update q b l i).length + (q b).length =
      ∑ i ∈ Finset.range futexBucketCount, (q i).length + l.length := by
  have hmem : b ∈ Finset.range futexBucketCount := Finset.mem_range.mpr hb
  rw [← Finset.add_sum_erase _ _ hmem, ← Finset.add_sum_erase _ (fun i => (q i).length) hmem,
    update_self]
  have hrest : ∑ i ∈ (Finset.range futexBucketCount).erase b, (update q b l i).length =
      ∑ i ∈ (Finset.range futexBucketCount).erase b, (q i).length :=
    Finset.sum_congr rfl fun i hi => by rw [update_of_ne (Finset.ne_of_mem_erase hi)]
  omega

theorem Queues.wakeWaiter (h : Queues k q) (ht : t ∈ q b) (r : Int) :
    Queues (k.wakeWaiter b t r) (update q b ((q b).erase t)) ∧
      Woke k (k.wakeWaiter b t r) [t] := by
  have hstatus : ∀ u, (k.wakeWaiter b t r).status u = if u ∈ [t] then .ready else k.status u := by
    intro u
    by_cases hu : u = t
    · subst hu
      rw [if_pos (mem_singleton_self u)]
      change (k.ipc.modify u Thread.unblock u).status = .ready
      rw [Threads.modify_self]
      have hblocked : (k.ipc u).status = .blocked := h.blocked b u ht
      unfold Thread.unblock
      rw [if_pos hblocked]
    · rw [if_neg fun hmem => hu (mem_singleton.mp hmem)]
      change (k.ipc.modify t Thread.unblock u).status = _
      rw [Threads.modify_of_ne _ hu]
      rfl
  have hkey : ∀ u, ((k.wakeWaiter b t r).futex.node u).process = (k.futex.node u).process ∧
      ((k.wakeWaiter b t r).futex.node u).uaddr = (k.futex.node u).uaddr := by
    intro u
    obtain ⟨hp, ha⟩ := h.chained.unlink_key ht u
    rw [← hp, ← ha]
    exact ⟨Updates.proj Waiter.process (by rfl) u, Updates.proj Waiter.uaddr (by rfl) u⟩
  have hchained : (k.wakeWaiter b t r).futex.Chained (update q b ((q b).erase t)) :=
    (h.chained.unlink ht).setResult t r
  have hsub : ∀ b', ∀ u ∈ update q b ((q b).erase t) b', u ∈ q b' ∧ u ∉ [t] := by
    intro b' u hu
    obtain ⟨hmem, hne⟩ := (h.chained.mem_unlink ht b' u).mp hu
    exact ⟨hmem, fun hu => hne (mem_singleton.mp hu)⟩
  have hmail : ∀ u, mail ((k.wakeWaiter b t r).ipc u) = mail (k.ipc u) :=
    Threads.modify_proj mail (mail_unblock _)
  have hlists := setIpc_lists k (k.ipc.modify t Thread.unblock)
  have hw : Woke k (k.wakeWaiter b t r) [t] := by
    refine ⟨gentle_wakeWaiter k b t r, hstatus, hkey, rfl,
      fun hp => hp.congr fun u => congrArg (·.1) (hmail u),
      fun hd => ⟨hd.1, fun u hu => (hlists u).2.1.trans (hd.2 u hu)⟩, fun u w hl => ?_, ?_⟩
    · refine hl.mono (fun hq => ?_) id (fun d => ?_) ?_ (hlists u).2.2 fun x => ?_
      · exact (h.chained.waiting _ u (hsub _ u (hchained.queued u hq)).1).1
      · rw [show ((k.wakeWaiter b t r).ipc d).ipcSenders = (k.ipc d).ipcSenders from
          congrArg (·.1.1) (hmail d)]
        exact id
      · rw [show ((k.wakeWaiter b t r).ipc u).ipcReceiving = (k.ipc u).ipcReceiving from
          congrArg (·.2) (hmail u)]
        exact id
      · exact fun hj => (hlists x).1.symm.trans hj
    · intro u hu
      rw [mem_singleton.mp hu]
      exact (h.chained.waiting b t ht).1
  refine ⟨h.woke hw hchained hsub ?_, hw⟩
  have hsum := sum_length_update (q := q) (h.lt ht) ((q b).erase t)
  have hlen := length_erase_of_mem ht
  have hpos := length_pos_of_mem ht
  have hcount : (k.wakeWaiter b t r).futex.waiterCount = k.futex.waiterCount - 1 :=
    Futexes.unlinkWaiter_rest.2
  rw [hcount, h.count]
  omega

/-! ## The loop along a bucket -/

/-- The threads of `l` that the loop wakes. -/
def wokenOf (k : Kernel β) (wanted : Waiter → Bool) (l : List Tid) (left : Nat) : List Tid :=
  (l.filter fun t => wanted (k.futex.node t)).take left

/-- What is wanted depends on what a thread waits for. -/
def ByKey (wanted : Waiter → Bool) : Prop :=
  ∀ w w' : Waiter, w.process = w'.process → w.uaddr = w'.uaddr → wanted w = wanted w'

theorem Woke.wokenOf_eq {ws : List Tid} (h : Woke k k' ws) {wanted : Waiter → Bool}
    (hkey : ByKey wanted) (l : List Tid) (left : Nat) :
    wokenOf k' wanted l left = wokenOf k wanted l left := by
  have hsame : (fun t => wanted (k'.futex.node t)) = fun t => wanted (k.futex.node t) :=
    funext fun t => hkey _ _ (h.key t).1 (h.key t).2
  unfold wokenOf
  rw [hsame]

/-- The loop has woken the threads `ws` of the bucket `b` and may have woken `left` of them. -/
structure LoopEnd (k : Kernel β) (q : Nat → List Tid) (b left : Nat) (ws : List Tid)
    (out : Nat × Kernel β) : Prop where
  left : out.1 = left - ws.length
  queues : Queues out.2 (update q b ((q b).filter (· ∉ ws)))
  woke : Woke k out.2 ws

theorem Queues.loopEnd (h : Queues k q) (b left : Nat) : LoopEnd k q b left [] (left, k) := by
  have hall : (q b).filter (· ∉ ([] : List Tid)) = q b := by simp
  refine ⟨rfl, ?_, .refl k⟩
  rw [hall, update_eq_self]
  exact h

/-- The loop from some thread of the bucket on, with the rest of the list before it. -/
theorem Queues.wakeLoop {wanted : Waiter → Bool} (hkey : ByKey wanted) (result : Int)
    (r : List Tid) {l : List Tid} {n left : Nat} (h : Queues k q) (hq : q b = l ++ r)
    (hn : r.length ≤ n) :
    LoopEnd k q b left (wokenOf k wanted r left)
      (Kernel.wakeLoop b wanted result n left r.head? k) := by
  induction r generalizing k q l n left with
  | nil =>
    have hend : Kernel.wakeLoop b wanted result n left none k = (left, k) := by
      cases n with
      | zero => rfl
      | succ n => cases left <;> rfl
    have hnone : wokenOf k wanted [] left = [] := by simp [wokenOf]
    rw [hnone, head?_nil, hend]
    exact h.loopEnd b left
  | cons t r ih =>
    cases n with
    | zero => simp at hn
    | succ n =>
      cases left with
      | zero => exact h.loopEnd b 0
      | succ left =>
        have hmem : t ∈ q b := by rw [hq]; simp
        have hlinked := h.chained.linked b
        have hnodup := h.chained.nodup b
        rw [hq] at hlinked hnodup
        have hnext : (k.futex.node t).next = r.head? := hlinked.path.next_eq
        have hn : r.length ≤ n := by simpa using hn
        rw [head?_cons, Kernel.wakeLoop, hnext]
        by_cases hwant : wanted (k.futex.node t) = true
        · have hws : wokenOf k wanted (t :: r) (left + 1) = t :: wokenOf k wanted r left := by
            simp [wokenOf, hwant]
          rw [if_pos hwant, hws]
          obtain ⟨hqueues, hwoke⟩ := h.wakeWaiter hmem result
          have herase : (q b).erase t = l ++ r := by
            have htl : t ∉ l := fun ht =>
              (nodup_append.mp hnodup).2.2 t ht t mem_cons_self rfl
            rw [hq, erase_append_right _ htl, erase_cons_head]
          have hrest : LoopEnd _ _ b left _ _ := ih (l := l) hqueues
            (by rw [update_self, herase]) hn
          rw [hwoke.wokenOf_eq hkey] at hrest
          refine ⟨?_, ?_, hwoke.trans hrest.woke⟩
          · rw [hrest.left, length_cons]
            omega
          · have hfilter : ((q b).erase t).filter (· ∉ wokenOf k wanted r left) =
                (q b).filter (· ∉ t :: wokenOf k wanted r left) := by
              rw [(h.chained.nodup b).erase_eq_filter, filter_filter]
              refine filter_congr fun u _ => ?_
              by_cases hu : u = t <;> simp [hu]
            have hqueues' := hrest.queues
            rw [update_self, update_idem, hfilter] at hqueues'
            exact hqueues'
        · have hws : wokenOf k wanted (t :: r) (left + 1) =
              wokenOf k wanted r (left + 1) := by simp [wokenOf, hwant]
          rw [if_neg hwant, hws]
          exact ih (l := l ++ [t]) h (by rw [hq]; simp) hn

/-! ## Calls -/

/-- The threads that `futex_wake(p, a)` finds. -/
def waitersFor (k : Kernel β) (p : ProcId) (a : UInt64) : List Tid :=
  (Links.walk (fun t => (k.futex.node t).next) k.nextTid
    (k.futex.head (futexHash (k.proc p).address a))).filter fun t =>
      (k.futex.node t).process == some p && (k.futex.node t).uaddr == a

theorem Queues.waitersFor_eq (h : Queues k q) (p : ProcId) (a : UInt64) :
    k.waitersFor p a = (q (futexHash (k.proc p).address a)).filter fun t =>
      (k.futex.node t).process == some p && (k.futex.node t).uaddr == a := by
  unfold waitersFor
  rw [h.chained.walk_eq _ (h.length_le _)]

theorem Queues.mem_waitersFor (h : Queues k q) {p : ProcId} {a : UInt64} :
    t ∈ k.waitersFor p a ↔ (k.futex.node t).waiting = true ∧
      (k.futex.node t).process = some p ∧ (k.futex.node t).uaddr = a := by
  rw [h.waitersFor_eq, mem_filter, Bool.and_eq_true, beq_iff_eq, beq_iff_eq]
  constructor
  · rintro ⟨hmem, hp, ha⟩
    exact ⟨(h.chained.waiting _ t hmem).1, hp, ha⟩
  · rintro ⟨hw, hp, ha⟩
    have hmem := h.chained.queued t hw
    obtain ⟨p', hp', -, hhash⟩ := h.process _ t hmem
    rw [hp] at hp'
    cases hp'
    rw [ha] at hhash
    exact ⟨hhash ▸ hmem, hp, ha⟩

theorem byKey_pair (p : ProcId) (a : UInt64) :
    ByKey fun w => w.process == some p && w.uaddr == a := by
  intro w w' hp ha
  dsimp only
  rw [hp, ha]

theorem Queues.futexWake (h : Queues k q) (p : ProcId) (a : UInt64) (count : Nat) :
    (k.futexWake p a count).1 = min count (k.waitersFor p a).length ∧
      (∃ q', Queues (k.futexWake p a count).2 q' ∧
        ∀ b t, t ∈ q' b ↔ t ∈ q b ∧ t ∉ (k.waitersFor p a).take count) ∧
      Woke k (k.futexWake p a count).2 ((k.waitersFor p a).take count) := by
  generalize hb : futexHash (k.proc p).address a = b
  have hhead : k.futex.head b = (q b).head? := (h.chained.linked b).path.head_eq
  have hloop : LoopEnd k q b count _ _ := h.wakeLoop (l := []) (byKey_pair p a) 0 (q b) rfl
    (h.length_le b)
  have hws : wokenOf k (fun w => w.process == some p && w.uaddr == a) (q b) count =
      (k.waitersFor p a).take count := by
    rw [h.waitersFor_eq, hb]
    rfl
  rw [hws] at hloop
  have hcall : k.futexWake p a count = (count - (Kernel.wakeLoop b
      (fun w => w.process == some p && w.uaddr == a) 0 k.nextTid count (q b).head? k).1,
      (Kernel.wakeLoop b (fun w => w.process == some p && w.uaddr == a) 0 k.nextTid count
        (q b).head? k).2) := by
    unfold Kernel.futexWake
    dsimp only
    rw [hb, hhead]
  have hsub : ∀ t, t ∈ (k.waitersFor p a).take count → t ∈ q b := by
    intro t ht
    have ht := mem_of_mem_take ht
    rw [h.waitersFor_eq, hb] at ht
    exact (mem_filter.mp ht).1
  rw [hcall]
  refine ⟨?_, ⟨_, hloop.queues, fun b' t => ?_⟩, hloop.woke⟩
  · rw [hloop.left, length_take]
    omega
  · by_cases hb' : b' = b
    · subst hb'
      rw [update_self, mem_filter, decide_eq_true_eq]
    · rw [update_of_ne hb']
      exact ⟨fun ht => ⟨ht, fun hw => hb' (h.chained.bucket_eq ht (hsub t hw))⟩, fun ht => ht.1⟩

theorem byKey_process (p : ProcId) : ByKey fun w => w.process == some p := by
  intro w w' hp _
  dsimp only
  rw [hp]

theorem Queues.cancelBuckets (p : ProcId) (r : Int) (bs : List Nat) (h : Queues k q) :
    ∃ q' ws, Queues (bs.foldl (fun k i => (Kernel.wakeLoop i (fun w => w.process == some p) r
        k.nextTid k.nextTid (k.futex.head i) k).2) k) q' ∧
      Woke k (bs.foldl (fun k i => (Kernel.wakeLoop i (fun w => w.process == some p) r
        k.nextTid k.nextTid (k.futex.head i) k).2) k) ws ∧
      (∀ t, t ∈ ws → (k.futex.node t).process = some p) ∧
      ∀ b t, t ∈ q' b ↔ t ∈ q b ∧ ¬(b ∈ bs ∧ (k.futex.node t).process = some p) := by
  induction bs generalizing k q with
  | nil => exact ⟨q, [], h, .refl k, nofun, fun b t => by simp⟩
  | cons i bs ih =>
    have hhead : k.futex.head i = (q i).head? := (h.chained.linked i).path.head_eq
    have hloop : LoopEnd k q i k.nextTid _ _ := h.wakeLoop (l := []) (byKey_process p) r (q i) rfl
      (h.length_le i)
    rw [← hhead] at hloop
    have hws : ∀ t, t ∈ wokenOf k (fun w => w.process == some p) (q i) k.nextTid ↔
        t ∈ q i ∧ (k.futex.node t).process = some p := by
      intro t
      have hle : ((q i).filter fun t => (k.futex.node t).process == some p).length ≤ k.nextTid :=
        Nat.le_trans (length_filter_le _ _) (h.length_le i)
      rw [wokenOf, take_of_length_le hle, mem_filter, beq_iff_eq]
    obtain ⟨q', ws, hqueues, hwoke, hsome, hmem⟩ := ih hloop.queues
    refine ⟨q', _, hqueues, hloop.woke.trans hwoke, fun t ht => ?_, fun b t => ?_⟩
    · rcases mem_append.mp ht with ht | ht
      · exact ((hws t).mp ht).2
      · rw [← (hloop.woke.key t).1]
        exact hsome t ht
    · rw [hmem, (hloop.woke.key t).1]
      by_cases hb : b = i
      · subst hb
        rw [update_self, mem_filter, decide_eq_true_eq, hws]
        simp only [mem_cons, true_or, true_and]
        tauto
      · rw [update_of_ne hb, mem_cons]
        simp only [hb, false_or]

theorem Queues.futexCancelProcess (h : Queues k q) (p : ProcId) (r : Int) :
    ∃ q' ws, Queues (k.futexCancelProcess p r) q' ∧ Woke k (k.futexCancelProcess p r) ws ∧
      (∀ t, t ∈ ws → (k.futex.node t).process = some p) ∧
      ∀ b t, t ∈ q' b ↔ t ∈ q b ∧ (k.futex.node t).process ≠ some p := by
  obtain ⟨q', ws, hqueues, hwoke, hsome, hmem⟩ :=
    h.cancelBuckets p r (range futexBucketCount)
  refine ⟨q', ws, hqueues, hwoke, hsome, fun b t => ?_⟩
  rw [hmem]
  constructor
  · rintro ⟨ht, hno⟩
    exact ⟨ht, fun hp => hno ⟨mem_range.mpr (h.lt ht), hp⟩⟩
  · rintro ⟨ht, hno⟩
    exact ⟨ht, fun hp => hno hp.2⟩

theorem Queues.not_waiting (h : Queues k q) (ht : k.status t ≠ .blocked) :
    (k.futex.node t).waiting = false := by
  rw [← Bool.not_eq_true]
  exact fun hw => ht (h.blocked _ t (h.chained.queued t hw))

/-- The current thread has been queued for the address `a` of its process `p`. -/
structure Slept (k k' : Kernel β) (p : ProcId) (a : UInt64) : Prop where
  status : ∀ t, k'.status t = if t = k.current then .blocked else k.status t
  self : (k'.futex.node k.current).waiting = true ∧
    (k'.futex.node k.current).process = some p ∧ (k'.futex.node k.current).uaddr = a
  key : ∀ t, t ≠ k.current → (k'.futex.node t).waiting = (k.futex.node t).waiting ∧
    (k'.futex.node t).process = (k.futex.node t).process ∧
    (k'.futex.node t).uaddr = (k.futex.node t).uaddr

theorem futexWait_eq {p : ProcId} (hp : k.processCurrent = some p) (hk : p ≠ kernelProcess)
    (he : (k.proc p).exitRequested = false) (a : UInt64) :
    k.futexWait a = (({ k with futex := queueUp k.futex (futexHash (k.proc p).address a) k.current p a
      } : Kernel β).block).enter .futex := by
  unfold Kernel.futexWait
  rw [hp]
  dsimp only
  rw [if_neg (by simp [hk, he])]
  rfl

theorem Queues.futexWait (h : Queues k q) {p : ProcId} (hp : k.processCurrent = some p)
    (hk : p ≠ kernelProcess) (he : (k.proc p).exitRequested = false)
    (hready : k.status k.current ≠ .blocked) (hfresh : k.current < k.nextTid) (a : UInt64) :
    Queues (k.futexWait a) (update q (futexHash (k.proc p).address a)
        (k.current :: q (futexHash (k.proc p).address a))) ∧
      Slept k (k.futexWait a) p a := by
  rw [futexWait_eq hp hk he]
  have hb := futexHash_lt (k.proc p).address a
  generalize hbucket : futexHash (k.proc p).address a = b at hb
  obtain ⟨hchained, hkey⟩ := h.chained.queueUp (h.not_waiting hready) b p a
  have hcount : (queueUp k.futex b k.current p a).waiterCount = k.futex.waiterCount + 1 :=
    (Futexes.enqueueWaiter_rest p a).2
  generalize queueUp k.futex b k.current p a = f at *
  simp only [Waiter.key] at hkey
  have hself := hkey k.current
  rw [if_pos rfl] at hself
  simp only [Prod.mk.injEq] at hself
  have hother : ∀ t, t ≠ k.current → (f.node t).waiting = (k.futex.node t).waiting ∧
      (f.node t).process = (k.futex.node t).process ∧ (f.node t).uaddr = (k.futex.node t).uaddr := by
    intro t ht
    have hkey := hkey t
    rw [if_neg ht] at hkey
    simp only [Prod.mk.injEq] at hkey
    exact ⟨hkey.1, hkey.2.2⟩
  have hstatus : ∀ t, (({ k with futex := f } : Kernel β).block.enter .futex).status t =
      if t = k.current then .blocked else k.status t := fun t =>
    (modifyIpc_status { k with futex := f } _ _ t).trans rfl
  have htask : ∀ t, ((({ k with futex := f } : Kernel β).block.enter .futex).task t).process =
      (k.task t).process := modifyTask_proj Task.process rfl
  have hmem : ∀ b', ∀ t ∈ update q b (k.current :: q b) b', t ≠ k.current → t ∈ q b' := by
    intro b' t ht hne
    by_cases hb' : b' = b
    · subst hb'
      rw [update_self] at ht
      exact (mem_cons.mp ht).resolve_left hne
    · rwa [update_of_ne hb'] at ht
  refine ⟨⟨hchained, fun b' t ht => ?_, fun b' t ht => ?_, fun b' t ht => ?_, ?_⟩, hstatus,
    ⟨hself.1, hself.2.2⟩, hother⟩
  · rw [hstatus]
    split
    · rfl
    · next hne => exact h.blocked b' t (hmem b' t ht hne)
  · by_cases hne : t = k.current
    · subst hne
      refine ⟨p, hself.2.2.1, (htask _).trans hp, ?_⟩
      change futexHash (k.proc p).address (f.node k.current).uaddr = b'
      rw [hself.2.2.2, hbucket, ← hself.2.1]
      exact (hchained.waiting b' _ ht).2
    · obtain ⟨p', hp', htask', hhash⟩ := h.process b' t (hmem b' t ht hne)
      refine ⟨p', (hother t hne).2.1.trans hp', (htask t).trans htask', ?_⟩
      change futexHash (k.proc p').address (f.node t).uaddr = b'
      rw [(hother t hne).2.2]
      exact hhash
  · by_cases hne : t = k.current
    · rw [hne]
      exact hfresh
    · exact h.fresh b' t (hmem b' t ht hne)
  · change f.waiterCount = _
    have hsum := sum_length_update (q := q) hb (k.current :: q b)
    rw [length_cons] at hsum
    have hold := h.count
    omega

end Kernel

end OrangeOs.Proc
