import OrangeOs.Lib.Links
import OrangeOs.Proc.Futex

/-! # The lists of the futex buckets

What `enqueue_waiter_locked` and `unlink_waiter_locked` do to the lists that run through the
threads: one puts a thread in front of its bucket, the other takes it out of the middle.
-/

namespace OrangeOs.Proc

open Ipc Links Function List

/-- Where a thread waits and for what. -/
def Waiter.key (w : Waiter) : Bool × Nat × Option ProcId × UInt64 :=
  (w.waiting, w.bucket, w.process, w.uaddr)

namespace Futexes

variable {f : Futexes} {q : Nat → List Tid} {b : Nat} {t : Tid}

/-- The buckets hold the lists `q`: the links run both ways, no thread is in a list twice, and
`futex_waiting` and `futex_bucket` say where a thread is. -/
structure Chained (f : Futexes) (q : Nat → List Tid) : Prop where
  linked : ∀ b, Linked (fun t => (f.node t).next) (fun t => (f.node t).prev) none (f.head b) (q b)
  nodup : ∀ b, (q b).Nodup
  waiting : ∀ b, ∀ t ∈ q b, (f.node t).waiting = true ∧ (f.node t).bucket = b
  queued : ∀ t, (f.node t).waiting = true → t ∈ q (f.node t).bucket

theorem Chained.bucket_eq (h : Chained f q) {b b' : Nat} (ht : t ∈ q b) (ht' : t ∈ q b') :
    b = b' := (h.waiting b t ht).2.symm.trans (h.waiting b' t ht').2

theorem Chained.walk_eq (h : Chained f q) (b : Nat) {n : Nat} (hn : (q b).length ≤ n) :
    Links.walk (fun t => (f.node t).next) n (f.head b) = q b := (h.linked b).path.walk_eq hn

/-! ## A thread is queued -/

theorem enqueueWaiter_node (hne : f.head b ≠ some t) (p : ProcId) (a : UInt64) (u : Tid) :
    (f.enqueueWaiter b t p a).node u =
      if u = t then { f.node t with
        waiting := true, bucket := b, process := some p, uaddr := a, prev := none, next := f.head b }
      else if f.head b = some u then { f.node u with prev := some t } else f.node u := by
  unfold enqueueWaiter setNode?
  cases hhead : f.head b with
  | none =>
    simp only [setNode, hhead, update_apply]
    simp
  | some h =>
    have hth : t ≠ h := fun heq => hne (hhead.trans (congrArg some heq.symm))
    simp only [setNode, hhead, update_apply, Option.some.injEq]
    by_cases hut : u = t
    · subst hut
      simp [hth]
    · by_cases huh : u = h
      · subst huh
        simp [hut]
      · simp [hut, huh, Ne.symm huh]

theorem enqueueWaiter_rest (p : ProcId) (a : UInt64) :
    (f.enqueueWaiter b t p a).head = update f.head b (some t) ∧
      (f.enqueueWaiter b t p a).waiterCount = f.waiterCount + 1 := by
  unfold enqueueWaiter setNode?
  cases hhead : f.head b <;> simp [setNode, hhead]

theorem Chained.enqueue (h : Chained f q) (ht : (f.node t).waiting = false) (p : ProcId)
    (a : UInt64) : Chained (f.enqueueWaiter b t p a) (update q b (t :: q b)) ∧
      ∀ u, ((f.enqueueWaiter b t p a).node u).key =
        if u = t then (true, b, some p, a) else (f.node u).key := by
  have hout : ∀ b', t ∉ q b' := fun b' hmem => nomatch ht.symm.trans (h.waiting b' t hmem).1
  have hdiff : ∀ b', ∀ y ∈ q b', y ≠ t := fun b' y hy heq => hout b' (heq ▸ hy)
  have hhead : f.head b = (q b).head? := (h.linked b).path.head_eq
  have hne : f.head b ≠ some t := fun heq => hout b (mem_of_mem_head? (hhead.symm.trans heq))
  have hnode := enqueueWaiter_node hne p a
  have hself : (f.enqueueWaiter b t p a).node t = { f.node t with
      waiting := true, bucket := b, process := some p, uaddr := a, prev := none,
      next := f.head b } := by
    rw [hnode, if_pos rfl]
  have hother : ∀ u, u ≠ t → ∃ prev, (f.enqueueWaiter b t p a).node u = { f.node u with prev } := by
    intro u hut
    rw [hnode, if_neg hut]
    split <;> exact ⟨_, rfl⟩
  have hmem : ∀ b' u, u ∈ update q b (t :: q b) b' ↔ u = t ∧ b' = b ∨ u ∈ q b' := by
    intro b' u
    by_cases hb : b' = b
    · subst hb
      simp
    · simp [hb]
  refine ⟨⟨fun b' => ?_, (forall_update_iff q fun _ l => l.Nodup).mpr
    ⟨nodup_cons.mpr ⟨hout b, h.nodup b⟩, fun b' _ => h.nodup b'⟩, fun b' u hu => ?_,
    fun u hu => ?_⟩, fun u => ?_⟩
  · rw [(enqueueWaiter_rest p a).1]
    by_cases hb : b' = b
    · subst hb
      rw [update_self, update_self]
      refine (h.linked b').push (nodup_cons.mpr ⟨hout b', h.nodup b'⟩) ?_ ?_ ?_ ?_
      · rw [hself]
      · rw [hself]
      · intro y hy
        obtain ⟨prev, heq⟩ := hother y (hdiff b' y hy)
        rw [heq]
      · intro y hy
        rw [hnode, if_neg (hdiff b' y hy)]
        split <;> rfl
    · rw [update_of_ne hb, update_of_ne hb]
      have hsame : ∀ y ∈ q b', (f.enqueueWaiter b t p a).node y = f.node y := by
        intro y hy
        rw [hnode, if_neg (hdiff b' y hy), if_neg]
        exact fun heq => hb (h.bucket_eq hy (mem_of_mem_head? (hhead.symm.trans heq)))
      exact (h.linked b').congr (fun y hy => by rw [hsame y hy]) fun y hy => by rw [hsame y hy]
  · have hu' := (hmem b' u).mp hu
    by_cases hut : u = t
    · subst hut
      rw [hself]
      exact ⟨rfl, (hu'.resolve_right (hout b')).2.symm⟩
    · obtain ⟨prev, heq⟩ := hother u hut
      rw [heq]
      exact h.waiting b' u (hu'.resolve_left fun heq => hut heq.1)
  · by_cases hut : u = t
    · subst hut
      rw [hself]
      exact (hmem b u).mpr (Or.inl ⟨rfl, rfl⟩)
    · obtain ⟨prev, heq⟩ := hother u hut
      rw [heq] at hu ⊢
      exact (hmem _ u).mpr (Or.inr (h.queued u hu))
  · split
    · next hut =>
      rw [hut, hself]
      rfl
    · next hut =>
      obtain ⟨prev, heq⟩ := hother u hut
      rw [heq]
      rfl

/-! ## A thread leaves -/

/-- The node of `u` when `t` has left its list. -/
def without (f : Futexes) (t u : Tid) : Waiter :=
  if u = t then { f.node t with prev := none, next := none, waiting := false }
  else { f.node u with
    next := if (f.node t).prev = some u then (f.node t).next else (f.node u).next
    prev := if (f.node t).next = some u then (f.node t).prev else (f.node u).prev }

theorem unlinkWaiter_node (hprev : (f.node t).prev ≠ some t) (hnext : (f.node t).next ≠ some t)
    (u : Tid) : (f.unlinkWaiter b t).node u = f.without t u := by
  have hback : ∀ g : Futexes, (∀ v, g.node v = if (f.node t).prev = some v then
      { f.node v with next := (f.node t).next } else f.node v) →
      (((g.setNode? (g.node t).next fun w => { w with prev := (g.node t).prev }).setNode t
        fun w => { w with prev := none, next := none, waiting := false }).node u) =
      f.without t u := by
    intro g hg
    have ht : g.node t = f.node t := by rw [hg, if_neg hprev]
    have hu := hg u
    rw [ht, without]
    cases hn : (f.node t).next with
    | none =>
      simp only [setNode?, setNode, update_apply, ht, hu]
      split
      · rfl
      · simp only [reduceCtorEq, if_false]
        split <;> simp_all
    | some n =>
      have hnt : n ≠ t := fun heq => hnext (by rw [hn, heq])
      simp only [setNode?, setNode, update_apply, ht, Option.some.injEq]
      by_cases hut : u = t
      · simp [hut, Ne.symm hnt]
      · by_cases hun : u = n
        · subst hun
          rw [if_neg hut, if_neg hut, if_pos rfl, hu]
          simp only [if_true]
          split <;> simp_all
        · rw [if_neg hut, if_neg hut, if_neg hun, hu]
          simp only [Ne.symm hun, if_false]
          split <;> simp_all
  cases hp : (f.node t).prev with
  | some p =>
    refine hback _ fun v => ?_
    simp only [setNode, update_apply, hp, Option.some.injEq]
    by_cases hvp : v = p
    · simp [hvp]
    · simp [hvp, Ne.symm hvp]
  | none =>
    refine hback _ fun v => ?_
    rw [hp]
    simp only [reduceCtorEq, if_false]
    split <;> rfl

theorem unlinkWaiter_rest : (f.unlinkWaiter b t).head =
      (if (f.node t).prev = none ∧ f.head b = some t then
        update f.head b (f.node t).next else f.head) ∧
    (f.unlinkWaiter b t).waiterCount = f.waiterCount - 1 := by
  unfold unlinkWaiter setNode?
  cases hp : (f.node t).prev with
  | some p =>
    dsimp only
    split <;> simp [setNode]
  | none =>
    by_cases hh : f.head b = some t
    · simp only [hh, if_true]
      split <;> simp [setNode]
    · simp only [hh, if_false]
      split <;> simp [setNode]

theorem Chained.around (h : Chained f q) (ht : t ∈ q b) : ∃ l r, q b = l ++ t :: r ∧ t ∉ l ∧
    t ∉ r ∧ (∀ y ∈ l, y ∉ r) ∧ (f.node t).prev = l.getLast? ∧ (f.node t).next = r.head? := by
  obtain ⟨l, r, hq⟩ := append_of_mem ht
  have hnodup := h.nodup b
  have hlinked := h.linked b
  rw [hq] at hnodup hlinked
  obtain ⟨-, htr, hdisj⟩ := nodup_append.mp hnodup
  exact ⟨l, r, hq, fun hl => hdisj t hl t mem_cons_self rfl, (nodup_cons.mp htr).1,
    fun y hy hy' => hdisj y hy y (mem_cons_of_mem t hy') rfl, hlinked.prev_eq.trans Option.or_none,
    hlinked.path.next_eq⟩

theorem Chained.unlink_node (h : Chained f q) (ht : t ∈ q b) (u : Tid) :
    (f.unlinkWaiter b t).node u = f.without t u := by
  obtain ⟨l, r, -, htl, htr, -, hprev, hnext⟩ := h.around ht
  refine unlinkWaiter_node ?_ ?_ u
  · rw [hprev]
    exact fun heq => htl (mem_of_getLast? heq)
  · rw [hnext]
    exact fun heq => htr (mem_of_mem_head? heq)

theorem Chained.mem_unlink (h : Chained f q) (ht : t ∈ q b) (b' : Nat) (u : Tid) :
    u ∈ update q b ((q b).erase t) b' ↔ u ∈ q b' ∧ u ≠ t := by
  by_cases hb : b' = b
  · subst hb
    rw [update_self, (h.nodup b').mem_erase_iff]
    exact And.comm
  · rw [update_of_ne hb]
    exact ⟨fun hu => ⟨hu, fun heq => hb (h.bucket_eq (heq ▸ hu) ht)⟩, fun hu => hu.1⟩

theorem Chained.unlink (h : Chained f q) (ht : t ∈ q b) :
    Chained (f.unlinkWaiter b t) (update q b ((q b).erase t)) := by
  obtain ⟨l, r, hq, htl, htr, hlr, hprev, hnext⟩ := h.around ht
  have hnodup := h.nodup b
  have hlinked := h.linked b
  rw [hq] at hnodup hlinked
  have hlast : ∀ {y}, l.getLast? = some y → y ∈ l := mem_of_getLast?
  have hfirst : ∀ {y}, r.head? = some y → y ∈ r := mem_of_mem_head?
  have hnode := h.unlink_node ht
  unfold without at hnode
  rw [hprev, hnext] at hnode
  have hsub := h.mem_unlink ht
  refine ⟨fun b' => ?_, (forall_update_iff q fun _ l => l.Nodup).mpr
    ⟨(h.nodup b).erase t, fun b' _ => h.nodup b'⟩, fun b' u hu => ?_, fun u hu => ?_⟩
  · by_cases hb : b' = b
    · subst hb
      have hhead : (f.unlinkWaiter b' t).head b' = if l = [] then (f.node t).next else f.head b' := by
        rw [unlinkWaiter_rest.1, hprev]
        cases l with
        | nil => rw [if_pos ⟨rfl, hlinked.1⟩, if_pos rfl, update_self]
        | cons y l => rw [if_neg (by simp), if_neg (by simp)]
      rw [update_self, hq, erase_append_right _ htl, erase_cons_head, hhead]
      refine hlinked.unlink hnodup (fun y hy => ?_) (fun y hy => ?_) fun y hy => ?_
      · have hyt : y ≠ t := fun heq => htl (heq ▸ hy)
        rw [hnode, if_neg hyt]
        refine ⟨by rw [hnext], if_neg fun heq => hlr y hy (hfirst heq)⟩
      · have hyt : y ≠ t := fun heq => htr (heq ▸ hy)
        rw [hnode, if_neg hyt]
        exact if_neg fun heq => hlr y (hlast heq) hy
      · have hyt : y ≠ t := fun heq => htr (heq ▸ hy)
        rw [hnode, if_neg hyt, hnext, hprev]
    · have hhead : (f.unlinkWaiter b t).head b' = f.head b' := by
        rw [unlinkWaiter_rest.1]
        split
        · rw [update_of_ne hb]
        · rfl
      rw [update_of_ne hb, hhead]
      have hsame : ∀ y ∈ q b', (f.unlinkWaiter b t).node y = f.node y := by
        intro y hy
        have hyb : y ∉ q b := fun hy' => hb (h.bucket_eq hy hy')
        rw [hq] at hyb
        have hyt : y ≠ t := fun heq => hyb (by simp [heq])
        rw [hnode, if_neg hyt, if_neg fun heq => hyb (mem_append_left _ (hlast heq)),
          if_neg fun heq => hyb (mem_append_right _ (mem_cons_of_mem t (hfirst heq)))]
      exact (h.linked b').congr (fun y hy => by rw [hsame y hy]) fun y hy => by rw [hsame y hy]
  · obtain ⟨hu, hut⟩ := (hsub b' u).mp hu
    rw [hnode, if_neg hut]
    exact h.waiting b' u hu
  · by_cases hut : u = t
    · subst hut
      rw [hnode, if_pos rfl] at hu
      cases hu
    · rw [hnode, if_neg hut] at hu ⊢
      exact (hsub _ u).mpr ⟨h.queued u hu, hut⟩

theorem Chained.unlink_key (h : Chained f q) (ht : t ∈ q b) (u : Tid) :
    ((f.unlinkWaiter b t).node u).process = (f.node u).process ∧
      ((f.unlinkWaiter b t).node u).uaddr = (f.node u).uaddr := by
  rw [h.unlink_node ht, without]
  split
  · next heq =>
    rw [heq]
    exact ⟨rfl, rfl⟩
  · exact ⟨rfl, rfl⟩

end Futexes

end OrangeOs.Proc
