import OrangeOs.Proc.Population

/-! # What a step can do to threads

The lists of threads agree with the threads in every state. From one state to the next a thread
stays in its process unless it was a zombie, but for the threads that a step is said to end, and
nobody is BLOCKED in a process with a pending kill who was not so before. A lock is taken or
waited for by a step that is said to use it.
-/

namespace OrangeOs.Proc

open Ipc

namespace Kernel

variable {β : Type} {k k' : Kernel β} {t : Tid} {p : ProcId}

/-- The threads of a process are those that point to it, and all numbers have been given out. -/
structure Members (k : Kernel β) : Prop where
  member : ∀ t p, t ∈ (k.proc p).threads ↔ (k.task t).process = some p
  threads : ∀ p, (k.proc p).threads.Nodup
  taskFresh : ∀ t p, (k.task t).process = some p → t < k.nextTid
  procFresh : ∀ t p, (k.task t).process = some p → p < k.nextProc
  procs : ∀ p ∈ k.procs, p < k.nextProc

/-- A thread of a process with a pending kill is BLOCKED. -/
structure Stuck (k : Kernel β) (t : Tid) (p : ProcId) : Prop where
  process : (k.task t).process = some p
  requested : (k.proc p).exitRequested = true
  blocked : k.status t = .blocked

/-- `k'` comes after `k`, where the threads in `E` may end, a kill of the processes in `S` may be
pending for BLOCKED threads, and the locks in `L` may be taken or waited for. -/
structure Moved (E : Tid → Prop) (S : ProcId → Prop) (L : Nat → Prop) (k k' : Kernel β) : Prop where
  members : Members k'
  stays : ∀ t, ¬ E t → k.status t ≠ .zombie → k'.status t ≠ .zombie ∧
    ∀ p, (k.task t).process = some p → (k'.task t).process = some p
  stuck : ∀ t p, ¬ S p → Stuck k' t p → Stuck k t p
  requested : ∀ p < k.nextProc, (k.proc p).exitRequested = true →
    (k'.proc p).exitRequested = true
  nextProc : k.nextProc ≤ k'.nextProc
  locked : ∀ m, ¬ L m → k'.locked m = true → k.locked m = true
  waits : ∀ t m, ¬ L m → (k'.task t).doing = .mutex m → (k.task t).doing = .mutex m

variable {E : Tid → Prop} {S : ProcId → Prop} {L : Nat → Prop}

theorem Members.refl (h : Members k) : Moved E S L k k :=
  ⟨h, fun _ _ hs => ⟨hs, fun _ hp => hp⟩, fun _ _ _ h => h, fun _ _ h => h, Nat.le_refl _,
    fun _ _ hl => hl, fun _ _ _ hd => hd⟩

theorem Moved.trans {k'' : Kernel β} (h : Moved E S L k k') (h' : Moved E S L k' k'') :
    Moved E S L k k'' where
  members := h'.members
  stays t ht hs := by
    obtain ⟨hs', hp'⟩ := h.stays t ht hs
    obtain ⟨hs'', hp''⟩ := h'.stays t ht hs'
    exact ⟨hs'', fun p hp => hp'' p (hp' p hp)⟩
  stuck t p hS hstuck := h.stuck t p hS (h'.stuck t p hS hstuck)
  requested p hp hr := h'.requested p (Nat.lt_of_lt_of_le hp h.nextProc) (h.requested p hp hr)
  nextProc := Nat.le_trans h.nextProc h'.nextProc
  locked m hL hl := h.locked m hL (h'.locked m hL hl)
  waits t m hL hd := h.waits t m hL (h'.waits t m hL hd)

theorem Moved.after {k'' : Kernel β} (hnext : Members k' → Moved E S L k' k'')
    (hfirst : Moved E S L k k') : Moved E S L k k'' := hfirst.trans (hnext hfirst.members)

/-! ## Parts of steps -/

variable (h : Members k)
include h

theorem Members.same (htask : ∀ t, (k'.task t).process = (k.task t).process)
    (hproc : ∀ p, (k'.proc p).threads = (k.proc p).threads) (hprocs : k'.procs = k.procs)
    (htid : k'.nextTid = k.nextTid) (hpid : k'.nextProc = k.nextProc) : Members k' := by
  constructor
  · intro t p
    rw [hproc, htask]
    exact h.member t p
  · intro p
    rw [hproc]
    exact h.threads p
  · intro t p ht
    rw [htask] at ht
    rw [htid]
    exact h.taskFresh t p ht
  · intro t p ht
    rw [htask] at ht
    rw [hpid]
    exact h.procFresh t p ht
  · rw [hprocs, hpid]
    exact h.procs

theorem Members.gentle (hg : Gentle k k') : Moved E S L k k' := by
  have hprocess : ∀ t, (k'.task t).process = (k.task t).process := fun t => by rw [hg.task t]
  have hrequested : ∀ p, (k'.proc p).exitRequested = (k.proc p).exitRequested :=
    fun p => by rw [hg.proc p]
  refine ⟨?_, fun t _ hs => ?_, fun t p _ hst => ?_, fun p _ hr => ?_,
    Nat.le_of_eq hg.nextProc.symm, fun m _ => hg.locked m, fun t m _ hd => ?_⟩
  · exact h.same hprocess (fun p => by rw [hg.proc p]) hg.procs hg.nextTid hg.nextProc
  · exact ⟨fun hz => hs ((hg.quiet.zombies t).mp hz), fun p ht => (hprocess t).trans ht⟩
  · refine ⟨(hprocess t).symm.trans hst.process, (hrequested p).symm.trans hst.requested, ?_⟩
    rcases hg.woken t with hsame | ⟨hb, -⟩
    · exact hsame.symm.trans hst.blocked
    · exact hb
  · exact (hrequested p).trans hr
  · rwa [hg.task t] at hd

theorem Members.modifyTask (t : Tid) {f : Task → Task}
    (hf : (f (k.task t)).process = (k.task t).process)
    (hdoing : ∀ m, (f (k.task t)).doing = .mutex m → L m ∨ (k.task t).doing = .mutex m) :
    Moved E S L k (k.modifyTask t f) := by
  have hprocess := modifyTask_proj Task.process hf
  refine { (h.refl : Moved E S L k k) with
    members := h.same hprocess (fun _ => rfl) rfl rfl rfl
    stays u _ hs := ⟨hs, fun q hq => (hprocess u).trans hq⟩
    stuck u q _ hst := ⟨(hprocess u).symm.trans hst.process, hst.requested, hst.blocked⟩
    waits u m hL hd := ?_ }
  · rw [modifyTask_task] at hd
    by_cases hu : u = t
    · subst hu
      rw [if_pos rfl] at hd
      exact (hdoing m hd).resolve_left hL
    · rwa [if_neg hu] at hd

theorem Members.enter {d : Doing} (hd : ∀ m, d = .mutex m → L m) :
    Moved E S L k (k.enter d) := h.modifyTask _ rfl fun m hm => Or.inl (hd m hm)

theorem Members.modifyProc (p : ProcId) {f : Process → Process}
    (hthreads : (f (k.proc p)).threads = (k.proc p).threads)
    (hrequested : (f (k.proc p)).exitRequested = (k.proc p).exitRequested ∨
      S p ∧ (f (k.proc p)).exitRequested = true) : Moved E S L k (k.modifyProc p f) := by
  refine { (h.refl : Moved E S L k k) with
    members := h.same (fun _ => rfl) (modifyProc_proj Process.threads hthreads) rfl rfl rfl
    stuck u q hS hst := ?_
    requested q _ hr := ?_ }
  · refine ⟨hst.process, ?_, hst.blocked⟩
    have hr := hst.requested
    rw [modifyProc_proc] at hr
    by_cases hq : q = p
    · subst hq
      rw [if_pos rfl] at hr
      rcases hrequested with hsame | ⟨hSp, -⟩
      · exact hsame ▸ hr
      · exact absurd hSp hS
    · rwa [if_neg hq] at hr
  · rw [modifyProc_proc]
    by_cases hq : q = p
    · subst hq
      rw [if_pos rfl]
      rcases hrequested with hsame | ⟨-, htrue⟩
      · exact hsame.trans hr
      · exact htrue
    · rwa [if_neg hq]

theorem Members.block (hne : k.status k.current ≠ .zombie)
    (hok : ∀ p, ¬ S p → k.processCurrent = some p → (k.proc p).exitRequested = false) :
    Moved E S L k k.block := by
  refine { (h.refl : Moved E S L k k) with
    members := { h with }
    stays t _ hs := ⟨fun hz => hs (((quiet_block hne).zombies t).mp hz), fun _ ht => ht⟩
    stuck t p hS hst := ?_ }
  · by_cases htc : t = k.current
    · subst htc
      have hfree := hok p hS hst.process
      rw [show (k.proc p).exitRequested = true from hst.requested] at hfree
      cases hfree
    · have hb := hst.blocked
      unfold Kernel.block at hb
      rw [modifyIpc_status, if_neg htc] at hb
      exact ⟨hst.process, hst.requested, hb⟩

theorem Members.discarded (hd : Discarded k k' t)
    (ht : E t ∨ k.status t = .zombie) : Moved E S L k k' := by
  have hrequested : ∀ p, (k'.proc p).exitRequested = (k.proc p).exitRequested := by
    intro p
    rw [hd.proc p]
    split <;> rfl
  have hprocess : ∀ u p, (k'.task u).process = some p → u ≠ t ∧ (k.task u).process = some p := by
    intro u p hu
    have hut : u ≠ t := by
      rintro rfl
      cases hd.gone.1.symm.trans hu
    exact ⟨hut, hd.task u hut ▸ hu⟩
  have hthreads : ∀ u p, u ∈ (k'.proc p).threads ↔ u ≠ t ∧ u ∈ (k.proc p).threads := by
    intro u p
    rw [hd.proc p]
    split
    next hin =>
      rw [Process.without, (h.threads p).mem_erase_iff]
    next hnot =>
      refine ⟨fun hu => ⟨?_, hu⟩, And.right⟩
      rintro rfl
      exact hnot ⟨(h.member u p).mp hu, hu⟩
  refine ⟨⟨fun u p => ?_, fun p => ?_, fun u p hu => ?_, fun u p hu => ?_, ?_⟩,
    fun u hE hs => ?_, fun u p _ hst => ?_, fun p _ hr => (hrequested p).trans hr,
    Nat.le_of_eq hd.nextProc.symm, fun m _ hl => hd.locked ▸ hl, fun u m _ hdo => ?_⟩
  · rw [hthreads, h.member]
    refine ⟨fun hu => ?_, hprocess u p⟩
    rw [hd.task u hu.1]
    exact hu.2
  · rw [hd.proc p]
    split
    · exact (h.threads p).erase t
    · exact h.threads p
  · rw [hd.nextTid]
    exact h.taskFresh u p (hprocess u p hu).2
  · rw [hd.nextProc]
    exact h.procFresh u p (hprocess u p hu).2
  · rw [hd.procs, hd.nextProc]
    exact h.procs
  · have hut : u ≠ t := by
      rintro rfl
      rcases ht with hEt | hz
      · exact hE hEt
      · exact hs hz
    rw [hd.task u hut, hd.status u hut]
    exact ⟨hs, fun _ hu => hu⟩
  · obtain ⟨hut, hu⟩ := hprocess u p hst.process
    exact ⟨hu, (hrequested p).symm.trans hst.requested, (hd.status u hut).symm.trans hst.blocked⟩
  · by_cases hut : u = t
    · subst hut
      rwa [hd.doing] at hdo
    · rwa [hd.task u hut] at hdo

theorem Members.added (ha : Added k k' p) (hp : p < k.nextProc) : Moved E S L k k' := by
  have hfresh : ∀ q, (k.task k.nextTid).process ≠ some q :=
    fun q hq => Nat.lt_irrefl _ (h.taskFresh _ q hq)
  have hrequested : ∀ q, (k'.proc q).exitRequested = (k.proc q).exitRequested := by
    intro q
    rw [ha.proc q]
    split
    next heq => rw [heq]; rfl
    · rfl
  have hprocess : ∀ u q, (k'.task u).process = some q ↔
      u = k.nextTid ∧ q = p ∨ (k.task u).process = some q := by
    intro u q
    rw [ha.task u]
    by_cases hu : u = k.nextTid
    · subst hu
      rw [if_pos rfl]
      simp only [Option.some.injEq, true_and, hfresh q, or_false]
      exact eq_comm
    · simp [hu]
  refine ⟨⟨fun u q => ?_, fun q => ?_, fun u q hu => ?_, fun u q hu => ?_, ?_⟩,
    fun u _ hs => ?_, fun u q _ hst => ?_, fun q _ hr => (hrequested q).trans hr,
    Nat.le_of_eq ha.nextProc.symm, fun m _ hl => ha.locked ▸ hl, fun u m _ hd => ?_⟩
  · rw [hprocess, ha.proc q, ← h.member]
    by_cases hq : q = p
    · rw [if_pos hq, hq, Process.withThread, List.mem_cons]
      simp
    · simp [hq]
  · rw [ha.proc q]
    split
    · exact List.nodup_cons.mpr
        ⟨fun hin => hfresh p ((h.member _ p).mp hin), h.threads p⟩
    · exact h.threads q
  · rw [ha.nextTid]
    rcases (hprocess u q).mp hu with ⟨rfl, -⟩ | hu
    · exact Nat.lt_succ_self _
    · exact Nat.lt_succ_of_lt (h.taskFresh u q hu)
  · rw [ha.nextProc]
    rcases (hprocess u q).mp hu with ⟨-, rfl⟩ | hu
    · exact hp
    · exact h.procFresh u q hu
  · rw [ha.procs, ha.nextProc]
    exact h.procs
  · refine ⟨?_, fun q hu => (hprocess u q).mpr (Or.inr hu)⟩
    rw [ha.status]
    split
    · exact nofun
    · exact hs
  · have hb := hst.blocked
    rw [ha.status] at hb
    split at hb
    · cases hb
    next hne =>
      refine ⟨((hprocess u q).mp hst.process).resolve_left fun hnew => hne hnew.1, ?_, hb⟩
      exact (hrequested q).symm.trans hst.requested
  · rw [ha.task u] at hd
    split at hd
    · cases hd
    · exact hd

end Kernel

end OrangeOs.Proc
