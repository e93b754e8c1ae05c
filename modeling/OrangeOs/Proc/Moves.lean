import Mathlib.Data.List.TakeWhile
import Mathlib.Logic.Relation
import OrangeOs.Proc.Members
import OrangeOs.Proc.Steps

/-! # Steps that block, reap, create and end

`Moved` for the calls of the kernel, assembled from their parts.
-/

namespace OrangeOs.Proc

open Ipc Function List Kernel
open OrangeOs.Pipe (pipeCapacity)

namespace Kernel

variable {β : Type} {k k' : Kernel β} {t : Tid} {p : ProcId} {E : Tid → Prop} {S : ProcId → Prop}
  {L : Nat → Prop}

/-! ## Parts of reaping and creation -/

theorem Members.procsOnly (h : Members k) {proc : ProcId → Process} {procs : List ProcId}
    (hthreads : ∀ q, (proc q).threads = (k.proc q).threads)
    (hrequested : ∀ q, (proc q).exitRequested = (k.proc q).exitRequested)
    (hprocs : ∀ q ∈ procs, q ∈ k.procs) : Moved E S L k { k with proc, procs } := by
  refine { (h.refl : Moved E S L k k) with
    members := { h with member t p := ?_, threads p := ?_, procs q hq := h.procs q (hprocs q hq) }
    stuck t p _ hst := ⟨hst.process, (hrequested p).symm.trans hst.requested, hst.blocked⟩
    requested p _ hr := (hrequested p).trans hr }
  · rw [hthreads]
    exact h.member t p
  · rw [hthreads]
    exact h.threads p

theorem Members.discardThread (h : Members k) (ht : E t ∨ k.status t = .zombie) :
    Moved E S L k (k.discardThread t) := h.discarded (discardThread_spec k t) ht

theorem Members.allocProcess (h : Members k) (address : UInt64) :
    Moved E S L k (k.allocProcess address).2 := by
  have hother : ∀ q, q ≠ k.nextProc → (k.allocProcess address).2.proc q = k.proc q :=
    fun q hq => update_of_ne hq _ _
  have hself : (k.allocProcess address).2.proc k.nextProc = newProcess k.nextPid address :=
    update_self _ _ _
  have hold : ∀ u p, (k.task u).process = some p → p ≠ k.nextProc :=
    fun u p hu => Nat.ne_of_lt (h.procFresh u p hu)
  refine { (h.refl : Moved E S L k k) with
    members := ⟨fun u q => ?_, fun q => ?_, h.taskFresh, fun u q hu => ?_, fun q hq => ?_⟩
    stuck u q _ hst := ?_
    requested q hq hr := ?_
    nextProc := Nat.le_succ _ }
  · by_cases hq : q = k.nextProc
    · subst hq
      rw [hself]
      exact ⟨nofun, fun hu => absurd rfl (hold u _ hu)⟩
    · rw [hother q hq]
      exact h.member u q
  · by_cases hq : q = k.nextProc
    · rw [hq, hself]
      exact nodup_nil
    · rw [hother q hq]
      exact h.threads q
  · exact Nat.lt_succ_of_lt (h.procFresh u q hu)
  · rcases mem_cons.mp hq with rfl | hq
    · exact Nat.lt_succ_self _
    · exact Nat.lt_succ_of_lt (h.procs q hq)
  · have hq := hold u q hst.process
    refine ⟨hst.process, ?_, hst.blocked⟩
    rw [← hother q hq]
    exact hst.requested
  · rw [hother q (Nat.ne_of_lt hq)]
    exact hr

theorem Members.addThread [Inhabited β] (h : Members k) (hp : p < k.nextProc) :
    Moved E S L k ((k.threadAllocForProcess p).2.threadAppend k.nextTid) :=
  h.added (addThread_spec k p) hp

/-- One of the changes that reaping consists of. -/
inductive Reap (k : Kernel β) : Kernel β → Prop
  | task (t : Tid) {f : Task → Task} (same : f (k.task t) = { k.task t with
      lifecycle := (f (k.task t)).lifecycle
      lifecycleClaimed := (f (k.task t)).lifecycleClaimed }) : Reap k (k.modifyTask t f)
  | proc (p : ProcId) {f : Process → Process} (address : (f (k.proc p)).address = (k.proc p).address)
      (threads : (f (k.proc p)).threads = (k.proc p).threads)
      (requested : (f (k.proc p)).exitRequested = (k.proc p).exitRequested) :
      Reap k (k.modifyProc p f)
  | procs (p : ProcId) : Reap k { k with procs := k.procs.erase p }
  | discard {t : Tid} (zombie : k.status t = .zombie) : Reap k (k.discardThread t)

/-- One of the changes that reaping and creation consist of. -/
inductive Edit (k : Kernel β) : Kernel β → Prop
  | reap {k' : Kernel β} (r : Reap k k') : Edit k k'
  | retain (f : Nat) : Edit k (k.fileRetain f)
  | alloc (address : UInt64) : Edit k (k.allocProcess address).2
  | add [Inhabited β] {p : ProcId} (known : p < k.nextProc) :
      Edit k ((k.threadAllocForProcess p).2.threadAppend k.nextTid)
  | switch {current : Tid} {others : List Tid}
      (ring : ∀ t ∈ current :: others, t ∈ k.current :: k.others) : Edit k { k with current, others }

abbrev Reaps : Kernel β → Kernel β → Prop := Relation.ReflTransGen Reap

abbrev Edits : Kernel β → Kernel β → Prop := Relation.ReflTransGen Edit

theorem Reaps.edits (r : Reaps k k') : Edits k k' :=
  Relation.ReflTransGen.mono (fun _ _ => .reap) _ _ r

theorem Reap.moved (r : Reap k k') (h : Members k) : Moved E S L k k' := by
  cases r with
  | task t hsame =>
    refine h.modifyTask t (by rw [hsame]) fun _ hm => Or.inr ?_
    rwa [hsame] at hm
  | proc p _ hthreads hrequested => exact h.modifyProc p hthreads (Or.inl hrequested)
  | procs p => exact h.procsOnly (fun _ => rfl) (fun _ => rfl) fun _ => mem_of_mem_erase
  | discard hz => exact h.discardThread (Or.inr hz)

theorem Edit.moved (e : Edit k k') (h : Members k) : Moved E S L k k' := by
  cases e with
  | reap r => exact r.moved h
  | retain f => exact h.gentle (gentle_fileRetain k f)
  | alloc address => exact h.allocProcess address
  | add hp => exact h.addThread hp
  | switch =>
    exact { (h.refl : Moved E S L k k) with
      members := { h with }
      stuck _ _ _ hst := { hst with } }

theorem Edits.moved (e : Edits k k') (h : Members k) : Moved E S L k k' := by
  induction e with
  | refl => exact h.refl
  | tail _ hlast ih => exact Moved.after hlast.moved ih

theorem foldl_reaches {α : Type} {r : Kernel β → Kernel β → Prop} {f : Kernel β → α → Kernel β}
    (hf : ∀ k a, Relation.ReflTransGen r k (f k a)) (l : List α) (k : Kernel β) :
    Relation.ReflTransGen r k (l.foldl f k) := by
  induction l generalizing k with
  | nil => exact .refl
  | cons a l ih => exact (hf k a).trans (ih _)

/-! ## Reaping -/

theorem reaps_unlinkChild (k : Kernel β) (c : ProcId) : Reaps k (k.unlinkChild c) := by
  unfold unlinkChild
  split
  · exact .refl
  next q _ =>
    exact .tail (.single (.proc q rfl rfl rfl)) (.proc c rfl rfl rfl)

theorem reaps_reapProcess (k : Kernel β) (p : ProcId) : Reaps k (k.reapProcess p) := by
  unfold reapProcess
  split
  · exact .refl
  · split
    · exact .refl
    next t _ =>
      split
      · exact .refl
      next hguard =>
        have hz : k.status t = .zombie := not_not.mp fun hne => hguard (Or.inr (Or.inl hne))
        have hspace : Reaps k (k.releaseProcessAddressSpace p) := .single (.proc p rfl rfl rfl)
        have hunlinked := (hspace.tail (.discard hz)).trans (reaps_unlinkChild _ p)
        have hdead := hunlinked.tail (.proc p (f := fun x => { x with state := .dead }) rfl rfl rfl)
        exact (hdead.tail (.procs p)).tail (.proc p rfl rfl rfl)

theorem reaps_reapKernelThread (k : Kernel β) (t : Tid) : Reaps k (k.reapKernelThread t) := by
  unfold reapKernelThread
  split
  · exact .refl
  next hguard =>
    have hz : k.status t = .zombie := not_not.mp fun hne => hguard (Or.inr hne)
    exact .tail (.single (.task t rfl)) (.discard hz)

theorem reaps_reapers (k : Kernel β) : Reaps k k.processReapOrphans.threadReapDetached := by
  have horphans : Reaps k k.processReapOrphans := foldl_reaches (fun k p => by
    unfold reapIfOrphan
    split
    · exact reaps_reapProcess k p
    · exact .refl) _ k
  exact horphans.trans (foldl_reaches (fun k t => by
    unfold reapIfDetached
    split
    next hz => exact .tail (.single (.task t rfl)) (.discard hz.1)
    · exact .refl) _ _)

theorem edits_schedule (k : Kernel β) : Edits k k.schedule := by
  unfold schedule
  split
  · exact .refl
  · have hreaped := (reaps_reapers k).edits
    dsimp only
    generalize k.processReapOrphans.threadReapDetached = k1 at hreaped ⊢
    split
    · exact hreaped
    next next rest hdrop =>
      refine hreaped.tail (.switch fun t ht => ?_)
      have hring := takeWhile_append_dropWhile (p := fun t => decide (k1.status t ≠ .ready))
        (l := k1.others)
      rw [hdrop] at hring
      rw [← hring]
      simp only [mem_cons, mem_append] at ht ⊢
      tauto

/-- The thread that `schedule` selects. -/
def selected (k : Kernel β) : Tid :=
  (k.others.find? fun t => decide (k.status t = .ready)).getD k.current

theorem Reap.selected_eq (r : Reap k k') : k'.selected = k.selected := by
  cases r with
  | task | proc | procs => rfl
  | @discard t hz =>
    have hd := discardThread_spec k t
    have hstatus : (k.discardThread t).status = k.status := funext fun u => by
      by_cases hu : u = t
      · rw [hu, hd.zombie, hz]
      · exact hd.status u hu
    rw [selected, selected, hstatus, hd.current, hd.others]
    unfold threadRemoveFromScheduler
    split
    · rfl
    · by_cases hmem : t ∈ k.others
      · obtain ⟨l, r, -, hl, hr⟩ := exists_erase_eq hmem
        rw [hr, hl]
        simp [hz]
      · rw [erase_of_not_mem hmem]

theorem Reaps.selected_eq (r : Reaps k k') : k'.selected = k.selected := by
  induction r with
  | refl => rfl
  | tail _ hlast ih => exact hlast.selected_eq.trans ih

theorem schedule_current (k : Kernel β) : k.schedule.current = k.selected := by
  unfold schedule
  split
  next hnone => rw [selected, hnone]; rfl
  · rw [← (reaps_reapers k).selected_eq]
    dsimp only
    generalize k.processReapOrphans.threadReapDetached = k1
    rw [selected, find?_eq_head?_dropWhile_not]
    simp only [← decide_not]
    split <;> next hdrop => rw [hdrop]; rfl

theorem reaps_threadDetach (k : Kernel β) (t : Tid) : Reaps k (k.threadDetach t) := by
  unfold threadDetach
  split
  · exact .refl
  · split
    · exact .trans (.single (.task t rfl)) (reaps_reapKernelThread _ t)
    · exact .single (.task t rfl)

/-! ## Creation -/

theorem edits_newChild (k : Kernel β) (address : UInt64) (q : ProcId) :
    Edits k ((k.allocProcess address).2.linkChild k.nextProc q) :=
  .tail (.tail (.single (.alloc address)) (.reap (.proc k.nextProc rfl rfl rfl)))
    (.reap (.proc q rfl rfl rfl))

section Creation

variable [Inhabited β]

theorem edits_spawn (k : Kernel β) (address : UInt64) : Edits k (k.spawn address) := by
  unfold spawn
  split
  · exact .refl
  next parent _ =>
    exact (edits_newChild k address parent).tail (.add (Nat.lt_succ_self k.nextProc))

theorem edits_processFork (k : Kernel β) (address : UInt64) : Edits k (k.processFork address) := by
  unfold processFork
  split
  · exact .refl
  next parent _ =>
    split
    · exact .refl
    · have hcopied := (edits_newChild k address parent).tail (.reap (.proc k.nextProc
        (f := fun x => { x with files := ((k.allocProcess address).2.proc parent).files })
        rfl rfl rfl))
      have hretained := Gentle.foldl (gentle_fileRetain (β := β))
        ((k.allocProcess address).2.proc parent).files
        (((k.allocProcess address).2.linkChild k.nextProc parent).modifyProc k.nextProc
          fun x => { x with files := ((k.allocProcess address).2.proc parent).files })
      refine (hcopied.trans (foldl_reaches (fun _ f => .single (.retain f)) _ _)).tail (.add ?_)
      exact Nat.lt_of_lt_of_eq (Nat.lt_succ_self k.nextProc) hretained.nextProc.symm

theorem edits_processCreateThread (h : Members k) : Edits k k.processCreateThread := by
  unfold processCreateThread
  split
  · exact .refl
  next p hp =>
    split
    · exact .refl
    · exact .single (.add (h.procFresh _ p hp))

end Creation

/-! ## Blocking -/

/-- The process of the current thread has no pending kill, or one that is let pass. -/
def Free (S : ProcId → Prop) (k : Kernel β) : Prop :=
  ∀ p, ¬ S p → k.processCurrent = some p → (k.proc p).exitRequested = false

theorem Free.gentle (h : Free S k) (hg : Gentle k k') : Free S k' := by
  intro p hS hp
  have hsame : k'.processCurrent = k.processCurrent := by
    unfold processCurrent
    rw [hg.current, hg.task]
  rw [hg.proc p]
  exact h p hS (hsame ▸ hp)

theorem Gentle.ready (hg : Gentle k k') (h : k.status k.current ≠ .zombie) :
    k'.status k'.current ≠ .zombie := by
  rw [hg.current]
  exact fun hz => h ((hg.quiet.zombies _).mp hz)

section

variable (h : Members k)
include h

theorem Members.wait (hne : k.status k.current ≠ .zombie) (hfree : Free S k)
    {d : Doing} (hd : ∀ m, d = .mutex m → L m) : Moved E S L k ((k.block).enter d) :=
  Moved.after (fun h => h.enter hd) (h.block hne hfree)

theorem Members.gentleWait (hg : Gentle k k')
    (hne : k.status k.current ≠ .zombie) (hfree : Free S k) {d : Doing}
    (hd : ∀ m, d = .mutex m → L m) : Moved E S L k ((k'.block).enter d) :=
  Moved.after (fun h => h.wait (hg.ready hne) (hfree.gentle hg) hd) (h.gentle hg)

theorem Members.gentleEnter (hg : Gentle k k') {d : Doing}
    (hd : ∀ m, d = .mutex m → L m) : Moved E S L k (k'.enter d) :=
  Moved.after (fun h => h.enter hd) (h.gentle hg)

section

variable (hne : k.status k.current ≠ .zombie)
include hne

theorem Members.joinLoop
    (hok : k.status t ≠ .zombie → Free S k) : Moved E S L k (k.joinLoop t) := by
  unfold Kernel.joinLoop
  split
  next hwait => exact h.wait hne (hok hwait) nofun
  · refine Moved.after (fun h => h.enter nofun) ?_
    refine Moved.after (reaps_reapKernelThread _ t).edits.moved ?_
    exact h.modifyTask t rfl fun _ hd => Or.inr hd

theorem Members.threadJoin (hok : k.claimable t = true → k.status t ≠ .zombie → Free S k) :
    Moved E S L k (k.threadJoin t) := by
  unfold Kernel.threadJoin
  split
  · exact h.refl
  next hclaim =>
    have hg := k.gentle_modifyTask t (f := fun x => { x with
      lifecycleClaimed := true
      joinWaiter := (if k.status t ≠ .zombie then some k.current else none).or x.joinWaiter }) rfl
    refine Moved.after (fun h => h.joinLoop (hg.ready hne) fun hwait => ?_) (h.gentle hg)
    exact (hok (Bool.eq_false_or_eq_true _ |>.resolve_right hclaim) hwait).gentle hg

/-- `process_wait` finds a child, which has not exited, and has to wait for it. -/
def childRuns (k : Kernel β) (pid options : UInt32) : Prop :=
  ∃ c, k.findChild pid = some c ∧ (k.proc c).state ≠ .zombie ∧ options &&& 1 = 0

theorem Members.waitRound {pid options : UInt32} (hok : k.childRuns pid options → Free S k) :
    Moved E S L k (k.waitRound pid options).2 := by
  unfold Kernel.waitRound
  cases hc : k.findChild pid with
  | none => exact h.enter nofun
  | some c =>
    dsimp only
    split
    · exact Moved.after (fun h => h.enter nofun) ((reaps_reapProcess k c).edits.moved h)
    next hz =>
      split
      · exact h.enter nofun
      next hopt => exact h.wait hne (hok ⟨c, hc, hz, not_not.mp hopt⟩) nofun

theorem Members.futexWait (uaddr : UInt64) : Moved E S L k (k.futexWait uaddr) := by
  unfold Kernel.futexWait
  split
  · exact h.refl
  next p hp =>
    split
    · exact h.refl
    next hguard =>
      refine h.gentleWait (gentle_futex k _) hne (fun q _ hq => ?_) nofun
      cases hp.symm.trans hq
      exact Bool.eq_false_iff.mpr fun hr => hguard (Or.inr hr)

end

/-- `ipc_send` finds its destination not waiting for it. -/
def sendWaits (k : Kernel β) (d : Tid) : Prop :=
  d ≠ k.current ∧ k.status d ≠ .zombie ∧ (k.ipc k.current).process ≠ none ∧
    (k.ipc d).process ≠ none ∧
    ¬ ((k.ipc d).ipcReceiving = true ∧ sourceMatches (k.ipc d) (k.ipc k.current) = true)

omit h in
theorem sendWaits_of_none {d : Tid} {body : β}
    (h : (Ipc.ipcSend k.ipc k.current (some d) (some body)).1 = none) : k.sendWaits d := by
  unfold Ipc.ipcSend at h
  dsimp only at h
  split at h
  · cases h
  next hguard =>
    split at h
    next pid pid' hc hd =>
      split at h
      · cases h
      next hmatch =>
        refine ⟨fun heq => hguard (Or.inl heq), fun hz => hguard (Or.inr hz), ?_, ?_, hmatch⟩
        · rw [hc]
          exact Option.some_ne_none _
        · rw [hd]
          exact Option.some_ne_none _
    · cases h

theorem Members.ipcSend (hne : k.status k.current ≠ .zombie) {d : Tid} {body : β}
    (hok : k.sendWaits d → Free S k) : Moved E S L k (k.ipcSend d body).2 := by
  have hg := gentle_setIpc k (ipcSend_woken k.ipc k.current (some d) (some body))
  have hwaits : (Ipc.ipcSend k.ipc k.current (some d) (some body)).1 = none → k.sendWaits d :=
    sendWaits_of_none
  unfold Kernel.ipcSend
  generalize Ipc.ipcSend k.ipc k.current (some d) (some body) = r at hg hwaits
  obtain ⟨result, ipc⟩ := r
  cases result with
  | none => exact h.gentleWait hg hne (hok (hwaits rfl)) nofun
  | some result => exact h.gentle hg

/-- `ipc_receive` finds no sender that its filter admits. -/
def receiveWaits (k : Kernel β) (source : Int32) : Prop :=
  ∀ t ∈ (k.ipc k.current).ipcSenders, admits source (((k.ipc t).process).getD 0) = false

omit h in
theorem receiveWaits_of_none {source : Int32}
    (h : (Ipc.ipcReceive k.ipc k.current source).1 = none) : k.receiveWaits source := by
  unfold Ipc.ipcReceive at h
  dsimp only at h
  split at h
  · cases h
  next hnone =>
    intro t ht
    unfold dequeueMatchingSender at hnone
    rw [find?_eq_none] at hnone
    rw [Threads.modify_self] at hnone
    have hfilter := hnone t ht
    unfold sourceMatches at hfilter
    have hpid : ((k.ipc.modify k.current (Thread.setFilter source)) t).process =
        (k.ipc t).process := Threads.modify_proj Thread.process rfl t
    rw [hpid] at hfilter
    exact Bool.eq_false_iff.mpr hfilter

section

variable (hne : k.status k.current ≠ .zombie)
include hne

theorem Members.ipcReceive {source : Int32}
    (hok : k.receiveWaits source → Free S k) : Moved E S L k (k.ipcReceive source).2 := by
  have hg := gentle_setIpc k (ipcReceive_woken k.ipc k.current source)
  have hwaits : (Ipc.ipcReceive k.ipc k.current source).1 = none → k.receiveWaits source :=
    receiveWaits_of_none
  unfold Kernel.ipcReceive
  generalize Ipc.ipcReceive k.ipc k.current source = r at hg hwaits
  obtain ⟨message, ipc⟩ := r
  cases message with
  | none => exact h.gentleWait hg hne (hok (hwaits rfl)) nofun
  | some message => exact h.gentle hg

theorem Members.waitForLock
    (hfree : Free S k) (lock : Lock) {d : Doing} (hd : ∀ m, d = .mutex m → L m) :
    Moved E S L k (k.waitForLock lock d) :=
  h.gentleWait (k.gentle_modifyTask k.current rfl) hne hfree hd

def readWaits (k : Kernel β) (i : Nat) : Prop := (k.pipe i).count = 0 ∧ (k.pipe i).writers ≠ 0

def writeWaits (k : Kernel β) (i : Nat) : Prop :=
  (k.pipe i).readers ≠ 0 ∧ pipeCapacity ≤ (k.pipe i).count

theorem Members.pipeRead {i length : Nat}
    (hok : k.readWaits i → Free S k) : Moved E S L k (k.pipeRead i length).2 := by
  unfold Kernel.pipeRead
  split
  · exact h.gentleEnter ((k.gentle_modifyPipe i _).trans (gentle_wakePipeWaiters _ i)) nofun
  next hcount =>
    split
    · exact h.enter nofun
    next hwriters => exact h.waitForLock hne (hok ⟨not_not.mp hcount, hwriters⟩) _ nofun

theorem Members.pipeWrite {i length : Nat}
    (hok : k.writeWaits i → Free S k) : Moved E S L k (k.pipeWrite i length).2 := by
  unfold Kernel.pipeWrite
  split
  · exact h.enter nofun
  next hreaders =>
    split
    · exact h.gentleEnter ((k.gentle_modifyPipe i _).trans (gentle_wakePipeWaiters _ i)) nofun
    next hcount => exact h.waitForLock hne (hok ⟨hreaders, Nat.not_lt.mp hcount⟩) _ nofun

end

theorem Members.lock {m : Nat} (hL : L m) :
    Moved E S L k { k with locked := update k.locked m true } := by
  refine { (h.refl : Moved E S L k k) with
    members := { h with }
    stuck _ _ _ hst := { hst with }
    locked n hn hl := ?_ }
  have hne : n ≠ m := fun heq => hn (heq ▸ hL)
  exact (update_of_ne hne true k.locked).symm.trans hl

theorem Members.mutexAcquire (hne : k.status k.current ≠ .zombie) {m : Nat}
    (hL : L m) (hok : k.locked m = true → Free S k) : Moved E S L k (k.mutexAcquire m) := by
  unfold Kernel.mutexAcquire
  split
  · exact Moved.after (fun h => h.enter nofun) (h.lock hL)
  next hlocked =>
    refine h.waitForLock hne (hok (Bool.not_eq_false _ ▸ hlocked)) _ fun n hn => ?_
    cases hn
    exact hL

theorem Members.threadSleepTicks (hne : k.status k.current ≠ .zombie) {n : Nat}
    (hok : n ≠ 0 → Free S k) : Moved E S L k (k.threadSleepTicks n) := by
  unfold Kernel.threadSleepTicks
  split
  · exact h.refl
  next hn =>
    dsimp only
    split
    · exact h.wait hne (hok hn) nofun
    · refine h.gentleWait ?_ hne (hok hn) nofun
      exact (k.gentle_modifyTask k.current (f := fun t => { t with
        wakeTick := k.systemTicks + n, sleeping := true }) rfl).trans (gentle_sleepers _ _)

end

/-! ## Kills -/

theorem gentle_foldl_unblock (l : List Tid) (k : Kernel β) : Gentle k (l.foldl (fun k t =>
    ((k.timerCancelThreadSleep t).ipcAbortThread t).threadUnblock t) k) :=
  .foldl (fun k t => (k.gentle_timerCancel t).trans
    ((gentle_ipcAbortThread ..).trans (gentle_threadUnblock ..))) l k

theorem foldl_unblock_status (l : List Tid) (k : Kernel β) (t : Tid) (ht : t ∈ l) :
    (l.foldl (fun k t => ((k.timerCancelThreadSleep t).ipcAbortThread t).threadUnblock t) k).status t
      ≠ .blocked := by
  induction l generalizing k with
  | nil => cases ht
  | cons u l ih =>
    rw [foldl_cons]
    by_cases htl : t ∈ l
    · exact ih _ htl
    · have htu : t = u := (mem_cons.mp ht).resolve_right htl
      subst htu
      intro hb
      have hself : (((k.timerCancelThreadSleep t).ipcAbortThread t).threadUnblock t).status t ≠
          .blocked := by
        intro hb'
        unfold threadUnblock setIpc status at hb'
        dsimp only at hb'
        rw [Threads.modify_self] at hb'
        unfold Thread.unblock at hb'
        split at hb'
        · cases hb'
        next hne => exact hne hb'
      rcases (gentle_foldl_unblock l _).woken t with hsame | ⟨hblocked, -⟩
      · exact hself (hsame.symm.trans hb)
      · exact hself hblocked

theorem Members.requestProcessTermination (h : Members k) (pid : UInt32) (status : Int)
    (rejectCurrent : Bool) :
    Moved E S L k (k.requestProcessTermination pid status rejectCurrent) := by
  unfold Kernel.requestProcessTermination
  split
  · exact h.refl
  next p _ =>
    split
    · exact h.refl
    · have h1 : Moved E (fun q => S q ∨ q = p) L k (k.modifyProc p fun x =>
          { x with exitRequested := true, killStatus := status }) :=
        h.modifyProc p rfl (Or.inr ⟨Or.inr rfl, rfl⟩)
      dsimp only
      generalize (k.modifyProc p fun x =>
        { x with exitRequested := true, killStatus := status }) = k1 at h1 ⊢
      have hg := gentle_futexCancelProcess k1 p futexErrIntr
      generalize k1.futexCancelProcess p futexErrIntr = k2 at hg ⊢
      have hfold := gentle_foldl_unblock (k2.proc p).threads k2
      have h2 := h1.trans (h1.members.gentle (hg.trans hfold))
      refine { h2 with stuck t q hS hst := ?_ }
      by_cases hq : q = p
      · subst hq
        have hin : t ∈ (k2.proc q).threads := by
          have hmem := (h2.members.member t q).mpr hst.process
          rwa [hfold.proc q] at hmem
        exact absurd hst.blocked (foldl_unblock_status _ _ t hin)
      · exact h2.stuck t q (fun hor => hor.elim hS hq) hst

/-! ## Exits -/

theorem Members.becomeZombie (h : Members k) (hE : E k.current) : Moved E S L k k.becomeZombie := by
  refine Moved.after (fun h => h.modifyTask _ rfl fun _ hd => Or.inr hd) ?_
  refine { (h.refl : Moved E S L k k) with
    members := { h with }
    stays t ht hs := ?_
    stuck t p _ hst := ?_ }
  · have htc : t ≠ k.current := fun heq => ht (heq ▸ hE)
    rw [modifyIpc_status, if_neg htc]
    exact ⟨hs, fun _ hp => hp⟩
  · have hb := hst.blocked
    rw [modifyIpc_status] at hb
    split at hb
    · cases hb
    · exact ⟨hst.process, hst.requested, hb⟩

theorem becomeZombie_status (k : Kernel β) : k.becomeZombie.status k.current = .zombie := by
  unfold becomeZombie
  rw [modifyTask_status, modifyIpc_status, if_pos rfl]

theorem Members.retire (h : Members k) (hE : E k.current) (status : Int) :
    Moved E S L k (k.retire status) := by
  unfold Kernel.retire
  have hg : Gentle k ((k.futexCancelThread k.current futexErrIntr).ipcAbortThread k.current) :=
    (k.gentle_futexCancelThread k.current futexErrIntr).trans (gentle_ipcAbortThread ..)
  dsimp only
  generalize (k.futexCancelThread k.current futexErrIntr).ipcAbortThread k.current = k1 at hg ⊢
  have hzombie : Moved E S L k
      (k1.modifyTask k1.current fun x => { x with exitStatus := status }).becomeZombie := by
    refine Moved.after (fun h => h.becomeZombie (hg.current ▸ hE)) ?_
    exact Moved.after (fun h => h.modifyTask _ rfl fun _ hd => Or.inr hd) (h.gentle hg)
  split
  next w _ => exact Moved.after (fun h => h.gentle (gentle_threadUnblock _ w)) hzombie
  · exact hzombie

theorem dropVictims_current (l : List Tid) : (l.foldl dropVictim k).current = k.current := by
  induction l generalizing k with
  | nil => rfl
  | cons t l ih =>
    refine ih.trans ?_
    unfold Kernel.dropVictim
    split
    · rfl
    · exact (discardThread_spec _ t).current.trans (gentle_ipcAbortThread k t).current

theorem Members.dropVictims (l : List Tid) (h : Members k) (hE : ∀ t ∈ l, E t) :
    Moved E S L k (l.foldl dropVictim k) ∧
      ∀ t p, ((l.foldl dropVictim k).task t).process = some p →
        (k.task t).process = some p ∧ (t ∈ l → t = k.current) := by
  induction l generalizing k with
  | nil => exact ⟨h.refl, fun _ _ hp => ⟨hp, nofun⟩⟩
  | cons a l ih =>
    rw [foldl_cons]
    have hl : ∀ t ∈ l, E t := fun t ht => hE t (mem_cons_of_mem a ht)
    by_cases ha : a = k.current
    · have hsame : k.dropVictim a = k := if_pos ha
      rw [hsame]
      obtain ⟨hm, hp⟩ := ih h hl
      refine ⟨hm, fun t p ht => ⟨(hp t p ht).1, fun hin => ?_⟩⟩
      rcases mem_cons.mp hin with rfl | hin
      · exact ha
      · exact (hp t p ht).2 hin
    · have hdrop : k.dropVictim a = (k.ipcAbortThread a).discardThread a := if_neg ha
      rw [hdrop]
      have hg := gentle_ipcAbortThread k a
      have hd := discardThread_spec (k.ipcAbortThread a) a
      have h1 : Moved E S L k (k.ipcAbortThread a) := h.gentle hg
      have h2 := h1.trans (h1.members.discarded hd (Or.inl (hE a mem_cons_self)))
      obtain ⟨hm, hp⟩ := ih h2.members hl
      refine ⟨h2.trans hm, fun t p ht => ?_⟩
      obtain ⟨hprocess, hin⟩ := hp t p ht
      have hta : t ≠ a := by
        rintro rfl
        cases hd.gone.1.symm.trans hprocess
      rw [hd.task t hta, hg.task t] at hprocess
      refine ⟨hprocess, fun hmem => ?_⟩
      rw [← hg.current, ← hd.current]
      exact hin ((mem_cons.mp hmem).resolve_left hta)

theorem Members.reparentChildren (h : Members k) (p : ProcId) :
    Moved E S L k (k.reparentChildren p) := by
  obtain ⟨f, hf⟩ := reparentChildren_rest k p
  have hproc : ∀ q, (k.reparentChildren p).proc q = f q := fun q => by rw [hf]
  rw [hf]
  refine h.procsOnly (fun q => ?_) (fun q => ?_) fun _ hq => hq
  · rw [← hproc, reparentChildren_proc]
  · rw [← hproc, reparentChildren_proc]

theorem becomeZombie_process (k : Kernel β) (t : Tid) :
    (k.becomeZombie.task t).process = (k.task t).process := modifyTask_proj Task.process rfl t

/-- What `process_exit` does with files, memory and states, after the other threads are gone. -/
theorem Members.exitSelf (h : Members k) (hE : E k.current) (p : ProcId) (status : Int)
    (hk' : ((((k.processCloseFiles p).releaseProcessAddressSpace p).modifyProc p fun x =>
      { x with exitStatus := status, state := .zombie }).becomeZombie.reparentChildren p).wakeParent p
        = k') :
    Moved E S L k k' ∧ k'.status k.current = .zombie ∧
      ∀ t, (k'.task t).process = (k.task t).process := by
  have hg1 := gentle_processCloseFiles k p
  generalize k.processCloseFiles p = k1 at hg1 hk'
  have h3 : Moved E S L k ((k1.releaseProcessAddressSpace p).modifyProc p fun x =>
      { x with exitStatus := status, state := .zombie }) := by
    refine Moved.after (fun h => h.modifyProc p rfl (Or.inl rfl)) ?_
    exact Moved.after (fun h => h.modifyProc p rfl (Or.inl rfl)) (h.gentle hg1)
  generalize hk3 : ((k1.releaseProcessAddressSpace p).modifyProc p fun x =>
    { x with exitStatus := status, state := .zombie }) = k3 at h3 hk'
  have hprocess3 : ∀ t, (k3.task t).process = (k.task t).process := fun t => by
    rw [← hk3]
    exact hg1.process t
  have hcurrent3 : k3.current = k.current := by
    rw [← hk3]
    exact hg1.current
  have hz := becomeZombie_status k3
  have hprocess4 := becomeZombie_process k3
  have h4 := Moved.after (fun h => h.becomeZombie (hcurrent3 ▸ hE)) h3
  generalize k3.becomeZombie = k4 at hz hprocess4 h4 hk'
  obtain ⟨f, hf⟩ := reparentChildren_rest k4 p
  have hg6 := gentle_wakeParent (k4.reparentChildren p) p
  rw [hk'] at hg6
  refine ⟨Moved.after (fun h => h.gentle hg6) (Moved.after (·.reparentChildren p) h4), ?_,
    fun t => ?_⟩
  · rw [← hcurrent3]
    refine (hg6.quiet.zombies _).mpr ?_
    rw [hf]
    exact hz
  · rw [hg6.task t, hf]
    exact (hprocess4 t).trans (hprocess3 t)

theorem Members.exitProcess (h : Members k) (hp : k.processCurrent = some p)
    (hE : ∀ t, (k.task t).process = some p → E t) (status : Int) :
    Moved E S L k (k.exitProcess p status) := by
  unfold Kernel.exitProcess endProcess
  dsimp only
  have h1 : Moved E (fun q => S q ∨ q = p) L k (k.modifyProc p fun x =>
      { x with exitRequested := true }) := h.modifyProc p rfl (Or.inr ⟨Or.inr rfl, rfl⟩)
  generalize hk1 : (k.modifyProc p fun x => { x with exitRequested := true }) = k1 at h1 ⊢
  have hg2 : Gentle k1 ((k1.futexCancelProcess p futexErrIntr).ipcAbortThread k1.current) :=
    (k1.gentle_futexCancelProcess p futexErrIntr).trans (gentle_ipcAbortThread ..)
  generalize (k1.futexCancelProcess p futexErrIntr).ipcAbortThread k1.current = k2 at hg2 ⊢
  have h2 := h1.trans (h1.members.gentle hg2)
  have hprocess2 : ∀ t, (k2.task t).process = (k.task t).process := fun t => by
    rw [hg2.task t, ← hk1]
    rfl
  have hcurrent2 : k2.current = k.current := by rw [hg2.current, ← hk1]; rfl
  obtain ⟨hm3, hprocess3⟩ := h2.members.dropVictims (E := E)
    (S := fun q => S q ∨ q = p) (k2.proc p).threads fun t ht =>
      hE t ((hprocess2 t).symm.trans ((h2.members.member t p).mp ht))
  have h3 := h2.trans hm3
  have hcurrent3 := dropVictims_current (k := k2) (k2.proc p).threads
  have honly : ∀ t, (((k2.proc p).threads.foldl dropVictim k2).task t).process = some p →
      t = k2.current := fun t ht =>
    (hprocess3 t p ht).2 ((h2.members.member t p).mpr (hprocess3 t p ht).1)
  generalize (k2.proc p).threads.foldl dropVictim k2 = k3 at h3 hcurrent3 honly ⊢
  have hEcurrent : E k3.current := hE _ (by rw [hcurrent3, hcurrent2]; exact hp)
  obtain ⟨hm4, hz, hprocess4⟩ := h3.members.exitSelf (S := fun q => S q ∨ q = p) hEcurrent p status
    rfl
  have h4 := h3.trans hm4
  refine { h4 with stuck t q hS hst := ?_ }
  by_cases hq : q = p
  · subst hq
    have ht : t = k3.current :=
      (honly t ((hprocess4 t).symm.trans hst.process)).trans hcurrent3.symm
    rw [← ht] at hz
    cases hz.symm.trans hst.blocked
  · exact h4.stuck t q (fun hor => hor.elim hS hq) hst

theorem Members.processExit (h : Members k) (hE : E k.current)
    (hall : ∀ t p, p ≠ kernelProcess → k.processCurrent = some p →
      (k.task t).process = some p → E t) (status : Int) : Moved E S L k (k.processExit status) := by
  unfold Kernel.processExit
  split
  · exact h.refl
  next p hp =>
    split
    · exact h.retire hE 0
    next hne => exact h.exitProcess hp (fun t => hall t p hne hp) status

theorem Members.threadExitWithStatus (h : Members k) (hE : E k.current)
    (hall : ∀ t p, p ≠ kernelProcess → k.processCurrent = some p → k.processLiveThreadCount p ≤ 1 →
      (k.task t).process = some p → E t) (status : Int) :
    Moved E S L k (k.threadExitWithStatus status) := by
  unfold Kernel.threadExitWithStatus
  split
  · exact h.refl
  next p hp =>
    split
    next hlast => exact h.exitProcess hp (fun t => hall t p hlast.1 hp hlast.2) status
    · exact h.retire hE status

/-! ## Steps -/

/-- A kill of the current thread's process is pending. -/
def killPending (k : Kernel β) : Bool :=
  match k.processCurrent with
  | none => false
  | some p => (k.proc p).exitRequested

theorem free_of_not_pending (h : k.killPending ≠ true) : Free S k := by
  intro p _ hp
  unfold killPending at h
  rw [hp] at h
  exact (Bool.not_eq_true _).mp h

/-- What the thread woke up for in the call `d` has not come. -/
def waitsAgain (k : Kernel β) : Doing → Prop
  | .join t => k.status t ≠ .zombie
  | .wait pid => k.childRuns pid 0
  | .pipeRead i _ => k.readWaits i
  | .pipeWrite i _ => k.writeWaits i
  | .mutex m => k.locked m = true
  | _ => False

/-- A call finds that it has to wait. `futex_wait` is not here: it looks for a kill first. -/
def callWaits (k : Kernel β) : Op β → Prop
  | .join t => k.claimable t = true ∧ k.status t ≠ .zombie
  | .wait pid options => k.childRuns pid options
  | .send d _ => k.sendWaits d
  | .receive source => k.receiveWaits source
  | .pipeRead i _ => k.readWaits i
  | .pipeWrite i _ => k.writeWaits i
  | .acquire m => k.locked m = true
  | .sleep n => n ≠ 0
  | _ => False

/-- The current thread finds in a step that it has to wait. -/
def mustWait (k : Kernel β) (op : Op β) : Prop :=
  op.resumes = true ∧ k.status k.current = .ready ∧ k.waitsAgain (k.task k.current).doing ∨
    k.inUser = true ∧ k.callWaits op

/-- A step by which the current thread takes the lock `m` or waits for it. -/
def takes (k : Kernel β) (op : Op β) (m : Nat) : Prop :=
  op = .acquire m ∨ op.resumes = true ∧ (k.task k.current).doing = .mutex m

/-- `process_exit` by the current thread ends `t`. -/
def exitEnds (k : Kernel β) (t : Tid) : Prop :=
  t = k.current ∨ ∃ p, p ≠ kernelProcess ∧ k.processCurrent = some p ∧ (k.task t).process = some p

/-- The threads that a call of the current thread may end. -/
def callEnds (k : Kernel β) : Op β → Tid → Prop
  | .threadExit _, t => t = k.current ∨ ∃ p, p ≠ kernelProcess ∧ k.processCurrent = some p ∧
      k.processLiveThreadCount p ≤ 1 ∧ (k.task t).process = some p
  | .processExit _, t => k.exitEnds t
  | .exitCheck, t => k.killPending = true ∧ k.exitEnds t
  | _, _ => False

theorem Members.resume (h : Members k) (hne : k.status k.current ≠ .zombie)
    (hL : ∀ m, (k.task k.current).doing = .mutex m → L m)
    (hok : k.waitsAgain (k.task k.current).doing → Free S k) : Moved E S L k k.resume := by
  unfold Kernel.resume
  generalize (k.task k.current).doing = d at hL hok
  cases d with
  | join t => exact h.joinLoop hne hok
  | wait pid => exact h.waitRound hne hok
  | pipeRead i n => exact h.pipeRead hne hok
  | pipeWrite i n => exact h.pipeWrite hne hok
  | mutex m => exact h.mutexAcquire hne (hL m rfl) hok
  | user | futex | send | receive | sleep => exact h.enter nofun

theorem Members.exitCheck (h : Members k)
    (hE : ∀ t, k.killPending = true → k.exitEnds t → E t) : Moved E S L k k.exitCheck := by
  unfold Kernel.exitCheck
  split
  · exact h.refl
  next p hp =>
    split
    next hkill =>
      have hpending : k.killPending = true := by
        unfold killPending
        rw [hp]
        exact hkill.2
      exact h.processExit (hE _ hpending (Or.inl rfl))
        (fun t q hq hcur ht => hE t hpending (Or.inr ⟨q, hq, hcur, ht⟩)) _
    · exact h.refl

theorem inUser_ready (h : k.inUser = true) : k.status k.current = .ready := by
  exact of_decide_eq_true (Bool.and_eq_true_iff.mp h).1

section Steps

variable [Inhabited β]

theorem Members.call (h : Members k) (hne : k.status k.current ≠ .zombie) {op : Op β}
    (hL : ∀ m, op = .acquire m → L m) (hok : k.callWaits op → Free S k)
    (hE : ∀ t, k.callEnds op t → E t) : Moved E S L k (k.call op) := by
  cases op with
  | schedule | timerTick | kill | resume => exact h.refl
  | exitCheck => exact h.exitCheck fun t hpending hends => hE t ⟨hpending, hends⟩
  | spawn address => exact (edits_spawn k address).moved h
  | fork address => exact (edits_processFork k address).moved h
  | createThread => exact (edits_processCreateThread h).moved h
  | join t => exact h.threadJoin hne fun hc hz => hok ⟨hc, hz⟩
  | detach t => exact (reaps_threadDetach k t).edits.moved h
  | threadExit status =>
    exact h.threadExitWithStatus (hE _ (Or.inl rfl))
      (fun t p hp hcur hlive ht => hE t (Or.inr ⟨p, hp, hcur, hlive, ht⟩)) status
  | processExit status =>
    exact h.processExit (hE _ (Or.inl rfl))
      (fun t p hp hcur ht => hE t (Or.inr ⟨p, hp, hcur, ht⟩)) status
  | wait pid options => exact h.waitRound hne hok
  | futexWait uaddr => exact h.futexWait hne uaddr
  | futexWake uaddr count =>
    dsimp only [Kernel.call]
    split
    next p _ => exact h.gentle (gentle_futexWake ..)
    · exact h.refl
  | send d body => exact h.ipcSend hne hok
  | receive source => exact h.ipcReceive hne hok
  | pipe =>
    dsimp only [Kernel.call]
    split
    next p _ => exact h.gentle (gentle_pipeCreate ..)
    · exact h.refl
  | close f =>
    dsimp only [Kernel.call]
    split
    next p _ => exact h.gentle (gentle_fileClose ..)
    · exact h.refl
  | pipeRead i n => exact h.pipeRead hne hok
  | pipeWrite i n => exact h.pipeWrite hne hok
  | acquire m => exact h.mutexAcquire hne (hL m rfl) hok
  | release m => exact h.gentle (gentle_mutexRelease ..)
  | sleep n => exact h.threadSleepTicks hne hok

theorem Members.step (h : Members k) {op : Op β} (hL : ∀ m, k.takes op m → L m)
    (hok : k.mustWait op → Free S k) (hE : ∀ t, k.inUser = true → k.callEnds op t → E t) :
    Moved E S L k (k.step op) := by
  have hcall : ∀ op : Op β, (∀ m, op = .acquire m → L m) →
      (k.inUser = true ∧ k.callWaits op → Free S k) →
      (∀ t, k.inUser = true → k.callEnds op t → E t) →
      Moved E S L k (if k.inUser = true then k.call op else k) := by
    intro op hL hok hE
    split
    next huser =>
      have hready := inUser_ready huser
      exact h.call (fun hz => nomatch hready.symm.trans hz) hL (fun hw => hok ⟨huser, hw⟩)
        fun t => hE t huser
    · exact h.refl
  cases op with
  | schedule => exact (edits_schedule k).moved h
  | timerTick => exact h.gentle (gentle_timerTick ..)
  | kill pid status rejectCurrent => exact h.requestProcessTermination ..
  | resume =>
    unfold Kernel.step
    by_cases hready : k.status k.current = .ready
    · rw [if_pos hready]
      exact h.resume (fun hz => nomatch hready.symm.trans hz)
        (fun m hd => hL m (Or.inr ⟨rfl, hd⟩)) fun hw =>
        hok (Or.inl ⟨rfl, hready, hw⟩)
    · rw [if_neg hready]
      exact h.refl
  | _ => exact hcall _ (fun m hm => hL m (Or.inl hm)) (fun hw => hok (Or.inr hw)) hE

end Steps

end Kernel

end OrangeOs.Proc
