import OrangeOs.File.Calls

/-! # References along runs

FORK and the ends of processes, and what holds in every state of a run of system calls.
-/

namespace OrangeOs.File

open Function List State

open Ipc (Tid)

variable {s : State} {f : FileId} {t : Tid} {p : ProcId} {fd : Nat} {held : List FileId}

/-! ## FORK -/

theorem State.inherit_tables (s : State) (p c : ProcId) (fd : Nat) :
    (s.inherit p c fd).nextProc = s.nextProc ∧
      ∀ q d, (q, d) ≠ (c, fd) → (s.inherit p c fd).slot q d = s.slot q d := by
  unfold inherit
  cases s.slot p fd with
  | none => exact ⟨rfl, fun q d hne => s.setSlot_of_ne none hne⟩
  | some f =>
    dsimp only
    obtain ⟨file, pipe, heq⟩ := (s.setSlot c fd (some f)).fileRetain_rest f
    rw [heq]
    exact ⟨rfl, fun q d hne => s.setSlot_of_ne (some f) hne⟩

theorem Balanced.inherit (h : Balanced held s) {c : ProcId} (hp : p < s.nextProc)
    (hc : c < s.nextProc) (hfd : fd < fdCount) (hfree : s.slot c fd = none) :
    Balanced held (s.inherit p c fd) := by
  unfold State.inherit
  cases hf : s.slot p fd with
  | none =>
    have hset := Balanced.setSlot (o := none) h hc hfd
    rw [hfree] at hset
    exact hset
  | some f =>
    obtain ⟨hslot, -, -, hnext⟩ := s.fileRetain_tables f
    have hget := h.fileRetain (h.refs_of_slot hp hfd hf)
    have hset := Balanced.setSlot (o := some f) (p := c) hget (hnext ▸ hc) hfd
    rw [hslot, hfree] at hset
    dsimp only
    rw [fileRetain_setSlot]
    exact hset

theorem Balanced.inheritAll (h : Balanced held s) {c : ProcId} (hp : p < s.nextProc)
    (hc : c < s.nextProc) {fds : List Nat} (hfds : fds.Nodup)
    (hfree : ∀ fd ∈ fds, fd < fdCount ∧ s.slot c fd = none) :
    Balanced held (fds.foldl (fun s fd => s.inherit p c fd) s) ∧
      (fds.foldl (fun s fd => s.inherit p c fd) s).nextProc = s.nextProc := by
  induction fds generalizing s with
  | nil => exact ⟨h, rfl⟩
  | cons fd fds ih =>
    obtain ⟨hnot, hrest⟩ := nodup_cons.mp hfds
    obtain ⟨hfd, hnone⟩ := hfree fd mem_cons_self
    obtain ⟨hnext, hslot⟩ := s.inherit_tables p c fd
    have hone := h.inherit hp hc hfd hnone
    obtain ⟨hall, hsame⟩ := ih hone (hnext ▸ hp) (hnext ▸ hc) hrest fun d hd => by
      obtain ⟨hlt, hd'⟩ := hfree d (mem_cons_of_mem fd hd)
      refine ⟨hlt, (hslot c d ?_).trans hd'⟩
      rintro ⟨⟩
      exact hnot hd
    exact ⟨hall, hsame.trans hnext⟩

theorem Balanced.processFork (h : Balanced [] s) (hp : p < s.nextProc) (cloned thread : Bool) :
    Balanced [] (s.processFork p cloned thread) := by
  unfold State.processFork
  split
  · exact h
  · have hnew := h.newProcess
    have hfree : ∀ fd ∈ range fdCount, fd < fdCount ∧ s.slot s.nextProc fd = none :=
      fun fd hfd => ⟨mem_range.mp hfd, h.tables.slots s.nextProc fd (Nat.le_refl _)⟩
    obtain ⟨hall, hnext⟩ := hnew.inheritAll (c := s.nextProc) (Nat.lt_succ_of_lt hp)
      (Nat.lt_succ_self _) nodup_range hfree
    have hc : s.nextProc < ((range fdCount).foldl
        (fun s' fd => State.inherit s' p s.nextProc fd)
        { s with nextProc := s.nextProc + 1 }).nextProc :=
      hnext ▸ Nat.lt_succ_self _
    split
    · exact hall.processCloseFiles hc
    · exact hall.newThread hc _

/-! ## The end of a process -/

theorem Balanced.threads (h : Balanced held s) {process : Tid → Option ProcId}
    {call : Tid → Option Call} (running exitRequested : ProcId → Bool)
    (hsame : ∀ u, process u = s.process u ∧ call u = s.call u ∨
      process u = none ∧ call u = none ∧ s.call u = none) :
    Balanced held { s with process, call, running, exitRequested } := by
  generalize hs' : ({ s with process, call, running, exitRequested } : State) = s'
  have hobjects : Objects s' := by rw [← hs']; exact { h.objects with }
  have htables : Tables s' := by
    rw [← hs']
    refine ⟨h.tables.slots, fun u hu => ?_, fun u q hu => ?_, fun u c hu => ?_⟩
    all_goals rcases hsame u with ⟨hp, hc⟩ | ⟨hp, hc, -⟩
    · exact hp.trans (h.tables.threads u hu)
    · exact hp
    · exact h.tables.owners u q (hp.symm.trans hu)
    · cases hp.symm.trans hu
    · dsimp only
      rw [hp]
      exact h.tables.calls u c (hc.symm.trans hu)
    · cases hc.symm.trans hu
  refine h.frame hobjects htables (by rw [← hs']; rfl) (by rw [← hs']; rfl) fun f => ?_
  have huse : ∀ u, s'.objectInUse u = s.objectInUse u := by
    intro u
    rw [← hs']
    unfold objectInUse
    dsimp only
    rcases hsame u with ⟨hp, hc⟩ | ⟨hp, hc, hidle⟩
    · rw [hp, hc]
    · rw [hp, hidle]
      cases s.process u <;> rfl
  have hnext : s'.nextTid = s.nextTid := by rw [← hs']
  unfold callUses
  rw [hnext]
  exact pointing_congr (fun u _ => huse u) f

theorem State.takeFiles_tables (p : ProcId) (fds : List Nat) (s : State) :
    (takeFiles p fds s).1.process = s.process ∧
      (takeFiles p fds s).1.call = s.call := by
  induction fds generalizing s with
  | nil => exact ⟨rfl, rfl⟩
  | cons fd fds ih => exact ih (s.setSlot p fd none)

theorem State.releaseAll_tables (fs : List FileId) (s : State) :
    (fs.foldl fileRelease s).process = s.process ∧
      (fs.foldl fileRelease s).call = s.call := by
  induction fs generalizing s with
  | nil => exact ⟨rfl, rfl⟩
  | cons f fs ih =>
    obtain ⟨-, hprocess, hcall, -⟩ := s.fileRelease_tables f
    obtain ⟨hp, hc⟩ := ih (s.fileRelease f)
    exact ⟨hp.trans hprocess, hc.trans hcall⟩

theorem State.processCloseFiles_tables (s : State) (p : ProcId) :
    (s.processCloseFiles p).process = s.process ∧ (s.processCloseFiles p).call = s.call := by
  obtain ⟨hp, hc⟩ := takeFiles_tables p (range fdCount) s
  obtain ⟨hp', hc'⟩ := releaseAll_tables
    (takeFiles p (range fdCount) s).2 (takeFiles p (range fdCount) s).1
  exact ⟨hp'.trans hp, hc'.trans hc⟩

/-- No other thread of the process of `t` is in READ or WRITE. -/
def State.Alone (s : State) (t : Tid) : Prop :=
  ∀ u < s.nextTid, u ≠ t → s.process u = s.process t → s.call u = none

theorem Balanced.processExit (h : Balanced [] s) (ht : s.process t = some p)
    (hc : s.call t = none) (halone : s.Alone t) : Balanced [] (s.processExit t p) := by
  have hvictim : ∀ u, s.victim t p u → s.call u = none := by
    rintro u ⟨hut, hu⟩
    have hlt : u < s.nextTid := by
      by_contra hge
      cases (h.tables.threads u (Nat.not_lt.mp hge)).symm.trans hu
    exact halone u hlt hut (hu.trans ht.symm)
  have hfreed : Balanced [] (freeVictims
      { s with exitRequested := update s.exitRequested p true } t p) := by
    refine h.threads s.running (update s.exitRequested p true) fun u => ?_
    by_cases hv : s.victim t p u
    · exact Or.inr ⟨if_pos hv, if_pos hv, hvictim u hv⟩
    · exact Or.inl ⟨if_neg hv, if_neg hv⟩
  have hclosed := hfreed.processCloseFiles (h.tables.owners t p ht)
  obtain ⟨hprocess, hcall⟩ := (freeVictims
    { s with exitRequested := update s.exitRequested p true } t p).processCloseFiles_tables p
  refine hclosed.threads _ _ fun u => ?_
  by_cases hut : u = t
  · subst hut
    have hidle : (State.processCloseFiles (State.freeVictims
        { s with exitRequested := update s.exitRequested p true } u p) p).call u = none := by
      rw [hcall]
      exact (if_neg fun hv => hv.1 rfl).trans hc
    exact Or.inr ⟨update_self _ _ _, hidle, hidle⟩
  · exact Or.inl ⟨update_of_ne hut _ _, rfl⟩

/-! ## Runs -/

/-- The staging buffer of a READ can be allocated, and no process exits while another of its
threads is in READ or WRITE. -/
def Allowed (s : State) : Op → Prop
  | .read t fd length writable staging => s.Stages t fd length writable → staging = true
  | .exit t => s.Alone t
  | .kill t q => s.process t = some q → s.Alone t
  | .notice t => (∃ p ∈ s.process t, s.exitRequested p = true) → s.Alone t
  | _ => True

theorem Balanced.asUser (h : Balanced [] s) {act : ProcId → State}
    (hact : ∀ p, s.process t = some p → s.call t = none → p < s.nextProc → Balanced [] (act p)) :
    Balanced [] (s.asUser t act) := by
  unfold State.asUser
  split
  next p ht hc => exact hact p ht hc (h.tables.owners t p ht)
  · exact h

theorem Balanced.apply (h : Balanced [] s) {op : Op} (hok : Allowed s op) :
    Balanced [] (apply s op) := by
  cases op with
  | spawn => exact h.newProcess.newThread (Nat.lt_succ_self _) _
  | createThread t => exact h.asUser fun p _ _ hp => h.newThread hp s.running
  | openFile t found created => exact h.asUser fun p _ _ hp => h.sysOpen hp found created
  | read t fd length writable staging => exact h.asUser fun p ht hc _ => h.sysRead ht hc hok
  | write t fd length staging copied =>
    exact h.asUser fun p ht hc _ => h.sysWrite ht hc length staging copied
  | resume t => exact h.round t
  | close t fd => exact h.asUser fun p _ _ hp => h.sysClose hp fd
  | dup t fd => exact h.asUser fun p _ _ hp => h.sysDup hp fd
  | dup2 t fd newfd => exact h.asUser fun p _ _ hp => h.sysDup2 hp fd newfd
  | pipe t writable pipe readFile writeFile copied =>
    exact h.asUser fun p _ _ hp => h.sysPipe hp writable pipe readFile writeFile copied
  | fork t cloned thread => exact h.asUser fun p _ _ hp => h.processFork hp cloned thread
  | exit t => exact h.asUser fun p ht hc _ => h.processExit ht hc hok
  | kill t q =>
    refine h.asUser fun p ht hc _ => ?_
    unfold sysKill
    split
    next heq => exact h.processExit ht hc (hok (heq ▸ ht))
    · split
      · exact h.threads s.running _ fun _ => Or.inl ⟨rfl, rfl⟩
      · exact h
  | notice t =>
    refine h.asUser fun p ht hc _ => ?_
    split
    next hkilled => exact h.processExit ht hc (hok ⟨p, ht, hkilled⟩)
    · exact h

theorem balanced_boot : Balanced [] boot := by
  refine ⟨?_, ?_, fun _ => rfl⟩
  · constructor <;> simp [boot]
  · constructor <;> simp [boot]

theorem balanced_run {ops : List Op} (h : Machine.Throughout Allowed apply boot ops) :
    Balanced [] (run ops) :=
  h.invariant (Balanced []) (fun _ _ hs hok => hs.apply hok) balanced_boot

/-- The references to an object are those of descriptors and of calls, the counters of a pipe are
the references to its ends, and what nobody refers to is gone. -/
theorem file_references_balanced (ops : List Op)
    (h : Machine.Throughout Allowed apply boot ops) :
    (∀ f o, (run ops).file f = some o →
      o.refs = (run ops).slotUses f + (run ops).callUses f) ∧
    (∀ i p, (run ops).pipe i = some p →
      (run ops).EndRefs i .read p.readers ∧ (run ops).EndRefs i .write p.writers) ∧
    ((∀ p fd, (run ops).slot p fd = none) → (∀ t, (run ops).objectInUse t = none) →
      (∀ f, (run ops).file f = none) ∧ ∀ i, (run ops).pipe i = none) := by
  have hb := balanced_run h
  generalize run ops = s at hb
  have hrefs : ∀ f o, s.file f = some o → o.refs = s.slotUses f + s.callUses f := by
    intro f o hf
    have := hb.refs f
    unfold refs at this
    rw [hf] at this
    exact this
  refine ⟨hrefs, fun i p hp => ⟨hb.objects.ends i p hp .read, hb.objects.ends i p hp .write⟩, ?_⟩
  intro hslots hcalls
  have hfiles : ∀ f, s.file f = none := by
    intro f
    cases hf : s.file f with
    | none => rfl
    | some o =>
      have hslot : s.slotUses f = 0 := pointing_eq_zero.mpr fun k _ hk => by
        cases (hslots k.1 k.2).symm.trans hk
      have hcall : s.callUses f = 0 := pointing_eq_zero.mpr fun t _ ht => by
        cases (hcalls t).symm.trans ht
      refine absurd ?_ (hb.objects.live f o hf)
      rw [hrefs f o hf, hslot, hcall]
  refine ⟨hfiles, fun i => ?_⟩
  cases hp : s.pipe i with
  | none => rfl
  | some p =>
    obtain ⟨e, he⟩ := hb.objects.shared i p hp
    rcases hb.objects.ends i p hp e with ⟨f, hf⟩ | ⟨hzero, -⟩
    · cases (hfiles f).symm.trans hf
    · exact absurd hzero he

/-- Thread 1 is blocked in READ on the empty pipe that thread 0 has made. -/
def reading : List Op :=
  [.spawn, .createThread 0, .pipe 0 true true true true true, .read 1 3 1 true true]

instance (s : State) (t : Tid) : Decidable (s.Alone t) :=
  inferInstanceAs (Decidable (∀ u < s.nextTid, _ → _ → _))

instance (s : State) (t : Tid) (fd length : Nat) (writable : Bool) :
    Decidable (s.Stages t fd length writable) :=
  inferInstanceAs (Decidable (_ ∧ _ ∧ _ ∧ _ ∧ ∃ p ∈ s.process t, _))

instance (s : State) (op : Op) : Decidable (Allowed s op) := by
  cases op <;> dsimp only [Allowed] <;> infer_instance

/-- The read end then has two references, of its descriptor and of the call. -/
theorem file_references_balanced_reading :
    2 = (run reading).slotUses 0 + (run reading).callUses 0 :=
  (file_references_balanced reading (by decide +kernel)).1 0 ⟨2, .pipe .read 0⟩ (by decide +kernel)

/-- Thread 0 exits the process while thread 1 is blocked, or a READ finds no memory: a reference
without a holder is left. -/
theorem file_reference_lost :
    (run (reading ++ [Op.exit 0])).file 0 = some ⟨1, .pipe .read 0⟩ ∧
    (run (reading ++ [Op.exit 0])).slotUses 0 + (run (reading ++ [Op.exit 0])).callUses 0 = 0 ∧
    (run [.spawn, .openFile 0 true true, .read 0 3 1 true false]).file 0 = some ⟨2, .regular⟩ ∧
    (run [.spawn, .openFile 0 true true, .read 0 3 1 true false]).slotUses 0 +
      (run [.spawn, .openFile 0 true true, .read 0 3 1 true false]).callUses 0 = 1 := by
  decide +kernel

end OrangeOs.File
