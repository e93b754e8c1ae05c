import OrangeOs.File.References

/-! # System calls on descriptors

Each system call takes a balanced state to a balanced state, but for READ without memory for its
staging buffer and for the exit of a process one of whose threads is in READ or WRITE.
-/

namespace OrangeOs.File

open Function List State

open Pipe (End)
open Ipc (Tid)

variable {s : State} {f : FileId} {t : Tid} {p : ProcId} {fd : Nat} {held : List FileId}

/-! ## READ and WRITE -/

theorem Balanced.leave (h : Balanced held s) {c : Call} (hc : s.call t = some c)
    (ht : s.process t = some p) : Balanced held (s.leave t c.file) := by
  have huse : s.objectInUse t = some c.file := by
    unfold objectInUse
    rw [ht, hc]
    rfl
  have hset := Balanced.setCall (c := none) h ht
  rw [huse] at hset
  exact hset.fileRelease

theorem Balanced.setCount (h : Balanced held s) {i : PipeId} {q : PipeObject}
    (hq : s.pipe i = some q) (n : Nat) : Balanced held (s.setPipe i { q with count := n }) := by
  have hpipe : ∀ j r, (s.setPipe i { q with count := n }).pipe j = some r →
      ∃ r', s.pipe j = some r' ∧ ∀ e, r.refs e = r'.refs e := by
    intro j r hr
    dsimp only [setPipe] at hr
    by_cases hji : j = i
    · subst hji
      rw [update_self] at hr
      cases hr
      exact ⟨q, hq, fun e => by cases e <;> rfl⟩
    · rw [update_of_ne hji] at hr
      exact ⟨r, hr, fun _ => rfl⟩
  have hobjects : Objects (s.setPipe i { q with count := n }) := by
    refine { h.objects with pipes := ?_, ends := ?_, shared := ?_, pipe := ?_ }
    · intro j hj
      have hji : j ≠ i := by
        rintro rfl
        cases (h.objects.pipes j hj).symm.trans hq
      exact (update_of_ne hji _ _).trans (h.objects.pipes j hj)
    · intro j r hr e
      obtain ⟨r', hr', hrefs⟩ := hpipe j r hr
      rw [hrefs e]
      exact h.objects.ends j r' hr' e
    · intro j r hr
      obtain ⟨r', hr', hrefs⟩ := hpipe j r hr
      obtain ⟨e, he⟩ := h.objects.shared j r' hr'
      exact ⟨e, hrefs e ▸ he⟩
    · intro g o e j hg hk
      dsimp only [setPipe]
      by_cases hji : j = i
      · subst hji
        rw [update_self]
        exact Option.some_ne_none _
      · rw [update_of_ne hji]
        exact h.objects.pipe g o e j hg hk
  exact ⟨hobjects, { h.tables with }, h.refs⟩

theorem Balanced.round (h : Balanced held s) (t : Tid) : Balanced held (s.round t) := by
  unfold State.round
  cases hc : s.call t with
  | none => exact h
  | some c =>
    obtain ⟨p, ht⟩ := Option.ne_none_iff_exists'.mp (h.tables.calls t c hc)
    cases c with
    | read f length =>
      have hleave : Balanced held (s.leave t f) := h.leave hc ht
      dsimp only
      split
      next i hk =>
        split
        · exact h
        next q hq =>
          split_ifs
          · exact (h.setCount hq _).leave (c := .read f length) hc ht
          · exact hleave
          · exact h
      · exact hleave
    | write f length =>
      have hleave : Balanced held (s.leave t f) := h.leave hc ht
      dsimp only
      split
      next i hk =>
        split
        · exact h
        next q hq =>
          split_ifs
          · exact hleave
          · exact (h.setCount hq _).leave (c := .write f length) hc ht
          · exact h
      · exact hleave

theorem Balanced.enter {c : Call} (h : Balanced (c.file :: held) s) (ht : s.process t = some p)
    (hc : s.call t = none) : Balanced held (s.enter t c) := by
  have huse : s.objectInUse t = none := by
    unfold objectInUse
    rw [ht, hc]
    rfl
  have hset := Balanced.setCall (c := some c) h ht
  rw [huse] at hset
  exact hset.round t

/-- READ gets as far as its staging buffer with an object in hand. -/
def State.Stages (s : State) (t : Tid) (fd length : Nat) (writable : Bool) : Prop :=
  0 < length ∧ length ≤ 4096 ∧ writable = true ∧ fd < fdCount ∧
    ∃ p ∈ s.process t, s.slot p fd ≠ none

theorem Balanced.sysRead (h : Balanced [] s) (ht : s.process t = some p) (hc : s.call t = none)
    {length : Nat} {writable staging : Bool}
    (hok : s.Stages t fd length writable → staging = true) :
    Balanced [] (s.sysRead t p fd length writable staging) := by
  unfold State.sysRead
  split
  · exact h
  next hargs =>
    rcases h.getFileObject (h.tables.owners t p ht) fd with heq | ⟨f, hfd, hf, heq, hget⟩
    · rw [heq]
      exact h
    · have hstages : s.Stages t fd length writable := by
        refine ⟨by omega, by omega, ?_, hfd, p, ht, ?_⟩
        · cases writable with
          | true => rfl
          | false => exact absurd (Or.inr (Or.inr rfl)) hargs
        · rw [hf]
          exact Option.some_ne_none _
      rw [heq]
      dsimp only
      rw [if_neg (by rw [hok hstages]; exact Bool.noConfusion)]
      obtain ⟨-, hprocess, hcall, -⟩ := s.fileRetain_tables f
      exact Balanced.enter (c := .read f length) hget (hprocess ▸ ht) (hcall ▸ hc)

theorem Balanced.sysWrite (h : Balanced [] s) (ht : s.process t = some p) (hc : s.call t = none)
    (length : Nat) (staging copied : Bool) :
    Balanced [] (s.sysWrite t p fd length staging copied) := by
  unfold State.sysWrite
  split
  · exact h
  · rcases h.getFileObject (h.tables.owners t p ht) fd with heq | ⟨f, -, -, heq, hget⟩
    · rw [heq]
      exact h
    · rw [heq]
      dsimp only
      split
      · exact hget.fileRelease
      · obtain ⟨-, hprocess, hcall, -⟩ := s.fileRetain_tables f
        exact Balanced.enter (c := .write f length) hget (hprocess ▸ ht) (hcall ▸ hc)

/-! ## New objects -/

theorem State.EndRefs.create {i : PipeId} {e : End} {n : Nat} (h : s.EndRefs i e n) {s' : State}
    {o : FileObject} (hnew : s.file f = none)
    (hfile : s'.file = update s.file f (some o)) (hk : o.kind ≠ .pipe e i) :
    s'.EndRefs i e n := by
  rcases h with ⟨g, hg⟩ | ⟨hn, hnone⟩
  · have hgf : g ≠ f := by
      rintro rfl
      cases hnew.symm.trans hg
    exact Or.inl ⟨g, by rw [hfile, update_of_ne hgf, hg]⟩
  · refine Or.inr ⟨hn, fun g q hg hq => ?_⟩
    rw [hfile] at hg
    by_cases hgf : g = f
    · rw [hgf, update_self] at hg
      cases hg
      exact hk hq
    · rw [update_of_ne hgf] at hg
      exact hnone g q hg hq

theorem State.fileCreate_file {k : Kind} {g : FileId} {q : FileObject}
    (hg : (s.fileCreate k).1.file g = some q) :
    g = s.nextFile ∧ q = ⟨1, k⟩ ∨ g ≠ s.nextFile ∧ s.file g = some q := by
  dsimp only [fileCreate] at hg
  by_cases hgn : g = s.nextFile
  · rw [hgn, update_self] at hg
    cases hg
    exact Or.inl ⟨hgn, rfl⟩
  · rw [update_of_ne hgn] at hg
    exact Or.inr ⟨hgn, hg⟩

theorem State.refs_fileCreate (hnew : s.file s.nextFile = none) (k : Kind) (g : FileId) :
    (s.fileCreate k).1.refs g = s.refs g + [s.nextFile].count g := by
  dsimp only [fileCreate, refs]
  by_cases hgn : g = s.nextFile
  · rw [hgn, update_self, hnew, count_singleton_self]
  · rw [update_of_ne hgn, count_cons_of_ne (Ne.symm hgn), count_nil]
    rfl

theorem Balanced.fileCreate (h : Balanced held s) :
    Balanced ((s.fileCreate .regular).2 :: held) (s.fileCreate .regular).1 := by
  have hnew := h.objects.files s.nextFile (Nat.le_refl _)
  have hobjects : Objects (s.fileCreate .regular).1 := by
    refine { h.objects with live := ?_, files := ?_, ends := ?_, pipe := ?_, one := ?_ }
    · intro g q hg
      rcases fileCreate_file hg with ⟨-, rfl⟩ | ⟨-, hg⟩
      · exact Nat.one_ne_zero
      · exact h.objects.live g q hg
    · intro g hg
      have hlt : s.nextFile < g := hg
      have hold := h.objects.files g (Nat.le_of_lt hlt)
      exact (update_of_ne (Nat.ne_of_gt hlt) _ _).trans hold
    · exact fun i q hq e => (h.objects.ends i q hq e).create hnew rfl Kind.noConfusion
    · intro g q e i hg hk
      rcases fileCreate_file hg with ⟨-, rfl⟩ | ⟨-, hg⟩
      · cases hk
      · exact h.objects.pipe g q e i hg hk
    · intro g g' q q' e i hg hg' hk hk'
      rcases fileCreate_file hg with ⟨-, rfl⟩ | ⟨-, hg⟩
      · cases hk
      · rcases fileCreate_file hg' with ⟨-, rfl⟩ | ⟨-, hg'⟩
        · cases hk'
        · exact h.objects.one g g' q q' e i hg hg' hk hk'
  refine ⟨hobjects, { h.tables with }, fun g => ?_⟩
  have hrefs := h.refs g
  have hslots : (s.fileCreate .regular).1.slotUses g = s.slotUses g := rfl
  have hcalls : (s.fileCreate .regular).1.callUses g = s.callUses g := rfl
  have hsplit : ((s.fileCreate .regular).2 :: held).count g =
      [s.nextFile].count g + held.count g := by
    rw [← count_append]
    rfl
  rw [refs_fileCreate hnew, hslots, hcalls, hsplit]
  omega

theorem Balanced.sysOpen (h : Balanced [] s) (hp : p < s.nextProc) (found created : Bool) :
    Balanced [] (s.sysOpen p found created) := by
  unfold State.sysOpen
  split
  · exact h
  · exact h.fileCreate.installOrRelease hp

theorem Balanced.sysClose (h : Balanced [] s) (hp : p < s.nextProc) (fd : Nat) :
    Balanced [] (s.sysClose p fd) := by
  unfold State.sysClose
  by_cases hfd : fdCount ≤ fd
  · unfold State.detachFileObject
    rw [if_pos hfd]
    exact h
  · have hdetach := h.detachFileObject hp (Nat.not_le.mp hfd)
    unfold State.detachFileObject at hdetach ⊢
    rw [if_neg hfd] at hdetach ⊢
    cases hf : s.slot p fd with
    | none =>
      rw [hf] at hdetach
      exact hdetach
    | some f =>
      rw [hf] at hdetach
      exact Balanced.fileRelease hdetach

theorem Balanced.sysDup (h : Balanced [] s) (hp : p < s.nextProc) (fd : Nat) :
    Balanced [] (s.sysDup p fd) := by
  unfold State.sysDup
  rcases h.getFileObject hp fd with heq | ⟨f, -, -, heq, hget⟩
  · rw [heq]
    exact h
  · rw [heq]
    exact hget.installOrRelease ((s.fileRetain_tables f).2.2.2 ▸ hp)

theorem Balanced.sysDup2 (h : Balanced [] s) (hp : p < s.nextProc) (fd newfd : Nat) :
    Balanced [] (s.sysDup2 p fd newfd) := by
  unfold State.sysDup2
  split
  · exact h
  next hvalid =>
    split
    · rcases h.getFileObject hp fd with heq | ⟨f, -, -, heq, hget⟩
      · rw [heq]
        exact h
      · rw [heq]
        exact hget.fileRelease
    next hne =>
      cases hf : s.slot p fd with
      | none => exact h
      | some f =>
        have hget := h.fileRetain (h.refs_of_slot hp (by omega) hf)
        obtain ⟨hslot, -, -, hnext⟩ := s.fileRetain_tables f
        have hset : Balanced (((s.fileRetain f).slot p newfd).toList ++ [])
            ((s.fileRetain f).setSlot p newfd (some f)) :=
          Balanced.setSlot hget (hnext ▸ hp) (by omega)
        rw [hslot] at hset
        cases hg : s.slot p newfd with
        | none =>
          rw [hg] at hset
          exact hset
        | some g =>
          rw [hg] at hset
          exact Balanced.fileRelease hset

/-! ## PIPE -/

/-- A new pipe with its two file objects. -/
def State.newPipe (s : State) : State :=
  { s with
    file := update (update s.file s.nextFile
      (some ⟨1, .pipe .read s.nextPipe⟩)) (s.nextFile + 1) (some ⟨1, .pipe .write s.nextPipe⟩)
    pipe := update s.pipe s.nextPipe (some ⟨1, 1, 0⟩)
    nextFile := s.nextFile + 2
    nextPipe := s.nextPipe + 1 }

theorem State.pipeCreate_eq (s : State) (pipe readFile writeFile : Bool) :
    s.pipeCreate pipe readFile writeFile = (s, none) ∨
      s.pipeCreate pipe readFile writeFile =
        (s.newPipe, some (s.nextFile, s.nextFile + 1)) := by
  unfold pipeCreate
  split
  · exact Or.inl rfl
  · exact Or.inr rfl

theorem State.newPipe_file {g : FileId} {q : FileObject} (hg : s.newPipe.file g = some q) :
    (∃ e, q = ⟨1, .pipe e s.nextPipe⟩ ∧
      g = match e with | .read => s.nextFile | .write => s.nextFile + 1) ∨
      s.file g = some q := by
  dsimp only [newPipe] at hg
  by_cases hw : g = s.nextFile + 1
  · rw [hw, update_self] at hg
    cases hg
    exact Or.inl ⟨.write, rfl, hw⟩
  · rw [update_of_ne hw] at hg
    by_cases hr : g = s.nextFile
    · rw [hr, update_self] at hg
      cases hg
      exact Or.inl ⟨.read, rfl, hr⟩
    · rw [update_of_ne hr] at hg
      exact Or.inr hg

theorem Objects.newPipe (h : Objects s) : Objects s.newPipe := by
  have hread := h.files s.nextFile (Nat.le_refl _)
  have hwrite : (s.fileCreate (.pipe .read s.nextPipe)).1.file (s.nextFile + 1) = none :=
    (update_of_ne (Nat.succ_ne_self _) _ _).trans
      (h.files (s.nextFile + 1) (Nat.le_succ _))
  have hold : ∀ g q e, s.file g = some q → q.kind ≠ .pipe e s.nextPipe := fun g q e hg hk =>
    h.pipe g q e _ hg hk (h.pipes s.nextPipe (Nat.le_refl _))
  constructor
  case live =>
    intro g q hg
    rcases newPipe_file hg with ⟨e, rfl, -⟩ | hg
    · exact Nat.one_ne_zero
    · exact h.live g q hg
  case files =>
    intro g hg
    have hlt : s.nextFile + 2 ≤ g := hg
    have hr : g ≠ s.nextFile := by omega
    have hw : g ≠ s.nextFile + 1 := by omega
    dsimp only [State.newPipe]
    rw [update_of_ne hw, update_of_ne hr]
    exact h.files g (by omega)
  case pipes =>
    intro i hi
    have hlt : s.nextPipe < i := hi
    dsimp only [State.newPipe]
    rw [update_of_ne (Nat.ne_of_gt hlt)]
    exact h.pipes i (Nat.le_of_lt hlt)
  case ends =>
    intro i q hq e
    dsimp only [State.newPipe] at hq
    by_cases hi : i = s.nextPipe
    · rw [hi, update_self] at hq
      cases hq
      rw [hi]
      cases e with
      | read =>
        refine Or.inl ⟨s.nextFile, ?_⟩
        dsimp only [State.newPipe]
        rw [update_of_ne (Nat.succ_ne_self _).symm, update_self]
        rfl
      | write => exact Or.inl ⟨s.nextFile + 1, update_self _ _ _⟩
    · rw [update_of_ne hi] at hq
      have hk : ∀ e' m, (⟨m, .pipe e' s.nextPipe⟩ : FileObject).kind ≠ .pipe e i := by
        rintro e' m ⟨⟩
        exact hi rfl
      have hfirst : (s.fileCreate (.pipe .read s.nextPipe)).1.EndRefs i e (q.refs e) :=
        (h.ends i q hq e).create hread rfl (hk .read 1)
      exact hfirst.create hwrite rfl (hk .write 1)
  case shared =>
    intro i q hq
    dsimp only [State.newPipe] at hq
    by_cases hi : i = s.nextPipe
    · rw [hi, update_self] at hq
      cases hq
      exact ⟨.read, Nat.one_ne_zero⟩
    · rw [update_of_ne hi] at hq
      exact h.shared i q hq
  case pipe =>
    intro g q e i hg hk
    dsimp only [State.newPipe]
    by_cases hi : i = s.nextPipe
    · rw [hi, update_self]
      exact Option.some_ne_none _
    · rw [update_of_ne hi]
      rcases newPipe_file hg with ⟨e', rfl, -⟩ | hg
      · cases hk
        exact absurd rfl hi
      · exact h.pipe g q e i hg hk
  case one =>
    intro g g' q q' e i hg hg' hk hk'
    rcases newPipe_file hg with ⟨e1, rfl, hg1⟩ | hg
    · cases hk
      rcases newPipe_file hg' with ⟨e2, rfl, hg2⟩ | hg'
      · cases hk'
        exact hg1.trans hg2.symm
      · exact absurd hk' (hold g' q' e hg')
    · rcases newPipe_file hg' with ⟨e2, rfl, hg2⟩ | hg'
      · cases hk'
        exact absurd hk (hold g q e hg)
      · exact h.one g g' q q' e i hg hg' hk hk'

theorem Balanced.newPipe (h : Balanced held s) :
    Balanced (s.nextFile :: (s.nextFile + 1) :: held) s.newPipe := by
  refine ⟨h.objects.newPipe, { h.tables with }, fun g => ?_⟩
  have hslots : s.newPipe.slotUses g = s.slotUses g := rfl
  have hcalls : s.newPipe.callUses g = s.callUses g := rfl
  have hrefs := h.refs g
  have hread := h.objects.files s.nextFile (Nat.le_refl _)
  have hwrite := h.objects.files (s.nextFile + 1) (Nat.le_succ _)
  have hnew : s.newPipe.refs g = s.refs g + [s.nextFile, s.nextFile + 1].count g := by
    dsimp only [State.refs, State.newPipe]
    by_cases hw : g = s.nextFile + 1
    · rw [hw, update_self, hwrite]
      simp
    · rw [update_of_ne hw]
      by_cases hr : g = s.nextFile
      · rw [hr, update_self, hread]
        simp
      · rw [update_of_ne hr]
        simp [Ne.symm hw, Ne.symm hr]
  have hsplit : (s.nextFile :: (s.nextFile + 1) :: held).count g =
      [s.nextFile, s.nextFile + 1].count g + held.count g := by
    rw [← count_append]
    rfl
  rw [hnew, hslots, hcalls, hsplit]
  omega

theorem Balanced.detachRelease (h : Balanced held s) (hp : p < s.nextProc) (hfd : fd < fdCount)
    (hf : s.slot p fd = some f) : Balanced held ((s.detachFileObject p fd).1.fileRelease f) := by
  have hdetach := h.detachFileObject hp hfd
  rw [hf] at hdetach
  exact Balanced.fileRelease hdetach

theorem State.detachFileObject_fst (s : State) (p : ProcId) (hfd : fd < fdCount) :
    (s.detachFileObject p fd).1 = s.setSlot p fd none := by
  unfold detachFileObject
  rw [if_neg (Nat.not_le.mpr hfd)]

theorem Balanced.sysPipe (h : Balanced [] s) (hp : p < s.nextProc)
    (writable pipe readFile writeFile copied : Bool) :
    Balanced [] (s.sysPipe p writable pipe readFile writeFile copied) := by
  unfold State.sysPipe
  split
  · exact h
  · rcases s.pipeCreate_eq pipe readFile writeFile with heq | heq
    · rw [heq]
      exact h
    rw [heq]
    dsimp only
    have hnew := h.newPipe
    generalize s.nextFile + 1 = w at hnew ⊢
    generalize s.nextFile = r at hnew ⊢
    have hp' : p < s.newPipe.nextProc := hp
    generalize s.newPipe = s1 at hnew hp' ⊢
    rcases hnew.installFileObject hp' with heq | ⟨fd, hfd, -, heq, hset⟩
    · rw [heq]
      exact hnew.fileRelease.fileRelease
    rw [heq]
    dsimp only
    have hr : (s1.setSlot p fd (some r)).slot p fd = some r := s1.setSlot_self p fd (some r)
    have hp2 : p < (s1.setSlot p fd (some r)).nextProc := hp'
    generalize s1.setSlot p fd (some r) = s2 at hset hr hp2 ⊢
    rcases hset.installFileObject hp2 with heq | ⟨fd', hfd', hfree, heq, hset'⟩
    · -- releasing and clearing the descriptor may change places
      rw [heq]
      dsimp only
      rw [detachFileObject_fst _ p hfd, ← fileRelease_setSlot,
        ← detachFileObject_fst _ p hfd]
      exact (hset.detachRelease hp2 hfd hr).fileRelease
    rw [heq]
    dsimp only
    split
    · exact hset'
    · have hne : (p, fd) ≠ (p, fd') := by
        rintro ⟨⟩
        cases hfree.symm.trans hr
      have hr' := (s2.setSlot_of_ne (some w) hne).trans hr
      have hw := s2.setSlot_self p fd' (some w)
      have hp3 : p < (s2.setSlot p fd' (some w)).nextProc := hp2
      generalize s2.setSlot p fd' (some w) = s3 at hset' hr' hw hp3 ⊢
      have hfirst := hset'.detachRelease hp3 hfd hr'
      rw [detachFileObject_fst _ p hfd] at hfirst ⊢
      obtain ⟨hslot, -, -, hnext⟩ := (s3.setSlot p fd none).fileRelease_tables r
      refine hfirst.detachRelease (hnext ▸ hp3) hfd' ?_
      rw [hslot]
      exact (s3.setSlot_of_ne none hne.symm).trans hw

/-! ## Processes and threads -/

theorem Balanced.newProcess (h : Balanced held s) :
    Balanced held { s with nextProc := s.nextProc + 1 } := by
  have hobjects : Objects { s with nextProc := s.nextProc + 1 } := { h.objects with }
  refine h.frame hobjects { h.tables with slots := ?_, owners := ?_ } rfl (funext fun f => ?_)
    fun _ => rfl
  · exact fun q d hq => h.tables.slots q d (Nat.le_of_succ_le hq)
  · exact fun u q hu => Nat.lt_succ_of_lt (h.tables.owners u q hu)
  · have hslots : ({ s with nextProc := s.nextProc + 1 } : State).slots =
        s.slots ++ (range fdCount).map (Prod.mk s.nextProc) := by
      change (range (s.nextProc + 1)).flatMap _ = _
      rw [range_succ, flatMap_append, flatMap_singleton]
      rfl
    have hzero : pointing ((range fdCount).map (Prod.mk s.nextProc))
        (fun k => s.slot k.1 k.2) f = 0 := by
      rw [pointing_eq_zero]
      intro k hk hf
      obtain ⟨d, -, rfl⟩ := mem_map.mp hk
      cases (h.tables.slots s.nextProc d (Nat.le_refl _)).symm.trans hf
    unfold slotUses
    rw [hslots, pointing_append, hzero]
    rfl

theorem Tables.call_none (h : Tables s) {t : Tid} (ht : s.process t = none) : s.call t = none := by
  cases hc : s.call t with
  | none => rfl
  | some c => exact absurd ht (h.calls t c hc)

theorem Balanced.newThread (h : Balanced held s) {c : ProcId} (hc : c < s.nextProc)
    (running : ProcId → Bool) :
    Balanced held { s with
      running := running
      process := update s.process s.nextTid (some c)
      nextTid := s.nextTid + 1 } := by
  have hidle := h.tables.call_none (h.tables.threads s.nextTid (Nat.le_refl _))
  generalize hs' : ({ s with
      running := running
      process := update s.process s.nextTid (some c)
      nextTid := s.nextTid + 1 } : State) = s'
  have hobjects : Objects s' := by rw [← hs']; exact { h.objects with }
  have hother : ∀ u, u ≠ s.nextTid → s'.process u = s.process u := by
    intro u hu
    rw [← hs']
    exact update_of_ne hu _ _
  have hself : s'.process s.nextTid = some c := by
    rw [← hs']
    exact update_self _ _ _
  have hcall : s'.call = s.call := by rw [← hs']
  have hnext : s'.nextTid = s.nextTid + 1 := by rw [← hs']
  have htables : Tables s' := by
    refine ⟨by rw [← hs']; exact h.tables.slots, fun u hu => ?_, fun u q hu => ?_, fun u d hd => ?_⟩
    · rw [hnext] at hu
      rw [hother u (by omega)]
      exact h.tables.threads u (by omega)
    · have hproc : s'.nextProc = s.nextProc := by rw [← hs']
      rw [hproc]
      by_cases hut : u = s.nextTid
      · rw [hut, hself] at hu
        cases hu
        exact hc
      · exact h.tables.owners u q (hother u hut ▸ hu)
    · rw [hcall] at hd
      by_cases hut : u = s.nextTid
      · rw [hut, hself]
        exact Option.some_ne_none _
      · rw [hother u hut]
        exact h.tables.calls u d hd
  refine h.frame hobjects htables (by rw [← hs']; rfl) (by rw [← hs']; rfl) fun f => ?_
  have hnew : s'.objectInUse s.nextTid = none := by
    unfold objectInUse
    rw [hself, hcall, hidle]
    rfl
  have hold : ∀ u ∈ range s.nextTid, s'.objectInUse u = s.objectInUse u := by
    intro u hu
    unfold objectInUse
    rw [hother u (Nat.ne_of_lt (mem_range.mp hu)), hcall]
  unfold callUses
  rw [hnext, range_succ, pointing_append, pointing_congr hold, pointing_cons, hnew]
  rfl

end OrangeOs.File
