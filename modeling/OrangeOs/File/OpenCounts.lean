import OrangeOs.File.Calls
import OrangeOs.File.Inodes
import OrangeOs.Fs.Lifetime

/-! # Regular file objects and open references

In every state `g_open_refs[i]` is the number of regular file objects with that inode plus the
number of OPEN calls that hold an answer with it. `Keeps` collects what the functions on the
tables have in common that neither make nor free a regular object.
-/

namespace OrangeOs.File

open Function

open Pipe (End)
open Ipc (Tid)
open Fs (Tidy)

/-! ## Functions that keep the regular objects -/

def State.Regular (s : State) (f : FileId) : Prop := ∃ n, s.file f = some ⟨n, .regular⟩

/-- Objects have references and numbers that were given out. -/
structure Sane (s : State) : Prop where
  live : ∀ f o, s.file f = some o → o.refs ≠ 0
  fresh : ∀ f, s.nextFile ≤ f → s.file f = none

/-- The regular objects of `s'` are those of `s`. -/
structure Keeps (s s' : State) : Prop where
  sane : Sane s'
  regular : ∀ f, s'.Regular f ↔ s.Regular f
  next : s.nextFile ≤ s'.nextFile

section Keeps

variable {s s' s'' : State} {f : FileId} {p : ProcId} {t : Tid}

theorem Sane.keeps (h : Sane s) : Keeps s s := ⟨h, fun _ => Iff.rfl, Nat.le_refl _⟩

theorem Keeps.trans (h1 : Keeps s s') (h2 : Keeps s' s'') : Keeps s s'' :=
  ⟨h2.sane, fun f => (h2.regular f).trans (h1.regular f), Nat.le_trans h1.next h2.next⟩

variable (h : Sane s)
include h

theorem Sane.same (hfile : s'.file = s.file) (hnext : s'.nextFile = s.nextFile) : Keeps s s' := by
  refine ⟨⟨?_, ?_⟩, fun f => by rw [State.Regular, State.Regular, hfile], hnext.ge⟩
  · rw [hfile]
    exact h.live
  · rw [hfile, hnext]
    exact h.fresh

theorem Sane.set {o : Option FileObject} (ho : ∀ q, o = some q → q.refs ≠ 0 ∧ f < s'.nextFile)
    (hfile : s'.file = update s.file f o) (hnext : s.nextFile ≤ s'.nextFile) : Sane s' := by
  refine ⟨fun g q hg => ?_, fun g hg => ?_⟩
  · rw [hfile, update_apply] at hg
    split at hg
    · exact (ho q hg).1
    · exact h.live g q hg
  · rw [hfile, update_apply]
    split
    · next hgf =>
      refine Option.eq_none_iff_forall_ne_some.mpr fun q hq => ?_
      exact Nat.not_lt.mpr hg (hgf ▸ (ho q hq).2)
    · exact h.fresh g (Nat.le_trans hnext hg)

theorem Sane.lt_nextFile {o : FileObject} (hf : s.file f = some o) : f < s.nextFile := by
  by_contra hge
  cases (h.fresh f (Nat.le_of_not_lt hge)).symm.trans hf

theorem Sane.edit {o : FileObject} (hf : s.file f = some o) {n : Nat}
    (hn : n = 0 → o.kind ≠ .regular)
    (hfile : s'.file = update s.file f (if n = 0 then none else some { o with refs := n }))
    (hnext : s'.nextFile = s.nextFile) : Keeps s s' := by
  have hlt := h.lt_nextFile hf
  refine ⟨h.set (fun q hq => ?_) hfile hnext.ge, fun g => ?_, hnext.ge⟩
  · split at hq
    · cases hq
    · next hne =>
      cases hq
      exact ⟨hne, hnext ▸ hlt⟩
  · unfold State.Regular
    rw [hfile, update_apply]
    split
    · next hgf =>
      subst hgf
      obtain ⟨refs, kind⟩ := o
      rw [hf]
      by_cases h0 : n = 0
      · simp [h0, hn h0]
      · simp [h0]
    · exact Iff.rfl

theorem Sane.fileRetain (f : FileId) : Keeps s (s.fileRetain f) := by
  unfold State.fileRetain
  cases hf : s.file f with
  | none => exact h.keeps
  | some o =>
    obtain ⟨refs, kind⟩ := o
    cases kind with
    | regular | pipe => exact h.edit (n := refs + 1) hf nofun rfl rfl

omit h in
theorem State.dropEnd_files (s : State) (e : End) (i : PipeId) :
    (s.dropEnd e i).file = s.file ∧ (s.dropEnd e i).nextFile = s.nextFile := by
  unfold State.dropEnd
  split
  · exact ⟨rfl, rfl⟩
  · exact ⟨rfl, rfl⟩

theorem Sane.fileRelease (hf : s.file f ≠ some ⟨1, .regular⟩) : Keeps s (s.fileRelease f) := by
  unfold State.fileRelease
  cases hfile : s.file f with
  | none => exact h.keeps
  | some o =>
    obtain ⟨refs, kind⟩ := o
    have hlive : refs ≠ 0 := h.live f _ hfile
    dsimp only
    rw [if_neg hlive]
    cases kind with
    | regular =>
      refine h.edit hfile (fun h0 => absurd hfile ?_) rfl rfl
      obtain rfl : refs = 1 := by omega
      exact hf
    | pipe e i =>
      obtain ⟨hd, hn⟩ := ({ s with
        file := update s.file f
          (if refs - 1 = 0 then none else some ⟨refs - 1, .pipe e i⟩) } : State).dropEnd_files e i
      exact h.edit hfile (fun _ => nofun) hd hn

theorem Sane.fileRelease_pipe (hf : ¬s.Regular f) : Keeps s (s.fileRelease f) :=
  h.fileRelease fun heq => hf ⟨1, heq⟩

theorem Sane.getFileObject (p : ProcId) (fd : Nat) : Keeps s (s.getFileObject p fd).1 := by
  unfold State.getFileObject
  split
  · exact h.keeps
  · cases s.slot p fd with
    | none => exact h.keeps
    | some f => exact h.fileRetain f

theorem Sane.installFileObject (p : ProcId) (f : FileId) : Keeps s (s.installFileObject p f).1 := by
  unfold State.installFileObject
  split
  · exact h.same rfl rfl
  · exact h.keeps

theorem Sane.detachFileObject (p : ProcId) (fd : Nat) : Keeps s (s.detachFileObject p fd).1 := by
  unfold State.detachFileObject
  split
  · exact h.keeps
  · exact h.same rfl rfl

theorem Sane.takeFiles (p : ProcId) (fds : List Nat) : Keeps s (State.takeFiles p fds s).1 := by
  induction fds generalizing s with
  | nil => exact h.keeps
  | cons fd fds ih =>
    have hset : Keeps s (s.setSlot p fd none) := h.same rfl rfl
    exact hset.trans (ih hset.sane)

theorem Sane.inherit (p c : ProcId) (fds : List Nat) :
    Keeps s (fds.foldl (fun s fd => s.inherit p c fd) s) := by
  induction fds generalizing s with
  | nil => exact h.keeps
  | cons fd fds ih =>
    have hone : Keeps s (s.inherit p c fd) := by
      unfold State.inherit
      cases s.slot p fd with
      | none => exact h.same rfl rfl
      | some f =>
        have hset : Keeps s (s.setSlot c fd (some f)) := h.same rfl rfl
        exact hset.trans (hset.sane.fileRetain f)
    exact hone.trans (ih hone.sane)

theorem Sane.leave (hf : ¬s.Regular f) : Keeps s (s.leave t f) := by
  have hcall : Keeps s { s with call := update s.call t none } := h.same rfl rfl
  exact hcall.trans (hcall.sane.fileRelease_pipe fun hr => hf ((hcall.regular f).mp hr))

theorem Sane.round (hcall : ∀ c, s.call t = some c → ¬s.Regular c.file) : Keeps s (s.round t) := by
  have hpipe : ∀ {i q f}, ¬s.Regular f → Keeps s ((s.setPipe i q).leave t f) := by
    intro i q f hf
    have hset : Keeps s (s.setPipe i q) := h.same rfl rfl
    exact hset.trans (hset.sane.leave fun hr => hf ((hset.regular f).mp hr))
  unfold State.round
  split
  · exact h.keeps
  · next f length hc =>
    have hf := hcall _ hc
    split
    · split
      · exact h.keeps
      · split
        · exact hpipe hf
        · split
          · exact h.leave hf
          · exact h.keeps
    · exact h.leave hf
  · next f length hc =>
    have hf := hcall _ hc
    split
    · split
      · exact h.keeps
      · split
        · exact h.leave hf
        · split
          · exact hpipe hf
          · exact h.keeps
    · exact h.leave hf

theorem Sane.enter {c : Call} (hc : ¬s.Regular c.file) : Keeps s (s.enter t c) := by
  have hset : Keeps s { s with call := update s.call t (some c) } := h.same rfl rfl
  refine hset.trans (hset.sane.round fun c' hc' => ?_)
  rw [show c' = c from Option.some.inj (hc'.symm.trans (update_self _ _ _))]
  exact fun hr => hc ((hset.regular _).mp hr)

omit h in
theorem Keeps.fileRelease (h : Keeps s s') (hf : ¬s.Regular f) : Keeps s (s'.fileRelease f) :=
  h.trans (h.sane.fileRelease_pipe fun hr => hf ((h.regular f).mp hr))

theorem Sane.newPipe : Keeps s s.newPipe := by
  have hr := h.fresh s.nextFile (Nat.le_refl _)
  have hw := h.fresh (s.nextFile + 1) (Nat.le_succ _)
  refine ⟨⟨fun g q hg => ?_, fun g hg => ?_⟩, fun g => ⟨?_, ?_⟩, Nat.le_add_right _ 2⟩
  · rcases State.newPipe_file hg with ⟨e, rfl, -⟩ | hg
    · exact Nat.one_ne_zero
    · exact h.live g q hg
  · have hg : s.nextFile + 2 ≤ g := hg
    dsimp only [State.newPipe]
    rw [update_of_ne (show g ≠ s.nextFile + 1 by omega),
      update_of_ne (show g ≠ s.nextFile by omega)]
    exact h.fresh g (by omega)
  · rintro ⟨n, hn⟩
    rcases State.newPipe_file hn with ⟨e, he, -⟩ | hn
    · cases he
    · exact ⟨n, hn⟩
  · rintro ⟨n, hn⟩
    refine ⟨n, ?_⟩
    dsimp only [State.newPipe]
    rw [update_of_ne, update_of_ne]
    · exact hn
    · rintro rfl
      cases hr.symm.trans hn
    · rintro rfl
      cases hw.symm.trans hn

theorem Sane.sysPipe (p : ProcId) (writable pipe readFile writeFile copied : Bool) :
    Keeps s (s.sysPipe p writable pipe readFile writeFile copied) := by
  have hfree : ∀ f, s.nextFile ≤ f → ¬s.Regular f := by
    rintro f hf ⟨n, hn⟩
    cases (h.fresh f hf).symm.trans hn
  unfold State.sysPipe
  split
  · exact h.keeps
  · rcases s.pipeCreate_eq pipe readFile writeFile with heq | heq
    · rw [heq]
      exact h.keeps
    rw [heq]
    dsimp only
    have hr := hfree s.nextFile (Nat.le_refl _)
    have hw := hfree (s.nextFile + 1) (Nat.le_succ _)
    have hread := h.newPipe.trans (h.newPipe.sane.installFileObject p s.nextFile)
    cases hi : s.newPipe.installFileObject p s.nextFile with
    | mk s1 out =>
      rw [hi] at hread
      cases out with
      | none => exact (hread.fileRelease hr).fileRelease hw
      | some fd =>
        have hwrite := hread.trans (hread.sane.installFileObject p (s.nextFile + 1))
        dsimp only at hwrite ⊢
        cases hi' : s1.installFileObject p (s.nextFile + 1) with
        | mk s2 out' =>
          rw [hi'] at hwrite
          cases out' with
          | none =>
            have hdrop := hwrite.fileRelease hr
            exact (hdrop.trans (hdrop.sane.detachFileObject p fd)).fileRelease hw
          | some fd' =>
            dsimp only
            split
            · exact hwrite
            · have hdrop := (hwrite.trans (hwrite.sane.detachFileObject p fd)).fileRelease hr
              exact (hdrop.trans (hdrop.sane.detachFileObject p fd')).fileRelease hw

end Keeps

/-! ## The count -/

namespace System

variable {s : System} {f : FileId}

theorem inodeOf_eq_some {i : Nat} : s.inodeOf f = some i ↔ s.tables.Regular f ∧ s.inode f = i := by
  unfold inodeOf State.Regular
  constructor
  · intro h
    split at h
    · next n hf => exact ⟨⟨n, hf⟩, Option.some.inj h⟩
    · cases h
  · rintro ⟨⟨n, hf⟩, rfl⟩
    rw [hf]

theorem inodeOf_eq_none : s.inodeOf f = none ↔ ¬s.tables.Regular f := by
  constructor
  · intro h hr
    exact absurd (inodeOf_eq_some.mpr ⟨hr, rfl⟩) (by simp [h])
  · intro h
    cases hi : s.inodeOf f with
    | none => rfl
    | some i => exact absurd (inodeOf_eq_some.mp hi).1 h

/-- The references of the file system are those of the file objects and of the answers. -/
structure Counted (s : System) : Prop where
  sane : Sane s.tables
  tidy : Tidy s.volume
  counted : ∀ i, (s.volume.openRefs i).toNat = s.openObjects i + s.openings i

theorem inodeOf_keeps (s' : System) (hk : Keeps s.tables s'.tables) (hinode : s'.inode = s.inode) :
    s'.inodeOf = s.inodeOf := by
  funext f
  apply Option.ext
  intro i
  rw [inodeOf_eq_some, inodeOf_eq_some, hk.regular f, hinode]

theorem openObjects_keeps (s' : System) (hs : Sane s.tables) (hk : Keeps s.tables s'.tables)
    (hinode : s'.inode = s.inode) (i : Nat) : s'.openObjects i = s.openObjects i := by
  unfold openObjects
  rw [inodeOf_keeps s' hk hinode]
  refine pointing_range hk.next (fun g hg => inodeOf_eq_none.mpr ?_) i
  rintro ⟨n, hn⟩
  cases (hs.fresh g hg).symm.trans hn

theorem openObjects_update (s' : System) (hf : f < s.tables.nextFile)
    (hnext : s'.tables.nextFile = s.tables.nextFile)
    (hother : ∀ g, g ≠ f → s'.inodeOf g = s.inodeOf g) (i : Nat) :
    s'.openObjects i + (s.inodeOf f).toList.count i =
      s.openObjects i + (s'.inodeOf f).toList.count i := by
  unfold openObjects
  rw [hnext]
  exact pointing_update List.nodup_range (List.mem_range.mpr hf) _ _ (fun g _ => hother g) i

theorem Counted.setTables (h : Counted s) {tables : State} (hk : Keeps s.tables tables) :
    Counted { s with tables := tables } := by
  refine ⟨hk.sane, h.tidy, fun i => ?_⟩
  rw [openObjects_keeps { s with tables := tables } h.sane hk rfl i]
  exact h.counted i

theorem Counted.setVolume (h : Counted s) {v : Fs.Volume} (hv : Tidy v)
    (hrefs : v.openRefs = s.volume.openRefs) (offset : FileId → Nat) :
    Counted { s with volume := v, offset := offset } := by
  refine ⟨h.sane, hv, fun i => ?_⟩
  rw [hrefs]
  exact h.counted i

end System

end OrangeOs.File
