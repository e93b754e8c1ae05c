import OrangeOs.Fs.Creation

/-! # Runs of the file system

The operations a client can cause, each with arbitrary arguments, and the
invariant over whole runs: every operation, whether it succeeds or fails, leads
from a healthy volume to a healthy one.
-/

namespace OrangeOs.Fs

open Bytes Function

/-- A NUL-terminated string, without its NUL. -/
abbrev CString := { s : Str // (0 : UInt8) ∉ s }

inductive FileType where
  | file
  | directory
deriving DecidableEq

def FileType.code : FileType → UInt16
  | .file => fsTypeFile
  | .directory => fsTypeDirectory

theorem FileType.code_cases (t : FileType) : t.code = fsTypeFile ∨ t.code = fsTypeDirectory := by
  cases t
  · exact Or.inl rfl
  · exact Or.inr rfl

/-- `fs_create_path`, `fs_write_inode`, an open request with its flags (bit 0
creates, bit 1 truncates), `fs_unlink_path` and `release_inode`. Paths are
resolved from the root, as every caller does. -/
inductive Op where
  | create (path : CString) (type : FileType)
  | write (nr offset : Nat) (data : List UInt8)
  | openPath (path : CString) (flags : UInt32)
  | unlink (path : CString)
  | release (nr : Nat)

def Op.apply (v : Volume) : Op → Volume
  | .create path type => (fsCreatePath v path fsRootInode type.code).2
  | .write nr offset data => (fsWriteInode v nr offset data).2
  | .openPath path flags => (fsOpen v path flags).2
  | .unlink path => (fsUnlinkPath v path fsRootInode).2
  | .release nr => releaseInode v nr

def runOps (v : Volume) (ops : List Op) : Volume := ops.foldl Op.apply v

/-! ## Operations on files -/

variable {v : Volume} {path : Str}

theorem Healthy.of_same {w : Volume} (h : Healthy v) (hs : Sound w)
    (hsame : SameNames (view v) (view w)) : Healthy w := ⟨hs, h.names.same hsame⟩

theorem IsFile.type_view {nr : Nat} (hf : IsFile v nr) : ((view v).info nr).type = fsTypeFile := by
  rw [hf.info]
  exact hf.type

section

variable (h : Healthy v)
include h

theorem Healthy.rewritten {w : Volume} {nr : Nat} {D : Nat → Block} {size : UInt64}
    (hf : IsFile v nr) (hs : Sound w) (hview : view w =
      ((view v).setBlocks nr D).setInfo nr { (view v).info nr with size := size }) : Healthy w := by
  refine h.of_same hs (OnlyAt.sameNames_file h.names (i := nr) ?_ hf.type_view ?_ ?_)
  · rw [hview]
    exact ⟨rfl, rfl, fun j hj => update_of_ne hj _ _, fun j hj => update_of_ne hj _ _⟩
  · rw [hview]
    simp [View.setInfo, hf.type_view]
  · rw [hview]
    simp [View.setInfo]

theorem Healthy.write (nr offset : Nat) (data : List UInt8) :
    Healthy (fsWriteInode v nr offset data).2 := by
  have hspec := fsWriteInode_spec h.sound nr offset data
  generalize fsWriteInode v nr offset data = r at hspec ⊢
  cases hspec with
  | refused => exact h
  | failed D hf hs hview =>
    refine h.of_same hs (OnlyAt.sameNames_file h.names (i := nr) ?_ hf.type_view ?_ ?_)
    · rw [hview]
      exact ⟨rfl, rfl, fun _ _ => rfl, fun j hj => update_of_ne hj _ _⟩
    · rw [hview]
      exact hf.type_view
    · rw [hview]
      rfl
  | written D hf hfit hs hview hbytes => exact h.rewritten hf hs hview

theorem Healthy.release (nr : Nat) : Healthy (releaseInode v nr) :=
  h.of_same (releaseInode_spec h nr).1 (releaseInode_spec h nr).2.1

/-! ## Operations on names -/

theorem Healthy.create (hpath : (0 : UInt8) ∉ path) {type : UInt16}
    (hkind : type = fsTypeFile ∨ type = fsTypeDirectory) :
    Healthy (fsCreatePath v path fsRootInode type).2 := by
  rcases fsCreatePath_spec h hpath hkind with he | ⟨i, u, he, hf⟩ | ⟨p, i, name, u, -, he, hd⟩
  · rw [he]
    exact h
  · rw [he]
    exact h.of_same hf.sound (hf.only.sameNames h.names hf.fresh)
  · rw [he]
    obtain ⟨k, s, hc⟩ := hd.created
    exact ⟨hd.sound, h.names.created hc⟩

/-- Why `fs_unlink_path` may refuse a path. -/
inductive UnlinkRefused (v : Volume) (path : Str) : Prop
  | noParent (parent : pathParent v path fsRootInode = none)
  | dots {p : Nat} {name : Str} (parent : pathParent v path fsRootInode = some (p, name))
      (isDots : name = dot ∨ name = dotdot)
  | absent {p : Nat} {name : Str} (parent : pathParent v path fsRootInode = some (p, name))
      (find : dirFind v p name = none)
  | nonempty {p nr block s : Nat} {name : Str}
      (parent : pathParent v path fsRootInode = some (p, name))
      (find : dirFind v p name = some (nr, block, s)) (isDir : (view v).IsDir nr)
      (child : ∃ k s c nm, (view v).Child nr k s c nm)

theorem fsUnlinkPath_spec (path : Str) :
    (fsUnlinkPath v path fsRootInode = (false, v) ∧ UnlinkRefused v path) ∨
    ∃ p k s i name w, pathParent v path fsRootInode = some (p, name) ∧
      fsUnlinkPath v path fsRootInode = (true, w) ∧ Sound w ∧
      Unlinked (view v) (view w) p k s i name ∧ KeepsFiles (view v) (view w) ∧
      Severed v w i ∧ (v.openRefs i = 0 → w.sb = v.sb) := by
  unfold fsUnlinkPath
  cases hpp : pathParent v path fsRootInode with
  | none => exact Or.inl ⟨rfl, .noParent hpp⟩
  | some pl =>
    obtain ⟨p, name⟩ := pl
    dsimp only
    by_cases hbad : name = dot ∨ name = dotdot
    · exact Or.inl ⟨if_pos hbad, .dots hpp hbad⟩
    · rw [if_neg hbad]
      rw [not_or] at hbad
      cases hf : dirFind v p name with
      | none => exact Or.inl ⟨rfl, .absent hpp hf⟩
      | some found =>
        obtain ⟨nr, block, s⟩ := found
        obtain ⟨n, k, hdir, hk, hfound⟩ := h.dirFind_some (h.pathParent_some hpp).1 hf
        have hused := (h.names.entry_named hdir.isDir hfound.entry).used
        have hvalid : validInode v nr :=
          ⟨Nat.pos_of_ne_zero hfound.entry.used, (view_used_iff.mp hused).1⟩
        dsimp only
        rw [fsGetInode_eq h.sound.mounted hvalid]
        rcases removeEntry_spec h hdir hk hfound hbad.1 hbad.2 with
          ⟨hnr, hchild, he⟩ | ⟨w, he, hs, hun, hfiles⟩
        · exact Or.inl ⟨he, .nonempty hpp hf hnr hchild⟩
        · exact Or.inr ⟨p, k, s, nr, name, w, rfl, he, hs, hun, hfiles⟩

theorem Healthy.unlink (path : Str) : Healthy (fsUnlinkPath v path fsRootInode).2 := by
  rcases fsUnlinkPath_spec h path with ⟨he, -⟩ | ⟨p, k, s, i, name, w, -, he, hs, hun, -⟩
  · rw [he]
    exact h
  · rw [he]
    exact ⟨hs, h.names.unlinked hun⟩

/-! ## Opening -/

omit h in
theorem openTarget_volume (v : Volume) (path : Str) (flags : UInt32) :
    (openTarget v path flags).2 = v ∨
      (openTarget v path flags).2 = (fsCreatePath v path fsRootInode fsTypeFile).2 := by
  unfold openTarget
  cases fsLookupPath v path fsRootInode with
  | some found => exact Or.inl rfl
  | none =>
    dsimp only
    split
    · exact Or.inl rfl
    · refine Or.inr ?_
      cases he : fsCreatePath v path fsRootInode fsTypeFile with
      | mk out w => cases out <;> rfl

theorem openTarget_spec (hpath : (0 : UInt8) ∉ path) (flags : UInt32) :
    Healthy (openTarget v path flags).2 ∧ ∀ nr ino,
      (openTarget v path flags).1 = some (nr, ino) →
        (view (openTarget v path flags).2).Named nr ∧
        validInode (openTarget v path flags).2 nr ∧ ino = inodeAt (openTarget v path flags).2 nr := by
  unfold openTarget
  cases hl : fsLookupPath v path fsRootInode with
  | some found =>
    refine ⟨h, fun nr ino he => ?_⟩
    cases he
    exact h.fsLookupPath_some hl
  | none =>
    dsimp only
    split
    · exact ⟨h, by simp⟩
    · rcases fsCreatePath_spec h hpath (Or.inl rfl) with he | ⟨i, u, he, hf⟩ |
        ⟨p, i, name, u, -, he, hd⟩
      · rw [he]
        exact ⟨h, by simp⟩
      · rw [he]
        exact ⟨h.of_same hf.sound (hf.only.sameNames h.names hf.fresh), by simp⟩
      · rw [he]
        obtain ⟨k, s, hc⟩ := hd.created
        have hu : Healthy u := ⟨hd.sound, h.names.created hc⟩
        have hused : (view u).used i = true := (hc.used_iff i).mpr (Or.inl rfl)
        have hvalid : validInode u i :=
          ⟨Nat.pos_of_ne_zero hc.pos, (view_used_iff.mp hused).1⟩
        refine ⟨hu, fun nr ino hres => ?_⟩
        dsimp only at hres ⊢
        rw [fsGetInode_eq hu.sound.mounted hvalid] at hres
        cases hres
        refine ⟨Or.inr ⟨⟨hused, ?_⟩, ?_⟩, hvalid, rfl⟩
        · rw [hd.info]
          rfl
        · rw [hd.info]
          simp [newInfo]

/-- An open request that succeeded: the target `nr` in `w`, emptied in `u` when bit 1
of the flags is set. -/
structure Opened (w u : Volume) (nr : Nat) (flags : UInt32) : Prop where
  file : IsFile w nr
  named : (view w).Named nr
  healthy : Healthy u
  view : Fs.view u = if flags &&& 2 = 0 then Fs.view w
    else ((Fs.view w).setBlocks nr fun _ => zero).setInfo nr { (Fs.view w).info nr with size := 0 }

theorem fsOpen_spec (hpath : (0 : UInt8) ∉ path) (flags : UInt32) :
    fsOpen v path flags = (none, (openTarget v path flags).2) ∨
      ∃ nr ino u, fsOpen v path flags = (some (nr, ino), u.setRefs nr (u.openRefs nr + 1)) ∧
        Opened (openTarget v path flags).2 u nr flags := by
  obtain ⟨hh, hfound⟩ := openTarget_spec h hpath flags
  unfold fsOpen
  cases he : openTarget v path flags with
  | mk out w =>
    rw [he] at hh hfound
    cases out with
    | none => exact Or.inl rfl
    | some found =>
      obtain ⟨nr, ino⟩ := found
      obtain ⟨hnamed, hvalid, hino⟩ := hfound nr ino rfl
      dsimp only at hh hnamed hvalid hino ⊢
      subst hino
      split
      · exact Or.inl rfl
      · next ht =>
        have hf : IsFile w nr := ⟨hvalid, not_not.mp ht⟩
        refine Or.inr ?_
        split
        next hflag => exact ⟨nr, _, w, rfl, hf, hnamed, hh, (if_pos hflag).symm⟩
        next hflag =>
          obtain ⟨u, htr, hs, hv⟩ := truncateInode_spec hh.sound hf
          rw [htr]
          exact ⟨nr, _, u, rfl, hf, hnamed, hh.rewritten hf hs hv, by rw [if_neg hflag, hv]⟩

end

theorem Opened.isFile {w u : Volume} {nr : Nat} {flags : UInt32} (h : Opened w u nr flags) :
    (Fs.view u).IsFile nr := by
  rw [View.IsFile, h.view]
  split
  · exact ⟨h.named.used, h.file.type_view⟩
  · refine ⟨h.named.used, ?_⟩
    simp [View.setInfo, h.file.type_view]

theorem Healthy.openPath (h : Healthy v) (hpath : (0 : UInt8) ∉ path) (flags : UInt32) :
    Healthy (fsOpen v path flags).2 := by
  rcases fsOpen_spec h hpath flags with he | ⟨nr, ino, u, he, hopen⟩
  · rw [he]
    exact (openTarget_spec h hpath flags).1
  · rw [he]
    obtain ⟨hs, hv, -⟩ := hopen.healthy.sound.setRefs nr (u.openRefs nr + 1)
    refine hopen.healthy.of_same hs ?_
    rw [hv]
    exact SameNames.setRefs hopen.healthy.names fun _ => hopen.isFile

/-! ## Runs -/

theorem Healthy.step (h : Healthy v) (op : Op) : Healthy (op.apply v) := by
  cases op with
  | create path type => exact h.create path.2 type.code_cases
  | write nr offset data => exact h.write nr offset data
  | openPath path flags => exact h.openPath path.2 flags
  | unlink path => exact h.unlink path
  | release nr => exact h.release nr

theorem Healthy.run (h : Healthy v) (ops : List Op) : Healthy (runOps v ops) := by
  induction ops generalizing v with
  | nil => exact h
  | cons op ops ih => exact ih (h.step op)

end OrangeOs.Fs
