import OrangeOs.File.OpenCounts

/-! # The calls on open files

Each call of the file layer keeps the count of open references. Those that only take references
back have in common what `Released` says; the others work on the volume, and `Effect` says what
becomes of the files.
-/

namespace OrangeOs.File

open Function List

open Ipc (Tid)
open Fs (Tidy Sheds Lives Carries releaseInode)

namespace System

variable {s : System} {f : FileId} {p : ProcId} {t : Tid}

/-! ## Taking references back -/

/-- Only references have been taken back. -/
structure Released (s s' : System) : Prop where
  counted : Counted s'
  sheds : Sheds s.volume s'.volume
  sb : s'.volume.sb = s.volume.sb

theorem Counted.released (h : Counted s) {tables : State} (hk : Keeps s.tables tables) :
    Released s { s with tables := tables } := ⟨h.setTables hk, Sheds.refl _, rfl⟩

theorem Released.trans {s1 s2 s3 : System} (h : Counted s1) (h1 : Released s1 s2)
    (h2 : Released s2 s3) : Released s1 s3 :=
  ⟨h2.counted, h1.sheds.trans h.tidy.healthy.sound h2.sheds h1.sb, h2.sb.trans h1.sb⟩

theorem toNat_release {v : Fs.Volume} (h : Tidy v) (nr : Nat) {n : Nat}
    (hn : (v.openRefs nr).toNat = n + 1) (i : Nat) :
    ((releaseInode v nr).openRefs i).toNat + (if nr = i then 1 else 0) = (v.openRefs i).toNat := by
  have hne : v.openRefs nr ≠ 0 := by
    intro h0
    rw [h0] at hn
    cases hn
  rw [(h.release nr).2.2.2, if_neg hne, update_apply]
  by_cases hi : i = nr
  · subst hi
    have hle : (1 : UInt32) ≤ v.openRefs i := by
      rw [UInt32.le_iff_toNat_le, hn]
      exact Nat.le_add_left 1 n
    rw [if_pos rfl, if_pos rfl, UInt32.toNat_sub_of_le _ _ hle, hn]
    rfl
  · rw [if_neg hi, if_neg (Ne.symm hi), Nat.add_zero]

theorem Counted.fileRelease_last (h : Counted s) (hf : s.tables.file f = some ⟨1, .regular⟩) :
    Released s { s with tables := s.tables.fileRelease f,
                        volume := releaseInode s.volume (s.inode f) } := by
  have hreg : s.tables.Regular f := ⟨1, hf⟩
  have hfile : (s.tables.fileRelease f).file = update s.tables.file f none := by
    unfold State.fileRelease
    rw [hf]
    rfl
  have hnext : (s.tables.fileRelease f).nextFile = s.tables.nextFile := by
    unfold State.fileRelease
    rw [hf]
    rfl
  generalize s.tables.fileRelease f = tables at hfile hnext
  have hother : ∀ g, g ≠ f → tables.file g = s.tables.file g := by
    intro g hg
    rw [hfile, update_of_ne hg]
  have hself : tables.file f = none := by
    rw [hfile, update_self]
  have hsane : Sane tables := h.sane.set (o := none) (fun _ => nofun) hfile hnext.ge
  obtain ⟨htidy, hsheds, hsb, -⟩ := h.tidy.release (s.inode f)
  refine ⟨⟨hsane, htidy, fun i => ?_⟩, hsheds, hsb⟩
  have hcount : ∀ i, System.openObjects { s with
      tables := tables, volume := releaseInode s.volume (s.inode f) } i +
        (if s.inode f = i then 1 else 0) = s.openObjects i := by
    intro i
    have hupd := openObjects_update { s with
        tables := tables, volume := releaseInode s.volume (s.inode f) }
      (h.sane.lt_nextFile hf) hnext (fun g hg => by unfold inodeOf; rw [hother g hg]) i
    rw [inodeOf_eq_some.mpr ⟨hreg, rfl⟩, inodeOf_eq_none.mpr (by
      rintro ⟨n, hn⟩
      cases hself.symm.trans hn)] at hupd
    simpa [count_singleton] using hupd
  have hpos : (s.volume.openRefs (s.inode f)).toNat =
      (s.openObjects (s.inode f) - 1 + s.openings (s.inode f)) + 1 := by
    have := hcount (s.inode f)
    rw [if_pos rfl] at this
    rw [h.counted]
    omega
  have hrefs := toNat_release h.tidy (s.inode f) hpos i
  have hobjects := hcount i
  have hsum := h.counted i
  change ((releaseInode s.volume (s.inode f)).openRefs i).toNat = System.openObjects { s with
    tables := tables, volume := releaseInode s.volume (s.inode f) } i + s.openings i
  omega

theorem Counted.fileRelease (h : Counted s) (f : FileId) : Released s (s.fileRelease f) := by
  unfold System.fileRelease
  split
  · next hf => exact h.fileRelease_last hf
  · next hf => exact h.released (h.sane.fileRelease fun heq => hf heq)

theorem Counted.releaseAll (h : Counted s) (fs : List FileId) :
    Released s (fs.foldl System.fileRelease s) := by
  induction fs generalizing s with
  | nil => exact ⟨h, Sheds.refl _, rfl⟩
  | cons f fs ih =>
    have hone := h.fileRelease f
    exact hone.trans h (ih hone.counted)

/-! ## Calls that only take references back -/

section Calls

variable (h : Counted s)
include h

theorem Counted.sysClose (p : ProcId) (fd : Nat) : Released s (s.sysClose p fd) := by
  have htables := h.released (h.sane.detachFileObject p fd)
  unfold System.sysClose
  generalize s.tables.detachFileObject p fd = out at htables ⊢
  obtain ⟨tables, _ | f⟩ := out
  · exact htables
  · exact htables.trans h (htables.counted.fileRelease f)

theorem Counted.sysDup (p : ProcId) (fd : Nat) : Released s (s.sysDup p fd) := by
  have hk := h.sane.getFileObject p fd
  unfold System.sysDup
  generalize s.tables.getFileObject p fd = out at hk ⊢
  obtain ⟨tables, _ | f⟩ := out
  · exact h.released hk
  · have htables := h.released (hk.trans (hk.sane.installFileObject p f))
    dsimp only at htables ⊢
    generalize tables.installFileObject p f = out at htables ⊢
    obtain ⟨tables', _ | fd'⟩ := out
    · exact htables.trans h (htables.counted.fileRelease f)
    · exact htables

theorem Counted.sysDup2 (p : ProcId) (fd newfd : Nat) : Released s (s.sysDup2 p fd newfd) := by
  unfold System.sysDup2
  split
  · exact h.released h.sane.keeps
  · split
    · have htables := h.released (h.sane.getFileObject p fd)
      generalize s.tables.getFileObject p fd = out at htables ⊢
      obtain ⟨tables, _ | f⟩ := out
      · exact htables
      · exact htables.trans h (htables.counted.fileRelease f)
    · cases hf : s.tables.slot p fd with
      | none => exact h.released h.sane.keeps
      | some f =>
        have hk := h.sane.fileRetain f
        have hset : Keeps (s.tables.fileRetain f)
            ((s.tables.fileRetain f).setSlot p newfd (some f)) := hk.sane.same rfl rfl
        have htables := h.released (hk.trans hset)
        cases s.tables.slot p newfd with
        | none => exact htables
        | some g => exact htables.trans h (htables.counted.fileRelease g)

theorem Counted.processCloseFiles (p : ProcId) : Released s (s.processCloseFiles p) := by
  have htables := h.released (h.sane.takeFiles p (range fdCount))
  exact htables.trans h (htables.counted.releaseAll _)

theorem Counted.processFork (p : ProcId) (cloned thread : Bool) :
    Released s (s.processFork p cloned thread) := by
  unfold System.processFork
  split
  · exact h.released h.sane.keeps
  · have hproc : Keeps s.tables { s.tables with nextProc := s.tables.nextProc + 1 } :=
      h.sane.same rfl rfl
    have hk := hproc.trans (hproc.sane.inherit p s.tables.nextProc (range fdCount))
    split
    · have htables := h.released hk
      exact htables.trans h (htables.counted.processCloseFiles _)
    · exact h.released (hk.trans (hk.sane.same rfl rfl))

theorem Counted.processExit (t : Tid) (p : ProcId) : Released s (s.processExit t p) := by
  have hk : Keeps s.tables (State.freeVictims { s.tables with
      exitRequested := update s.tables.exitRequested p true } t p) := h.sane.same rfl rfl
  have htables := h.released hk
  have hclose := htables.trans h (htables.counted.processCloseFiles p)
  exact hclose.trans h (hclose.counted.released (hclose.counted.sane.same rfl rfl))

theorem Counted.sysKill (t : Tid) (p q : ProcId) : Released s (s.sysKill t p q) := by
  unfold System.sysKill
  split
  · exact h.processExit t p
  · next hne =>
    refine h.released ?_
    unfold State.sysKill
    rw [if_neg hne]
    split
    · exact h.sane.same rfl rfl
    · exact h.sane.keeps

theorem Counted.sysRead (t : Tid) (p : ProcId) (fd length : Nat) (writable staging : Bool) :
    Released s (s.sysRead t p fd length writable staging).1 := by
  unfold System.sysRead
  split
  · exact h.released h.sane.keeps
  · have htables := h.released (h.sane.getFileObject p fd)
    generalize s.tables.getFileObject p fd = out at htables ⊢
    obtain ⟨tables, _ | f⟩ := out
    · exact htables
    · dsimp only
      split
      · exact htables
      · split
        · have hread : Released { s with tables := tables }
              (System.fileRead { s with tables := tables } f length).1 := by
            unfold System.fileRead
            split
            · exact ⟨htables.counted, Sheds.refl _, rfl⟩
            · exact ⟨htables.counted.setVolume htables.counted.tidy rfl _, Sheds.refl _, rfl⟩
          have hboth := htables.trans h hread
          exact hboth.trans h (hboth.counted.fileRelease f)
        · next hnone =>
          have henter := htables.counted.sane.enter (t := t) (c := .read f length)
            (inodeOf_eq_none.mp hnone)
          exact htables.trans h (htables.counted.released henter)

theorem Counted.resume (t : Tid) : Released s (s.resume t) := by
  unfold System.resume
  split
  · exact h.released h.sane.keeps
  · next hnone =>
    refine h.released (h.sane.round fun c hc => inodeOf_eq_none.mp ?_)
    rw [hc] at hnone
    exact hnone

end Calls

/-! ## Calls that work on the volume -/

/-- What one step does: the count is right again, the files live on as `Lives` says, and the
inode bitmap tells which are in use. -/
structure Effect (C : Nat → Prop) (removed : Prop) (s s' : System) : Prop where
  counted : Counted s'
  lives : Lives C removed s.volume s'.volume
  used : ∀ i, (Fs.view s.volume).IsFile i → Fs.imapBit s'.volume i = true →
    (Fs.view s'.volume).used i = true

theorem used_of_sb {v w : Fs.Volume} (hsb : w.sb = v.sb) {i : Nat} (hi : (Fs.view v).IsFile i)
    (hbit : Fs.imapBit w i = true) : (Fs.view w).used i = true :=
  Fs.view_used_iff.mpr ⟨by rw [hsb]; exact (Fs.view_used_iff.mp hi.1).1, hbit⟩

theorem Released.effect {s' : System} (h : Released s s') (C : Nat → Prop) (removed : Prop) :
    Effect C removed s s' :=
  ⟨h.counted, h.sheds.lives.mono (fun _ => False.elim) False.elim, fun _ => used_of_sb h.sb⟩

theorem getFileObject_eq_some {tables tables' : State} {fd : Nat}
    (hg : tables.getFileObject p fd = (tables', some f)) :
    tables.slot p fd = some f ∧ tables' = tables.fileRetain f := by
  unfold State.getFileObject at hg
  split at hg
  · cases hg
  · cases hs : tables.slot p fd with
    | none =>
      rw [hs] at hg
      cases hg
    | some g =>
      rw [hs] at hg
      cases hg
      exact ⟨rfl, rfl⟩

theorem fileRetain_file_ne {tables : State} (hs : Sane tables) :
    (tables.fileRetain f).file f ≠ some ⟨1, .regular⟩ := by
  unfold State.fileRetain
  cases hf : tables.file f with
  | none =>
    rw [hf]
    exact nofun
  | some o =>
    have hlive := hs.live f o hf
    obtain ⟨refs, kind⟩ := o
    cases kind with
    | regular =>
      dsimp only
      rw [update_self]
      intro heq
      have hrefs := congrArg FileObject.refs (Option.some.inj heq)
      exact hlive (Nat.succ.inj hrefs)
    | pipe e i =>
      dsimp only
      rw [update_self]
      exact nofun

theorem Counted.fileWrite (h : Counted s) (f : FileId) (data : List UInt8) :
    Counted (s.fileWrite f data) ∧ (s.fileWrite f data).tables = s.tables ∧
      Carries (· = s.inode f) (Fs.view s.volume) (Fs.view (s.fileWrite f data).volume) := by
  obtain ⟨hcarries, hrefs⟩ :=
    Fs.write_carries h.tidy.healthy.sound (s.inode f) (s.offset f) data
  have htidy := h.tidy.carries (h.tidy.healthy.write (s.inode f) (s.offset f) data) hcarries
    (by rw [hrefs]; exact h.tidy.zero)
  unfold System.fileWrite
  cases hw : Fs.fsWriteInode s.volume (s.inode f) (s.offset f) data with
  | mk out v =>
    rw [hw] at hcarries hrefs htidy
    cases out with
    | none => exact ⟨h.setVolume htidy hrefs s.offset, rfl, hcarries⟩
    | some n => exact ⟨h.setVolume htidy hrefs _, rfl, hcarries⟩

theorem Counted.sysWrite (h : Counted s) (t : Tid) (p : ProcId) (fd : Nat) (data : List UInt8)
    (staging copied : Bool) :
    Effect (fun i => ∃ f, s.tables.slot p fd = some f ∧ s.inodeOf f = some i) False s
      (s.sysWrite t p fd data staging copied) := by
  unfold System.sysWrite
  split
  · exact (h.released h.sane.keeps).effect _ _
  · have hk := h.sane.getFileObject p fd
    cases hg : s.tables.getFileObject p fd with
    | mk tables out =>
      rw [hg] at hk
      have htables := h.released hk
      cases out with
      | none => exact htables.effect _ _
      | some f =>
        dsimp only
        split
        · exact (htables.trans h (htables.counted.fileRelease f)).effect _ _
        · split
          · next i hi =>
            obtain ⟨hslot, rfl⟩ := getFileObject_eq_some hg
            have hinode := inodeOf_keeps { s with tables := s.tables.fileRetain f } hk rfl
            obtain ⟨hcounted, hsame, hcarries⟩ := htables.counted.fileWrite f data
            have hlast : (System.fileWrite { s with tables := s.tables.fileRetain f }
                f data).tables.file f ≠ some ⟨1, .regular⟩ := by
              rw [hsame]
              exact fileRetain_file_ne h.sane
            have hvolume : (System.fileRelease (System.fileWrite
                { s with tables := s.tables.fileRetain f } f data) f).volume =
                (System.fileWrite { s with tables := s.tables.fileRetain f } f data).volume := by
              unfold System.fileRelease
              split
              · next heq => exact absurd heq hlast
              · rfl
            refine ⟨(hcounted.fileRelease f).counted, ?_, fun j hj _ => ?_⟩
            · rw [hvolume]
              refine hcarries.lives.mono (fun j hj => ⟨f, hslot, ?_⟩) id
              rw [← congrFun hinode f, hi, hj, ← (inodeOf_eq_some.mp hi).2]
            · rw [hvolume]
              exact (hcarries.file j hj).1.1
          · next hnone =>
            have henter := htables.counted.sane.enter (t := t) (c := .write f data.length)
              (inodeOf_eq_none.mp hnone)
            exact (htables.trans h (htables.counted.released henter)).effect _ _

theorem openObjects_le (s : System) (i : Nat) : s.openObjects i + s.openings i ≤ s.held := by
  refine Nat.add_le_add (countP_mono_left fun f _ hf => ?_) countP_le_length
  rw [of_decide_eq_true hf]
  rfl

theorem Counted.openRequest (h : Counted s) (t : Tid) (path : Fs.CString) (flags : UInt32) :
    Effect (fun i => flags &&& 2 ≠ 0 ∧ ∃ ino, (Fs.fsOpen s.volume path flags).1 = some (i, ino))
      False s (s.openRequest t path flags) := by
  have hhealthy := h.tidy.healthy.openPath path.2 flags
  unfold System.openRequest
  split
  · exact (h.released h.sane.keeps).effect _ _
  · next hlimit =>
    rcases Fs.open_carries h.tidy.healthy path.2 flags with
      ⟨w, he, -, hc, hrefs⟩ | ⟨nr, ino, u, he, -, hc, hrefs, hpos, -⟩
    · rw [he] at hhealthy ⊢
      have htidy := h.tidy.carries hhealthy hc (by rw [hrefs]; exact h.tidy.zero)
      exact ⟨h.setVolume htidy hrefs s.offset, hc.lives.mono (fun _ => False.elim) id,
        fun i hi _ => (hc.file i hi).1.1⟩
    · rw [he] at hhealthy ⊢
      have hlt : (u.openRefs nr).toNat + 1 < 2 ^ 32 := by
        have hle := openObjects_le s nr
        rw [hrefs, h.counted nr]
        unfold heldLimit at hlimit
        omega
      have hsucc : (u.openRefs nr + 1).toNat = (u.openRefs nr).toNat + 1 := by
        rw [UInt32.toNat_add]
        exact Nat.mod_eq_of_lt hlt
      have hne : u.openRefs nr + 1 ≠ 0 := by
        intro h0
        rw [h0] at hsucc
        cases hsucc
      have hall := hc.trans (Carries.setRefs (Fs.view u) nr hne)
      have hzero : (u.setRefs nr (u.openRefs nr + 1)).openRefs 0 = 0 := by
        refine (update_of_ne (Nat.pos_iff_ne_zero.mp hpos).symm _ _).trans ?_
        rw [hrefs]
        exact h.tidy.zero
      refine ⟨⟨h.sane, h.tidy.carries hhealthy hall hzero, fun i => ?_⟩,
        hall.lives.mono (fun i hi => ⟨hi.2, ino, by rw [hi.1]⟩) id,
        fun i hi _ => (hall.file i hi).1.1⟩
      change (update u.openRefs nr (u.openRefs nr + 1) i).toNat = s.openObjects i +
        ((t, (⟨nr, ino.size, flags⟩ : Answer)) :: s.opening).countP fun a => a.2.inode = i
      have hsum := h.counted i
      unfold openings at hsum
      rw [countP_cons, update_apply]
      by_cases hi : i = nr
      · subst hi
        rw [if_pos rfl, hsucc, hrefs]
        simp only [decide_true, if_true]
        omega
      · rw [if_neg hi, hrefs]
        simp only [Ne.symm hi, decide_false, Bool.false_eq_true, if_false]
        exact hsum

theorem openings_erase {a : Answer} (hl : s.opening.lookup t = some a) (i : Nat) :
    (s.opening.eraseP fun b => b.1 == t).countP (fun b => decide (b.2.inode = i)) +
      (if a.inode = i then 1 else 0) = s.openings i := by
  have hcount := countP_eraseP_lookup hl fun b => decide (b.2.inode = i)
  simpa [openings] using hcount

variable (h : Counted s)
include h

theorem Counted.adopt {a : Answer} (hl : s.opening.lookup t = some a) (offset : FileId → Nat) :
    Counted { s with
      tables := (s.tables.fileCreate .regular).1
      inode := update s.inode s.tables.nextFile a.inode
      offset := offset
      opening := s.opening.eraseP fun b => b.1 == t } := by
  refine ⟨h.sane.set (fun q hq => ?_) rfl (Nat.le_succ _), h.tidy, fun i => ?_⟩
  · cases hq
    exact ⟨Nat.one_ne_zero, Nat.lt_succ_self _⟩
  · generalize hs' : ({ s with
      tables := (s.tables.fileCreate .regular).1
      inode := update s.inode s.tables.nextFile a.inode
      offset := offset
      opening := s.opening.eraseP fun b => b.1 == t } : System) = s'
    have hold : ∀ g ∈ range s.tables.nextFile, s'.inodeOf g = s.inodeOf g := by
      intro g hg
      have hne : g ≠ s.tables.nextFile := Nat.ne_of_lt (mem_range.mp hg)
      rw [← hs']
      unfold inodeOf
      dsimp only [State.fileCreate]
      rw [update_of_ne hne, update_of_ne hne]
    have hnew : s'.inodeOf s.tables.nextFile = some a.inode := by
      rw [← hs', inodeOf_eq_some]
      exact ⟨⟨1, update_self _ _ _⟩, update_self _ _ _⟩
    have hobjects : s'.openObjects i = s.openObjects i + (if a.inode = i then 1 else 0) := by
      have hnext : s'.tables.nextFile = s.tables.nextFile + 1 := by
        rw [← hs']
        rfl
      unfold openObjects
      rw [hnext, range_succ, pointing_append, pointing_cons, hnew, pointing_congr hold]
      simp [pointing, count_singleton]
    have hsum := h.counted i
    have herase := openings_erase hl i
    have hopenings : s'.openings i =
        (s.opening.eraseP fun b => b.1 == t).countP fun b => decide (b.2.inode = i) := by
      rw [← hs']
      rfl
    have hvolume : s'.volume = s.volume := by
      rw [← hs']
    rw [hvolume, hobjects, hopenings]
    omega

theorem Counted.openFinish (t : Tid) (p : ProcId) (created : Bool) :
    Effect (fun _ => False) False s (s.openFinish t p created) := by
  unfold System.openFinish
  cases hl : s.opening.lookup t with
  | none => exact (h.released h.sane.keeps).effect _ _
  | some a =>
    dsimp only
    split
    · obtain ⟨htidy, hsheds, hsb, -⟩ := h.tidy.release a.inode
      refine ⟨⟨h.sane, htidy, fun i => ?_⟩, hsheds.lives, fun _ => used_of_sb hsb⟩
      have hself := openings_erase hl a.inode
      have hsum := h.counted a.inode
      rw [if_pos rfl] at hself
      have hrefs := toNat_release h.tidy a.inode
        (n := (s.volume.openRefs a.inode).toNat - 1) (by omega) i
      have herase := openings_erase hl i
      have hsum := h.counted i
      change ((releaseInode s.volume a.inode).openRefs i).toNat = s.openObjects i +
        (s.opening.eraseP fun b => b.1 == t).countP fun b => decide (b.2.inode = i)
      omega
    · have hadopt := h.adopt hl (update s.offset s.tables.nextFile
        (if a.flags &&& 4 ≠ 0 then a.size.toNat else 0))
      have htables := hadopt.released (hadopt.sane.installFileObject p s.tables.nextFile)
      dsimp only [State.fileCreate] at hadopt htables ⊢
      generalize ({ s.tables with
        file := update s.tables.file s.tables.nextFile (some ⟨1, .regular⟩)
        nextFile := s.tables.nextFile + 1 } : State) = created at hadopt htables ⊢
      generalize created.installFileObject p s.tables.nextFile = out at htables ⊢
      obtain ⟨tables, _ | fd⟩ := out
      · have hall := htables.trans hadopt (htables.counted.fileRelease s.tables.nextFile)
        exact ⟨hall.counted, hall.sheds.lives, fun _ => used_of_sb hall.sb⟩
      · exact ⟨htables.counted, htables.sheds.lives, fun _ => used_of_sb htables.sb⟩

theorem Counted.sysUnlink (path : Fs.CString) :
    Effect (fun _ => False) True s (s.sysUnlink path) := by
  obtain ⟨htidy, hsame | ⟨i, hsev, hsb⟩⟩ := h.tidy.unlink path
  · have hlives : Lives (fun _ => False) True s.volume (s.sysUnlink path).volume := by
      unfold System.sysUnlink
      rw [hsame]
      exact (Sheds.refl _).lives.mono (fun _ => id) False.elim
    exact ⟨h.setVolume htidy (by rw [hsame]) s.offset, hlives,
      fun _ => used_of_sb (by unfold System.sysUnlink; rw [hsame])⟩
  · refine ⟨h.setVolume htidy hsev.refs s.offset, hsev.lives, fun j hj hbit => ?_⟩
    by_cases hji : j = i
    · subst hji
      by_cases h0 : s.volume.openRefs j = 0
      · exact used_of_sb (hsb h0) hj hbit
      · exact (hsev.opened h0).1
    · exact (hsev.others j hji hj).1

theorem Counted.sysMkdir (path : Fs.CString) :
    Effect (fun _ => False) False s (s.sysMkdir path) := by
  obtain ⟨hc, hrefs, -⟩ := Fs.create_carries h.tidy.healthy path.2 (Or.inr rfl)
  have htidy := h.tidy.carries (h.tidy.healthy.create path.2 (Or.inr rfl)) hc
    (by rw [hrefs]; exact h.tidy.zero)
  exact ⟨h.setVolume htidy hrefs s.offset, hc.lives, fun i hi _ => (hc.file i hi).1.1⟩

/-! ## Steps -/

def Op.Removes : Op → Prop
  | .unlink _ _ => True
  | _ => False

/-- The step is a WRITE through a descriptor of inode `i`, or an OPEN that truncates it. -/
def Writes (s : System) : Op → Nat → Prop
  | .write t fd _ _ _, i => ∃ p f, s.tables.process t = some p ∧ s.tables.slot p fd = some f ∧
      s.inodeOf f = some i
  | .openRequest _ path flags, i =>
    flags &&& 2 ≠ 0 ∧ ∃ ino, (Fs.fsOpen s.volume path flags).1 = some (i, ino)
  | _, _ => False

theorem Effect.asUser {C : Nat → Prop} {removed : Prop} {act : ProcId → System}
    (hact : ∀ p, s.tables.process t = some p → Effect C removed s (act p)) :
    Effect C removed s (s.asUser t act) := by
  unfold System.asUser
  split
  · next p hp _ _ => exact hact p hp
  · exact (h.released h.sane.keeps).effect _ _

omit h in
theorem Effect.mono {C D : Nat → Prop} {removed removed' : Prop} {s' : System}
    (h : Effect C removed s s') (hCD : ∀ i, C i → D i) (hr : removed → removed') :
    Effect D removed' s s' := ⟨h.counted, h.lives.mono hCD hr, h.used⟩

theorem Counted.step (op : Op) : Effect (s.Writes op) op.Removes s (s.step op) := by
  cases op with
  | spawn =>
    have hk : Keeps s.tables (File.apply s.tables .spawn) := h.sane.same rfl rfl
    exact (h.released hk).effect _ _
  | createThread t =>
    refine .asUser h fun p _ => (h.released ?_).effect _ _
    dsimp only [File.apply]
    unfold State.asUser
    split
    · exact h.sane.same rfl rfl
    · exact h.sane.keeps
  | openRequest t path flags => exact .asUser h fun p _ => h.openRequest t path flags
  | openFinish t created =>
    dsimp only [System.step]
    cases s.tables.process t with
    | none => exact (h.released h.sane.keeps).effect _ _
    | some p => exact h.openFinish t p created
  | read t fd length writable staging =>
    exact .asUser h fun p _ => (h.sysRead t p fd length writable staging).effect _ _
  | write t fd data staging copied =>
    refine .asUser h fun p hp => (h.sysWrite t p fd data staging copied).mono ?_ id
    rintro i ⟨f, hslot, hi⟩
    exact ⟨p, f, hp, hslot, hi⟩
  | resume t => exact (h.resume t).effect _ _
  | close t fd => exact .asUser h fun p _ => (h.sysClose p fd).effect _ _
  | dup t fd => exact .asUser h fun p _ => (h.sysDup p fd).effect _ _
  | dup2 t fd newfd => exact .asUser h fun p _ => (h.sysDup2 p fd newfd).effect _ _
  | pipe t writable pipe readFile writeFile copied =>
    exact .asUser h fun p _ =>
      (h.released (h.sane.sysPipe p writable pipe readFile writeFile copied)).effect _ _
  | fork t cloned thread => exact .asUser h fun p _ => (h.processFork p cloned thread).effect _ _
  | exit t => exact .asUser h fun p _ => (h.processExit t p).effect _ _
  | kill t q => exact .asUser h fun p _ => (h.sysKill t p q).effect _ _
  | notice t =>
    refine .asUser h fun p _ => ?_
    split
    · exact (h.processExit t p).effect _ _
    · exact (h.released h.sane.keeps).effect _ _
  | unlink t path => exact .asUser h fun p _ => h.sysUnlink path
  | mkdir t path => exact .asUser h fun p _ => h.sysMkdir path

theorem Counted.run (ops : List Op) : Counted (s.run ops) := by
  induction ops generalizing s with
  | nil => exact h
  | cons op ops ih => exact ih (h.step op).counted

end System

end OrangeOs.File
