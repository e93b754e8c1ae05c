import OrangeOs.File.OpenCalls
import OrangeOs.Lib.Machine
import OrangeOs.Storage.Safety

/-! # Open files and unlink

From an image of `mkfs` on, with any number of processes that open, share, read, write, unlink and
close files: an inode lives as long as it has a name or is open, and no longer.
-/

namespace OrangeOs.Storage

open Bytes Fs Mkfs
open File (System FileId ProcId fdCount)
open Ipc (Tid)

/-- Inode `i` is a file in use. -/
structure FileInUse (v : Volume) (i : Nat) : Prop where
  lt : i < v.sb.totalInodes
  used : imapBit v i = true
  type : (inodeAt v i).type = fsTypeFile

/-- What holds of the open files in one state. -/
structure OpenSafe (s : System) : Prop where
  counted : ∀ i, (s.volume.openRefs i).toNat = s.openObjects i + s.openings i
  inUse : ∀ i, s.volume.openRefs i ≠ 0 → FileInUse s.volume i
  blocks : ∀ {i j p b i' j' p'}, Reaches s.volume i j p b → bmapBit s.volume b = true ∧
    (Reaches s.volume i' j' p' b → i' = i)
  fresh : ∀ (path : CString) (type : FileType) (i : Nat),
    (fsCreatePath s.volume path fsRootInode type.code).1 = some i → s.volume.openRefs i = 0
  linked : ∀ i, FileInUse s.volume i → (inodeAt s.volume i).linkCount = 0 →
    s.volume.openRefs i ≠ 0
  read : ∀ (t : Tid) (p : ProcId) (fd : Nat) (f : FileId) (i n : Nat), fd < fdCount →
    s.tables.slot p fd = some f → s.inodeOf f = some i → 0 < n → n ≤ 4096 →
    (s.sysRead t p fd n true true).2 = fsReadInode s.volume i (s.offset f) n

/-- What a step does to the files: whoever stays keeps its contents unless it is written, whoever
goes has no name and no reference left and leaves no block behind. -/
structure StepSafe (s : System) (op : System.Op) : Prop where
  contents : ∀ i, FileInUse s.volume i → imapBit (s.step op).volume i = true →
    ¬s.Writes op i → ∀ offset n,
      fsReadInode (s.step op).volume i offset n = fsReadInode s.volume i offset n
  freed : ∀ i, FileInUse s.volume i → imapBit (s.step op).volume i = false →
    (s.step op).volume.openRefs i = 0 ∧ ((inodeAt s.volume i).linkCount = 0 ∨ op.Removes) ∧
      ∀ j p b, Reaches s.volume i j p b → bmapBit (s.step op).volume b = false
  last : ∀ i, s.volume.openRefs i ≠ 0 → (s.step op).volume.openRefs i = 0 → ¬op.Removes →
    imapBit (s.step op).volume i = !decide ((inodeAt s.volume i).linkCount = 0)

/-! ## One state -/

variable {i : Nat} {v : Volume} {s : System}

theorem fileInUse_iff : FileInUse v i ↔ (view v).IsFile i := by
  constructor
  · intro h
    refine ⟨view_used_iff.mpr ⟨h.lt, h.used⟩, ?_⟩
    rw [view_info h.lt]
    exact h.type
  · rintro ⟨hused, htype⟩
    obtain ⟨hlt, hbit⟩ := view_used_iff.mp hused
    rw [view_info hlt] at htype
    exact ⟨hlt, hbit, htype⟩

theorem FileInUse.links (h : FileInUse v i) :
    ((view v).info i).linkCount = (inodeAt v i).linkCount := by
  rw [view_info h.lt]
  rfl

theorem getFileObject_open (h : s.Counted) {p : ProcId} {fd : Nat} {f : FileId} (hfd : fd < fdCount)
    (hslot : s.tables.slot p fd = some f) :
    s.tables.getFileObject p fd = (s.tables.fileRetain f, some f) ∧
      { s with tables := s.tables.fileRetain f }.inodeOf f = s.inodeOf f := by
  refine ⟨?_, congrFun (System.inodeOf_keeps { s with tables := _ } (h.sane.fileRetain f) rfl) f⟩
  unfold File.State.getFileObject
  rw [if_neg (Nat.not_le.mpr hfd), hslot]

theorem sysRead_regular (h : s.Counted) {t : Tid} {p : ProcId} {fd : Nat} {f : FileId} {n : Nat}
    (hfd : fd < fdCount) (hslot : s.tables.slot p fd = some f) (hinode : s.inodeOf f = some i)
    (hpos : 0 < n) (hle : n ≤ 4096) :
    (s.sysRead t p fd n true true).2 = fsReadInode s.volume i (s.offset f) n := by
  obtain ⟨hget, hsame⟩ := getFileObject_open h hfd hslot
  have hi := (System.inodeOf_eq_some.mp hinode).2
  unfold System.sysRead
  rw [if_neg (by simp; omega), hget]
  dsimp only
  rw [if_neg (by decide), hsame, hinode]
  unfold System.fileRead
  rw [hi]
  cases fsReadInode s.volume i (s.offset f) n with
  | none => rfl
  | some bytes => rfl

theorem OpenSafe.of_counted (h : s.Counted) : OpenSafe s := by
  have hhealthy := h.tidy.healthy
  have hsafe := BlockSafe.of_healthy hhealthy
  refine ⟨h.counted, fun i hi => fileInUse_iff.mpr (hhealthy.names.refs hi), fun hr =>
    ⟨(hsafe.inside hr).2.2, fun hr' => (hsafe.once hr' hr).1⟩, fun path type i hcreate => ?_,
    fun i hi hl => h.tidy.held i (fileInUse_iff.mp hi) (hi.links.trans hl),
    fun t p fd f i n hfd hslot hi hpos hle => sysRead_regular h hfd hslot hi hpos hle⟩
  have hfree := (create_carries hhealthy path.2 type.code_cases).2.2 i hcreate
  by_contra hopen
  exact absurd (hhealthy.names.refs hopen).1 (by simp [hfree])

/-! ## One step -/

theorem fsReadInode_congr {w : Volume} (hv : Tidy v) (hw : Tidy w) (hi : 0 < i)
    (hfv : (view v).IsFile i) (hfw : (view w).IsFile i)
    (hsize : ((view w).info i).size = ((view v).info i).size)
    (hdata : (view w).data i = (view v).data i) (offset n : Nat) :
    fsReadInode w i offset n = fsReadInode v i offset n := by
  have hfile : ∀ {u : Volume}, (view u).IsFile i → IsFile u i := fun h =>
    ⟨⟨hi, (fileInUse_iff.mpr h).lt⟩, (fileInUse_iff.mpr h).type⟩
  rw [fsReadInode_spec hv.healthy.sound (hfile hfv) (hv.fits i hfv),
    fsReadInode_spec hw.healthy.sound (hfile hfw) (hw.fits i hfw), hsize, hdata]

theorem Reaches.hasBlock {j b : Nat} {p : List Nat} (h : Reaches v i j p b) :
    HasBlock v i b := ⟨j, h.position.1, h.ne_zero, p, h.ok, h.blockAt⟩

theorem StepSafe.of_counted (h : s.Counted) (op : System.Op) : StepSafe s op := by
  obtain ⟨hcounted, hlives, hmarked⟩ := h.step op
  have hused : ∀ i, FileInUse s.volume i →
      (view (s.step op).volume).used i = imapBit (s.step op).volume i := by
    intro i hi
    cases hbit : imapBit (s.step op).volume i with
    | false => exact Bool.eq_false_iff.mpr fun hu => absurd (view_used_iff.mp hu).2 (by simp [hbit])
    | true => exact hmarked i (fileInUse_iff.mp hi) hbit
  have hopen : ∀ i, s.volume.openRefs i ≠ 0 → FileInUse s.volume i :=
    fun i hi => fileInUse_iff.mpr (h.tidy.healthy.names.refs hi)
  refine ⟨fun i hi hbit hno offset n => ?_, fun i hi hbit => ?_, fun i hrefs hlast hrem => ?_⟩
  · obtain ⟨hfile, hsame⟩ := hlives.kept i (fileInUse_iff.mp hi) ((hused i hi).trans hbit)
    obtain ⟨hsize, hdata⟩ := hsame hno
    by_cases h0 : i = 0
    · -- `fs_get_inode` refuses inode 0
      subst h0
      have hnone : ∀ v, fsReadInode v 0 offset n = none := by
        intro v
        unfold fsReadInode fsGetInode
        rw [if_neg fun hv => absurd hv.1 (Nat.lt_irrefl 0)]
      rw [hnone, hnone]
    · exact fsReadInode_congr h.tidy hcounted.tidy (Nat.pos_of_ne_zero h0) (fileInUse_iff.mp hi)
        hfile hsize hdata offset n
  · obtain ⟨hrefs, hlinks, hbits⟩ :=
      hlives.freed i (fileInUse_iff.mp hi) ((hused i hi).trans hbit)
    rw [hi.links] at hlinks
    exact ⟨hrefs, hlinks, fun j p b hr => hbits b hr.hasBlock⟩
  · have hi := hopen i hrefs
    have hf := fileInUse_iff.mp hi
    cases hbit : imapBit (s.step op).volume i with
    | true =>
      have hw := (hused i hi).trans hbit
      have hlinks := hlives.links i hf hw hrem
      rw [hi.links] at hlinks
      have hne : (inodeAt s.volume i).linkCount ≠ 0 := fun h0 =>
        hcounted.tidy.held i (hlives.kept i hf hw).1 (hlinks.trans h0) hlast
      simp [hne]
    | false =>
      obtain ⟨-, hlinks, -⟩ := hlives.freed i hf ((hused i hi).trans hbit)
      rw [hi.links] at hlinks
      simp [hlinks.resolve_right hrem]

/-! ## Runs -/

theorem counted_boot {inputs : List Input} (hf : Formatted inputs v) : (System.boot v).Counted := by
  have hrefs : v.openRefs = fun _ => 0 := hf.refs
  have hfile : ∀ i, (view v).IsFile i → ∃ f ∈ inputs, (view v).info i = fileInfo f := by
    rintro i ⟨hused, htype⟩
    rcases (hf.used i).mp hused with rfl | hsome
    · rw [hf.root] at htype
      exact absurd htype (by decide)
    · obtain ⟨f, hat⟩ := Option.isSome_iff_exists.mp hsome
      exact ⟨f, (inputAt_some hat).2.2, hf.file i f hat⟩
  have htidy : Tidy v := by
    refine ⟨hf.healthy, fun i hi => ?_, fun i hi hl => ?_, by rw [hrefs]⟩
    · obtain ⟨f, hmem, hinfo⟩ := hfile i hi
      have hlt := (hf.fits f hmem).2
      have hsize : ((view v).info i).size.toNat = f.contents.length := by
        rw [hinfo]
        exact UInt64.toNat_ofNat_of_lt' (Nat.lt_trans hlt (by decide))
      rw [hsize]
      exact Nat.le_trans (Nat.le_of_lt hlt) (by decide)
    · obtain ⟨f, -, hinfo⟩ := hfile i hi
      rw [hinfo] at hl
      exact absurd hl (by simp [fileInfo])
  refine ⟨⟨nofun, fun _ _ => rfl⟩, htidy, fun i => ?_⟩
  change (v.openRefs i).toNat = 0
  rw [hrefs]
  rfl

theorem reads_kept (h : s.Counted) (hi : s.volume.openRefs i ≠ 0) {ops : List System.Op}
    (hops : Machine.Throughout
      (fun s op => ¬s.Writes op i ∧ (s.step op).volume.openRefs i ≠ 0) System.step s ops)
    (offset n : Nat) :
    fsReadInode (s.run ops).volume i offset n = fsReadInode s.volume i offset n := by
  induction ops generalizing s with
  | nil => rfl
  | cons op ops ih =>
    obtain ⟨⟨hno, hopen⟩, hrest⟩ := hops
    have hcounted := (h.step op).counted
    have hbit := ((OpenSafe.of_counted hcounted).inUse i hopen).used
    have hstep := (StepSafe.of_counted h op).contents i ((OpenSafe.of_counted h).inUse i hi) hbit
      hno offset n
    exact (ih hcounted hopen hrest).trans hstep

/-- Open files survive unlink until the last close: whatever processes do from a fresh image on,
the reference counts are those of the open files, what is open is in use and shares no block, and
an inode goes, with its blocks, when it has neither a name nor a reference. -/
theorem open_files_survive_unlink {diskSize startLba : Nat} {inputs : List Input}
    {disk : Nat → Block} (h : mkfs diskSize startLba inputs = some disk) :
    ∃ v, fsInit startLba disk = some v ∧ ∀ ops,
      OpenSafe ((System.boot v).run ops) ∧ (∀ op, StepSafe ((System.boot v).run ops) op) ∧
      ∀ i more, ((System.boot v).run ops).volume.openRefs i ≠ 0 →
        Machine.Throughout (fun s op => ¬s.Writes op i ∧ (s.step op).volume.openRefs i ≠ 0)
          System.step ((System.boot v).run ops) more →
        ∀ offset n, fsReadInode ((System.boot v).run (ops ++ more)).volume i offset n =
          fsReadInode ((System.boot v).run ops).volume i offset n := by
  obtain ⟨v, hinit, hf⟩ := mkfs_formatted h
  refine ⟨v, hinit, fun ops => ?_⟩
  have hcounted := (counted_boot hf).run ops
  refine ⟨OpenSafe.of_counted hcounted, StepSafe.of_counted hcounted, fun i more hi hmore o n => ?_⟩
  have happend : (System.boot v).run (ops ++ more) = ((System.boot v).run ops).run more := by
    unfold System.run
    rw [List.foldl_append]
  rw [happend]
  exact reads_kept hcounted hi hmore o n

theorem open_files_survive_unlink_sample : ∃ disk v, mkfs 1048576 0 [sampleInput] = some disk ∧
    fsInit 0 disk = some v ∧ ∀ ops, OpenSafe ((System.boot v).run ops) := by
  obtain ⟨disk, hdisk⟩ := mkfs_sample
  obtain ⟨v, hinit, hall⟩ := open_files_survive_unlink hdisk
  exact ⟨disk, v, hdisk, hinit, fun ops => (hall ops).1⟩

end OrangeOs.Storage
