import OrangeOs.Storage.Contents
import OrangeOs.Storage.OpenFiles

/-! # Appending to open files

SYS_OPEN with FILE_OPEN_APPEND puts the offset of the new object at the end of the file, and
`file_write` goes on from the offset of the object. What is written ends up behind what the file
held as long as that offset is still the end.
-/

namespace OrangeOs.Storage

open Bytes Fs Mkfs SparseArray Function List
open File (System FileId fdCount)
open Ipc (Tid)

/-! ## What a run writes -/

/-- The whole of the file `i`. -/
def contents (v : Volume) (i : Nat) : List UInt8 :=
  (fsReadInode v i 0 (inodeAt v i).size.toNat).getD []

/-- The object and the bytes of a WRITE that gets to `file_write` on a regular file. -/
def fileWriteCall (s : System) : System.Op → Option (FileId × List UInt8)
  | .write t fd data staging copied =>
    match s.tables.process t, s.tables.call t, s.opening.lookup t with
    | some p, none, none =>
      if 4096 < data.length ∨ data.length = 0 ∨ staging = false ∨ copied = false ∨
        fdCount ≤ fd then none
      else (s.tables.slot p fd).bind fun f => (s.inodeOf f).map fun _ => (f, data)
    | _, _, _ => none
  | _ => none

/-- The bytes a step hands to `file_write` for the file `i`. -/
def written (i : Nat) (s : System) (op : System.Op) : List UInt8 :=
  match fileWriteCall s op with
  | none => []
  | some (f, data) => if s.inodeOf f = some i then data else []

/-- The bytes a run writes to the file `i`, in the order of the writes. -/
def appended (i : Nat) : System → List System.Op → List UInt8
  | _, [] => []
  | s, op :: ops => written i s op ++ appended i (s.step op) ops

/-- A step of a run in which `i` is only appended to: the file stays, is not truncated, and a write
to it is done in full. -/
structure OnlyWrites (i : Nat) (s : System) (op : System.Op) : Prop where
  kept : imapBit (s.step op).volume i = true
  whole : ∀ t path flags, op = .openRequest t path flags → flags &&& 2 ≠ 0 →
    ∀ ino, (fsOpen s.volume path flags).1 ≠ some (i, ino)
  full : ∀ f data, fileWriteCall s op = some (f, data) → s.inodeOf f = some i →
    (fsWriteInode s.volume i (s.offset f) data).1 = some data.length

/-- A write to the file `i` starts at its end. -/
def AtEnd (i : Nat) (s : System) (op : System.Op) : Prop :=
  ∀ f data, fileWriteCall s op = some (f, data) → s.inodeOf f = some i →
    s.offset f = (inodeAt s.volume i).size.toNat

/-! ## One write -/

variable {s : System} {data : List UInt8} {op : System.Op} {f : FileId} {i : Nat} {v : Volume}

theorem fileWriteCall_eq_some (h : fileWriteCall s op = some (f, data)) :
    ∃ t p fd i, op = .write t fd data true true ∧ s.tables.process t = some p ∧
      s.tables.call t = none ∧ s.opening.lookup t = none ∧ 0 < data.length ∧ data.length ≤ 4096 ∧
      fd < fdCount ∧ s.tables.slot p fd = some f ∧ s.inodeOf f = some i := by
  cases op with
  | write t fd bytes staging copied =>
    dsimp only [fileWriteCall] at h
    split at h
    · next p hp hcall hopening =>
      split at h
      · cases h
      · next hok =>
        simp only [not_or, Bool.not_eq_false] at hok
        obtain ⟨hlen, hne, hst, hco, hfd⟩ := hok
        obtain ⟨g, hslot, hg⟩ := Option.bind_eq_some_iff.mp h
        obtain ⟨i, hi, heq⟩ := Option.map_eq_some_iff.mp hg
        cases heq
        subst hst hco
        exact ⟨t, p, fd, i, rfl, hp, hcall, hopening, by omega, by omega, by omega, hslot, hi⟩
    · cases h
  | _ => cases h

theorem release_retained (h : s.Counted) (f : FileId) {s' : System}
    (htables : s'.tables = s.tables.fileRetain f) :
    s'.fileRelease f = { s' with tables := s'.tables.fileRelease f } := by
  unfold System.fileRelease
  split
  · next heq =>
    rw [htables] at heq
    exact absurd heq (System.fileRetain_file_ne h.sane)
  · rfl

theorem step_fileWrite (h : s.Counted) (hcall : fileWriteCall s op = some (f, data))
    (hi : s.inodeOf f = some i) :
    s.step op = { s with
      tables := (s.tables.fileRetain f).fileRelease f
      volume := (fsWriteInode s.volume i (s.offset f) data).2
      offset := match (fsWriteInode s.volume i (s.offset f) data).1 with
        | none => s.offset
        | some n => update s.offset f (s.offset f + n) } := by
  obtain ⟨t, p, fd, j, rfl, hp, hc, ho, hpos, hle, hfd, hslot, -⟩ := fileWriteCall_eq_some hcall
  obtain ⟨hget, hsame⟩ := getFileObject_open h hfd hslot
  have hinode := (System.inodeOf_eq_some.mp hi).2
  dsimp only [System.step]
  unfold System.asUser
  rw [hp, hc, ho]
  dsimp only
  unfold System.sysWrite
  rw [if_neg (Nat.not_lt.mpr hle), hget]
  dsimp only
  rw [if_neg (by simp [ne_nil_of_length_pos hpos]), hsame, hi]
  unfold System.fileWrite
  rw [hinode]
  cases fsWriteInode s.volume i (s.offset f) data with
  | mk out w => cases out <;> exact release_retained h f rfl

theorem step_noFileWrite (h : s.Counted) {t : Tid} {fd : Nat} {staging copied : Bool}
    (hcall : fileWriteCall s (.write t fd data staging copied) = none) :
    (s.step (.write t fd data staging copied)).volume = s.volume := by
  dsimp only [System.step]
  unfold System.asUser
  dsimp only [fileWriteCall] at hcall
  split
  · next p hp hc ho =>
    rw [hp, hc, ho] at hcall
    dsimp only at hcall ⊢
    unfold System.sysWrite File.State.getFileObject
    split
    · rfl
    · next hle =>
      by_cases hfd : fdCount ≤ fd
      · rw [if_pos hfd]
      · rw [if_neg hfd]
        cases hslot : s.tables.slot p fd with
        | none => rfl
        | some f =>
          dsimp only
          split
          · rw [release_retained h f rfl]
          · next hok =>
            rw [if_neg (by simp_all), hslot] at hcall
            have hnone : s.inodeOf f = none := by simpa using hcall
            have hsame := congrFun (System.inodeOf_keeps
              { s with tables := s.tables.fileRetain f } (h.sane.fileRetain f) rfl) f
            rw [hsame, hnone]
  · rfl

/-! ## Contents -/

theorem contents_eq (hv : Tidy v) (hpos : 0 < i) (hi : FileInUse v i) :
    contents v i =
      (range (inodeAt v i).size.toNat).map fun o => fileByte ((view v).data i) o := by
  have hf := fileInUse_iff.mp hi
  have hfile : IsFile v i := ⟨⟨hpos, hi.lt⟩, hi.type⟩
  have hsize : ((view v).info i).size = (inodeAt v i).size := congrArg Info.size (view_info hi.lt)
  unfold contents
  rw [fsReadInode_spec hv.healthy.sound hfile (hv.fits i hf), hsize, Nat.sub_zero, Nat.min_self]
  simp only [Option.getD_some, Nat.zero_add]

theorem contents_length (hv : Tidy v) (hpos : 0 < i) (hi : FileInUse v i) :
    (contents v i).length = (inodeAt v i).size.toNat := by
  rw [contents_eq hv hpos hi, length_map, length_range]

theorem contents_write (hv : Tidy v) {offset : Nat} (hpos : 0 < i) (hi : FileInUse v i)
    (hoff : offset ≤ (inodeAt v i).size.toNat)
    (hfull : (fsWriteInode v i offset data).1 = some data.length)
    (hw : Tidy (fsWriteInode v i offset data).2)
    (hi' : FileInUse (fsWriteInode v i offset data).2 i) :
    contents (fsWriteInode v i offset data).2 i =
      (contents v i).take offset ++ data ++ (contents v i).drop (offset + data.length) := by
  have hinfo : ((view v).info i).size = (inodeAt v i).size := congrArg Info.size (view_info hi.lt)
  have hmax := hv.fits i (fileInUse_iff.mp hi)
  have hspec := fsWriteInode_spec hv.healthy.sound i offset data
  generalize fsWriteInode v i offset data = r at hspec hfull hw hi' ⊢
  cases hspec with
  | refused | failed => cases hfull
  | @written w D hf hfit hsound hview hbytes =>
    have hdata : (view w).data i = D := by
      rw [hview]
      exact update_self _ _ _
    have hsize : (inodeAt w i).size.toNat =
        max (inodeAt v i).size.toNat (offset + data.length) := by
      have hw : (inodeAt w i).size = ((view w).info i).size :=
        (congrArg Info.size (view_info hi'.lt)).symm
      rw [hw, hview]
      simp only [View.setInfo, update_self]
      rw [hinfo] at hmax ⊢
      exact UInt64.toNat_ofNat_of_lt'
        (Nat.lt_of_le_of_lt (Nat.max_le.mpr ⟨hmax, hfit⟩) (by decide))
    rw [contents_eq hw hpos hi', contents_eq hv hpos hi, hsize, hdata, hbytes]
    exact range_map_overlay _ _ hoff data

/-! ## Runs -/

theorem contents_step (h : s.Counted) (hi : FileInUse s.volume i) (honly : OnlyWrites i s op)
    (hend : AtEnd i s op) :
    FileInUse (s.step op).volume i ∧
      contents (s.step op).volume i = contents s.volume i ++ written i s op := by
  obtain ⟨hcounted, hlives, hmarked⟩ := h.step op
  have hused : (view (s.step op).volume).used i = true :=
    hmarked i (fileInUse_iff.mp hi) honly.kept
  have hi' : FileInUse (s.step op).volume i :=
    fileInUse_iff.mpr (hlives.kept i (fileInUse_iff.mp hi) hused).1
  refine ⟨hi', ?_⟩
  have hquiet : ¬s.Writes op i → contents (s.step op).volume i = contents s.volume i := by
    intro hno
    have hread := (StepSafe.of_counted h op).contents i hi honly.kept hno
    have hsize := ((hlives.kept i (fileInUse_iff.mp hi) hused).2 hno).1
    rw [view_info hi'.lt, view_info hi.lt] at hsize
    have hsize : (inodeAt (s.step op).volume i).size = (inodeAt s.volume i).size := hsize
    unfold contents
    rw [hread, hsize]
  cases hcall : fileWriteCall s op with
  | none =>
    have hnone : written i s op = [] := by
      unfold written
      rw [hcall]
    rw [hnone, append_nil]
    cases op with
    | write t fd data staging copied => rw [step_noFileWrite h hcall]
    | openRequest t path flags =>
      refine hquiet fun hw => ?_
      obtain ⟨hflag, ino, hino⟩ := hw
      exact honly.whole t path flags rfl hflag ino hino
    | _ => exact hquiet id
  | some call =>
    obtain ⟨f, data⟩ := call
    obtain ⟨t, p, fd, j, rfl, hp, -, -, -, -, -, hslot, hj⟩ := fileWriteCall_eq_some hcall
    have hwritten : written i s (.write t fd data true true) =
        if s.inodeOf f = some i then data else [] := by
      unfold written
      rw [hcall]
    rw [hwritten]
    split
    next hfi =>
      have hpos : 0 < i := by
        obtain ⟨⟨n, hn⟩, -⟩ := System.inodeOf_eq_some.mp hfi
        have hobject : s.openObjects i ≠ 0 :=
          pointing_ne_zero (mem_range.mpr (h.sane.lt_nextFile hn)) hfi
        have hne : s.volume.openRefs i ≠ 0 := by
          intro h0
          have hsum := h.counted i
          rw [h0] at hsum
          simp only [UInt32.toNat_zero] at hsum
          omega
        refine Nat.pos_of_ne_zero fun h0 => hne ?_
        rw [h0]
        exact h.tidy.zero
      have hvolume := congrArg System.volume (step_fileWrite h hcall hfi)
      have hoffset := hend f data hcall hfi
      have hfull := honly.full f data hcall hfi
      have htidy := hcounted.tidy
      rw [hvolume, hoffset] at hi' htidy ⊢
      rw [hoffset] at hfull
      have hlen := contents_length h.tidy hpos hi
      rw [contents_write h.tidy hpos hi (Nat.le_refl _) hfull htidy hi', ← hlen, take_length,
        drop_eq_nil_of_le (Nat.le_add_right _ _), append_nil]
    next hfi =>
      rw [append_nil]
      refine hquiet fun hw => hfi ?_
      obtain ⟨p', f', hp', hslot', hi'⟩ := hw
      rw [hp] at hp'
      cases hp'
      rw [hslot] at hslot'
      cases hslot'
      exact hi'

theorem contents_run (h : s.Counted) (hi : FileInUse s.volume i) {ops : List System.Op}
    (hops : Machine.Throughout (fun s op => OnlyWrites i s op ∧ AtEnd i s op) System.step s ops) :
    contents (s.run ops).volume i = contents s.volume i ++ appended i s ops := by
  induction ops generalizing s with
  | nil => exact (append_nil _).symm
  | cons op ops ih =>
    obtain ⟨⟨honly, hend⟩, hrest⟩ := hops
    obtain ⟨hi', hstep⟩ := contents_step h hi honly hend
    have hrun := ih (h.step op).counted hi' hrest
    rw [hstep, append_assoc] at hrun
    exact hrun

/-! ## Two processes that append -/

/-- The file of the sample image, with its name and its block. -/
structure HoldsSample (v : Volume) : Prop where
  healthy : Healthy v
  unique : (view v).Unique
  isDir : (view v).IsDir fsRootInode
  entry : (view v).Entry fsRootInode 0 2 2 [97]
  file : IsFile v 2
  size : (inodeAt v 2).size = 2
  first : fileByte ((view v).data 2) 0 ≠ 0

theorem holdsSample_formatted (hf : Formatted [sampleInput] v) : HoldsSample v := by
  obtain ⟨hfile, hsize, hfirst⟩ := formatted_sample hf
  exact ⟨hf.healthy, hf.unique (by decide), (hf.isDir_iff _).mpr rfl,
    hf.entry (i := 2) (f := sampleInput) rfl, hfile, hsize, hfirst⟩

def samplePath : CString := ⟨[slash, 97], by decide⟩

theorem HoldsSample.lookup (h : HoldsSample v) :
    fsLookupPath v samplePath fsRootInode = some (2, inodeAt v 2) := by
  let c : Name := ⟨[97], inputName_canonical sampleInput (by decide)⟩
  have hchild : (graph v).child fsRootInode c = some 2 :=
    (h.healthy.child_iff h.unique).mpr ⟨h.isDir, 0, 2, h.entry, by decide, by decide⟩
  have hwalk : (graph v).walk [c] = some 2 := by
    rw [← nil_append [c], NamedGraph.PointedGraph.walk_snoc]
    exact hchild
  have hlookup := h.healthy.fsLookupPath_render [c] fsRootInode
  rw [hwalk] at hlookup
  exact hlookup

theorem HoldsSample.fsOpen (h : HoldsSample v) : Fs.fsOpen v samplePath 4 =
    (some (2, inodeAt v 2), v.setRefs 2 (v.openRefs 2 + 1)) := by
  have htarget : openTarget v samplePath 4 = (some (2, inodeAt v 2), v) := by
    unfold openTarget
    rw [h.lookup]
  unfold Fs.fsOpen
  rw [htarget]
  dsimp only
  rw [if_neg (not_not.mpr h.file.type)]
  rfl

theorem HoldsSample.setRefs (h : HoldsSample v) : HoldsSample (v.setRefs 2 (v.openRefs 2 + 1)) := by
  have hhealthy := h.healthy.openPath samplePath.2 4
  rw [h.fsOpen] at hhealthy
  have hdata : (view (v.setRefs 2 (v.openRefs 2 + 1))).data = (view v).data := by
    rw [(h.healthy.sound.setRefs 2 _).2.1]
    rfl
  refine ⟨hhealthy, ?_, h.isDir, h.entry.congr (congrFun hdata _),
    ⟨h.file.valid, h.file.type⟩, h.size, ?_⟩
  · intro d k s c k' s' c' name hd he he'
    exact h.unique hd (he.congr (congrFun hdata d).symm) (he'.congr (congrFun hdata d).symm)
  · rw [hdata]
    exact h.first

/-- The thread has the answer to an OPEN of the sample file with FILE_OPEN_APPEND. -/
def answered (s : System) (t : Tid) : System :=
  { s with
    volume := s.volume.setRefs 2 (s.volume.openRefs 2 + 1)
    opening := (t, ⟨2, 2, 4⟩) :: s.opening }

theorem openRequest_answered (h : HoldsSample s.volume) (hroom : s.held < System.heldLimit)
    (t : Tid) : s.openRequest t samplePath 4 = answered s t := by
  unfold System.openRequest
  rw [if_neg (Nat.not_le.mpr hroom), h.fsOpen]
  dsimp only
  rw [h.size]
  rfl

/-- Two processes open the file for appending. -/
def opens : List System.Op :=
  [.spawn, .spawn, .openRequest 0 samplePath 4, .openFinish 0 true, .openRequest 1 samplePath 4,
    .openFinish 1 true]

def twoAppenders (v : Volume) : System :=
  let s := answered (((System.boot v).step .spawn).step .spawn) 0
  (answered (s.openFinish 0 0 true) 1).openFinish 1 1 true

theorem run_opens (h : HoldsSample v) : (System.boot v).run opens = twoAppenders v := by
  have hlimit : 1 < System.heldLimit := by decide
  let s := ((System.boot v).step .spawn).step .spawn
  have h1 : s.openRequest 0 samplePath 4 = answered s 0 :=
    openRequest_answered h (show 0 < _ by omega) 0
  let s' := (answered s 0).openFinish 0 0 true
  have h2 : s'.openRequest 1 samplePath 4 = answered s' 1 :=
    openRequest_answered (s := s') h.setRefs (show 1 < _ by omega) 1
  calc (System.boot v).run opens
      = (((s.openRequest 0 samplePath 4).step (.openFinish 0 true)).step
          (.openRequest 1 samplePath 4)).step (.openFinish 1 true) := rfl
    _ = ((s'.openRequest 1 samplePath 4).step (.openFinish 1 true)) := by rw [h1]; rfl
    _ = twoAppenders v := by rw [h2]; rfl

/-- The block of the sample file is there to be written. -/
structure Ready (v : Volume) : Prop where
  sound : Sound v
  used : (view v).used 2 = true
  file : IsFile v 2
  first : fileByte ((view v).data 2) 0 ≠ 0

theorem Ready.inUse (h : Ready v) : FileInUse v 2 :=
  ⟨h.file.valid.2, (view_used_iff.mp h.used).2, h.file.type⟩

theorem Ready.write (h : Ready v) {offset : Nat} (hpos : 0 < offset) (hlt : offset < 4096)
    (x : UInt8) :
    (fsWriteInode v 2 offset [x]).1 = some 1 ∧ Ready (fsWriteInode v 2 offset [x]).2 := by
  have hone := write_present h.sound h.file h.first hlt x
  have hspec := fsWriteInode_spec h.sound 2 offset [x]
  generalize fsWriteInode v 2 offset [x] = r at hspec hone ⊢
  cases hspec with
  | refused | failed => cases hone
  | @written w D hf hfit hsound hview hbytes =>
    refine ⟨rfl, hsound, ?_, isFile_of_view (by decide) ?_, ?_⟩
    · rw [hview]
      exact h.used
    · rw [hview]
      simp only [View.setInfo, update_self]
      exact hf.type_view
    · have hdata : (view w).data 2 = D := by
        rw [hview]
        simp [View.setInfo, View.setBlocks]
      rw [hdata, hbytes]
      unfold Fs.overlay SparseArray.overlay
      rw [if_neg (by omega)]
      exact h.first

theorem twoAppenders_ready (hf : Formatted [sampleInput] v) :
    (twoAppenders v).Counted ∧ Ready (twoAppenders v).volume ∧
      contents (twoAppenders v).volume 2 = [104, 105] := by
  have hs := holdsSample_formatted hf
  have hs2 := hs.setRefs.setRefs
  have hboot := counted_boot hf
  have hcounted : (twoAppenders v).Counted := by
    rw [← run_opens hs]
    exact hboot.run opens
  have hused : (view v).used 2 = true := (hf.used 2).mpr (Or.inr rfl)
  have hinuse : FileInUse v 2 := ⟨hs.file.valid.2, (view_used_iff.mp hused).2, hs.file.type⟩
  refine ⟨hcounted, ⟨hs2.healthy.sound, hused, hs2.file, hs2.first⟩, ?_⟩
  have hsame : contents (twoAppenders v).volume 2 = contents v 2 :=
    (contents_eq hcounted.tidy (by decide) ⟨hinuse.lt, hinuse.used, hinuse.type⟩).trans
      (contents_eq hboot.tidy (by decide) hinuse).symm
  rw [hsame, contents, hf.read (f := sampleInput) rfl, hs.size]
  rfl

/-- A write of one byte through the object of one of the processes. -/
def writeOp (t : Tid) (x : UInt8) : System.Op := .write t 3 [x] true true

theorem Ready.writeOp (h : s.Counted) (hready : Ready s.volume) {t : Tid} {x : UInt8}
    (hcall : fileWriteCall s (writeOp t x) = some (f, [x])) (hi : s.inodeOf f = some 2)
    (hpos : 0 < s.offset f) (hlt : s.offset f < 4096) :
    ∃ w, Ready w ∧ OnlyWrites 2 s (Storage.writeOp t x) ∧
      s.step (Storage.writeOp t x) = { s with
        tables := (s.tables.fileRetain f).fileRelease f
        volume := w
        offset := update s.offset f (s.offset f + 1) } ∧
      (s.offset f = (contents s.volume 2).length → AtEnd 2 s (Storage.writeOp t x)) ∧
      (s.offset f ≤ (contents s.volume 2).length → contents w 2 =
        (contents s.volume 2).take (s.offset f) ++ [x] ++
          (contents s.volume 2).drop (s.offset f + 1)) := by
  obtain ⟨hone, hnext⟩ := hready.write hpos hlt x
  have hstep := step_fileWrite h hcall hi
  rw [hone] at hstep
  have hlength := contents_length h.tidy (by decide) hready.inUse
  refine ⟨_, hnext, ⟨?_, nofun, fun g data hg hgi => ?_⟩, hstep, fun heq g data hg _ => ?_,
    fun hle => ?_⟩
  · rw [hstep]
    exact hnext.inUse.used
  · rw [hcall] at hg
    cases hg
    exact hone
  · rw [hcall] at hg
    cases hg
    exact heq.trans hlength
  · rw [hlength] at hle
    have htidy := (h.step (Storage.writeOp t x)).counted.tidy
    rw [hstep] at htidy
    exact contents_write h.tidy (by decide) hready.inUse hle hone htidy hnext.inUse

/-! ## Appending writers -/

/-- Appending writers do not overwrite each other when every write starts at the end of the file:
whatever processes do from a fresh image on, as long as the file is only appended to, its contents
are what they were, followed by what has been written, in the order of the writes. -/
theorem appends_follow_each_other {diskSize startLba : Nat} {inputs : List Input}
    {disk : Nat → Block} (h : mkfs diskSize startLba inputs = some disk) :
    ∃ v, fsInit startLba disk = some v ∧ ∀ ops i more,
      FileInUse ((System.boot v).run ops).volume i →
      Machine.Throughout (fun s op => OnlyWrites i s op ∧ AtEnd i s op) System.step
        ((System.boot v).run ops) more →
      contents (((System.boot v).run ops).run more).volume i =
        contents ((System.boot v).run ops).volume i ++
          appended i ((System.boot v).run ops) more := by
  obtain ⟨v, hinit, hf⟩ := mkfs_formatted h
  exact ⟨v, hinit, fun ops i more hi hmore => contents_run ((counted_boot hf).run ops) hi hmore⟩

theorem appends_follow_each_other_alone : ∃ disk v, mkfs 1048576 0 [sampleInput] = some disk ∧
    fsInit 0 disk = some v ∧
      contents (((System.boot v).run opens).run [writeOp 0 33, writeOp 0 63]).volume 2 =
        [104, 105, 33, 63] := by
  obtain ⟨disk, hdisk⟩ := mkfs_sample
  obtain ⟨v, hinit, hall⟩ := appends_follow_each_other hdisk
  obtain ⟨v', hinit', hf⟩ := mkfs_formatted hdisk
  obtain rfl := Option.some.inj (hinit.symm.trans hinit')
  obtain ⟨hcounted, hready, hcontents⟩ := twoAppenders_ready hf
  refine ⟨disk, v, hdisk, hinit, ?_⟩
  have happ := hall opens 2 [writeOp 0 33, writeOp 0 63]
  rw [run_opens (holdsSample_formatted hf)] at happ ⊢
  obtain ⟨w, hw, honly, hstep, hend, hbytes⟩ :=
    hready.writeOp (t := 0) (x := 33) (f := 0) hcounted rfl rfl (show 0 < 2 by decide)
      (show 2 < 4096 by decide)
  have hend := hend (by rw [hcontents]; rfl)
  have hbytes := hbytes (by rw [hcontents]; exact Nat.le_refl 2)
  have hcounted' := (hcounted.step (writeOp 0 33)).counted
  rw [hstep] at hcounted'
  obtain ⟨w', hw', honly', hstep', hend', -⟩ :=
    hw.writeOp (t := 0) (x := 63) (f := 0) hcounted' rfl rfl (show 0 < 3 by decide)
      (show 3 < 4096 by decide)
  have hend' := hend' (by rw [hbytes, hcontents]; rfl)
  rw [happ hready.inUse ⟨⟨honly, hend⟩, by rw [hstep]; exact ⟨⟨honly', hend'⟩, trivial⟩⟩, hcontents,
    appended, hstep]
  rfl

/-- Two processes open a file of two bytes for appending and write one byte each: the second one
writes over the byte of the first. -/
theorem appended_byte_lost : ∃ disk v, mkfs 1048576 0 [sampleInput] = some disk ∧
    fsInit 0 disk = some v ∧
      Machine.Throughout (OnlyWrites 2) System.step ((System.boot v).run opens)
        [writeOp 0 33, writeOp 1 63] ∧
      contents ((System.boot v).run opens).volume 2 = [104, 105] ∧
      appended 2 ((System.boot v).run opens) [writeOp 0 33, writeOp 1 63] = [33, 63] ∧
      contents (((System.boot v).run opens).run [writeOp 0 33, writeOp 1 63]).volume 2 =
        [104, 105, 63] := by
  obtain ⟨disk, hdisk⟩ := mkfs_sample
  obtain ⟨v, hinit, hf⟩ := mkfs_formatted hdisk
  obtain ⟨hcounted, hready, hcontents⟩ := twoAppenders_ready hf
  refine ⟨disk, v, hdisk, hinit, ?_⟩
  rw [run_opens (holdsSample_formatted hf)]
  obtain ⟨w, hw, honly, hstep, -, hbytes⟩ :=
    hready.writeOp (t := 0) (x := 33) (f := 0) hcounted rfl rfl (show 0 < 2 by decide)
      (show 2 < 4096 by decide)
  have hbytes := hbytes (by rw [hcontents]; exact Nat.le_refl 2)
  rw [hcontents] at hbytes
  have hcounted' := (hcounted.step (writeOp 0 33)).counted
  rw [hstep] at hcounted'
  obtain ⟨w', hw', honly', hstep', -, hbytes'⟩ :=
    hw.writeOp (t := 1) (x := 63) (f := 1) hcounted' rfl rfl (show 0 < 2 by decide)
      (show 2 < 4096 by decide)
  have hbytes' := hbytes' (by rw [hbytes]; exact (by decide : 2 ≤ 3))
  have hend : ((twoAppenders v).run [writeOp 0 33, writeOp 1 63]).volume = w' := by
    change (((twoAppenders v).step (writeOp 0 33)).step (writeOp 1 63)).volume = w'
    rw [hstep, hstep']
  refine ⟨⟨honly, by rw [hstep]; exact ⟨honly', trivial⟩⟩, hcontents, ?_, ?_⟩
  · rw [appended, hstep]
    rfl
  · rw [hend, hbytes', hbytes]
    rfl

end OrangeOs.Storage
