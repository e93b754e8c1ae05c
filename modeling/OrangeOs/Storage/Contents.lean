import OrangeOs.Storage.Safety
import OrangeOs.Lib.Machine

/-! # Files as sparse byte arrays

As long as no write has failed, every file holds zeros from its size on, so its
size and bytes form a sparse array. Writing and truncating are the operations of
that array and reading reads it, at every offset the format allows: which index
level a block hangs from leaves no trace.
-/

namespace OrangeOs.Storage

open Bytes Fs Mkfs SparseArray Machine Function List

/-! ## The invariant -/

variable {v w : Volume} {f nr offset : Nat} {path : Str} {s : Sparse (0 : UInt8)}

theorem isFile_of_view (hpos : 0 < f) (htype : ((view v).info f).type = fsTypeFile) :
    IsFile v f := by
  by_cases hlt : f < v.sb.totalInodes
  · rw [view_info hlt] at htype
    exact ⟨⟨hpos, hlt⟩, htype⟩
  · have hblank : (view v).info f = Inode.blank.info := if_neg hlt
    rw [hblank] at htype
    exact absurd htype (by decide)

/-- The file `f` holds the array `s`. -/
structure Stores (v : Volume) (f : Nat) (s : Sparse (0 : UInt8)) : Prop where
  file : IsFile v f
  size : ((view v).info f).size.toNat = s.size
  bytes : fileByte ((view v).data f) = s.get
  fits : s.size ≤ fsMaxFileSize

/-- Every file holds an array: it ends within the size limit and is zero behind
its end. -/
def AllSparse (v : Volume) : Prop := ∀ f, IsFile v f → ∃ s, Stores v f s

theorem AllSparse.keeps (h : AllSparse v) (hk : KeepsFiles (view v) (view w)) : AllSparse w := by
  intro f hf
  rcases hk f hf.type_view with ⟨htype, hsize, hdata⟩ | ⟨hsize, hdata⟩
  · obtain ⟨s, hs⟩ := h f (isFile_of_view hf.valid.1 htype)
    exact ⟨s, hf, by rw [hsize, hs.size], by rw [hdata, hs.bytes], hs.fits⟩
  · exact ⟨.empty, hf, by rw [hsize]; rfl, by rw [hdata]; rfl, Nat.zero_le _⟩

theorem keepsFiles_truncate (V : View) (nr : Nat) (info : Info) (hsize : info.size = 0) :
    KeepsFiles V ((V.setBlocks nr fun _ => zero).setInfo nr info) := by
  intro j hj
  by_cases hjn : j = nr
  · subst hjn
    exact Or.inr ⟨by simpa [View.setInfo] using hsize, by simp [View.setInfo, View.setBlocks]⟩
  · have hinfo : ((V.setBlocks nr fun _ => zero).setInfo nr info).info j = V.info j :=
      update_of_ne hjn _ _
    have hdata : ((V.setBlocks nr fun _ => zero).setInfo nr info).data j = V.data j :=
      update_of_ne hjn _ _
    rw [hinfo] at hj ⊢
    exact Or.inl ⟨hj, rfl, hdata⟩

/-! ## Operations other than writes -/

section Keeps

variable (h : Healthy v)
include h

theorem create_keepsFiles (hpath : (0 : UInt8) ∉ path) {type : UInt16}
    (hkind : type = fsTypeFile ∨ type = fsTypeDirectory) :
    KeepsFiles (view v) (view (fsCreatePath v path fsRootInode type).2) := by
  rcases fsCreatePath_spec h hpath hkind with he | ⟨i, u, he, hf⟩ | ⟨p, i, name, u, -, he, hd⟩
  · rw [he]
    exact KeepsFiles.refl _
  · rw [he]
    exact hf.files
  · rw [he]
    exact hd.files

theorem unlink_keepsFiles (path : Str) :
    KeepsFiles (view v) (view (fsUnlinkPath v path fsRootInode).2) := by
  rcases fsUnlinkPath_spec h path with ⟨he, -⟩ | ⟨p, k, s, i, name, w, -, he, -, -, hkeep, -⟩
  · rw [he]
    exact KeepsFiles.refl _
  · rw [he]
    exact hkeep

theorem openTarget_keepsFiles (hpath : (0 : UInt8) ∉ path) (flags : UInt32) :
    KeepsFiles (view v) (view (openTarget v path flags).2) := by
  rcases openTarget_volume v path flags with he | he
  · rw [he]
    exact KeepsFiles.refl _
  · rw [he]
    exact create_keepsFiles h hpath (Or.inl rfl)

theorem open_keepsFiles (hpath : (0 : UInt8) ∉ path) (flags : UInt32) :
    KeepsFiles (view v) (view (fsOpen v path flags).2) := by
  have hkeep := openTarget_keepsFiles h hpath flags
  rcases fsOpen_spec h hpath flags with he | ⟨nr, ino, u, he, hopen⟩
  · rw [he]
    exact hkeep
  · rw [he]
    refine hkeep.trans ?_
    change KeepsFiles _ ((view u).setRefs nr (u.openRefs nr + 1))
    rw [hopen.view]
    split
    · exact fun _ hj => Or.inl ⟨hj, rfl, rfl⟩
    · exact keepsFiles_truncate _ nr { (view (openTarget v path flags).2).info nr with size := 0 } rfl

end Keeps

/-! ## Writes -/

/-- A write succeeds in the state `v`; the other operations may fail. -/
def Op.succeeds (v : Volume) : Op → Prop
  | .write nr offset data => (fsWriteInode v nr offset data).1.isSome
  | _ => True

theorem Stores.untouched (h : Stores v f s) {D : Nat → Block} {info : Info}
    (hview : view w = ((view v).setBlocks nr D).setInfo nr info) (hne : f ≠ nr) : Stores w f s := by
  have hinfo : (view w).info f = (view v).info f := by
    rw [hview]
    exact update_of_ne hne _ _
  have hdata : (view w).data f = (view v).data f := by
    rw [hview]
    exact update_of_ne hne _ _
  refine ⟨isFile_of_view h.file.valid.1 ?_, by rw [hinfo, h.size], by rw [hdata, h.bytes], h.fits⟩
  rw [hinfo]
  exact h.file.type_view

theorem write_stores (hs : Sound v) {data : List UInt8}
    (hok : (fsWriteInode v nr offset data).1.isSome) (h : Stores v f s) :
    Stores (fsWriteInode v nr offset data).2 f (if nr = f then s.write offset data else s) := by
  have hspec := fsWriteInode_spec hs nr offset data
  generalize fsWriteInode v nr offset data = r at hspec hok ⊢
  cases hspec with
  | refused | failed => cases hok
  | @written w D hf hfit hsound hview hbytes =>
    have hpos := h.file.valid.1
    split
    · next heq =>
      subst heq
      have hinfo : (view w).info nr = { (view v).info nr with
          size := UInt64.ofNat (max ((view v).info nr).size.toNat (offset + data.length)) } := by
        rw [hview]
        exact update_self _ _ _
      have hdata : (view w).data nr = D := by
        rw [hview]
        exact update_self _ _ _
      have hmax : max s.size (offset + data.length) ≤ fsMaxFileSize :=
        Nat.max_le.mpr ⟨h.fits, hfit⟩
      refine ⟨isFile_of_view hpos (by rw [hinfo]; exact hf.type_view), ?_, ?_, hmax⟩
      · rw [hinfo, h.size]
        exact UInt64.toNat_ofNat_of_lt' (Nat.lt_of_le_of_lt hmax (by decide))
      · rw [hdata, hbytes, h.bytes]
        rfl
    · next hne => exact h.untouched hview (Ne.symm hne)

theorem write_isFile (hs : Sound v) {data : List UInt8}
    (hf : IsFile (fsWriteInode v nr offset data).2 f) : IsFile v f := by
  have hspec := fsWriteInode_spec hs nr offset data
  generalize fsWriteInode v nr offset data = r at hspec hf ⊢
  have hpos := hf.valid.1
  have htype := hf.type_view
  cases hspec with
  | refused => exact hf
  | failed D _ _ hview =>
    rw [hview] at htype
    exact isFile_of_view hpos htype
  | @written w D hfile _ _ hview _ =>
    by_cases heq : f = nr
    · exact heq ▸ hfile
    · have hinfo : (view w).info f = (view v).info f := by
        rw [hview]
        exact update_of_ne heq _ _
      exact isFile_of_view hpos (by rwa [← hinfo])

theorem Op.allSparse (h : Healthy v) (hsparse : AllSparse v) {op : Op} (hok : Op.succeeds v op) :
    AllSparse (op.apply v) := by
  cases op with
  | create path type => exact hsparse.keeps (create_keepsFiles h path.2 type.code_cases)
  | write nr offset data =>
    intro f hf
    obtain ⟨s, hstores⟩ := hsparse f (write_isFile h.sound hf)
    exact ⟨_, write_stores h.sound hok hstores⟩
  | openPath path flags => exact hsparse.keeps (open_keepsFiles h path.2 flags)
  | unlink path => exact hsparse.keeps (unlink_keepsFiles h path)
  | release nr => exact hsparse.keeps (releaseInode_spec h nr).2.2

/-- `truncate_inode` on an inode that has just been read. -/
def fsTruncate (v : Volume) (nr : Nat) : Volume :=
  match fsGetInode v nr with
  | none => v
  | some ino => (truncateInode v nr ino).2.2

theorem truncate_cases (hs : Sound v) (nr : Nat) : (¬IsFile v nr ∧ fsTruncate v nr = v) ∨
    (IsFile v nr ∧ Sound (fsTruncate v nr) ∧ view (fsTruncate v nr) =
      ((view v).setBlocks nr fun _ => zero).setInfo nr { (view v).info nr with size := 0 }) := by
  unfold fsTruncate
  by_cases hvalid : validInode v nr
  · rw [fsGetInode_eq hs.mounted hvalid]
    dsimp only
    by_cases htype : (inodeAt v nr).type = fsTypeFile
    · obtain ⟨w, he, hsound, hview⟩ := truncateInode_spec hs ⟨hvalid, htype⟩
      rw [he]
      exact Or.inr ⟨⟨hvalid, htype⟩, hsound, hview⟩
    · refine Or.inl ⟨fun hf => htype hf.type, ?_⟩
      rw [truncateInode, if_pos htype]
  · rw [fsGetInode, if_neg hvalid]
    exact Or.inl ⟨fun hf => hvalid hf.valid, rfl⟩

theorem truncate_stores (hs : Sound v) (nr : Nat) (h : Stores v f s) :
    Stores (fsTruncate v nr) f (if nr = f then .empty else s) := by
  rcases truncate_cases hs nr with ⟨hno, he⟩ | ⟨hf, -, hview⟩
  · rw [he, if_neg (by rintro rfl; exact hno h.file)]
    exact h
  · have hpos := h.file.valid.1
    split
    · next heq =>
      subst heq
      have hinfo : (view (fsTruncate v nr)).info nr = { (view v).info nr with size := 0 } := by
        rw [hview]
        exact update_self _ _ _
      have hdata : (view (fsTruncate v nr)).data nr = fun _ => zero := by
        rw [hview]
        exact update_self _ _ _
      exact ⟨isFile_of_view hpos (by rw [hinfo]; exact hf.type_view), by rw [hinfo]; rfl,
        by rw [hdata]; rfl, Nat.zero_le _⟩
    · next hne => exact h.untouched hview (Ne.symm hne)

/-! ## Runs -/

inductive FileOp where
  | write (nr offset : Nat) (data : List UInt8)
  | truncate (nr : Nat)

def FileOp.apply (v : Volume) : FileOp → Volume
  | .write nr offset data => (fsWriteInode v nr offset data).2
  | .truncate nr => fsTruncate v nr

def FileOp.succeeds (v : Volume) : FileOp → Prop
  | .write nr offset data => (fsWriteInode v nr offset data).1.isSome
  | .truncate _ => True

/-- What an operation does to the file `f`, if it is made on it. -/
def FileOp.event (f : Nat) : FileOp → Option (Event UInt8)
  | .write nr offset data => if nr = f then some (.write offset data) else none
  | .truncate nr => if nr = f then some .truncate else none

def runFileOps (v : Volume) (ops : List FileOp) : Volume := ops.foldl FileOp.apply v

/-- What happened to the file `f`, newest first. -/
def history (f : Nat) (ops : List FileOp) : List (Event UInt8) :=
  (ops.filterMap (FileOp.event f)).reverse

theorem FileOp.sound (hs : Sound v) (op : FileOp) : Sound (op.apply v) := by
  cases op with
  | write nr offset data => exact (fsWriteInode_spec hs nr offset data).sound_snd hs
  | truncate nr =>
    change Sound (fsTruncate v nr)
    rcases truncate_cases hs nr with ⟨-, he⟩ | ⟨-, hsound, -⟩
    · rwa [he]
    · exact hsound

theorem FileOp.stores (hs : Sound v) {op : FileOp} (hok : op.succeeds v) (h : Stores v f s) :
    Stores (op.apply v) f (s.replay (op.event f).toList) := by
  cases op with
  | write nr offset data =>
    have hw := write_stores hs hok h
    change Stores _ f (s.replay (if nr = f then some (Event.write offset data) else none).toList)
    by_cases heq : nr = f
    · rw [if_pos heq] at hw ⊢
      exact hw
    · rw [if_neg heq] at hw ⊢
      exact hw
  | truncate nr =>
    have ht := truncate_stores hs nr h
    change Stores _ f (s.replay (if nr = f then some Event.truncate else none).toList)
    by_cases heq : nr = f
    · rw [if_pos heq] at ht ⊢
      exact ht
    · rw [if_neg heq] at ht ⊢
      exact ht

theorem runFileOps_stores (hs : Sound v) {ops : List FileOp}
    (hok : Throughout FileOp.succeeds FileOp.apply v ops) (h : Stores v f s) :
    Sound (runFileOps v ops) ∧
      Stores (runFileOps v ops) f (s.replay (ops.filterMap (FileOp.event f))) := by
  induction ops generalizing v s with
  | nil => exact ⟨hs, h⟩
  | cons op ops ih =>
    have hstep := ih (op.sound hs) hok.2 (FileOp.stores hs hok.1 h)
    have hevents : (op :: ops).filterMap (FileOp.event f) =
        (op.event f).toList ++ ops.filterMap (FileOp.event f) := by
      rw [filterMap_cons]
      cases op.event f <;> rfl
    rw [hevents, Sparse.replay, foldl_append]
    exact hstep

theorem runOps_allSparse (h : Healthy v) (hsparse : AllSparse v) {ops : List Op}
    (hok : Throughout Op.succeeds Op.apply v ops) :
    Healthy (runOps v ops) ∧ AllSparse (runOps v ops) :=
  hok.invariant (fun v => Healthy v ∧ AllSparse v)
    (fun _ op hinv hop => ⟨hinv.1.step op, Op.allSparse hinv.1 hinv.2 hop⟩) ⟨h, hsparse⟩

theorem formatted_allSparse {inputs : List Input} (h : Formatted inputs v) : AllSparse v := by
  intro i hi
  have hused := h.current i _ hi.tab
  have hroot : i ≠ fsRootInode := by
    rintro rfl
    have := hi.type_view
    rw [h.root] at this
    exact absurd this (by decide)
  obtain ⟨f, hf⟩ := Option.isSome_iff_exists.mp (((h.used i).mp hused).resolve_left hroot)
  have hlt := (h.fits f (inputAt_some hf).2.2).2
  have hsize : ((view v).info i).size.toNat = f.contents.length := by
    rw [h.file i f hf]
    exact UInt64.toNat_ofNat_of_lt' (Nat.lt_trans hlt (by decide))
  have hbyte : ∀ o, f.contents.length ≤ o → fileByte ((view v).data i) o = 0 := by
    intro o ho
    have hpos : o / 4096 * 4096 + o % 4096 = o := Nat.div_add_mod' o 4096
    rw [fileByte, h.data i _ hroot, inputBlock, hf]
    change fileBlock f.contents (o / 4096 * 4096) 4096 (o % 4096) = 0
    rw [fileBlock, hpos, getD_eq_default _ _ ho, ite_self]
  exact ⟨⟨_, _, hbyte⟩, hi, hsize, rfl, Nat.le_trans (Nat.le_of_lt hlt) (by decide)⟩

theorem create_empty (h : Healthy v) {path : CString}
    (he : fsCreatePath v path fsRootInode fsTypeFile = (some f, w)) : Stores w f .empty := by
  rcases fsCreatePath_spec h path.2 (Or.inl rfl) with hc | ⟨i, u, hc, -⟩ |
    ⟨p, i, name, u, -, hc, hd⟩
  · cases he.symm.trans hc
  · cases he.symm.trans hc
  · cases he.symm.trans hc
    obtain ⟨k, s, hcreated⟩ := hd.created
    refine ⟨isFile_of_view (Nat.pos_of_ne_zero hcreated.pos) ?_, ?_, ?_, Nat.zero_le _⟩
    · rw [hd.info]
      rfl
    · rw [hd.info]
      rfl
    · rw [hd.data]
      rfl

/-- The file `f` reads as the array `start` after the history `h`, newest event
first. The `int` that `fs_read_inode` returns is the number of bytes as long as it
fits. -/
structure ReadsAs (v : Volume) (f : Nat) (start : Sparse (0 : UInt8)) (h : List (Event UInt8)) :
    Prop where
  size : (inodeAt v f).size.toNat = endAt start.size h
  bytes : ∀ offset length, fsReadInode v f offset length =
    some ((List.range (min length ((inodeAt v f).size.toNat - offset))).map fun t =>
      valueAt 0 start.get h (offset + t))
  result : ∀ offset length, length < 2 ^ 31 → readResult (fsReadInode v f offset length) =
    min length ((inodeAt v f).size.toNat - offset)

theorem Stores.inode_size (h : Stores v f s) : (inodeAt v f).size.toNat = s.size := by
  rw [← h.size, h.file.info]
  rfl

theorem Stores.readsAs (hs : Sound v) {start : Sparse (0 : UInt8)} {events : List (Event UInt8)}
    (h : Stores v f (start.replay events)) : ReadsAs v f start events.reverse := by
  have hsize : (inodeAt v f).size.toNat = endAt start.size events.reverse := by
    rw [h.inode_size, Sparse.replay_size]
  have hbytes : ∀ offset length, fsReadInode v f offset length =
      some ((range (min length ((inodeAt v f).size.toNat - offset))).map fun t =>
        valueAt 0 start.get events.reverse (offset + t)) := by
    intro offset length
    rw [fsReadInode_spec hs h.file (by rw [h.size]; exact h.fits), h.size, h.bytes, h.inode_size,
      Sparse.replay_get]
  refine ⟨hsize, hbytes, fun offset length hlen => ?_⟩
  rw [hbytes, readResult, length_map, length_range]
  exact i32_of_lt (by omega)

/-- From any state that an image reaches without a failing write, a file is a
sparse array under writes and truncations: its size and what is read at any offset
are given by what was done to this file alone. A new file starts empty. -/
theorem file_refines_sparse_array {diskSize startLba : Nat} {inputs : List Input}
    {disk : Nat → Block} (h : mkfs diskSize startLba inputs = some disk) :
    ∃ v₀, fsInit startLba disk = some v₀ ∧
      ∀ before, Throughout Op.succeeds Op.apply v₀ before → ∀ v, v = runOps v₀ before →
        (∀ (path : CString) f w, fsCreatePath v path fsRootInode fsTypeFile = (some f, w) →
          IsFile w f ∧ (inodeAt w f).size = 0) ∧
        ∀ f, IsFile v f → ∃ start : Sparse (0 : UInt8), start.size = (inodeAt v f).size.toNat ∧
          ∀ ops, Throughout FileOp.succeeds FileOp.apply v ops →
            ReadsAs (runFileOps v ops) f start (history f ops) := by
  obtain ⟨v₀, hinit, hf⟩ := mkfs_formatted h
  refine ⟨v₀, hinit, ?_⟩
  rintro before hbefore v rfl
  obtain ⟨hhealthy, hsparse⟩ := runOps_allSparse hf.healthy (formatted_allSparse hf) hbefore
  constructor
  · intro path f w he
    have hempty := create_empty hhealthy he
    exact ⟨hempty.file, UInt64.toNat_inj.mp hempty.inode_size⟩
  · intro f hfile
    obtain ⟨start, hstart⟩ := hsparse f hfile
    refine ⟨start, hstart.inode_size.symm, fun ops hops => ?_⟩
    obtain ⟨hsound, hend⟩ := runFileOps_stores hhealthy.sound hops hstart
    exact hend.readsAs hsound

theorem write_present (hs : Sound v) (hf : IsFile v nr) (hb : fileByte ((view v).data nr) 0 ≠ 0)
    (hoff : offset < 4096) (x : UInt8) : (fsWriteInode v nr offset [x]).1 = some 1 := by
  have hpresent : (inodeAt v nr).root 0 ≠ 0 ∧ ∃ b, cacheGet v ((inodeAt v nr).root 0) = some b := by
    rcases dirBlock_cases hs hf.tab (show 0 < fsMaxFileBlocks by decide) with
      ⟨-, hdata⟩ | ⟨b, hne, hblock, hget, -⟩
    · exact absurd (by rw [fileByte, Nat.zero_div, hdata]; rfl) hb
    · have hroot : (inodeAt v nr).root 0 = b := by
        rw [inodeDataBlock_of_lt v _ false (by decide), lookupSlot, if_neg (by simp)] at hblock
        exact Option.some.inj hblock
      exact ⟨by rwa [hroot], _, by rw [hroot]; exact hget⟩
  obtain ⟨hne, b, hget⟩ := hpresent
  obtain ⟨n, hn⟩ := Nat.exists_eq_succ_of_ne_zero hne
  have hslot : inodeDataBlock v (inodeAt v nr) 0 true =
      (some (n + 1), inodeAt v nr, v) := by
    rw [inodeDataBlock_of_lt v _ true (by decide)]
    change lookupSlot v (inodeAt v nr) 0 [] true = _
    rw [lookupSlot, if_neg fun hc => hne hc.1, walkIndex, hn]
  have hchunk : min (4096 - offset % 4096) [x].length = 1 := by
    rw [length_singleton]
    omega
  have hloop : Fs.writeBlocks v (inodeAt v nr) offset [x] =
      (true, inodeAt v nr, v.store (n + 1) (splice b (offset % 4096) [x])) := by
    rw [hn] at hget
    rw [Fs.writeBlocks, dif_neg (by simp)]
    simp only [Nat.div_eq_of_lt hoff, hslot, hget, hchunk]
    rw [Fs.writeBlocks]
    rfl
  have hmax : 4096 < fsMaxFileSize := by decide
  unfold fsWriteInode
  rw [fsGetInode_eq hs.mounted hf.valid]
  dsimp only
  rw [if_neg (not_or.mpr ⟨not_not.mpr hf.type, by rw [length_singleton]; omega⟩), hloop]
  dsimp only
  rw [fsPutInode_eq (v := v.store (n + 1) (splice b (offset % 4096) [x])) hs.mounted hf.valid]
  rfl

theorem formatted_sample (hf : Formatted [sampleInput] v) :
    IsFile v 2 ∧ (inodeAt v 2).size = 2 ∧ fileByte ((view v).data 2) 0 ≠ 0 := by
  have hat : inputAt [sampleInput] 2 = some sampleInput := rfl
  have hinfo := hf.file 2 _ hat
  have hfile : IsFile v 2 := isFile_of_view (by decide) (by rw [hinfo]; rfl)
  refine ⟨hfile, congrArg Info.size (hfile.info.symm.trans hinfo), ?_⟩
  rw [fileByte, hf.data 2 _ (by decide), inputBlock, hat]
  decide

theorem file_refines_sparse_array_sample : ∃ disk v, mkfs 1048576 0 [sampleInput] = some disk ∧
    fsInit 0 disk = some v ∧ ∃ start : Sparse (0 : UInt8), start.size = 2 ∧
      ReadsAs (runFileOps v [.write 2 0 [106]]) 2 start [.write 0 [106]] := by
  obtain ⟨disk, hdisk⟩ := mkfs_sample
  obtain ⟨v, hinit, hrun⟩ := file_refines_sparse_array hdisk
  obtain ⟨v', hinit', hf⟩ := mkfs_formatted hdisk
  obtain rfl := Option.some.inj (hinit.symm.trans hinit')
  obtain ⟨hfile, hsize, hbyte⟩ := formatted_sample hf
  obtain ⟨start, hstart, hreads⟩ := (hrun [] trivial v rfl).2 2 hfile
  refine ⟨disk, v, hdisk, hinit, start, ?_, hreads _ ⟨?_, trivial⟩⟩
  · rw [hstart, hsize]
    rfl
  · change (fsWriteInode v 2 0 [106]).1.isSome
    rw [write_present hf.sound hfile hbyte (by decide)]
    rfl

end OrangeOs.Storage
