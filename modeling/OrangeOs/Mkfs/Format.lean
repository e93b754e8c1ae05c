import OrangeOs.Mkfs.Files
import OrangeOs.Fs.Run

/-! # The finished image

The layout is one `fs_init` accepts, and the volume it mounts is described by the
list of inputs alone: inode `i + 2` and entry `i + 2` of the root directory belong
to input `i`, its blocks hold the input's bytes, and no block is marked without
being in use.
-/

namespace OrangeOs.Mkfs

open Bytes Fs Function List

/-! ## The layout -/

theorem divideRoundUp_room (value : Nat) {divisor : Nat} (h : 0 < divisor) :
    value ≤ divideRoundUp value divisor * divisor ∧
      (value + divisor - 1) / divisor ≤ divideRoundUp value divisor := by
  have hdiv := Nat.div_add_mod value divisor
  have hmod := Nat.mod_lt value h
  have hroom : value ≤ divideRoundUp value divisor * divisor := by
    unfold divideRoundUp
    rw [if_neg (by omega), Nat.add_mul, Nat.mul_comm (value / divisor)]
    split
    · rw [Nat.one_mul]
      omega
    · omega
  refine ⟨hroom, ?_⟩
  rw [Nat.div_le_iff_le_mul_add_pred h]
  rw [Nat.mul_comm] at hroom
  omega

structure LayoutOk (startLba : Nat) (sb : SuperBlock) : Prop where
  accepted : accepted startLba sb
  inRange : sb.InRange
  inodes_lo : 4096 ≤ sb.totalInodes
  inodes_hi : sb.totalInodes ≤ 262144

theorem inodeCount_bounds (totalBlocks : Nat) :
    4096 ≤ inodeCount totalBlocks ∧ inodeCount totalBlocks ≤ 262144 := by
  unfold inodeCount
  omega

theorem layout_spec {diskSize startLba : Nat} {sb : SuperBlock}
    (h : layout diskSize startLba = some sb) : LayoutOk startLba sb := by
  unfold layout at h
  dsimp only at h
  split at h
  · cases h
  split at h
  · cases h
  generalize (diskSize - startLba * 512 - (diskSize - startLba * 512) % 4096) / 4096 = total at h
  split at h
  · cases h
  next hblocks =>
    obtain ⟨hcount, hcount'⟩ := inodeCount_bounds total
    generalize inodeCount total = inodes at h hcount hcount'
    obtain ⟨-, himap⟩ := divideRoundUp_room inodes (by decide : 0 < 32768)
    obtain ⟨-, hbmap⟩ := divideRoundUp_room total (by decide : 0 < 32768)
    obtain ⟨-, hslots⟩ := divideRoundUp_room inodes (by decide : 0 < 56)
    generalize divideRoundUp inodes 32768 = imapBlocks at h himap
    generalize divideRoundUp total 32768 = bmapBlocks at h hbmap
    generalize divideRoundUp inodes 56 = inodeBlocks at h hslots
    split at h
    · cases h
    next hdata =>
      obtain rfl := Option.some.inj h
      simp only [not_or, Nat.not_lt, Nat.not_le] at hblocks hdata
      refine ⟨?_, ?_, hcount, hcount'⟩
      · refine ⟨rfl, rfl, rfl, ?_, ?_, hblocks.2.2, ?_⟩
        · change 1 < inodes
          omega
        · change 2 + imapBlocks + bmapBlocks + inodeBlocks < total
          omega
        · dsimp only
          omega
      · rintro (_ | _ | _ | _ | _ | _ | _ | _ | _ | _ | _ | _ | _ | _) <;>
          simp only [SuperBlock.word, fsMagic, fsFormatVersion] <;> omega

/-! ## The last writes -/

theorem writeBlocks_apply (disk : Nat → Block) (start : Nat) (buffer : Nat → Block) (n b : Nat) :
    writeBlocks disk start buffer n b =
      if start ≤ b ∧ b < start + n then buffer (b - start) else disk b := by
  induction n with
  | zero =>
    rw [if_neg (by omega)]
    rfl
  | succ n ih =>
    unfold writeBlocks at ih ⊢
    rw [range_succ, foldl_append, foldl_cons, foldl_nil]
    by_cases hb : b = start + n
    · rw [hb, update_self, if_pos (by omega), Nat.add_sub_cancel_left]
    · rw [update_of_ne hb, ih]
      split
      · rw [if_pos (by omega)]
      · rw [if_neg (by omega)]

/-- The volume the finished image is mounted as. -/
def finished (sb : SuperBlock) (st : State) : Volume where
  sb := sb
  disk := writeMetadata sb st
  openRefs _ := 0

@[simp] theorem finished_sb (sb : SuperBlock) (st : State) : (finished sb st).sb = sb := rfl

/-- The blocks written at the end, the bitmap and the root directory apart. -/
def metadataRegion (sb : SuperBlock) (b : Nat) : Prop := b = 1 ∨ metaRegion sb b

theorem finished_disk (sb : SuperBlock) (st : State) (b : Nat) : (finished sb st).disk b =
    if b = sb.firstDataBlock then st.root
    else if inodeRegion sb b then st.inodes (b - sb.inodeStart)
    else if bmapRegion sb b then fun k => st.img.bmap ((b - sb.bmapStart) * 4096 + k)
    else if b = sb.imapStart then st.imap
    else if b = 1 then SuperBlock.write zero sb
    else st.img.disk b := by
  unfold finished writeMetadata
  dsimp only
  split
  next h1 => rw [h1, update_self]
  next h1 =>
    rw [update_of_ne h1, writeBlocks_apply, writeBlocks_apply]
    by_cases h2 : inodeRegion sb b
    · rw [if_pos h2]
      exact if_pos h2
    · rw [if_neg h2]
      refine (if_neg h2).trans ?_
      by_cases h3 : bmapRegion sb b
      · rw [if_pos h3]
        exact if_pos h3
      · rw [if_neg h3]
        refine (if_neg h3).trans ?_
        split
        next h4 => rw [h4, update_self]
        next h4 =>
          rw [update_of_ne h4]
          split
          next h5 => rw [h5, update_self]
          next h5 => rw [update_of_ne h5]

section Finish

variable {sb : SuperBlock} {done : List Input} {tab : Table} (hm : Mounted sb) (st : State)
include hm

/-- The last writes leave the bitmap as it was in memory and the data area as it
was, up to the root directory. -/
theorem finished_frame :
    Frame (metadataRegion sb) ((st.img.volume sb).store sb.firstDataBlock st.root)
      (finished sb st) := by
  refine ⟨rfl, rfl, fun b hb => ?_⟩
  obtain ⟨h1, hmeta⟩ := not_or.mp hb
  obtain ⟨himap, hinode⟩ := not_or.mp hmeta
  have himap' : b ≠ sb.imapStart := by
    rintro rfl
    have h2 := hm.imap_room
    have h3 := hm.root_lt
    exact himap ⟨Nat.le_refl _, by omega⟩
  rw [finished_disk]
  by_cases hroot : b = sb.firstDataBlock
  · rw [if_pos hroot, hroot, Volume.store_same]
  · rw [if_neg hroot, if_neg hinode, Volume.store_of_ne _ _ hroot, if_neg himap', if_neg h1]
    rfl

theorem finished_inodeAt {i : Nat} (hi : i < sb.totalInodes) :
    inodeAt (finished sb st) i = Inode.read (st.inodes (i / 56)) (i % 56) := by
  obtain ⟨hval, hregion⟩ := inodeBlock_region (v := finished sb st) hm hi
  have hlt := region_lt hm (Or.inr (Or.inr hregion))
  have hregion : inodeRegion sb (inodeBlock (finished sb st) i) := hregion
  rw [inodeAt, finished_disk, if_neg (by omega), if_pos hregion, hval]
  change Inode.read (st.inodes (sb.inodeStart + i / 56 - sb.inodeStart)) (i % 56) = _
  rw [Nat.add_sub_cancel_left]

/-- Only the first block of the inode bitmap is written; the others are zero. -/
theorem finished_imapBit (hlow : ∀ b, b < sb.firstDataBlock → st.img.disk b = zero) {i : Nat}
    (hi : i < sb.totalInodes) :
    imapBit (finished sb st) i = (decide (i < 32768) && bit st.imap i) := by
  obtain ⟨hval, hregion⟩ := bitmapBlock_imap hm hi
  have hlt := region_lt hm (Or.inl hregion)
  obtain ⟨h1, h2, -⟩ := imapRegion_disjoint hm hregion
  have h3 := hm.imap_lo
  have hsize : sb.blockSize * 8 = 32768 := by rw [hm.blockSize]
  change bit ((finished sb st).disk (bitmapBlock sb sb.imapStart i)) (i % (sb.blockSize * 8)) = _
  rw [finished_disk, if_neg (by omega), if_neg h2, if_neg h1, hsize]
  by_cases hfirst : i < 32768
  · rw [if_pos (by omega), Nat.mod_eq_of_lt hfirst]
    simp [hfirst]
  · rw [if_neg (by omega), if_neg (by omega), hlow _ hlt]
    simp [hfirst]

omit st in
theorem Prepared.imapBit {st : State} (h : Prepared sb done st tab) {i : Nat}
    (hi : i < sb.totalInodes) : imapBit (finished sb st) i = (tab i).isSome := by
  have hcount := h.count
  rw [finished_imapBit hm st h.built.low hi, h.imap]
  by_cases hfirst : i < 32768
  · simp [hfirst]
  · rw [h.unused i (by unfold fsRootInode; omega) (inputAt_of_le (by omega))]
    simp

omit st in
theorem Prepared.diskTab {st : State} (h : Prepared sb done st tab) (hlo : 4096 ≤ sb.totalInodes) :
    diskTab (finished sb st) = tab := by
  have hcount := h.count
  funext i
  simp only [Fs.diskTab, finished_sb]
  by_cases hi : i < sb.totalInodes
  · have hbit := h.imapBit hm hi
    have hino := finished_inodeAt hm st hi
    rw [h.slots] at hino
    rw [hbit, hino]
    cases htab : tab i with
    | none =>
      have hblank : Inode.blank.type ≠ fsTypeFile := by decide
      simp [hi, hblank]
    | some ino => simp [hi]
  · have hnone := h.unused i (by unfold fsRootInode; omega) (inputAt_of_le (by omega))
    simp [hi, hnone]

end Finish

/-! ## The mounted image -/

structure Formatted (inputs : List Input) (v : Volume) : Prop where
  sound : Sound v
  held : ∀ x, v.sb.firstDataBlock ≤ x → x < v.sb.totalBlocks → bmapBit v x = true →
    (pointers v (diskTab v)).Holds indexShape x
  used : ∀ i, (view v).used i = true ↔ i = fsRootInode ∨ (inputAt inputs i).isSome
  current : ∀ i ino, diskTab v i = some ino → (view v).used i = true
  root : (view v).info fsRootInode = ⟨fsTypeDirectory, 4096, 1⟩
  file : ∀ i f, inputAt inputs i = some f → (view v).info i = fileInfo f
  refs : (view v).refs = fun _ => 0
  data : ∀ i k, i ≠ fsRootInode → (view v).data i k = inputBlock inputs i k
  rootBlock : RootBlock inputs ((view v).data fsRootInode 0)
  rootTail : ∀ k, 1 ≤ k → (view v).data fsRootInode k = zero
  count : inputs.length + 2 ≤ 64
  fits : ∀ f ∈ inputs, f.name.length < 60 ∧ f.contents.length < 2 ^ 32

theorem metadataRegion_disjoint {sb : SuperBlock} (hm : Mounted sb) {b : Nat}
    (h : metadataRegion sb b) : ¬bmapRegion sb b ∧ ¬dataRegion sb b := by
  rcases h with rfl | h
  · have h1 := hm.data_pos
    have h2 := hm.imap_lo
    have h3 := hm.imap_end
    unfold bmapRegion dataRegion
    omega
  · exact metaRegion_disjoint hm h

/-- The last writes keep every block in its position and every bit, and fill in
the root directory. -/
theorem Prepared.settled {sb : SuperBlock} {inputs : List Input} {st : State} {tab : Table}
    (hm : Mounted sb) (h : Prepared sb inputs st tab) :
    Owned (finished sb st) tab ∧ (∀ r p, indexShape.ok r p →
      blockAt (finished sb st) tab r p = blockAt (st.img.volume sb) tab r p) ∧
    (∀ x, x < sb.totalBlocks → bmapBit (finished sb st) x = decide (x < st.img.next)) ∧
    ∀ i k, k < fsMaxFileBlocks → leaf (finished sb st) tab i k =
      if i = fsRootInode ∧ k = 0 then st.root else inputBlock inputs i k := by
  have hword : sb.firstDataBlock < 2 ^ 32 := Nat.lt_trans hm.data_lt hm.total_lt
  have hat : blockAt (st.img.volume sb) tab (fsRootInode, (locate 0).1) (locate 0).2 =
      sb.firstDataBlock := by
    simp [locate, pointers, h.root, rootInode, Inode.root_setRoot hword]
  have hpos := hm.data_pos
  obtain ⟨hroot, howned, hleaf⟩ := h.built.owned.store_leaf hm (by decide) hat (by omega) st.root
  have hval := h.built.owned.store_leaf_at (by decide) hat st.root
  have hframe := finished_frame hm st
  have hbits : ∀ x, x < sb.totalBlocks → bmapBit (finished sb st) x =
      bmapBit ((st.img.volume sb).store sb.firstDataBlock st.root) x := fun x hx =>
    bmapBit_frame (v := (st.img.volume sb).store sb.firstDataBlock st.root) hm hframe
      (fun b hb hmeta => (metadataRegion_disjoint hm hmeta).1 hb) hx
  have hdata : ∀ b, dataRegion sb b → ¬metadataRegion sb b :=
    fun b hb hmeta => (metadataRegion_disjoint hm hmeta).2 hb
  obtain ⟨hval', howned'⟩ := howned.of_bits hframe hdata fun x hx hset => by rwa [hbits x hx]
  refine ⟨howned', fun r p hp => (hval' r p hp).trans (hval r p hp), fun x hx => ?_,
    fun i k hk => ?_⟩
  · rw [hbits x hx, bmapBit_frame hm hroot (fun b hb => (bmapRegion_disjoint hm hb).2.2) hx,
      Image.bmapBit_volume hm hx, h.built.bits x hx]
  · rw [howned.leaf_frame hframe hdata hval' i hk, hleaf i k hk, h.data i k hk]

theorem inputBlock_beyond {inputs : List Input}
    (hfits : ∀ f ∈ inputs, f.name.length < 60 ∧ f.contents.length < 2 ^ 32) (i : Nat) {k : Nat}
    (hk : fsMaxFileBlocks ≤ k) : inputBlock inputs i k = zero := by
  unfold inputBlock
  split
  · next f hf =>
    have h1 := (hfits f (inputAt_some hf).2.2).2
    have h2 : 1074791435 ≤ k := hk
    exact fileBlock_beyond (by omega) _
  · rfl

theorem Prepared.finish {sb : SuperBlock} {inputs : List Input} {st : State} {tab : Table}
    (hm : Mounted sb) (h : Prepared sb inputs st tab) (hlo : 4096 ≤ sb.totalInodes)
    (hhi : sb.totalInodes ≤ 262144) : Formatted inputs (finished sb st) := by
  have hcount := h.count
  have htab := h.diskTab hm hlo
  obtain ⟨howned, hval, hbits, hleaf⟩ := h.settled hm
  have hdata : ∀ i k, (view (finished sb st)).data i k =
      if i = fsRootInode ∧ k = 0 then st.root else inputBlock inputs i k := by
    intro i k
    by_cases hk : k < fsMaxFileBlocks
    · rw [view_data i hk, htab, hleaf i k hk]
    · have hk0 : k ≠ 0 := by
        rintro rfl
        exact hk (by decide)
      rw [if_neg fun hc => hk0 hc.2, inputBlock_beyond h.fits i (by omega)]
      exact if_neg hk
  have hinfo : ∀ i ino, tab i = some ino → (view (finished sb st)).info i = ino.info := by
    intro i ino hi
    rw [← htab] at hi
    obtain ⟨hlt, rfl⟩ := diskTab_eq_some hi
    exact view_info hlt
  refine ⟨⟨hm, ?_, ?_⟩, ?_, ?_, ?_, ?_, ?_, rfl, ?_, ?_, ?_, h.count, h.fits⟩
  · change sb.totalInodes ≤ _
    omega
  · rw [htab]
    exact howned
  · intro x h1 h2 hset
    rw [hbits x h2] at hset
    obtain ⟨r, p, hp, heq⟩ := h.built.held x h1 (of_decide_eq_true hset)
    rw [htab]
    exact ⟨r, p, hp, (hval r p hp).trans heq⟩
  · intro i
    rw [view_used_iff, finished_sb]
    constructor
    · rintro ⟨hlt, hset⟩
      by_contra hno
      obtain ⟨h1, h2⟩ := not_or.mp hno
      rw [h.imapBit hm hlt, h.unused i h1 (by simpa using h2)] at hset
      cases hset
    · intro hi
      have hsome : (tab i).isSome ∧ i < 64 := by
        rcases hi with rfl | hi
        · exact ⟨by rw [h.root]; rfl, by decide⟩
        · obtain ⟨f, hf⟩ := Option.isSome_iff_exists.mp hi
          obtain ⟨ino, hino, -⟩ := h.file i f hf
          have := (inputAt_some hf).2.1
          exact ⟨by rw [hino]; rfl, by omega⟩
      have hlt : i < sb.totalInodes := by omega
      exact ⟨hlt, (h.imapBit hm hlt).trans hsome.1⟩
  · intro i ino hi
    have hlt := (diskTab_eq_some hi).1
    rw [htab] at hi
    exact view_used_iff.mpr ⟨hlt, by rw [h.imapBit hm hlt, hi]; rfl⟩
  · rw [hinfo _ _ h.root]
    simp [rootInode, freshInode, Inode.info]
  · intro i f hf
    obtain ⟨ino, hino, heq⟩ := h.file i f hf
    rw [hinfo i ino hino, heq]
  · intro i k hi
    rw [hdata, if_neg fun hc => hi hc.1]
  · rw [hdata, if_pos ⟨rfl, rfl⟩]
    exact h.entries
  · intro k hk
    rw [hdata, if_neg (by omega)]
    rfl

theorem mkfs_prepared {diskSize startLba : Nat} {inputs : List Input} {disk : Nat → Block}
    (h : mkfs diskSize startLba inputs = some disk) :
    ∃ sb st tab, layout diskSize startLba = some sb ∧ addFiles sb (initial sb) 0 inputs = some st ∧
      LayoutOk startLba sb ∧ Mounted sb ∧ Prepared sb inputs st tab ∧
      fsInit startLba disk = some (finished sb st) := by
  unfold mkfs at h
  split at h
  · cases h
  obtain ⟨sb, hlayout, h⟩ := Option.bind_eq_some_iff.mp h
  obtain ⟨st, hfiles, h⟩ := Option.bind_eq_some_iff.mp h
  obtain rfl := Option.some.inj h
  have hok := layout_spec hlayout
  have hm := Mounted.of_accepted hok.accepted (hok.inRange 5)
  obtain ⟨tab, hprep⟩ := (prepared_initial hm).addFiles hm inputs hfiles
  rw [nil_append] at hprep
  refine ⟨sb, st, tab, hlayout, hfiles, hok, hm, hprep, ?_⟩
  have hsuper : SuperBlock.read (writeMetadata sb st 1) = sb := by
    have hdisk := finished_disk sb st 1
    have h1 := hm.data_pos
    have h2 := hm.imap_lo
    have h3 := hm.imap_end
    have h4 := hm.bmap_end
    rw [if_neg (by omega), if_neg (by unfold inodeRegion; omega),
      if_neg (by unfold bmapRegion; omega), if_neg (by omega), if_pos rfl] at hdisk
    change writeMetadata sb st 1 = _ at hdisk
    rw [hdisk, SuperBlock.read_write _ hok.inRange]
  unfold fsInit
  rw [hsuper, if_pos hok.accepted]
  rfl

/-- Whatever `mkfs` writes when it exits with status 0 is mounted by a kernel
built for the same start LBA. -/
theorem mkfs_formatted {diskSize startLba : Nat} {inputs : List Input} {disk : Nat → Block}
    (h : mkfs diskSize startLba inputs = some disk) :
    ∃ v, fsInit startLba disk = some v ∧ Formatted inputs v := by
  obtain ⟨sb, st, tab, -, -, hok, hm, hprep, hinit⟩ := mkfs_prepared h
  exact ⟨finished sb st, hinit, hprep.finish hm hok.inodes_lo hok.inodes_hi⟩

/-! ## Its name space -/

section Names

variable {inputs : List Input} {v : Volume} (h : Formatted inputs v)
include h

theorem Formatted.isDir_iff (d : Nat) : (view v).IsDir d ↔ d = fsRootInode := by
  constructor
  · rintro ⟨hused, htype⟩
    rcases (h.used d).mp hused with rfl | hsome
    · rfl
    · obtain ⟨f, hf⟩ := Option.isSome_iff_exists.mp hsome
      rw [h.file d f hf] at htype
      exact absurd htype (show fsTypeFile ≠ fsTypeDirectory by decide)
  · rintro rfl
    exact ⟨(h.used _).mpr (Or.inl rfl), by rw [h.root]⟩

theorem Formatted.entry_cases {k s c : Nat} {name : Str}
    (he : (view v).Entry fsRootInode k s c name) :
    k = 0 ∧ ((s = 0 ∧ c = fsRootInode ∧ name = dot) ∨ (s = 1 ∧ c = fsRootInode ∧ name = dotdot) ∨
      ∃ f, inputAt inputs s = some f ∧ c = s ∧ name = f.name) := by
  have hk : k = 0 := by
    by_contra hk
    have hino := he.inode
    rw [h.rootTail k (by omega), entryInode_zero] at hino
    exact he.used hino.symm
  subst hk
  refine ⟨rfl, ?_⟩
  have hino := he.inode
  rw [h.rootBlock.inode] at hino
  split at hino
  · rcases (by omega : s = 0 ∨ s = 1) with rfl | rfl
    · exact Or.inl ⟨rfl, hino.symm, he.name.symm.trans h.rootBlock.self⟩
    · exact Or.inr (Or.inl ⟨rfl, hino.symm, he.name.symm.trans h.rootBlock.up⟩)
  next =>
    cases hf : inputAt inputs s with
    | none =>
      rw [hf] at hino
      exact absurd hino.symm he.used
    | some f =>
      rw [hf] at hino
      exact Or.inr (Or.inr ⟨f, rfl, hino.symm, he.name.symm.trans (h.rootBlock.name s f hf)⟩)

theorem Formatted.child_cases {k s c : Nat} {name : Str}
    (hc : (view v).Child fsRootInode k s c name) :
    k = 0 ∧ c = s ∧ ∃ f, inputAt inputs s = some f ∧ name = f.name := by
  obtain ⟨hk, ⟨-, -, hdot⟩ | ⟨-, -, hdotdot⟩ | ⟨f, hf, hcs, hname⟩⟩ := h.entry_cases hc.entry
  · exact absurd hdot hc.ne_dot
  · exact absurd hdotdot hc.ne_dotdot
  · exact ⟨hk, hcs, f, hf, hname⟩

theorem Formatted.entry {i : Nat} {f : Input} (hf : inputAt inputs i = some f) :
    (view v).Entry fsRootInode 0 i i f.name := by
  have hcount := h.count
  obtain ⟨h1, h2, -⟩ := inputAt_some hf
  refine ⟨by omega, ?_, by omega, h.rootBlock.name i f hf⟩
  rw [h.rootBlock.inode, if_neg (by omega), hf]
  rfl

theorem Formatted.names : (view v).Names := by
  have hroot : (view v).IsDir fsRootInode := (h.isDir_iff _).mpr rfl
  have hself : (view v).Entry fsRootInode 0 0 fsRootInode dot :=
    ⟨by decide, by rw [h.rootBlock.inode]; rfl, by decide, h.rootBlock.self⟩
  have hup : (view v).Entry fsRootInode 0 1 fsRootInode dotdot :=
    ⟨by decide, by rw [h.rootBlock.inode]; rfl, by decide, h.rootBlock.up⟩
  refine ⟨hroot, ?_, ?_, ?_, ?_, ?_, ?_, ?_, ?_⟩
  · intro d hd
    obtain rfl := (h.isDir_iff d).mp hd
    exact ⟨1, by decide, hd.1, hd.2, by rw [h.root]; rfl, Nat.le_refl 1, by decide, h.rootTail⟩
  · intro d hd
    obtain rfl := (h.isDir_iff d).mp hd
    exact hself
  · intro d hd
    obtain rfl := (h.isDir_iff d).mp hd
    exact ⟨fsRootInode, hup, hroot, by rw [if_pos rfl]⟩
  · intro d k s c name hd he
    obtain rfl := (h.isDir_iff d).mp hd
    obtain ⟨-, ⟨-, -, rfl⟩ | ⟨-, -, rfl⟩ | ⟨f, hf, -, rfl⟩⟩ := h.entry_cases he
    · exact ⟨by decide, by decide, by decide⟩
    · exact ⟨by decide, by decide, by decide⟩
    · exact ⟨f.regular.1, (h.fits f (inputAt_some hf).2.2).1, f.name_no_slash⟩
  · intro d k s c name hd he
    obtain rfl := (h.isDir_iff d).mp hd
    obtain ⟨hk, ⟨hs, -, rfl⟩ | ⟨hs, -, rfl⟩ | ⟨f, hf, -, rfl⟩⟩ := h.entry_cases he
    · exact ⟨fun _ => ⟨hk, hs⟩, fun hc => absurd hc (by decide)⟩
    · exact ⟨fun hc => absurd hc (by decide), fun _ => ⟨hk, hs⟩⟩
    · exact ⟨fun hc => absurd hc f.regular.2.1, fun hc => absurd hc f.regular.2.2⟩
  · intro d k s c name hd hc
    obtain rfl := (h.isDir_iff d).mp hd
    obtain ⟨-, rfl, f, hf, -⟩ := h.child_cases hc
    have h2 := (inputAt_some hf).1
    refine ⟨(h.used c).mpr (Or.inr (by rw [hf]; rfl)), by unfold fsRootInode; omega, Or.inr ?_⟩
    rw [h.file c f hf]
    exact ⟨rfl, show (1 : UInt16) ≠ 0 by decide⟩
  · intro d d' k s c k' s' name name' hd hd' hc hc'
    obtain rfl := (h.isDir_iff d).mp hd
    obtain rfl := (h.isDir_iff d').mp hd'
    obtain ⟨rfl, rfl, -⟩ := h.child_cases hc
    obtain ⟨rfl, rfl, -⟩ := h.child_cases hc'
    exact ⟨rfl, rfl, rfl⟩
  · intro i hi
    rw [h.refs] at hi
    exact absurd rfl hi

theorem Formatted.healthy : Healthy v := ⟨h.sound, h.names⟩

theorem Formatted.unique (hnames : (inputs.map Input.name).Nodup) : (view v).Unique := by
  intro d k s c k' s' c' name hd he he'
  obtain rfl := (h.isDir_iff d).mp hd
  obtain ⟨rfl, hcase⟩ := h.entry_cases he
  obtain ⟨rfl, hcase'⟩ := h.entry_cases he'
  refine ⟨rfl, ?_⟩
  have hinput : ∀ {s f}, inputAt inputs s = some f → f.name ≠ dot ∧ f.name ≠ dotdot ∧
      (inputs.map Input.name)[s - 2]? = some f.name := by
    intro s f hf
    refine ⟨f.regular.2.1, f.regular.2.2, ?_⟩
    have h2 := (inputAt_some hf).1
    rw [inputAt, if_neg (by omega)] at hf
    rw [getElem?_map, hf]
    rfl
  rcases hcase with ⟨rfl, -, rfl⟩ | ⟨rfl, -, rfl⟩ | ⟨f, hf, -, rfl⟩
  · rcases hcase' with ⟨rfl, -, -⟩ | ⟨-, -, hn⟩ | ⟨g, hg, -, hn⟩
    · rfl
    · exact absurd hn (by decide)
    · exact absurd hn.symm (hinput hg).1
  · rcases hcase' with ⟨-, -, hn⟩ | ⟨rfl, -, -⟩ | ⟨g, hg, -, hn⟩
    · exact absurd hn (by decide)
    · rfl
    · exact absurd hn.symm (hinput hg).2.1
  · rcases hcase' with ⟨-, -, hn⟩ | ⟨-, -, hn⟩ | ⟨g, hg, -, hn⟩
    · exact absurd hn (hinput hf).1
    · exact absurd hn (hinput hf).2.1
    · obtain ⟨h1, h2, -⟩ := inputAt_some hf
      obtain ⟨h3, -, -⟩ := inputAt_some hg
      have heq : (inputs.map Input.name)[s - 2]? = (inputs.map Input.name)[s' - 2]? := by
        rw [(hinput hf).2.2, (hinput hg).2.2, hn]
      have hlt : s - 2 < (inputs.map Input.name).length := by
        rw [length_map]
        omega
      have := (getElem?_inj hlt hnames).mp heq
      omega

theorem Formatted.read {i : Nat} {f : Input} (hf : inputAt inputs i = some f) (offset length : Nat) :
    fsReadInode v i offset length = some ((f.contents.drop offset).take length) := by
  have hused := (h.used i).mpr (Or.inr (by rw [hf]; rfl))
  have hlt := (view_used_iff.mp hused).1
  have hinfo := h.file i f hf
  obtain ⟨h2, -, hmem⟩ := inputAt_some hf
  have hsize := (h.fits f hmem).2
  have hnat : (UInt64.ofNat f.contents.length).toNat = f.contents.length :=
    UInt64.toNat_ofNat_of_lt' (Nat.lt_trans hsize (by decide))
  have hfile : IsFile v i := by
    refine ⟨⟨by omega, hlt⟩, ?_⟩
    have := view_info hlt
    rw [hinfo] at this
    exact (congrArg Info.type this).symm
  have hmax : ((view v).info i).size.toNat ≤ fsMaxFileSize := by
    rw [hinfo]
    change (UInt64.ofNat f.contents.length).toNat ≤ 1074791435 * 4096
    omega
  rw [fsReadInode_spec h.sound hfile hmax, hinfo]
  change some ((range (min length ((UInt64.ofNat f.contents.length).toNat - offset))).map _) = _
  rw [hnat]
  congr 1
  apply ext_getElem
  · simp
  · intro k h1 h2
    simp only [length_map, length_range] at h1
    have hroot : i ≠ fsRootInode := by
      unfold fsRootInode
      omega
    have hblock : (view v).data i ((offset + k) / 4096) =
        fileBlock f.contents ((offset + k) / 4096 * 4096) 4096 := by
      rw [h.data i _ hroot, inputBlock, hf]
    have hpos : (offset + k) / 4096 * 4096 + (offset + k) % 4096 = offset + k := by omega
    rw [getElem_map, getElem_range, getElem_take, getElem_drop, fileByte,
      hblock, fileBlock, if_pos (by omega), hpos, getD_eq_getElem _ _ (by omega)]

end Names

end OrangeOs.Mkfs
