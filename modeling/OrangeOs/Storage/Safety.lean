import OrangeOs.Mkfs.Format
import OrangeOs.Fs.Path

/-! # Blocks and inodes from `mkfs` on

The file system as it is used: an image written by `mkfs`, mounted by `fs_init`,
then any sequence of operations. Nothing about the image is assumed beyond that
`mkfs` exits with status 0, so input files may even share a name.
-/

namespace OrangeOs.Storage

open Bytes Fs Mkfs PointerForest NamedGraph

/-- Block `b` is what slot `j` of the inode in use `i` leads to through the index
entries `p`: a data block or an index block of some level. -/
structure Reaches (v : Volume) (i j : Nat) (p : List Nat) (b : Nat) : Prop where
  lt : i < v.sb.totalInodes
  used : imapBit v i = true
  position : j < 14 ∧ p.length ≤ level j ∧ ∀ k ∈ p, k < 1024
  block : follow (fun x k => indexEntry (v.disk x) k) ((inodeAt v i).root j) p = b
  ne_zero : b ≠ 0

/-- Slot `s` of block `k` of the directory `d` holds an entry for inode `c` that
is not one of the two dot entries. -/
structure Names (v : Volume) (d k s c : Nat) : Prop where
  lt : d < v.sb.totalInodes
  used : imapBit v d = true
  type : (inodeAt v d).type = fsTypeDirectory
  block : k < fsMaxFileBlocks
  slot : s < 64
  inode : entryInode (leaf v (diskTab v) d k) s = c
  ne_zero : c ≠ 0
  ne_dot : entryName (leaf v (diskTab v) d k) s ≠ dot
  ne_dotdot : entryName (leaf v (diskTab v) d k) s ≠ dotdot

/-- No block and no inode in use is shared, and the allocators hand out neither. -/
structure BlockSafe (v : Volume) : Prop where
  inside : ∀ {i j p b}, Reaches v i j p b →
    v.sb.firstDataBlock ≤ b ∧ b < v.sb.totalBlocks ∧ bmapBit v b = true
  once : ∀ {i j p i' j' p' b}, Reaches v i j p b → Reaches v i' j' p' b →
    i = i' ∧ j = j' ∧ p = p'
  named : ∀ {d k s c}, Names v d k s c → c < v.sb.totalInodes ∧ imapBit v c = true
  namedOnce : ∀ {d k s d' k' s' c}, Names v d k s c → Names v d' k' s' c →
    d = d' ∧ k = k' ∧ s = s'
  freshBlock : ∀ {b w}, allocDataBlock v = (some b, w) → ∀ i j p, ¬Reaches v i j p b
  freshInode : ∀ {c : Nat} {w}, bitmapAllocate v v.sb.imapStart (fsRootInode + 1) v.sb.totalInodes =
    ((c : Int), w) → imapBit v c = false ∧ ∀ d k s, ¬Names v d k s c

variable {v : Volume} {i j b : Nat} {p : List Nat}

theorem Reaches.ok (hr : Reaches v i j p b) : indexShape.ok (i, j) p := hr.position

theorem blockAt_used (hlt : i < v.sb.totalInodes) (hused : imapBit v i = true) :
    blockAt v (diskTab v) (i, j) p =
      follow (fun x k => indexEntry (v.disk x) k) ((inodeAt v i).root j) p := by
  have hroot : (pointers v (diskTab v)).root (i, j) = (inodeAt v i).root j := by
    simp [pointers, diskTab_eq hlt (Or.inl hused)]
  rw [← hroot]
  rfl

theorem Reaches.blockAt (hr : Reaches v i j p b) : blockAt v (diskTab v) (i, j) p = b :=
  (blockAt_used hr.lt hr.used).trans hr.block

theorem Names.child {d k s c : Nat} (hn : Names v d k s c) :
    (view v).IsDir d ∧ ∃ name, (view v).Child d k s c name := by
  have hdata := view_data (v := v) d hn.block
  refine ⟨⟨view_used_iff.mpr ⟨hn.lt, hn.used⟩, ?_⟩, _, ⟨hn.slot, ?_, hn.ne_zero, rfl⟩, ?_, ?_⟩
  · rw [view_info hn.lt]
    exact hn.type
  · rw [hdata]
    exact hn.inode
  · rw [hdata]
    exact hn.ne_dot
  · rw [hdata]
    exact hn.ne_dotdot

theorem BlockSafe.of_healthy (h : Healthy v) : BlockSafe v := by
  have hm := h.sound.mounted
  have howned := h.sound.owned
  have hinside : ∀ {i j p b}, Reaches v i j p b →
      v.sb.firstDataBlock ≤ b ∧ b < v.sb.totalBlocks ∧ bmapBit v b = true := by
    intro i j p b hr
    have hne := hr.ne_zero
    rw [← hr.blockAt] at hne ⊢
    exact ⟨howned.lo hr.ok hne, howned.hi hr.ok hne, howned.marked hr.ok hne⟩
  have hnamed : ∀ {d k s c}, Names v d k s c → c < v.sb.totalInodes ∧ imapBit v c = true := by
    intro d k s c hn
    obtain ⟨hd, name, hc⟩ := hn.child
    exact view_used_iff.mp (h.names.child hd hc).1
  refine ⟨hinside, ?_, hnamed, ?_, ?_, ?_⟩
  · intro i j p i' j' p' b hr hr'
    have hne := hr.ne_zero
    rw [← hr.blockAt] at hne
    obtain ⟨heq, hp⟩ := howned.unshared hr.ok hr'.ok hne
      (hr.blockAt.trans hr'.blockAt.symm)
    exact ⟨congrArg Prod.fst heq, congrArg Prod.snd heq, hp⟩
  · intro d k s d' k' s' c hn hn'
    obtain ⟨hd, name, hc⟩ := hn.child
    obtain ⟨hd', name', hc'⟩ := hn'.child
    exact h.names.once hd hd' hc hc'
  · intro b w halloc i j p hr
    rcases allocDataBlock_spec hm with ⟨u, he, -⟩ | ⟨n, u, he, ha⟩
    · cases halloc.symm.trans he
    · cases halloc.symm.trans he
      exact absurd (hinside hr).2.2 (by simp [ha.free])
  · intro c w halloc
    have hfree : imapBit v c = false := by
      rcases bitmapAllocate_imap hm (fsRootInode + 1) h.sound.inodes with
        ⟨he, -⟩ | ⟨i, u, he, -, -, hfree, -, -⟩
      · have := congrArg Prod.fst (halloc.symm.trans he)
        simp at this
      · have := congrArg Prod.fst (halloc.symm.trans he)
        simp at this
        rwa [this]
    exact ⟨hfree, fun d k s hn => absurd (hnamed hn).2 (by simp [hfree])⟩

/-- In every state reached from an `mkfs` image, by operations that may succeed or
fail, blocks and inodes are safe. -/
theorem mkfs_run_blockSafe {diskSize startLba : Nat} {inputs : List Input} {disk : Nat → Block}
    (h : mkfs diskSize startLba inputs = some disk) :
    ∃ v, fsInit startLba disk = some v ∧ ∀ ops, BlockSafe (runOps v ops) := by
  obtain ⟨v, hinit, hf⟩ := mkfs_formatted h
  exact ⟨v, hinit, fun ops => BlockSafe.of_healthy (hf.healthy.run ops)⟩

/-- A file `a` of two bytes. -/
def sampleInput : Input where
  path := [97]
  contents := [104, 105]
  noNul := by decide
  regular := by decide

/-- The layout of a 1 MiB image at LBA 0. -/
def sampleSb : SuperBlock where
  magic := fsMagic
  version := fsFormatVersion
  blockSize := 4096
  flags := 0
  totalInodes := 4096
  totalBlocks := 256
  imapStart := 2
  imapBlocks := 1
  bmapStart := 3
  bmapBlocks := 1
  inodeStart := 4
  inodeBlocks := 74
  firstDataBlock := 78

/-- The inode of that file, with its block behind the root directory's. -/
def sampleInode : Inode := (freshInode fsTypeFile 2).setRoot 0 79

theorem copyBlocks_sample :
    ∃ img, copyBlocks 256 [104, 105] (initial sampleSb).img (freshInode fsTypeFile 2) 0 0 =
      some (sampleInode, img) ∧ img.next = 80 := by
  have hslot : inodeDataBlock 256 (initial sampleSb).img (freshInode fsTypeFile 2) 0 =
      some (79, sampleInode, (initial sampleSb).img.allocated) := rfl
  rw [copyBlocks]
  simp only [List.length_cons, List.length_nil]
  rw [if_neg (by decide)]
  split
  · next hnone =>
    rw [hslot] at hnone
    cases hnone
  · next hsome =>
    rw [hslot] at hsome
    cases hsome
    rw [copyBlocks]
    exact ⟨_, if_pos (by decide), rfl⟩

theorem layout_sample : layout 1048576 0 = some sampleSb := by decide

theorem addFiles_sample : ∃ st, addFiles sampleSb (initial sampleSb) 0 [sampleInput] = some st ∧
    st.img.next = 80 ∧ st.inodes = setInodeAt (initial sampleSb).inodes 2 sampleInode := by
  obtain ⟨img, hcopy, hnext⟩ := copyBlocks_sample
  have hfile : ∃ st, addFile sampleSb (initial sampleSb) 0 sampleInput = some st ∧
      st.img.next = 80 ∧ st.inodes = setInodeAt (initial sampleSb).inodes 2 sampleInode := by
    rw [addFile, if_neg (by decide)]
    exact ⟨_, by rw [Option.map_eq_some_iff]; exact ⟨_, hcopy, rfl⟩, hnext, rfl⟩
  obtain ⟨st, hst, hnext, hinodes⟩ := hfile
  exact ⟨st, by simp [addFiles, hst], hnext, hinodes⟩

theorem mkfs_sample : ∃ disk, mkfs 1048576 0 [sampleInput] = some disk := by
  obtain ⟨st, hst, -⟩ := addFiles_sample
  refine ⟨writeMetadata sampleSb st, ?_⟩
  rw [mkfs, if_neg (by decide)]
  simp [layout_sample, hst]

theorem mkfs_run_blockSafe_sample : ∃ disk v, mkfs 1048576 0 [sampleInput] = some disk ∧
    fsInit 0 disk = some v ∧ ∀ ops, BlockSafe (runOps v ops) := by
  obtain ⟨disk, hdisk⟩ := mkfs_sample
  obtain ⟨v, hv⟩ := mkfs_run_blockSafe hdisk
  exact ⟨disk, v, hdisk, hv⟩

/-! ## Reading an image back -/

theorem Reaches.of_holds (hpos : b ≠ 0)
    (hcur : ∀ i ino, diskTab v i = some ino → (view v).used i = true)
    (h : (pointers v (diskTab v)).Holds indexShape b) : ∃ i j p, Reaches v i j p b := by
  obtain ⟨⟨i, j⟩, p, hok, heq⟩ := h
  cases htab : diskTab v i with
  | none =>
    have hnull : (pointers v (diskTab v)).at (i, j) [] = 0 := by simp [pointers, htab]
    have hzero := (pointers v (diskTab v)).at_append_of_null p hnull
    exact absurd (heq.symm.trans hzero) hpos
  | some ino =>
    obtain ⟨hlt, rfl⟩ := diskTab_eq_some htab
    have hroot : (pointers v (diskTab v)).root (i, j) = (inodeAt v i).root j := by
      simp [pointers, htab]
    refine ⟨i, j, p, hlt, (view_used_iff.mp (hcur i _ htab)).2, hok, ?_, hpos⟩
    rw [← hroot]
    exact heq

theorem inputName_canonical (f : Input) (h : f.name.length < 60) : CanonicalName f.name :=
  ⟨f.entryName h, f.name_no_slash, f.regular.2.1, f.regular.2.2⟩

/-- What `mkfs` writes, a kernel built for the same start LBA mounts: the blocks
are safe, none is marked without being in use, and every input is found under its
name with its bytes and its size. -/
theorem mkfs_image_readable {diskSize startLba : Nat} {inputs : List Input} {disk : Nat → Block}
    (h : mkfs diskSize startLba inputs = some disk) (hnames : (inputs.map Input.name).Nodup) :
    ∃ v, fsInit startLba disk = some v ∧ BlockSafe v ∧
      (∀ b, v.sb.firstDataBlock ≤ b → b < v.sb.totalBlocks → bmapBit v b = true →
        ∃ i j p, Reaches v i j p b) ∧
      ∀ f ∈ inputs, ∃ nr ino, fsLookupPath v (slash :: f.name) fsRootInode = some (nr, ino) ∧
        ino.type = fsTypeFile ∧ ino.size.toNat = f.contents.length ∧
        ∀ offset length,
          fsReadInode v nr offset length = some ((f.contents.drop offset).take length) := by
  obtain ⟨v, hinit, hf⟩ := mkfs_formatted h
  have hhealthy := hf.healthy
  refine ⟨v, hinit, BlockSafe.of_healthy hhealthy, ?_, ?_⟩
  · intro b h1 h2 hset
    have := hf.sound.mounted.data_pos
    exact Reaches.of_holds (by omega) hf.current (hf.held b h1 h2 hset)
  · intro f hmem
    obtain ⟨k, hk, hget⟩ := List.getElem_of_mem hmem
    have hat : inputAt inputs (k + 2) = some f := by
      rw [inputAt, if_neg (by omega), Nat.add_sub_cancel, List.getElem?_eq_getElem hk, hget]
    have hfits := hf.fits f hmem
    let c : Name := ⟨f.name, inputName_canonical f hfits.1⟩
    have hdir : (view v).IsDir fsRootInode := (hf.isDir_iff _).mpr rfl
    have hchild : (graph v).child fsRootInode c = some (k + 2) :=
      (hhealthy.child_iff (hf.unique hnames)).mpr
        ⟨hdir, 0, k + 2, hf.entry hat, f.regular.2.1, f.regular.2.2⟩
    have hwalk : (graph v).walk [c] = some (k + 2) := by
      rw [← List.nil_append [c], PointedGraph.walk_snoc]
      exact hchild
    have hlookup := hhealthy.fsLookupPath_render [c] fsRootInode
    have htext : render [c] = slash :: f.name := by
      rw [render, if_neg (by simp), renderTail_cons, renderTail_nil, List.append_nil]
    rw [hwalk, htext] at hlookup
    have hused := (hf.used (k + 2)).mpr (Or.inr (by rw [hat]; rfl))
    have hinfo := view_info (view_used_iff.mp hused).1
    rw [hf.file _ f hat] at hinfo
    have hsize : UInt64.ofNat f.contents.length = (inodeAt v (k + 2)).size :=
      congrArg Info.size hinfo
    refine ⟨k + 2, inodeAt v (k + 2), hlookup, (congrArg Info.type hinfo).symm, ?_, hf.read hat⟩
    rw [← hsize]
    exact UInt64.toNat_ofNat_of_lt' (Nat.lt_trans hfits.2 (by decide))

theorem mkfs_image_readable_sample : ∃ disk v, mkfs 1048576 0 [sampleInput] = some disk ∧
    fsInit 0 disk = some v ∧ ∃ nr ino, fsLookupPath v [slash, 97] fsRootInode = some (nr, ino) ∧
      fsReadInode v nr 0 4096 = some [104, 105] := by
  obtain ⟨disk, hdisk⟩ := mkfs_sample
  obtain ⟨v, hinit, -, -, hfiles⟩ := mkfs_image_readable hdisk (by decide)
  obtain ⟨nr, ino, hlookup, -, -, hread⟩ := hfiles sampleInput (by simp)
  exact ⟨disk, v, hdisk, hinit, nr, ino, hlookup, hread 0 4096⟩

end OrangeOs.Storage
