import OrangeOs.Mkfs.Growth
import OrangeOs.Fs.Creation

/-! # Adding the files

The copy loop lays a file out in its blocks, and the round for one input adds
exactly one inode, one bitmap bit, one directory entry and that file's blocks.
The state after any number of rounds is described by the list of inputs done.
-/

namespace OrangeOs.Mkfs

open Bytes Fs Function List Inode

/-! ## The copy loop -/

variable {contents : List UInt8} {ino : Inode} {img : Image} {i pos : Nat} {sb : SuperBlock}
  {tab : Table} {f : Input} {done : List Input}

/-- With 4 GiB or more to go, `to_read` never takes the rest below a multiple of
2^32, so the loop can only end by failing. -/
theorem copyBlocks_fits {total : Nat} {bytesRead blockIndex : Nat} {out : Inode × Image}
    (h : copyBlocks total contents img ino bytesRead blockIndex = some out) :
    contents.length - bytesRead < 2 ^ 32 := by
  fun_induction copyBlocks total contents img ino bytesRead blockIndex with
  | case1 => omega
  | case2 => cases h
  | case3 img ino bytesRead blockIndex hmore toRead block ino' img' _ ih =>
    have hrest := ih h
    have hto : toRead ≤ (contents.length - bytesRead) % 2 ^ 32 := Nat.min_le_left _ _
    omega

theorem fileBlock_full {n : Nat} (hn : min (contents.length - pos) 4096 ≤ n) (hn' : n ≤ 4096) :
    fileBlock contents pos n = fileBlock contents pos 4096 := by
  funext k
  unfold fileBlock
  split
  · rw [if_pos (by omega)]
  · split
    · rw [getD_eq_default _ _ (by omega)]
    · rfl

theorem fileBlock_beyond (h : contents.length ≤ pos) (n : Nat) :
    fileBlock contents pos n = zero := by
  funext k
  unfold fileBlock
  split
  · rw [getD_eq_default _ _ (by omega)]
    rfl
  · rfl

theorem copyBlocks_spec {index : Nat} {img' : Image} {ino' : Inode} {L : Nat → Nat → Block}
    (hm : Mounted sb) (hb : Built sb img tab) (hi : tab i = some ino)
    (hpos : pos = min (index * 4096) contents.length)
    (hdata : ∀ j k, k < fsMaxFileBlocks → leaf (img.volume sb) tab j k =
      if j = i then if k < index then fileBlock contents (k * 4096) 4096 else zero else L j k)
    (h : copyBlocks sb.totalBlocks contents img ino pos index = some (ino', img')) :
    Built sb img' (update tab i (some ino')) ∧ ino'.info = ino.info ∧
      ∀ j k, k < fsMaxFileBlocks → leaf (img'.volume sb) (update tab i (some ino')) j k =
        if j = i then fileBlock contents (k * 4096) 4096 else L j k := by
  have hfits := copyBlocks_fits h
  fun_induction copyBlocks sb.totalBlocks contents img ino pos index generalizing tab with
  | case1 img ino pos index hdone =>
    obtain ⟨rfl, rfl⟩ := Prod.mk.inj (Option.some.inj h)
    rw [← hi, update_eq_self]
    refine ⟨hb, rfl, fun j k hk => ?_⟩
    rw [hdata j k hk]
    by_cases hj : j = i
    · rw [if_pos hj, if_pos hj]
      split
      · rfl
      · rw [fileBlock_beyond (by omega)]
    · rw [if_neg hj, if_neg hj]
  | case2 => cases h
  | case3 img ino pos index hmore toRead block ino1 img1 hlookup =>
    rename_i ih
    have hk := inodeDataBlock_lt hlookup
    obtain ⟨hext, hinfo⟩ := inodeDataBlock_spec hm hb hi hlookup
    obtain ⟨hb1, hleaf1⟩ := hext.built.write hm hk hext.here hext.ne_zero
      (fileBlock contents pos toRead)
    have hpos' : pos = index * 4096 := by omega
    have hto : toRead = min (contents.length - pos) 4096 := by
      have hmod : u32 (contents.length - pos) = contents.length - pos := u32_of_lt hfits
      change min (u32 (contents.length - pos)) 4096 = _
      rw [hmod]
    have hblock : fileBlock contents pos toRead = fileBlock contents (index * 4096) 4096 := by
      rw [fileBlock_full (by omega) (by omega), hpos']
    obtain ⟨h1, h2, h3⟩ := ih hb1 (update_self i _ _) (by omega) (by
      intro j k hk'
      rw [hleaf1 j k hk', hext.grow.leaf_eq j hk', hdata j k hk', hblock]
      by_cases hj : j = i
      · subst hj
        by_cases hki : k = index
        · subst hki
          simp
        · by_cases hlt : k < index
          · simp [hki, hlt, Nat.lt_succ_of_lt hlt]
          · simp [hki, hlt, show ¬k < index + 1 by omega]
      · simp [hj]) h (by omega)
    rw [update_idem] at h1 h3
    exact ⟨h1, h2.trans hinfo, h3⟩

/-! ## One round -/

/-- The input that has inode `i` and entry `i` of the root directory. -/
def inputAt (inputs : List Input) (i : Nat) : Option Input := if i < 2 then none else inputs[i - 2]?

theorem inputAt_snoc (done : List Input) (f : Input) (i : Nat) :
    inputAt (done ++ [f]) i = if i = done.length + 2 then some f else inputAt done i := by
  unfold inputAt
  by_cases hi : i < 2
  · rw [if_pos hi, if_pos hi, if_neg (by omega)]
  · rw [if_neg hi, if_neg hi]
    by_cases heq : i = done.length + 2
    · subst heq
      simp
    · rw [if_neg heq]
      by_cases hlt : i - 2 < done.length
      · rw [getElem?_append_left hlt]
      · rw [getElem?_eq_none (by simp; omega), getElem?_eq_none (by omega)]

theorem inputAt_some {inputs : List Input} (h : inputAt inputs i = some f) :
    2 ≤ i ∧ i < inputs.length + 2 ∧ f ∈ inputs := by
  unfold inputAt at h
  split at h
  · cases h
  · obtain ⟨hlt, -⟩ := List.getElem?_eq_some_iff.mp h
    exact ⟨by omega, by omega, mem_of_getElem? h⟩

theorem inputAt_of_le {inputs : List Input} (h : inputs.length + 2 ≤ i) :
    inputAt inputs i = none := by
  unfold inputAt
  split
  · rfl
  · exact getElem?_eq_none (by omega)

def fileInfo (f : Input) : Info := ⟨fsTypeFile, UInt64.ofNat f.contents.length, 1⟩

/-- The data of file block `k` of inode `i` once the inputs have been copied. -/
def inputBlock (inputs : List Input) (i k : Nat) : Block :=
  match inputAt inputs i with
  | some f => fileBlock f.contents (k * 4096) 4096
  | none => zero

/-- What the root directory block holds: the two dot entries and one entry for
each input. -/
structure RootBlock (inputs : List Input) (b : Block) : Prop where
  inode : ∀ s, entryInode b s =
    if s < 2 then fsRootInode else if (inputAt inputs s).isSome then s else 0
  self : entryName b 0 = dot
  up : entryName b 1 = dotdot
  name : ∀ s f, inputAt inputs s = some f → entryName b s = f.name

/-- The state after the inputs `done`. -/
structure Prepared (sb : SuperBlock) (done : List Input) (st : State) (tab : Table) : Prop where
  built : Built sb st.img tab
  imap : ∀ i, bit st.imap i = (tab i).isSome
  slots : ∀ i, Inode.read (st.inodes (i / 56)) (i % 56) = (tab i).getD Inode.blank
  root : tab fsRootInode = some (rootInode sb)
  file : ∀ i f, inputAt done i = some f → ∃ ino, tab i = some ino ∧ ino.info = fileInfo f
  unused : ∀ i, i ≠ fsRootInode → inputAt done i = none → tab i = none
  data : ∀ i k, k < fsMaxFileBlocks → leaf (st.img.volume sb) tab i k = inputBlock done i k
  entries : RootBlock done st.root
  count : done.length + 2 ≤ 64
  fits : ∀ f ∈ done, f.name.length < 60 ∧ f.contents.length < 2 ^ 32

theorem Input.name_no_slash (f : Input) : slash ∉ f.name := by
  intro hmem
  have := mem_rtakeWhile_imp hmem
  simp at this

theorem Input.entryName (f : Input) (h : f.name.length < 60) : EntryName f.name :=
  ⟨f.regular.1, h, fun hmem => f.noNul ((rtakeWhile_suffix _ f.path).subset hmem)⟩

theorem read_setInodeAt (inodes : Nat → Block) (nr i : Nat) (ino : Inode) :
    read (setInodeAt inodes nr ino (i / 56)) (i % 56) =
      if i = nr then ino else read (inodes (i / 56)) (i % 56) := by
  unfold setInodeAt
  by_cases hblock : i / 56 = nr / 56
  · rw [hblock, update_self]
    split
    next hi => rw [hi, read_write]
    · rw [read_write_of_ne _ _ (by omega)]
  · rw [update_of_ne hblock, if_neg (fun h => hblock (by rw [h]))]

theorem RootBlock.add {b : Block} (h : RootBlock done b) (hname : f.name.length < 60)
    (hcount : done.length + 2 < 64) :
    RootBlock (done ++ [f])
      (strcpyEntry b (done.length + 2) (done.length + 2) f.name) := by
  have hsame : ∀ s, s ≠ done.length + 2 → ∀ x, 64 * s ≤ x → x < 64 * s + 64 →
      strcpyEntry b (done.length + 2) (done.length + 2) f.name x = b x := by
    intro s hs x h1 h2
    exact strcpyEntry_of_outside _ _ _ hname (by omega)
  refine ⟨fun s => ?_, ?_, ?_, fun s g hg => ?_⟩
  · rw [inputAt_snoc]
    by_cases hs : s = done.length + 2
    · subst hs
      rw [entryInode_strcpyEntry _ _ _ (by omega)]
      simp
    · rw [entryInode_congr (hsame s hs), h.inode, if_neg hs]
  · rw [entryName_congr (hsame 0 (by omega)), h.self]
  · rw [entryName_congr (hsame 1 (by omega)), h.up]
  · rw [inputAt_snoc] at hg
    split at hg
    next hs =>
      cases hg
      rw [hs, entryName_strcpyEntry _ _ _ (f.entryName hname)]
    next hs => rw [entryName_congr (hsame s hs), h.name s g hg]

theorem pointers_fresh (v : Volume) (hi : tab i = none) (hroot : ∀ j, ino.root j = 0) :
    pointers v (update tab i (some ino)) = pointers v tab := by
  unfold pointers
  congr 1
  funext r
  by_cases hr : r.1 = i
  · simp [hr, hi, hroot]
  · rw [update_of_ne hr]

theorem Built.fresh (hb : Built sb img tab) (hi : tab i = none) (hroot : ∀ j, ino.root j = 0) :
    Built sb img (update tab i (some ino)) := by
  have hptr := pointers_fresh (img.volume sb) hi hroot
  refine ⟨hb.next_lo, hb.next_hi, hb.bits, hb.low, ?_, ?_⟩
  · exact hb.owned.congr rfl (fun r p _ => by rw [blockAt, hptr]) fun _ _ h => h
  · rw [hptr]
    exact hb.held

theorem Prepared.addFile {st st' : State} (hm : Mounted sb) (h : Prepared sb done st tab)
    (hadd : addFile sb st done.length f = some st') :
    ∃ tab', Prepared sb (done ++ [f]) st' tab' := by
  unfold Mkfs.addFile at hadd
  split at hadd
  · cases hadd
  next hok =>
    obtain ⟨⟨ino, img⟩, hcopy, rfl⟩ := Option.map_eq_some_iff.mp hadd
    have hnone : tab (done.length + 2) = none :=
      h.unused _ (by unfold fsRootInode; omega) (inputAt_of_le (Nat.le_refl _))
    have hroot : ∀ j, (freshInode fsTypeFile (UInt64.ofNat f.contents.length)).root j = 0 :=
      fun j => root_blank j
    have hdata : ∀ j k, k < fsMaxFileBlocks → leaf (st.img.volume sb) (update tab
        (done.length + 2) (some (freshInode fsTypeFile (UInt64.ofNat f.contents.length)))) j k =
        if j = done.length + 2 then if k < 0 then fileBlock f.contents (k * 4096) 4096 else zero
        else inputBlock done j k := by
      intro j k hk
      rw [leaf, blockAt, pointers_fresh _ hnone hroot]
      refine (h.data j k hk).trans ?_
      split
      · next hj =>
        subst hj
        rw [inputBlock, inputAt_of_le (Nat.le_refl _)]
        simp
      · rfl
    obtain ⟨hb, hinfo, hleaf⟩ := copyBlocks_spec hm (h.built.fresh hnone hroot)
      (update_self _ _ _) (by simp) hdata hcopy
    rw [update_idem] at hb hleaf
    have hfits := copyBlocks_fits hcopy
    refine ⟨_, hb, fun i => ?_, fun i => ?_, ?_, fun i g hg => ?_, fun i h1 hi => ?_,
      fun i k hk => ?_, h.entries.add (by omega) (by omega), by simp; omega, ?_⟩
    · rw [bit_setBit, h.imap]
      by_cases hi : i = done.length + 2
      · simp [hi]
      · simp [hi]
    · rw [read_setInodeAt, h.slots]
      by_cases hi : i = done.length + 2
      · simp [hi]
      · simp [hi]
    · rw [update_of_ne (by unfold fsRootInode; omega), h.root]
    · rw [inputAt_snoc] at hg
      split at hg
      next hi =>
        cases hg
        exact ⟨ino, by rw [hi, update_self], hinfo⟩
      next hi =>
        rw [update_of_ne hi]
        exact h.file i g hg
    · rw [inputAt_snoc] at hi
      split at hi
      · cases hi
      · next hne => rw [update_of_ne hne, h.unused i h1 hi]
    · rw [hleaf i k hk]
      split
      next hi => rw [inputBlock, inputAt_snoc, if_pos hi]
      next hi => rw [inputBlock, inputBlock, inputAt_snoc, if_neg hi]
    · intro g hg
      rcases mem_append.mp hg with hg | hg
      · exact h.fits g hg
      · obtain rfl := mem_singleton.mp hg
        exact ⟨by omega, by simpa using hfits⟩

theorem Prepared.addFiles {st' : State} (hm : Mounted sb) (rest : List Input) {st : State}
    (h : Prepared sb done st tab) (hadd : addFiles sb st done.length rest = some st') :
    ∃ tab', Prepared sb (done ++ rest) st' tab' := by
  induction rest generalizing done st tab with
  | nil =>
    cases hadd
    exact ⟨tab, by rwa [append_nil]⟩
  | cons f rest ih =>
    obtain ⟨st1, hfile, hrest⟩ := Option.bind_eq_some_iff.mp hadd
    obtain ⟨tab1, h1⟩ := h.addFile hm hfile
    obtain ⟨tab', h'⟩ := ih h1 (by simpa using hrest)
    exact ⟨tab', by simpa using h'⟩

/-! ## The empty image -/

theorem bit_foldl_setBit (n x : Nat) : bit ((range n).foldl setBit zero) x = decide (x < n) := by
  induction n with
  | zero => simp
  | succ n ih =>
    rw [range_succ, foldl_append, foldl_cons, foldl_nil, bit_setBit, ih,
      ← Bool.decide_or]
    exact decide_eq_decide.mpr (by omega)

/-- The image before its first data block is taken. -/
def blankImage (sb : SuperBlock) : Image where
  disk _ := zero
  bmap := (List.range sb.firstDataBlock).foldl setBit zero
  next := sb.firstDataBlock

theorem initial_img (sb : SuperBlock) : (initial sb).img = (blankImage sb).allocated := by
  have hdisk : update (fun _ => zero) sb.firstDataBlock zero = fun _ : Nat => zero :=
    update_eq_self sb.firstDataBlock fun _ => zero
  unfold initial Image.allocated writeBlock blankImage
  rw [hdisk]

theorem blockAt_none (v : Volume) (r : Nat × Nat) (p : List Nat) :
    blockAt v (fun _ => none) r p = 0 :=
  (pointers v fun _ => none).at_append_of_null (p := []) p rfl

theorem Built.blank (hm : Mounted sb) : Built sb (blankImage sb) fun _ => none := by
  have hnull := blockAt_none ((blankImage sb).volume sb)
  refine ⟨Nat.le_refl _, hm.data_lt.le, fun x _ => bit_foldl_setBit _ x, fun _ _ => rfl, ?_, ?_⟩
  · exact ⟨fun _ h => absurd (hnull _ _) h, fun _ h => absurd (hnull _ _) h,
      fun _ h => absurd (hnull _ _) h, fun {_ _ _ _} _ _ h => absurd (hnull _ _) h⟩
  · intro x h1 h2
    exact absurd h2 (Nat.not_lt.mpr h1)

theorem RootBlock.dots : RootBlock [] (dotBlock fsRootInode fsRootInode) := by
  obtain ⟨hself, hdot⟩ := dotBlock_self (i := fsRootInode) (p := fsRootInode) (by decide)
  obtain ⟨hup, hdotdot⟩ := dotBlock_up (i := fsRootInode) (p := fsRootInode) (by decide)
  refine ⟨fun s => ?_, hdot, hdotdot, fun s f hf => ?_⟩
  · split
    · rcases (by omega : s = 0 ∨ s = 1) with rfl | rfl
      · exact hself
      · exact hup
    · rw [dotBlock_rest (by omega)]
      simp [inputAt]
  · simp [inputAt] at hf

theorem prepared_initial (hm : Mounted sb) :
    Prepared sb [] (initial sb) (update (fun _ => none) fsRootInode (some (rootInode sb))) := by
  have hroot : ∀ j, (freshInode fsTypeDirectory 4096).root j = 0 := fun j => root_blank j
  have hb : Built sb (blankImage sb) (update (fun _ => none) fsRootInode
      (some (freshInode fsTypeDirectory 4096))) :=
    (Built.blank hm).fresh rfl hroot
  have hslot : ensureSlot sb.totalBlocks (blankImage sb) (freshInode fsTypeDirectory 4096) 0 =
      some (sb.firstDataBlock, rootInode sb, (initial sb).img) := by
    have hlt : ¬sb.totalBlocks ≤ (blankImage sb).next := Nat.not_le.mpr hm.data_lt
    rw [ensureSlot, if_pos (hroot 0), allocImageBlock, if_neg hlt, initial_img]
    rfl
  obtain ⟨hext, -⟩ := ensureSlot_spec hm hb (update_self _ _ _) (by decide) hslot
  have hgrow := hext.grow
  have hbuilt := hext.built
  rw [update_idem] at hgrow hbuilt
  have hptr : pointers ((blankImage sb).volume sb) (update (fun _ => none) fsRootInode
      (some (freshInode fsTypeDirectory 4096))) = pointers _ fun _ => none :=
    pointers_fresh _ rfl hroot
  have hread : ∀ slot, Inode.read zero slot = Inode.blank := fun slot => by
    simp [Inode.read, Inode.blank]
  refine ⟨hbuilt, fun i => ?_, fun i => ?_, update_self _ _ _, ?_, ?_, ?_, ?_,
    by decide, by simp⟩
  · change bit (setBit zero fsRootInode) i = _
    rw [bit_setBit, bit_zero]
    by_cases hi : i = fsRootInode
    · simp [hi]
    · simp [hi]
  · change read (setInodeAt (fun _ => zero) fsRootInode (rootInode sb) (i / 56)) (i % 56) = _
    rw [read_setInodeAt]
    by_cases hi : i = fsRootInode
    · simp [hi]
    · simp [hi, hread]
  · intro i f hf
    simp [inputAt] at hf
  · exact fun i hi _ => update_of_ne hi _ _
  · intro i k hk
    rw [hgrow.leaf_eq i hk, leaf, blockAt, hptr]
    have hnone : inputAt [] i = none := by simp [inputAt]
    rw [inputBlock, hnone]
    exact if_pos (blockAt_none _ _ _)
  · exact RootBlock.dots

end OrangeOs.Mkfs
