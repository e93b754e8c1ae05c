import OrangeOs.Fs.Rejected
import OrangeOs.Storage.Contents
import OrangeOs.Storage.Crowding

/-! # Rejected requests

What is left of a write and of a creation that ran out of blocks.
-/

namespace OrangeOs.Storage

open Bytes Machine SparseArray Fs PointerForest List
open Mkfs (mkfs)

/-! ## Writes -/

/-- The state after a rejected write of the file `nr`: its size, its bytes and the
allocated blocks are as before, and where it held zeros behind its end it still does. -/
structure WriteUndone (v w : Volume) (nr : Nat) : Prop where
  size : (inodeAt w nr).size = (inodeAt v nr).size
  reads : ∀ offset length, fsReadInode w nr offset length = fsReadInode v nr offset length
  blocks : ∀ b, b < v.sb.totalBlocks → bmapBit w b = bmapBit v b
  beyond : ∀ o, (inodeAt v nr).size.toNat ≤ o → fileByte ((view v).data nr) o = 0 →
    fileByte ((view w).data nr) o = 0

variable {v w : Volume} {nr offset : Nat} {data : List UInt8}

theorem WriteUndone.refl (v : Volume) (nr : Nat) : WriteUndone v v nr where
  size := rfl
  reads _ _ := rfl
  blocks _ _ := rfl
  beyond _ _ h := h

section Undone

variable (hs : Sound v) (hs' : Sound w) (hf : IsFile v nr)
  (hinfo : (view w).info nr = (view v).info nr)
include hf hinfo

theorem isFile_of_info : IsFile w nr := isFile_of_view hf.valid.1 (by rw [hinfo]; exact hf.type_view)

theorem size_of_info : (inodeAt w nr).size = (inodeAt v nr).size := by
  have hf' := isFile_of_info hf hinfo
  exact congrArg Info.size (hf'.info.symm.trans (hinfo.trans hf.info))

include hs hs'

theorem fsReadInode_byte {o : Nat} (ho : o < (inodeAt v nr).size.toNat)
    (hsame : fsReadInode w nr o 1 = fsReadInode v nr o 1) :
    fileByte ((view w).data nr) o = fileByte ((view v).data nr) o := by
  by_cases hmax : o + 1 ≤ fsMaxFileSize
  · have hread : ∀ {u : Volume}, Sound u → IsFile u nr → (inodeAt u nr).size = (inodeAt v nr).size →
        fsReadInode u nr o 1 = some [fileByte ((view u).data nr) o] := by
      intro u hu hfu hsize
      have hsmall : fsMaxFileSize < 2 ^ 63 := by decide
      rw [fsReadInode, fsGetInode_eq hu.mounted hfu.valid]
      dsimp only
      rw [if_neg (not_not.mpr hfu.type), hsize, if_neg (by omega), if_neg (by omega),
        Nat.min_eq_left (by omega), readBlocks_spec hu hfu.tab o 1 hmax]
      rfl
    rw [hread hs' (isFile_of_info hf hinfo) (size_of_info hf hinfo), hread hs hf rfl] at hsame
    simpa using hsame
  · -- no file has blocks there
    have hk : ¬o / 4096 < fsMaxFileBlocks := fun hlt => hmax (by
      unfold fsMaxFileSize
      omega)
    simp only [fileByte, view, viewOf, if_neg hk]

theorem writeUndone_iff : WriteUndone v w nr ↔
    (∀ b, b < v.sb.totalBlocks → bmapBit w b = bmapBit v b) ∧
      ∀ o, Unseen (inodeAt v nr).size.toNat o (fileByte ((view v).data nr) o)
        (fileByte ((view w).data nr) o) := by
  have hf' := isFile_of_info hf hinfo
  have hsize := size_of_info hf hinfo
  constructor
  · intro h
    exact ⟨h.blocks, fun o => ⟨fun ho => fsReadInode_byte hs hs' hf hinfo ho (h.reads o 1),
      h.beyond o⟩⟩
  · rintro ⟨hbits, hbytes⟩
    refine ⟨hsize, fun offset length => ?_, hbits, fun o => (hbytes o).beyond⟩
    unfold fsReadInode
    rw [fsGetInode_eq hs.mounted hf.valid, fsGetInode_eq hs'.mounted hf'.valid]
    dsimp only
    rw [if_neg (not_not.mpr hf.type), if_neg (not_not.mpr hf'.type), hsize]
    split
    · rfl
    · split
      · rfl
      · exact readBlocks_congr hs hs' hf.tab hf'.tab _ _ fun o ho => (hbytes o).within (by omega)

theorem WriteUndone.stores (h : WriteUndone v w nr) {start : Sparse (0 : UInt8)}
    (hstart : Stores v nr start) : Stores w nr start := by
  have hbytes := ((writeUndone_iff hs hs' hf hinfo).mp h).2
  refine ⟨isFile_of_info hf hinfo, hinfo ▸ hstart.size, ?_, hstart.fits⟩
  have hsize : (inodeAt v nr).size.toNat = start.size := hstart.inode_size
  funext o
  have hbyte := hbytes o
  rw [hstart.bytes, hsize] at hbyte
  by_cases ho : o < start.size
  · exact hbyte.within ho
  · have hzero := start.beyond o (Nat.le_of_not_lt ho)
    rw [hbyte.beyond (Nat.le_of_not_lt ho) hzero, hzero]

end Undone

section Abort

variable {u : Volume} {now : Inode} {D : Nat → Block}
  (hw : Writing nr (view v) (inodeAt v nr) u now D)
include hw

end Abort

section Full

variable (hs : Sound v) (hfull : freeBlocks v = 0)
  (hnull : (inodeAt v nr).root (locate (offset / 4096)).1 = 0)
  (hfit : offset + data.length ≤ fsMaxFileSize) (hnil : data ≠ [])
include hs hfull hnull hfit hnil

end Full

section Clobber

variable {b : Nat} (hs : Sound v) (hf : IsFile v nr) (hb : (inodeAt v nr).root 0 = b) (hb0 : b ≠ 0)

include hs hf hb hb0

end Clobber

/-- The state after a rejected creation. Both bitmaps, the inodes in use, the entries of
every directory and the blocks that belong to inodes are as before. -/
structure CreateUndone (v w : Volume) : Prop where
  inodeBits : ∀ i, i < v.sb.totalInodes → imapBit w i = imapBit v i
  blockBits : ∀ b, b < v.sb.totalBlocks → bmapBit w b = bmapBit v b
  inodes : ∀ i, i < v.sb.totalInodes → imapBit v i = true → inodeAt w i = inodeAt v i
  entries : ∀ d, (view v).IsDir d → ∀ k s c name,
    (view w).Entry d k s c name ↔ (view v).Entry d k s c name
  referenced : ∀ i j p b, Reaches w i j p b ↔ Reaches v i j p b

/-- The creation gets as far as taking blocks: the path names a new entry `leaf` of `p`, and
an inode is free. -/
structure Starts (v : Volume) (path : Str) (p : Nat) (leaf : Str) : Prop where
  parent : pathParent v path fsRootInode = some (p, leaf)
  absent : ¬(leaf = dot ∨ leaf = dotdot ∨ (dirFind v p leaf).isSome)
  inode : ∃ i, fsRootInode < i ∧ i < v.sb.totalInodes ∧ imapBit v i = false

theorem CreateUndone.refl (v : Volume) : CreateUndone v v :=
  ⟨fun _ _ => rfl, fun _ _ => rfl, fun _ _ _ => rfl, fun _ _ _ _ _ _ => Iff.rfl,
    fun _ _ _ _ => Iff.rfl⟩

theorem CreateUndone.of_withdrawn {w : Volume} (hs : Sound v) {i : Nat} (h : Withdrawn v w i) :
    CreateUndone v w := by
  have himap : ∀ j, j < v.sb.totalInodes → imapBit w j = imapBit v j := by
    intro j hj
    by_cases hji : j = i
    · rw [hji, h.before, h.after]
    · exact h.aside.imap j hj hji
  have hused : ∀ j, imapBit v j = true → j ≠ i := by
    rintro j hj rfl
    rw [h.before] at hj
    cases hj
  have hreach : ∀ {j s p}, j < v.sb.totalInodes → imapBit v j = true → indexShape.ok (j, s) p →
      follow (fun x k => indexEntry (w.disk x) k) ((inodeAt w j).root s) p =
        follow (fun x k => indexEntry (v.disk x) k) ((inodeAt v j).root s) p := by
    intro j s p hj hset hok
    rw [← blockAt_used (v := w) (by rwa [h.aside.sb]) ((himap j hj).trans hset),
      ← blockAt_used hj hset]
    exact h.aside.blockAt_eq hs hj (hused j hset) hok
  refine ⟨himap, fun b hb => ?_, fun j hj hset => h.aside.inodes j hj (hused j hset), ?_, ?_⟩
  · rw [Bool.eq_iff_iff, h.aside.bmap b hb, or_false]
  · intro d hd k s c name
    obtain ⟨hlt, hset⟩ := view_used_iff.mp hd.1
    have hdata : (view w).data d k = (view v).data d k := by
      by_cases hk : k < fsMaxFileBlocks
      · rw [view_data d hk, view_data d hk, h.aside.leaf_eq hs hlt (hused d hset) hk]
      · exact (if_neg hk).trans (if_neg hk).symm
    constructor
    · rintro ⟨hs, hc, hne, hn⟩
      exact ⟨hs, hdata ▸ hc, hne, hdata ▸ hn⟩
    · rintro ⟨hs, hc, hne, hn⟩
      exact ⟨hs, hdata ▸ hc, hne, hdata ▸ hn⟩
  · intro j s p b
    constructor
    · rintro ⟨hlt, hset, hpos, hblock, hne⟩
      rw [h.aside.sb] at hlt
      rw [himap j hlt] at hset
      exact ⟨hlt, hset, hpos, (hreach hlt hset hpos).symm.trans hblock, hne⟩
    · rintro ⟨hlt, hset, hpos, hblock, hne⟩
      exact ⟨h.aside.sb ▸ hlt, (himap j hlt).trans hset, hpos, (hreach hlt hset hpos).trans hblock,
        hne⟩

/-- A rejected creation leaks nothing exactly if no block is left when the allocation that
fails is tried. -/
theorem rejected_creation_leaks_nothing {v w : Volume} (h : Healthy v) {path : Str} {type : UInt16}
    (he : fsCreatePath v path fsRootInode type = (none, w)) :
    CreateUndone v w ↔ ∀ p leaf, Starts v path p leaf → NoneLeft v p leaf type := by
  have hearly : (∀ p leaf, ¬Starts v path p leaf) → w = v →
      (CreateUndone v w ↔ ∀ p leaf, Starts v path p leaf → NoneLeft v p leaf type) := by
    rintro hno rfl
    exact iff_of_true (CreateUndone.refl w) fun p leaf hstart => absurd hstart (hno p leaf)
  unfold fsCreatePath at he
  cases hpp : pathParent v path fsRootInode with
  | none =>
    rw [hpp] at he
    cases he
    exact hearly (fun p leaf hstart => by cases hpp.symm.trans hstart.parent) rfl
  | some pl =>
    obtain ⟨p, name⟩ := pl
    obtain ⟨hp, -, -⟩ := h.pathParent_some hpp
    have honly : ∀ {q leaf}, Starts v path q leaf → q = p ∧ leaf = name := fun hstart => by
      cases hpp.symm.trans hstart.parent
      exact ⟨rfl, rfl⟩
    rw [hpp] at he
    dsimp only at he
    split at he
    · next hbad =>
      cases he
      refine hearly (fun q leaf hstart => hstart.absent ?_) rfl
      obtain ⟨rfl, rfl⟩ := honly hstart
      exact hbad
    · next hnew =>
      rcases bitmapAllocate_imap h.sound.mounted (fsRootInode + 1) h.sound.inodes with
        ⟨hfull, hused⟩ | ⟨i, u, htake, hge, hlt, hfree, hframe, hbits⟩
      · rw [hfull] at he
        cases he
        refine hearly (fun q leaf hstart => ?_) rfl
        obtain ⟨j, h1, h2, h3⟩ := hstart.inode
        rw [hused j h1 h2] at h3
        cases h3
      · rw [htake] at he
        rw [if_neg (by omega), Int.toNat_natCast] at he
        have ht : Taken v u i := ⟨hge, hlt, hfree, hframe, hbits⟩
        have hfind : dirFind v p name = none := by
          simpa using fun hsome => hnew (Or.inr (Or.inr hsome))
        rcases createAt_failed h ht hp hfind he with ⟨hundo, hleft⟩ | ⟨⟨b, hb, hset⟩, hleft⟩
        · refine iff_of_true (CreateUndone.of_withdrawn h.sound hundo) fun q leaf hstart => ?_
          obtain ⟨rfl, rfl⟩ := honly hstart
          exact hleft
        · refine iff_of_false (fun hundone => ?_) fun hall =>
            hleft (hall p name ⟨hpp, hnew, i, hge, hlt, hfree⟩)
          obtain ⟨hhi, -, hclear⟩ := mem_freeSet.mp hb
          rw [hundone.blockBits b hhi, hclear] at hset
          cases hset

/-- A directory is asked for when the last block is gone. -/
theorem rejected_creation_leaks_nothing_full :
    ∃ disk v w, mkfs 1048576 0 [sampleInput] = some disk ∧ fsInit 0 disk = some v ∧
      fsCreatePath (runOps v (crowdOps 166)) (render [crowdName 701]) fsRootInode
        fsTypeDirectory = (none, w) ∧
      CreateUndone (runOps v (crowdOps 166)) w := by
  obtain ⟨disk, v, hdisk, hinit, h⟩ := mkfs_crowded (le_refl 166)
  have hfree : freeBlocks (runOps v (crowdOps 166)) = 0 := by
    have := h.free
    omega
  obtain ⟨i, u, ht, hpath⟩ := fsCreatePath_taken h.healthy (h.absent (by decide))
    (h.inode (by decide)) fsTypeDirectory
  rcases ht.stored h.healthy.sound fsRootInode (crowdName 701).1 fsTypeDirectory with
    ⟨y, hnone, -⟩ | ⟨z, ino, B, hz, -⟩
  · refine ⟨disk, v, _, hdisk, hinit, hpath.trans hnone,
      (rejected_creation_leaks_nothing h.healthy (hpath.trans hnone)).mpr fun p leaf _ => ?_⟩
    have hempty : freeSet (runOps v (crowdOps 166)) = ∅ := Finset.card_eq_zero.mp hfree
    rw [NoneLeft, if_pos ⟨rfl, by simp [hempty]⟩]
    exact hfree
  · have hneed := hz.built.free
    rw [show newNeed fsTypeDirectory = 1 from rfl] at hneed
    omega

/-- A file is asked for when one block is left and the direct blocks of the root directory
are full: the block is marked for the index and stays so. -/
theorem last_block_lost_as_index :
    ∃ disk v w b, mkfs 1048576 0 [sampleInput] = some disk ∧ fsInit 0 disk = some v ∧
      fsCreatePath (runOps v (crowdOps 165)) (render [crowdName 701]) fsRootInode fsTypeFile =
        (none, w) ∧
      bmapBit (runOps v (crowdOps 165)) b = false ∧ bmapBit w b = true ∧
      ¬CreateUndone (runOps v (crowdOps 165)) w := by
  obtain ⟨disk, v, hdisk, hinit, h⟩ := mkfs_crowded (by decide : 165 ≤ 166)
  obtain ⟨n, hp⟩ := h.packed
  obtain rfl : n = 11 := by
    have h1 := hp.lo
    have h2 := hp.hi
    omega
  obtain ⟨b, w, hfail, hb, hfree, hset⟩ := hp.create_leak h.healthy h.small (h.absent (by decide))
    (h.inode (by decide)) (by have := h.free; omega)
  refine ⟨disk, v, w, b, hdisk, hinit, hfail, hfree, hset, fun hundone => ?_⟩
  rw [hundone.blockBits b hb, hfree] at hset
  cases hset

end OrangeOs.Storage
