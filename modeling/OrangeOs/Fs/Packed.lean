import OrangeOs.Fs.Withdrawn
import OrangeOs.Fs.Path

/-! # Directories that fill up

A directory whose blocks are all direct ones and whose first `e` entries are the ones in
use: where `dir_add` puts the next entry, and what it takes from the free blocks. When the
eleven direct blocks are full, the next entry needs an index block and a data block.
-/

namespace OrangeOs.Fs

open Bytes Function List

/-- The first `e` entries of directory `d` are in use, in `n` direct blocks. -/
structure Packed (v : Volume) (d n e : Nat) : Prop where
  dir : (view v).Dir d n
  slots : ∀ j, n ≤ j → j < 14 → (inodeAt v d).root j = 0
  filled : ∀ k s, s < 64 → (entryInode ((view v).data d k) s = 0 ↔ e ≤ 64 * k + s)
  lo : 64 * n < e + 64
  hi : e ≤ 64 * n

variable {name : Str} {d n e : Nat} {v : Volume}

section Scan

variable (hp : Packed v d n e)
include hp

theorem Packed.block_full {k : Nat} (hk : 64 * (k + 1) ≤ e) :
    freeEntry ((view v).data d k) = none := by
  rw [freeEntry, find?_eq_none]
  intro s hs
  have hs : s < 64 := mem_range.mp hs
  rw [decide_eq_true_iff, hp.filled k s hs]
  omega

theorem Packed.block_last (he : e < 64 * n) :
    freeEntry ((view v).data d (n - 1)) = some (e - 64 * (n - 1)) ∧
      (view v).data d (n - 1) ≠ zero := by
  have hlo := hp.lo
  constructor
  · rw [freeEntry, find?_range_eq_some]
    refine ⟨?_, mem_range.mpr (by omega), fun s hs => ?_⟩
    · rw [decide_eq_true_iff, hp.filled _ _ (by omega)]
      omega
    · rw [Bool.not_eq_eq_eq_not, Bool.not_true, decide_eq_false_iff_not,
        hp.filled _ _ (by omega)]
      omega
  · intro hzero
    have hfirst := (hp.filled (n - 1) 0 (by omega)).mp (by rw [hzero, entryInode_zero])
    omega

theorem Packed.dirAdd_eq (hs : Sound v) (hname : name.length ≠ 0) (hlen : name.length < 60)
    (hfind : dirFind v d name = none) (nr : Nat) :
    dirAdd v d name nr = dirAddFrom v d (inodeAt v d) name nr (e / 64) (n - e / 64) := by
  have hhi := hp.hi
  have hd := hp.dir
  unfold dirAdd
  rw [if_neg (by simp [hname, hfind]; omega), hd.get hs]
  dsimp only
  rw [if_neg (not_not.mpr hd.type_eq), hd.blocks, Nat.max_eq_right hd.one_le]
  have hskip := dirAddFrom_skip hs hd name nr 0 (e / 64) (n - e / 64) (by omega)
    fun l _ hl => hp.block_full (by omega)
  rw [Nat.zero_add, show e / 64 + (n - e / 64) = n by omega] at hskip
  exact hskip

end Scan

theorem filled_enter {V W : View} {k s nr : Nat} (hname : name.length < 60) (hnr : nr ≠ 0)
    (hnr32 : nr < 2 ^ 32) (hs : s < 64) (hpos : 64 * k + s = e)
    (hdata : W.data d = update (V.data d) k (setEntry (V.data d k) s nr name))
    (hV : ∀ k s, s < 64 → (entryInode (V.data d k) s = 0 ↔ e ≤ 64 * k + s)) :
    ∀ k s, s < 64 → (entryInode (W.data d k) s = 0 ↔ e + 1 ≤ 64 * k + s) := by
  intro k' s' hs'
  rw [hdata]
  by_cases hk : k' = k
  · rw [hk, update_self]
    by_cases hss : s' = s
    · rw [hss, entryInode_setEntry _ _ hnr32]
      omega
    · rw [entryInode_congr fun x h1 h2 => setEntry_of_outside _ _ hname (by omega), hV k s' hs']
      omega
  · rw [update_of_ne hk, hV k' s' hs']
    omega

theorem freeBlocks_store (hm : Mounted v.sb) {b : Nat} (hb : v.sb.firstDataBlock ≤ b) (d : Block) :
    freeBlocks (v.store b d) = freeBlocks v := by
  refine congrArg Finset.card (freeSet_congr rfl fun x hx => ?_)
  refine bmapBit_frame hm (Frame.store v d rfl : Frame (· = b) _ _) ?_ hx
  rintro y hy rfl
  exact (bmapRegion_disjoint hm hy).2.2 hb

/-- The blocks that the entry after `e` others takes. -/
def growNeed (e : Nat) : Nat := if e % 64 = 0 then 1 else 0

section Add

variable {nr : Nat} (hs : Sound v) (hp : Packed v d n e) (hname : name.length ≠ 0)
  (hlen : name.length < 60) (hfind : dirFind v d name = none) (hnr : nr ≠ 0) (hnr32 : nr < 2 ^ 32)
include hs hp hname hlen hfind

include hnr hnr32 in
theorem Packed.add_here (he : e < 64 * n) :
    ∃ w, dirAdd v d name nr = (true, w) ∧ Packed w d n (e + 1) ∧ w.sb = v.sb ∧
      freeBlocks w = freeBlocks v := by
  have hlo := hp.lo
  have hm := hs.mounted
  obtain ⟨hfree, hne⟩ := hp.block_last he
  have hdiv : e / 64 = n - 1 := by omega
  have hmax : n - 1 < fsMaxFileBlocks := by
    have := hp.dir.le_max
    omega
  obtain ⟨block, hblk, hat, hadd⟩ := dirAddFrom_take hs hp.dir name nr (m := 0) (by omega) hfree hne
  rw [hp.dirAdd_eq hs hname hlen hfind nr, hdiv, show n - (n - 1) = 0 + 1 by omega, hadd]
  obtain ⟨-, hview, -⟩ := hs.store hmax
    (setEntry ((view v).data d (n - 1)) (e - 64 * (n - 1)) nr name) hat hblk
  have hlast : n - 1 < n := by omega
  have henter : view (v.store block (setEntry ((view v).data d (n - 1)) (e - 64 * (n - 1)) nr
      name)) = (view v).enter d n (n - 1) (e - 64 * (n - 1)) nr name := by
    rw [hview, View.enter, if_pos hlast]
  have hdata : v.sb.firstDataBlock ≤ block := by
    rw [← hat]
    exact hs.owned.lo (locate_isLeaf hmax d).1 (hat ▸ hblk)
  obtain ⟨-, -, hentries, -⟩ := (view v).enter_same d n (n - 1) (e - 64 * (n - 1)) nr name
  have hdir := hp.dir.enter (e - 64 * (n - 1)) nr name hmax
  rw [← henter] at hentries hdir
  rw [Nat.max_eq_left hlast] at hdir
  refine ⟨_, rfl, ⟨hdir, ?_, ?_, by omega, by omega⟩, rfl, freeBlocks_store hm hdata _⟩
  · intro j h1 h2
    rw [inodeAt_grow hm (Frame.store v _ (Or.inr hdata)) hp.dir.valid.2]
    exact hp.slots j h1 h2
  · exact filled_enter hlen hnr hnr32 (by omega) (by omega) hentries hp.filled

include hnr hnr32 in
theorem Packed.add_grow (he : e = 64 * n) (hn : n < 11) (hsmall : SmallVolume v.sb)
    (hfree : 0 < freeBlocks v) :
    ∃ w, dirAdd v d name nr = (true, w) ∧ Packed w d (n + 1) (e + 1) ∧ w.sb = v.sb ∧
      freeBlocks w + 1 = freeBlocks v := by
  have hm := hs.mounted
  have hmax : n < fsMaxFileBlocks := Nat.lt_trans hn (by decide)
  obtain ⟨b, w, halloc, ha⟩ := allocDataBlock_enough hm hsmall hfree
  have hblock : inodeDataBlock v (inodeAt v d) n true =
      (some b, (inodeAt v d).setRoot n b, w) := by
    rw [inodeDataBlock, if_neg (by omega), if_pos hn, lookupSlot,
      if_pos ⟨hp.slots n (le_refl n) (by omega), rfl⟩, halloc]
    rfl
  obtain ⟨u, hadd, hlong⟩ := dirAddFrom_extend hs hp.dir hmax hblock name nr
  rw [hp.dirAdd_eq hs hname hlen hfind nr, show e / 64 = n by omega, Nat.sub_self, hadd]
  obtain ⟨-, -, hentries, -⟩ := (view v).enter_same d n n 0 nr name
  rw [← hlong.entered] at hentries
  refine ⟨u, rfl, ⟨?_, ?_, ?_, by omega, by omega⟩, hlong.sb, ?_⟩
  · have hdir := hp.dir.enter 0 nr name hmax
    rw [← hlong.entered, Nat.max_eq_right (Nat.le_succ n)] at hdir
    exact hdir
  · intro j h1 h2
    rw [hlong.roots, Inode.root_setRoot (ha.lt_word hm) _ (by omega), if_neg (by omega)]
    exact hp.slots j (by omega) h2
  · exact filled_enter hlen hnr hnr32 (by decide) (by omega) hentries hp.filled
  · rw [← ha.freeBlocks_eq, freeBlocks, freeSet_congr (hlong.sb.trans ha.frame.sb.symm) fun x hx =>
      hlong.bits x (ha.frame.sb ▸ hx), freeBlocks]

/-- The direct blocks are full and one block is free: it becomes the index block, there is
none for the entry, and the directory on disk does not know of it. -/
theorem Packed.add_leak (he : e = 64 * n) (hn : n = 11) (hsmall : SmallVolume v.sb)
    (hone : freeBlocks v = 1) : ∃ b w, dirAdd v d name nr = (false, w) ∧ Allocated v w b := by
  have hm := hs.mounted
  obtain ⟨b, w, halloc, ha⟩ := allocDataBlock_enough hm hsmall (by omega)
  have hmw : Mounted w.sb := ha.frame.sb ▸ hm
  have hnone : allocDataBlock w = (none, w) := by
    refine allocDataBlock_full hmw ?_
    have := ha.freeBlocks_eq
    omega
  have hentry : ensureEntry w b 0 true = (none, w) := by
    have hget : cacheGet w b = some zero := by
      rw [← ha.blank]
      exact cacheGet_of_lt (by rw [ha.frame.sb]; exact ha.hi)
    simp only [ensureEntry, hget, indexEntry_zero, and_self, if_true, hnone]
  have hblock : inodeDataBlock v (inodeAt v d) n true =
      (none, (inodeAt v d).setRoot 11 b, w) := by
    rw [inodeDataBlock_of_lt v _ true (by rw [hn]; decide), hn, show locate 11 = (11, [0]) from rfl,
      lookupSlot, if_pos ⟨hp.slots 11 (by omega) (by decide), rfl⟩, halloc]
    simp only [walkIndex, if_neg (ha.ne_zero hm), hentry]
  refine ⟨b, w, ?_, ha⟩
  rw [hp.dirAdd_eq hs hname hlen hfind nr, show e / 64 = n by omega, Nat.sub_self]
  simp only [dirAddFrom, hblock]

include hnr hnr32 in
theorem Packed.add (hsmall : SmallVolume v.sb) (he : e < 704) (hfree : growNeed e ≤ freeBlocks v) :
    ∃ w m, dirAdd v d name nr = (true, w) ∧ Packed w d m (e + 1) ∧ w.sb = v.sb ∧
      freeBlocks w + growNeed e = freeBlocks v := by
  have hlo := hp.lo
  have hhi := hp.hi
  by_cases hfull : e = 64 * n
  · have hneed : growNeed e = 1 := if_pos (by omega)
    rw [hneed] at hfree ⊢
    obtain ⟨w, hadd, hw, hsb, hcount⟩ :=
      hp.add_grow hs hname hlen hfind hnr hnr32 hfull (by omega) hsmall hfree
    exact ⟨w, n + 1, hadd, hw, hsb, hcount⟩
  · have hneed : growNeed e = 0 := if_neg (by omega)
    obtain ⟨w, hadd, hw, hsb, hcount⟩ :=
      hp.add_here hs hname hlen hfind hnr hnr32 (by omega)
    exact ⟨w, n, hadd, hw, hsb, by rw [hneed, hcount, Nat.add_zero]⟩

end Add

/-! ## Creations in a packed directory -/

theorem Stored.packed {z : Volume} {i p : Nat} {type : UInt16} {ino : Inode} {B : Nat → Prop}
    (h : Stored v z i p type ino B) (hp : Packed v p n e) (hpi : p ≠ i) : Packed z p n e := by
  obtain ⟨-, -, hdata⟩ := (view v).install_of_ne (newInfo type) (newBlocks type i p) hpi
  refine ⟨h.dir hp.dir hpi, fun j h1 h2 => ?_, ?_, hp.lo, hp.hi⟩
  · rw [h.built.aside.inodes p hp.dir.valid.2 hpi]
    exact hp.slots j h1 h2
  · rw [h.seen, hdata]
    exact hp.filled

theorem Packed.links (hs : Sound v) (hp : Packed v d n e) (c : Prop) [Decidable c]
    (f : UInt16 → Option UInt16) :
    Packed (if c then updateLinks v d f else v) d n e ∧
      freeBlocks (if c then updateLinks v d f else v) = freeBlocks v := by
  have hvalid := hp.dir.valid
  have hm := hs.mounted
  have hlinks := parentLinks_spec hs hvalid hp.dir.used c f
  suffices hspace : (∀ j, (inodeAt (if c then updateLinks v d f else v) d).root j =
      (inodeAt v d).root j) ∧ freeBlocks (if c then updateLinks v d f else v) = freeBlocks v by
    refine ⟨⟨?_, fun j h1 h2 => ?_, ?_, hp.lo, hp.hi⟩, hspace.2⟩
    · exact hp.dir.congr (by rw [hlinks.used]) hlinks.type hlinks.size (by rw [hlinks.data])
    · rw [hspace.1]
      exact hp.slots j h1 h2
    · rw [hlinks.data]
      exact hp.filled
  split
  · rw [updateLinks, fsGetInode_eq hm hvalid]
    dsimp only
    cases f (inodeAt v d).linkCount with
    | none => exact ⟨fun _ => rfl, rfl⟩
    | some l =>
      obtain ⟨w, hput, hframe, hino⟩ := fsPutInode_spec hm hvalid ((inodeAt v d).setLinks l)
      dsimp only
      rw [hput, Option.getD_some]
      refine ⟨fun j => ?_, congrArg Finset.card (freeSet_congr hframe.sb fun x hx => ?_)⟩
      · rw [hino d hvalid.2, if_pos rfl]
        rfl
      · exact bmapBit_frame hm hframe (fun b hb => (bmapRegion_disjoint hm hb).2.1) hx
  · exact ⟨fun _ => rfl, rfl⟩

section Create

variable (h : Healthy v) (hsmall : SmallVolume v.sb) {c : Name}
  (hfind : dirFind v fsRootInode c.1 = none)
  (hinode : ∃ i, fsRootInode < i ∧ i < v.sb.totalInodes ∧ imapBit v i = false)
include h hfind hinode

theorem fsCreatePath_taken (type : UInt16) : ∃ i w, Taken v w i ∧
    fsCreatePath v (render [c]) fsRootInode type = createAt w i fsRootInode c.1 type := by
  have hparent : pathParent v (render [c]) fsRootInode = some (fsRootInode, c.1) := by
    have hlen : (render [c]).length < fsPathMax := by
      have := c.length_lt
      rw [render, if_neg (by simp), renderTail_cons, renderTail_nil]
      simp only [append_nil, length_cons]
      unfold fsPathMax
      omega
    have hrender := h.pathParent_render [] c fsRootInode
    rw [nil_append, if_neg (by omega)] at hrender
    exact hrender
  rcases bitmapAllocate_imap h.sound.mounted (fsRootInode + 1) h.sound.inodes with
    ⟨-, hfull⟩ | ⟨i, w, htake, hge, hlt, hfree, hframe, hbits⟩
  · obtain ⟨i, h1, h2, h3⟩ := hinode
    rw [hfull i h1 h2] at h3
    cases h3
  · refine ⟨i, w, ⟨hge, hlt, hfree, hframe, hbits⟩, ?_⟩
    rw [fsCreatePath, hparent]
    dsimp only
    rw [if_neg (by simp [c.2.2.2.1, c.2.2.2.2, hfind]), htake]
    rw [if_neg (by omega), Int.toNat_natCast]

include hsmall in
theorem Packed.create (hp : Packed v fsRootInode n e) (he : e < 704) {type : UInt16}
    (hkind : type = fsTypeFile ∨ type = fsTypeDirectory)
    (hfree : newNeed type + growNeed e ≤ freeBlocks v) :
    ∃ i u m, fsCreatePath v (render [c]) fsRootInode type = (some i, u) ∧
      CreateDone v u fsRootInode i c.1 type ∧ Packed u fsRootInode m (e + 1) ∧ u.sb = v.sb ∧
      freeBlocks u + (newNeed type + growNeed e) = freeBlocks v ∧
      ∀ j, j < v.sb.totalInodes → j ≠ i → j ≠ fsRootInode → diskTab u j = diskTab v j := by
  obtain ⟨i, w, ht, hpath⟩ := fsCreatePath_taken h hfind hinode type
  have hi : fsRootInode < i := ht.ge
  have hi32 : i < 2 ^ 32 := by
    have := h.sound.inodes
    have := ht.lt
    omega
  have hname : c.1.length ≠ 0 := fun h0 => c.ne_nil (length_eq_zero_iff.mp h0)
  rcases ht.stored h.sound fsRootInode c.1 type with
    ⟨y, -, rfl, hnone⟩ | ⟨z, ino, B, hz, hcreate⟩
  · have hone : newNeed fsTypeDirectory = 1 := rfl
    exact absurd hnone (ht.allocates h.sound.mounted hsmall (by omega) y)
  · have hroot := hz.built.free
    have hpz := hz.packed hp hi.ne
    have hfz := hz.find h.sound hp.dir hi.ne c.length_lt hfind
    obtain ⟨x, m, hadd, hpx, hsb, hcount⟩ := hpz.add hz.sound hname c.length_lt hfz
      (by omega) hi32 (hz.built.aside.sb ▸ hsmall) he (by omega)
    rw [hadd] at hcreate
    obtain ⟨hsx, htabx⟩ : Sound x ∧ ∀ j, j ≠ fsRootInode → diskTab x j = diskTab z j := by
      have hres := (dirAdd_spec hz.sound hpz.dir c.1 i).1
      rw [hadd] at hres
      cases hres with
      | added k s _ _ _ _ hsound _ htab => exact ⟨hsound, htab⟩
    obtain ⟨hlinks, hspace⟩ := hpx.links hsx (type = fsTypeDirectory) (fun n => some (n + 1))
    have honly := parentLinks_spec hsx hpx.dir.valid hpx.dir.used (type = fsTypeDirectory)
      (fun n => some (n + 1))
    refine ⟨i, _, m, hpath.trans hcreate, ?_, hlinks, (honly.sb.trans hsb).trans hz.built.aside.sb,
      ?_, fun j hj hji hjr => ?_⟩
    · rcases createAt_spec h ht hp.dir.used c.2.1.2.2 c.2.2.1 c.2.2.2.1 c.2.2.2.2 hfind hkind with
        ⟨y, hnone, -⟩ | ⟨y, hsome, hdone⟩
      · cases hcreate.symm.trans hnone
      · cases hcreate.symm.trans hsome
        exact hdone
    · rw [hspace]
      omega
    · rw [honly.tab j hjr, htabx j hjr, hz.built.aside.diskTab_eq hj hji]

include hsmall in
/-- With the direct pointers used up and one block left, it takes that block for nothing. -/
theorem Packed.create_leak (hp : Packed v fsRootInode 11 704) (hone : freeBlocks v = 1) :
    ∃ b u, fsCreatePath v (render [c]) fsRootInode fsTypeFile = (none, u) ∧
      b < v.sb.totalBlocks ∧ bmapBit v b = false ∧ bmapBit u b = true := by
  obtain ⟨i, w, ht, hpath⟩ := fsCreatePath_taken h hfind hinode fsTypeFile
  have hi : fsRootInode < i := ht.ge
  have hname : c.1.length ≠ 0 := fun h0 => c.ne_nil (length_eq_zero_iff.mp h0)
  rcases ht.stored h.sound fsRootInode c.1 fsTypeFile with
    ⟨_, -, htype, -⟩ | ⟨z, ino, B, hz, hcreate⟩
  · cases htype
  · have hfree := hz.built.free
    have hpz := hz.packed hp hi.ne
    have hfz := hz.find h.sound hp.dir hi.ne c.length_lt hfind
    obtain ⟨b, x, hadd, ha⟩ : ∃ b x, dirAdd z fsRootInode c.1 i = (false, x) ∧ Allocated z x b :=
      hpz.add_leak hz.sound hname c.length_lt hfz rfl rfl (hz.built.aside.sb ▸ hsmall)
        (hfree.trans hone)
    obtain ⟨hsx, htabx⟩ : Sound x ∧ diskTab x = diskTab z := by
      have hres := (dirAdd_spec hz.sound hpz.dir c.1 i).1
      rw [hadd] at hres
      cases hres with
      | refused hsound _ htab => exact ⟨hsound, htab⟩
    obtain ⟨hb, hset⟩ := hz.leak ht hsx htabx ha.frame.sb
      (mem_freeSet.mpr ⟨ha.hi, ha.lo, ha.free⟩) (by simp [ha.bits b ha.hi])
    rw [hadd] at hcreate
    exact ⟨b, _, hpath.trans hcreate, (mem_freeSet.mp hb).1, (mem_freeSet.mp hb).2.2, hset⟩

end Create

end OrangeOs.Fs
