import OrangeOs.Fs.FileData
import OrangeOs.Fs.NameSpace

/-! # What each operation does to the view

One lemma per operation of the file service: a volume that is sound and whose
name space is in order stays so, and the view changes as stated.
-/

namespace OrangeOs.Fs

open Bytes PointerForest Function View

/-- The invariant of a volume between operations. -/
structure Healthy (v : Volume) : Prop where
  sound : Sound v
  names : (view v).Names

/-! ## Lookup -/

/-- What a name can lead to: a directory, or a file that has a link. -/
def View.Named (V : View) (i : Nat) : Prop :=
  V.IsDir i ∨ V.IsFile i ∧ (V.info i).linkCount ≠ 0

variable {V : View} {p i k s nr : Nat} {name : Str} {ino : Inode} {v w : Volume}

theorem View.Named.used (h : V.Named i) : V.used i = true :=
  h.elim And.left fun hf => hf.1.1

theorem View.Names.entry_named (hV : V.Names) {d c : Nat} (hd : V.IsDir d)
    (he : V.Entry d k s c name) : V.Named c := by
  by_cases h1 : name = dot
  · subst h1
    obtain ⟨rfl, rfl⟩ := (hV.dots hd he).1 rfl
    rw [← he.inode, (hV.self hd).inode]
    exact Or.inl hd
  · by_cases h2 : name = dotdot
    · subst h2
      obtain ⟨p, hp, hpd, -⟩ := hV.up hd
      obtain ⟨rfl, rfl⟩ := (hV.dots hd he).2 rfl
      rw [← he.inode, hp.inode]
      exact Or.inl hpd
    · obtain ⟨hused, -, hkind⟩ := hV.child hd ⟨he, h1, h2⟩
      exact hkind.imp (fun ht => ⟨hused, ht⟩) fun hf => ⟨⟨hused, hf.1⟩, hf.2⟩

section Lookup

variable (h : Healthy v)
include h

theorem Healthy.dirFind_some {d block : Nat} (hd : (view v).used d = true)
    (hf : dirFind v d name = some (nr, block, s)) :
    ∃ n k, (view v).Dir d n ∧ k < n ∧ Found v d name k s nr block := by
  have hdir : (view v).IsDir d := by
    refine ⟨hd, ?_⟩
    have hlt := (view_used_iff.mp hd).1
    rw [view_info hlt]
    unfold dirFind at hf
    split at hf
    · cases hf
    · next dir hget =>
      obtain ⟨-, rfl⟩ := fsGetInode_some h.sound.mounted hget
      split at hf
      · cases hf
      · next ht => exact not_not.mp ht
  obtain ⟨n, hn⟩ := h.names.dirs hdir
  rcases dirFind_spec h.sound hn name with ⟨he, -⟩ | ⟨k, s', nr', block', -, hk, hfound, he⟩
  · rw [hf] at he
    cases he
  · rw [hf] at he
    cases he
    exact ⟨n, k, hn, by simpa using hk, hfound⟩

theorem Healthy.lookupFrom_named {current : Nat} {cursor : Str} (hc : (view v).Named current)
    (hl : lookupFrom v current cursor = some nr) : (view v).Named nr := by
  fun_induction lookupFrom v current cursor with
  | case1 => cases hl
  | case2 =>
    cases hl
    exact hc
  | case3 current cursor rest hcomp ih => exact ih hc hl
  | case4 current cursor name rest hcomp hdot hfind hroot ih => exact ih hc hl
  | case5 | case6 | case7 => cases hl
  | case8 current cursor name rest hcomp hdot child block s hfind info hget htype ih =>
    obtain ⟨n, k, hdir, -, hfound⟩ := h.dirFind_some hc.used hfind
    exact ih (h.names.entry_named hdir.isDir hfound.entry) hl

theorem Healthy.root_used : (view v).used fsRootInode = true := h.names.rootDir.1

theorem Healthy.fsLookupPath_some {path : Str}
    (hl : fsLookupPath v path fsRootInode = some (nr, ino)) :
    (view v).Named nr ∧ validInode v nr ∧ ino = inodeAt v nr := by
  unfold fsLookupPath at hl
  simp only [ite_self] at hl
  split at hl
  · cases hl
  · cases hfrom : lookupFrom v fsRootInode path with
    | none =>
      rw [hfrom] at hl
      cases hl
    | some nr' =>
      rw [hfrom] at hl
      obtain ⟨info, hget, heq⟩ := Option.map_eq_some_iff.mp hl
      cases heq
      exact ⟨h.lookupFrom_named (Or.inl h.names.rootDir) hfrom,
        fsGetInode_some h.sound.mounted hget⟩

theorem Healthy.pathParent_some {path leaf : Str} {parent : Nat}
    (hp : pathParent v path fsRootInode = some (parent, leaf)) :
    (view v).used parent = true ∧ slash ∉ leaf ∧ ((0 : UInt8) ∉ path → (0 : UInt8) ∉ leaf) := by
  unfold pathParent at hp
  split at hp
  · cases hp
  · dsimp only at hp
    split at hp
    · cases hp
    · obtain ⟨⟨nr, ino⟩, hl, heq⟩ := Option.map_eq_some_iff.mp hp
      cases heq
      refine ⟨(h.fsLookupPath_some hl).1.used, fun hslash => ?_, fun hpath hleaf => hpath ?_⟩
      · have := List.mem_rtakeWhile_imp hslash
        simp at this
      · exact (List.rdropWhile_prefix _ _).subset ((List.rtakeWhile_suffix _ _).subset hleaf)

end Lookup

/-! ## Releasing a file's blocks -/

theorem Running.release {tab : Table} {x : Option Inode} (h : Running v tab i V)
    (hi : tab i = some ino) (hx : ∀ ino', x = some ino' → ∀ j, j < 14 → ino'.root j = 0) :
    Running (freeInodeBlocks v ino) (update tab i x) i (V.setBlocks i fun _ => zero) ∧
      Frame (growRegion v.sb) v (freeInodeBlocks v ino) := by
  have hc := freeInodeBlocks_spec h.mounted h.owned hi (Frame.refl _ v)
  refine ⟨?_, hc.frame.mono fun _ => Or.inl⟩
  have hdrop := h.drop (fun _ => False) x hc (by
    intro j hj
    cases x with
    | none => simp [pointers]
    | some ino' => simp [pointers, hx ino' rfl j hj]) (by
    rintro b ⟨j, -, hbelow⟩
    exact ⟨j, id, hbelow⟩)
  simpa using hdrop

@[simp] theorem Inode.root_truncated (ino : Inode) (j : Nat) : ino.truncated.root j = 0 := by
  simp [Inode.root, Inode.truncated]

theorem truncateInode_spec (hs : Sound v) (hf : IsFile v nr) :
    ∃ w, truncateInode v nr (inodeAt v nr) = (true, (inodeAt v nr).truncated, w) ∧ Sound w ∧
      view w = ((view v).setBlocks nr fun _ => zero).setInfo nr
        { (view v).info nr with size := 0 } := by
  obtain ⟨hrun, hframe⟩ := (hs.running nr).release (x := some (inodeAt v nr).truncated) hf.tab (by
    rintro ino' ⟨⟩ j -
    exact Inode.root_truncated _ j)
  have hvalid : validInode (freeInodeBlocks v (inodeAt v nr)) nr := by
    rw [validInode, hframe.sb]
    exact hf.valid
  obtain ⟨w, hput, h1, h2, -⟩ := hrun.commit hvalid (update_self nr _ _) (Or.inr hf.type)
  refine ⟨w, ?_, h1, ?_⟩
  · simp only [truncateInode, hf.type, ne_eq, not_true_eq_false, if_false, hput]
  · rw [h2, hf.info]
    rfl

/-- The view after an inode has been released altogether. -/
def View.free (V : View) (i : Nat) : View :=
  ((V.setBlocks i fun _ => zero).setUsed i false).setInfo i Inode.blank.info

theorem bitmapFree_running {tab : Table} (h : Running v tab i V) (hi : i < v.sb.totalInodes) :
    Running (bitmapFree v v.sb.imapStart i) tab i (V.setUsed i false) ∧
      (bitmapFree v v.sb.imapStart i).sb = v.sb ∧
      imapBit (bitmapFree v v.sb.imapStart i) i = false ∧
      ∀ j, j < v.sb.totalInodes → inodeAt (bitmapFree v v.sb.imapStart i) j = inodeAt v j := by
  have hframe := bitmapFree_imap_frame h.mounted hi
  obtain ⟨hrun, hino⟩ := h.imap (b := false) hi hframe fun x hx => by
    rw [imapBit_bitmapFree h.mounted hi hx]
    by_cases hxi : x = i <;> simp [hxi]
  exact ⟨hrun, hframe.sb, by simp [imapBit_bitmapFree h.mounted hi hi], hino⟩

theorem diskTab_eq_none (h1 : imapBit v i = false) (h2 : (inodeAt v i).type ≠ fsTypeFile) :
    diskTab v i = none :=
  if_neg (by simp [h1, h2])

/-- Block `x` belongs to inode `i`, as a data block or as an index block. -/
def HasBlock (v : Volume) (i x : Nat) : Prop := ∃ j, j < 14 ∧ Below v (diskTab v) (i, j) [] x

section

variable (hs : Sound v)
include hs

theorem HasBlock.lt {x : Nat} (h : HasBlock v i x) : x < v.sb.totalBlocks := by
  obtain ⟨j, -, hne, p, hok, rfl⟩ := h
  exact hs.owned.hi hok hne

omit hs in
theorem HasBlock.congr {x : Nat} (h : HasBlock v i x) (hval : ∀ j p, indexShape.ok (i, j) p →
      blockAt w (diskTab w) (i, j) p = blockAt v (diskTab v) (i, j) p) : HasBlock w i x := by
  obtain ⟨j, hj, hne, p, hok, rfl⟩ := h
  exact ⟨j, hj, hne, p, hok, hval j _ hok⟩

theorem blockAt_of_disk (hdisk : ∀ b, dataRegion v.sb b → w.disk b = v.disk b)
    (htab : diskTab w i = diskTab v i) (j : Nat) (p : List Nat) (hp : indexShape.ok (i, j) p) :
    blockAt w (diskTab w) (i, j) p = blockAt v (diskTab v) (i, j) p := by
  refine Store.at_congr_root (F := pointers v (diskTab v)) (G := pointers w (diskTab w))
    (fun _ => by simp [pointers, htab]) (fun p k hp hne => ?_) hp
  have hlo := hs.owned.lo (indexShape.ok_of_snoc hp) hne
  change indexEntry (w.disk (blockAt v (diskTab v) (i, j) p)) k =
    indexEntry (v.disk (blockAt v (diskTab v) (i, j) p)) k
  rw [hdisk _ hlo]

/-- Inode `nr` has been given back with its blocks; the other inodes and the data
blocks are as before. -/
structure Erased (v w : Volume) (nr : Nat) : Prop where
  sb : w.sb = v.sb
  openRefs : w.openRefs = v.openRefs
  disk : ∀ b, dataRegion v.sb b → w.disk b = v.disk b
  tab : ∀ j, j ≠ nr → diskTab w j = diskTab v j
  bits : ∀ x, x < v.sb.totalBlocks →
    (bmapBit w x = true ↔ bmapBit v x = true ∧ ¬HasBlock v nr x)

theorem Erased.of_running (htab : diskTab v nr = some ino)
    (hframe : Frame (metaRegion v.sb) (freeInodeBlocks v ino) w)
    (hrun : Running w (update (diskTab v) nr none) nr V) : Erased v w nr := by
  have hm := hs.mounted
  have hc := freeInodeBlocks_spec hm hs.owned htab (Frame.refl _ v)
  have hsb := hc.frame.sb
  refine ⟨hframe.sb.trans hsb, hframe.openRefs.trans hc.frame.openRefs, fun b hb => ?_,
    fun j hj => ?_, fun x hx => ?_⟩
  · rw [hframe.disk b fun hmeta => (metaRegion_disjoint hm hmeta).2 hb,
      hc.frame.disk b fun hbmap => (bmapRegion_disjoint hm hbmap).2.2 hb]
  · rw [← hrun.agree j hj, update_of_ne hj]
  · rw [bmapBit_frame (by rw [hsb]; exact hm) hframe
      (fun b hb hmeta => (metaRegion_disjoint hm hmeta).1 (by rwa [hsb] at hb))
      (by rw [hsb]; exact hx), hc.bits x hx]
    rfl

theorem unlinkInode_spec (hvalid : validInode v nr) (htab : diskTab v nr = some ino)
    (hused : (view v).used nr = true) :
    ∃ w, unlinkInode v nr (ino.setLinks 0) = (true, w) ∧ Sound w ∧
      (view w = if v.openRefs nr = 0 then (view v).free nr
        else (view v).setInfo nr { (view v).info nr with linkCount := 0 }) ∧
      (v.openRefs nr = 0 → Erased v w nr) := by
  obtain ⟨-, hino⟩ := diskTab_eq_some htab
  obtain ⟨hrun, -⟩ := (hs.running nr).touch (ino.setLinks 0) htab fun _ _ => rfl
  unfold unlinkInode
  by_cases hrefs : v.openRefs nr = 0
  · obtain ⟨hrun, hframe⟩ := hrun.release (x := none) (update_self nr _ _) (by simp)
    rw [update_idem] at hrun
    have hlt : nr < (freeInodeBlocks v (ino.setLinks 0)).sb.totalInodes := by
      rw [hframe.sb]
      exact hvalid.2
    have hbit := bitmapFree_imap_frame hrun.mounted hlt
    obtain ⟨hrun, hsb, himap, -⟩ := bitmapFree_running hrun hlt
    have hvalid' : validInode (bitmapFree (freeInodeBlocks v (ino.setLinks 0))
        (freeInodeBlocks v (ino.setLinks 0)).sb.imapStart nr) nr := by
      rw [validInode, hsb]
      exact ⟨hvalid.1, hlt⟩
    have hm' := hrun.mounted
    obtain ⟨w, hput, hrun, hsb', hino', himap', -⟩ := hrun.put hvalid' Inode.blank
    have hnone : diskTab w nr = none :=
      diskTab_eq_none (himap'.trans himap) (by rw [hino']; decide)
    obtain ⟨h1, h2⟩ := hrun.finish (by rw [hnone, update_self])
    have hmeta : Frame (metaRegion v.sb) (freeInodeBlocks v ino) w := by
      refine (hbit.mono fun b hb => Or.inl ?_).trans
        ((fsPutInode_frame hm' hvalid' hput).mono fun b hb => Or.inr ?_)
      · rwa [hframe.sb] at hb
      · rwa [hsb, hframe.sb] at hb
    refine ⟨w, by simp only [if_pos hrefs, hput], h1, ?_, fun _ => .of_running hs htab hmeta hrun⟩
    rw [h2, if_pos hrefs]
    rfl
  · obtain ⟨w, hput, h1, h2, -⟩ := hrun.commit hvalid (update_self nr _ _)
      (Or.inl (view_used_iff.mp hused).2)
    refine ⟨w, by simp only [if_neg hrefs, hput], h1, ?_, fun h0 => absurd h0 hrefs⟩
    rw [h2, if_neg hrefs, view_info hvalid.2, hino]
    rfl

/-! ## Link counts -/

/-- `w` is `v` with at most the link count of inode `p` changed. -/
structure LinksOnly (v w : Volume) (p : Nat) : Prop where
  sound : Sound w
  sb : w.sb = v.sb
  disk : ∀ b, dataRegion v.sb b → w.disk b = v.disk b
  tab : ∀ j, j ≠ p → diskTab w j = diskTab v j
  used : (view w).used = (view v).used
  refs : (view w).refs = (view v).refs
  data : (view w).data = (view v).data
  info : ∀ j, j ≠ p → (view w).info j = (view v).info j
  type : ((view w).info p).type = ((view v).info p).type
  size : ((view w).info p).size = ((view v).info p).size

theorem Sound.linksOnly (p : Nat) : LinksOnly v v p :=
  ⟨hs, rfl, fun _ _ => rfl, fun _ _ => rfl, rfl, rfl, rfl, fun _ _ => rfl, rfl, rfl⟩

theorem updateLinks_spec (hvalid : validInode v p) (hused : (view v).used p = true)
    (f : UInt16 → Option UInt16) : LinksOnly v (updateLinks v p f) p := by
  have htab : diskTab v p = some (inodeAt v p) :=
    diskTab_eq hvalid.2 (Or.inl (view_used_iff.mp hused).2)
  unfold updateLinks
  rw [fsGetInode_eq hs.mounted hvalid]
  dsimp only
  cases f (inodeAt v p).linkCount with
  | none => exact hs.linksOnly p
  | some n =>
    obtain ⟨hrun, -⟩ := (hs.running p).touch ((inodeAt v p).setLinks n) htab fun _ _ => rfl
    obtain ⟨w, hput, h1, h2, hsb, hdisk, -⟩ := hrun.commit hvalid (update_self p _ _)
      (Or.inl (view_used_iff.mp hused).2)
    dsimp only
    rw [hput, Option.getD_some]
    refine ⟨h1, hsb, fun b hb => ?_, fun j hj => ?_, by rw [h2]; rfl, by rw [h2]; rfl,
      by rw [h2]; rfl, fun j hj => ?_, ?_, ?_⟩
    · exact (fsPutInode_frame hs.mounted hvalid hput).disk b fun hino =>
        (inodeRegion_disjoint hs.mounted hino).2.2 hb
    · rw [← hdisk, update_of_ne hj]
    · rw [h2]
      exact update_of_ne hj _ _
    · rw [h2, view_info hvalid.2]
      simp [setInfo, Inode.info, Inode.setLinks]
    · rw [h2, view_info hvalid.2]
      simp [setInfo, Inode.info, Inode.setLinks]

theorem parentLinks_spec (hvalid : validInode v p) (hused : (view v).used p = true)
    (c : Prop) [Decidable c] (f : UInt16 → Option UInt16) :
    LinksOnly v (if c then updateLinks v p f else v) p := by
  split
  · exact updateLinks_spec hs hvalid hused f
  · exact hs.linksOnly p

/-! ## Open references -/

theorem Sound.setRefs (nr : Nat) (n : UInt32) :
    Sound (v.setRefs nr n) ∧ view (v.setRefs nr n) = (view v).setRefs nr n ∧
      diskTab (v.setRefs nr n) = diskTab v :=
  ⟨⟨hs.mounted, hs.inodes, hs.owned.congr rfl (fun _ _ _ => rfl) fun _ _ h => h⟩, rfl, rfl⟩

end

theorem SameNames.setRefs (hV : V.Names) {n : UInt32}
    (h : n ≠ 0 → V.used nr = true ∧ (V.info nr).type = fsTypeFile) :
    SameNames V (V.setRefs nr n) := by
  refine ⟨fun _ => Iff.rfl, fun _ _ => rfl, fun _ _ => rfl, fun _ h1 h2 h3 => ⟨h1, h2, h3⟩, ?_⟩
  intro i hi
  by_cases hin : i = nr
  · subst hin
    exact h (by simpa [setRefs] using hi)
  · exact hV.refs (by simpa [View.setRefs, hin] using hi)

theorem SameNames.free (hV : V.Names) (hfile : (V.info nr).type = fsTypeFile)
    (hlinks : (V.info nr).linkCount = 0) (hrefs : V.refs nr = 0) : SameNames V (V.free nr) := by
  have hother : ∀ i, i ≠ nr → (V.free nr).used i = V.used i ∧ (V.free nr).info i = V.info i ∧
      (V.free nr).data i = V.data i := by
    intro i hi
    simp [View.free, View.setInfo, View.setUsed, View.setBlocks, hi]
  have hne : ∀ {d}, V.IsDir d → d ≠ nr := by
    rintro d hd rfl
    exact absurd (hfile.symm.trans hd.2) (by decide)
  have hgone : (V.free nr).used nr = false := by
    simp [View.free, View.setInfo, View.setUsed]
  refine ⟨fun d => ?_, fun d hd => ?_, fun d hd => (hother d (hne hd)).2.2, fun i h1 h2 h3 => ?_,
    fun i hi => ?_⟩
  · by_cases hd : d = nr
    · subst hd
      exact ⟨fun hc => absurd hc.1 (by simp [hgone]), fun hc => absurd rfl (hne hc)⟩
    · rw [View.IsDir, (hother d hd).1, (hother d hd).2.1]
      rfl
  · rw [(hother d (hne hd)).2.1]
  · have hi : i ≠ nr := fun he => h3 (he ▸ hlinks)
    rw [(hother i hi).1, (hother i hi).2.1]
    exact ⟨h1, h2, h3⟩
  · have hin : i ≠ nr := fun he => hi (he ▸ hrefs)
    rw [(hother i hin).1, (hother i hin).2.1]
    exact hV.refs hi

theorem SameNames.refl (hV : V.Names) : SameNames V V :=
  ⟨fun _ => Iff.rfl, fun _ _ => rfl, fun _ _ => rfl, fun _ h1 h2 h3 => ⟨h1, h2, h3⟩,
    fun _ => hV.refs⟩

theorem SameNames.trans {U W : View} (h₁ : SameNames U V) (h₂ : SameNames V W) : SameNames U W where
  isDir d := (h₂.isDir d).trans (h₁.isDir d)
  size d hd := (h₂.size d ((h₁.isDir d).mpr hd)).trans (h₁.size d hd)
  data d hd := (h₂.data d ((h₁.isDir d).mpr hd)).trans (h₁.data d hd)
  files i a b c := by
    obtain ⟨h1, h2, h3⟩ := h₁.files i a b c
    exact h₂.files i h1 h2 h3
  refs := h₂.refs

theorem forgetInode_spec (hs : Sound v) (hvalid : validInode v nr)
    (htab : diskTab v nr = some (inodeAt v nr)) :
    Sound (forgetInode v nr (inodeAt v nr)) ∧
      view (forgetInode v nr (inodeAt v nr)) = (view v).free nr ∧
      Erased v (forgetInode v nr (inodeAt v nr)) nr := by
  obtain ⟨hrun, hframe⟩ := (hs.running nr).release (x := none) htab (by simp)
  have hvalid' : validInode (freeInodeBlocks v (inodeAt v nr)) nr := by
    rw [validInode, hframe.sb]
    exact hvalid
  have hm := hrun.mounted
  obtain ⟨w, hput, hrun, hsb, hino, -, -⟩ := hrun.put hvalid' Inode.blank
  have hlt : nr < w.sb.totalInodes := by
    rw [hsb]
    exact hvalid'.2
  have hmeta : Frame (metaRegion v.sb) (freeInodeBlocks v (inodeAt v nr))
      (bitmapFree w w.sb.imapStart nr) := by
    refine ((fsPutInode_frame hm hvalid' hput).mono fun b hb => Or.inr ?_).trans
      ((bitmapFree_imap_frame hrun.mounted hlt).mono fun b hb => Or.inl ?_)
    · rwa [hframe.sb] at hb
    · rwa [hsb, hframe.sb] at hb
  obtain ⟨hrun, hsb', himap, hino'⟩ := bitmapFree_running hrun hlt
  have hnone : diskTab (bitmapFree w w.sb.imapStart nr) nr = none :=
    diskTab_eq_none himap (by rw [hino' nr hlt, hino]; decide)
  obtain ⟨h1, h2⟩ := hrun.finish (by rw [hnone, update_self])
  have hw : forgetInode v nr (inodeAt v nr) = bitmapFree w w.sb.imapStart nr := by
    simp only [forgetInode, hput, Option.getD_some]
  rw [hw, h2]
  exact ⟨h1, rfl, .of_running hs htab hmeta hrun⟩

theorem KeepsFiles.free (V : View) (nr : Nat) : KeepsFiles V (V.free nr) := by
  intro j hj
  by_cases hnr : j = nr
  · rw [hnr] at hj
    simp only [View.free, View.setInfo, update_self] at hj
    exact absurd hj (by decide)
  · have hinfo : (V.free nr).info j = V.info j := update_of_ne hnr _ _
    have hdata : (V.free nr).data j = V.data j := update_of_ne hnr _ _
    rw [hinfo] at hj ⊢
    exact Or.inl ⟨hj, rfl, hdata⟩

theorem releaseInode_spec (h : Healthy v) (nr : Nat) :
    Sound (releaseInode v nr) ∧ SameNames (view v) (view (releaseInode v nr)) ∧
      KeepsFiles (view v) (view (releaseInode v nr)) := by
  have hs := h.sound
  unfold releaseInode
  split
  · exact ⟨hs, SameNames.refl h.names, KeepsFiles.refl _⟩
  · next hno =>
    simp only [not_or, not_not] at hno
    obtain ⟨hvalid, hrefs⟩ := hno
    obtain ⟨hused, hfile⟩ := h.names.refs hrefs
    obtain ⟨hs1, hv1, ht1⟩ := hs.setRefs nr (v.openRefs nr - 1)
    have hsame := SameNames.setRefs h.names (n := v.openRefs nr - 1) fun _ => ⟨hused, hfile⟩
    have hnames := h.names.same hsame
    have hkeep : KeepsFiles (view v) ((view v).setRefs nr (v.openRefs nr - 1)) :=
      fun _ hj => Or.inl ⟨hj, rfl, rfl⟩
    rw [← hv1] at hsame hnames hkeep
    have hvalid1 : validInode (v.setRefs nr (v.openRefs nr - 1)) nr := hvalid
    have hinfo := view_info (v := v.setRefs nr (v.openRefs nr - 1)) hvalid.2
    have hfile1 : ((view (v.setRefs nr (v.openRefs nr - 1))).info nr).type = fsTypeFile := hfile
    dsimp only
    generalize v.setRefs nr (v.openRefs nr - 1) = u at *
    split
    · next hzero =>
      rw [fsGetInode_eq hs1.mounted hvalid1]
      dsimp only
      split
      · next hlinks =>
        have htab : diskTab u nr = some (inodeAt u nr) :=
          diskTab_eq hvalid1.2 (Or.inr (by rw [hinfo] at hfile1; exact hfile1))
        obtain ⟨h1, h2, -⟩ := forgetInode_spec hs1 hvalid1 htab
        have hfree := SameNames.free hnames hfile1 (by rw [hinfo]; exact hlinks) hzero
        rw [← h2] at hfree
        refine ⟨h1, hsame.trans hfree, hkeep.trans ?_⟩
        rw [h2]
        exact KeepsFiles.free _ nr
      · exact ⟨hs1, hsame, hkeep⟩
    · exact ⟨hs1, hsame, hkeep⟩

/-! ## Unlinking -/

theorem Unlinked.of_steps {V2 W : View} {n : Nat} (hV : V.Names) (hp : V.Dir p n) (hk : k < n)
    (hchild : V.Child p k s i name)
    (hempty : V.IsDir i → ∀ k s c nm, V.Entry i k s c nm → nm = dot ∨ nm = dotdot)
    (hused : V2.used = V.used) (hrefs : V2.refs = V.refs)
    (hdata : V2.data = (V.setData p k (clearEntry (V.data p k) s)).data)
    (hinfo : ∀ j, (V2.info j).type = (V.info j).type ∧ (V2.info j).size = (V.info j).size ∧
      ((V.info j).type = fsTypeFile → (V2.info j).linkCount = (V.info j).linkCount))
    (hW : W = if V.refs i = 0 then V2.free i
      else V2.setInfo i { V2.info i with linkCount := 0 }) : Unlinked V W p k s i name := by
  have hpi : p ≠ i := by
    rintro rfl
    exact (hempty hp.isDir _ _ _ _ hchild.entry).elim hchild.ne_dot hchild.ne_dotdot
  have hiused := (hV.child hp.isDir hchild).1
  have hother : ∀ j, j ≠ i → W.used j = V.used j ∧ W.info j = V2.info j ∧
      W.data j = (V.setData p k (clearEntry (V.data p k) s)).data j := by
    intro j hj
    rw [hW, ← hdata, ← hused]
    split
    · simp [free, setInfo, setUsed, setBlocks, hj]
    · simp [setInfo, hj]
  have hWrefs : W.refs = V.refs := by
    rw [hW, ← hrefs]
    split <;> rfl
  have hkeep : V.refs i ≠ 0 → W.used i = true ∧ (W.info i).type = (V.info i).type := by
    intro hne
    rw [hW, if_neg hne]
    simp [setInfo, hused, hiused, (hinfo i).1]
  have hgone : V.refs i = 0 → W.used i = false := by
    intro h0
    rw [hW, if_pos h0]
    simp [free, setInfo, setUsed]
  have hdatap : W.data p = update (V.data p) k (clearEntry (V.data p k) s) := by
    rw [(hother p hpi).2.2]
    simp [setData]
  have hdatao : ∀ d, d ≠ i → d ≠ p → W.data d = V.data d := by
    intro d h1 h2
    rw [(hother d h1).2.2]
    simp [setData, setBlocks, h2]
  have hidir : V.IsDir i → V.refs i = 0 := by
    intro hd
    by_contra hne
    exact absurd ((hV.refs hne).2.symm.trans hd.2) (by decide)
  have hcases : ∀ j, W.used j = true → j = i → V.refs i ≠ 0 := by
    rintro j hj rfl h0
    rw [hgone h0] at hj
    cases hj
  have htype : ∀ j, W.used j = true → (W.info j).type = (V.info j).type := by
    intro j hj
    by_cases hji : j = i
    · subst hji
      exact (hkeep (hcases _ hj rfl)).2
    · rw [(hother j hji).2.1, (hinfo j).1]
  refine ⟨hp.isDir, hchild, hempty, fun j hj => (hother j hj).1, fun hd => hgone (hidir hd), ?_,
    fun j _ hj => htype j hj, ?_, ?_, fun d h1 h2 _ => hdatao d h1 h2,
    fun k' s' c nm => entry_clear hdatap k' s' c nm⟩
  · intro j hj
    rw [hWrefs] at hj
    refine ⟨hj, ?_⟩
    by_cases hji : j = i
    · subst hji
      exact (hkeep hj).1
    · rw [(hother j hji).1]
      exact (hV.refs hj).1
  · intro j hji _ hf
    rw [(hother j hji).2.1, (hinfo j).2.2 hf]
  · intro d hd
    have hdi : d ≠ i := by
      rintro rfl
      have ht := htype d hd.1
      exact hcases d hd.1 rfl (hidir ⟨hiused, ht.symm.trans hd.2⟩)
    have hdV : V.IsDir d := ⟨(hother d hdi).1 ▸ hd.1, (htype d hd.1).symm.trans hd.2⟩
    obtain ⟨m, hm⟩ := hV.dirs hdV
    have hsize : (W.info d).size = (V.info d).size := by
      rw [(hother d hdi).2.1, (hinfo d).2.1]
    by_cases hdp : d = p
    · subst hdp
      have hnm : m = n := by
        have := hm.size.symm.trans hp.size
        omega
      refine ⟨m, hm.pos, hd.1, hd.2, by rw [hsize]; exact hm.size, hm.one_le, hm.le_max, ?_⟩
      intro l hl
      rw [hdatap, update_of_ne (by omega)]
      exact hm.tail l hl
    · exact ⟨m, hm.congr (hother d hdi).1 (htype d hd.1) hsize (hdatao d hdi hdp)⟩

/-- Unlinking inode `i` as the files see it: an open file only loses its link, an
inode nobody has open goes with its blocks. -/
structure Severed (v w : Volume) (i : Nat) : Prop where
  refs : w.openRefs = v.openRefs
  others : ∀ j, j ≠ i → (view v).IsFile j → (view w).used j = true ∧ SameInode v w j
  opened : v.openRefs i ≠ 0 → (view w).used i = true ∧
    (view w).info i = { (view v).info i with linkCount := 0 } ∧
    (view w).data i = (view v).data i
  closed : v.openRefs i = 0 → (view w).used i = false ∧ ∀ x, HasBlock v i x → bmapBit w x = false
  files : ∀ j, (view w).IsFile j → (view v).IsFile j

theorem Severed.of_steps {u : Volume} (hs : Sound u) (hrefs : u.openRefs = v.openRefs)
    (hused : (view u).used = (view v).used)
    (htype : ∀ j, ((view u).info j).type = ((view v).info j).type)
    (hsame : ∀ j, (view v).IsFile j → SameInode v u j)
    (hopen : v.openRefs i ≠ 0 → (view v).IsFile i)
    (hblock : ∀ x, HasBlock v i x → HasBlock u i x)
    (hview : view w = if u.openRefs i = 0 then (view u).free i
      else (view u).setInfo i { (view u).info i with linkCount := 0 })
    (herase : u.openRefs i = 0 → Erased u w i) : Severed v w i := by
  have hother : ∀ j, j ≠ i → (view w).used j = (view v).used j ∧ SameInode u w j := by
    intro j hj
    unfold SameInode
    rw [hview, ← hused]
    split
    · simp [free, setInfo, setUsed, setBlocks, hj]
    · simp [setInfo, hj]
  refine ⟨?_, fun j hj hf => ?_, fun hne => ?_, fun h0 => ⟨?_, fun x hx => ?_⟩, fun j hf => ?_⟩
  · change (view w).refs = _
    rw [hview, ← hrefs]
    split <;> rfl
  · obtain ⟨h1, h2, h3⟩ := hother j hj
    exact ⟨h1.trans hf.1, h2.trans (hsame j hf).1, h3.trans (hsame j hf).2⟩
  · obtain ⟨h1, h2⟩ := hsame i (hopen hne)
    rw [hview, if_neg (by rw [hrefs]; exact hne)]
    simp [setInfo, hused, (hopen hne).1, h1, h2]
  · rw [hview, if_pos (by rw [hrefs]; exact h0)]
    simp [free, setInfo, setUsed]
  · have hu := hblock x hx
    have hbits := (herase (by rw [hrefs]; exact h0)).bits x (hu.lt hs)
    exact Bool.eq_false_iff.mpr fun hset => (hbits.mp hset).2 hu
  · by_cases hj : j = i
    · subst hj
      by_cases h0 : v.openRefs j = 0
      · have hgone := hf.1
        rw [hview, if_pos (by rw [hrefs]; exact h0)] at hgone
        simp [free, setInfo, setUsed] at hgone
      · exact hopen h0
    · obtain ⟨h1, h2, -⟩ := hother j hj
      exact ⟨h1 ▸ hf.1, by rw [← htype j, ← h2]; exact hf.2⟩

/-- The entry at slot `s` of block `k` of the directory `p` is cleared, and the links of `p` may
have changed. -/
structure Detached (v u : Volume) (p k s nr : Nat) : Prop where
  sound : Sound u
  sb : u.sb = v.sb
  used : (view u).used = (view v).used
  refs : (view u).refs = (view v).refs
  data : (view u).data = ((view v).setData p k (clearEntry ((view v).data p k) s)).data
  tab : diskTab u nr = diskTab v nr
  blocks : ∀ x, HasBlock v nr x → HasBlock u nr x
  files : ∀ j, ((view v).info j).type = fsTypeFile → SameInode v u j
  info : ∀ j, ((view u).info j).type = ((view v).info j).type ∧
    ((view u).info j).size = ((view v).info j).size ∧
    (((view v).info j).type = fsTypeFile →
      ((view u).info j).linkCount = ((view v).info j).linkCount)

theorem detached_spec (hs : Sound v) {n block : Nat} (hp : (view v).Dir p n)
    (hk : k < fsMaxFileBlocks) (hf : Found v p name k s nr block) (hpnr : p ≠ nr) (c : Prop)
    [Decidable c] (f : UInt16 → Option UInt16) :
    Detached v (if c then updateLinks (v.store block (clearEntry ((view v).data p k) s)) p f
      else v.store block (clearEntry ((view v).data p k) s)) p k s nr := by
  obtain ⟨hs1, hv1, ht1⟩ := hs.store hk (clearEntry ((view v).data p k) s) hf.block hf.block_ne
  have hlinks := parentLinks_spec hs1 hp.valid (by rw [hv1]; exact hp.used) c f
  generalize (if c then updateLinks _ p f else _) = u at hlinks ⊢
  have hfiles : ∀ j, ((view v).info j).type = fsTypeFile → SameInode v u j := by
    intro j hj
    unfold SameInode
    have hjp : j ≠ p := by
      rintro rfl
      exact absurd (hj.symm.trans hp.type) (by decide)
    rw [hlinks.info j hjp, hlinks.data, hv1]
    exact ⟨rfl, update_of_ne hjp _ _⟩
  have hblocks : ∀ x, HasBlock v nr x → HasBlock u nr x := by
    intro x hx
    have hstore : HasBlock (v.store block (clearEntry ((view v).data p k) s)) nr x := by
      refine hx.congr fun j q hok => ?_
      rw [ht1]
      exact hs.owned.store_leaf_at hk hf.block (clearEntry ((view v).data p k) s) (nr, j) q hok
    exact hstore.congr fun j q hok =>
      blockAt_of_disk hs1 hlinks.disk (hlinks.tab nr (Ne.symm hpnr)) j q hok
  refine ⟨hlinks.sound, hlinks.sb, by rw [hlinks.used, hv1]; rfl, by rw [hlinks.refs, hv1]; rfl,
    by rw [hlinks.data, hv1], by rw [hlinks.tab nr (Ne.symm hpnr), ht1], hblocks, hfiles, ?_⟩
  intro j
  refine and_assoc.mp ⟨?_, fun ht => by rw [(hfiles j ht).1]⟩
  by_cases hj : j = p
  · subst hj
    rw [hlinks.type, hlinks.size, hv1]
    exact ⟨rfl, rfl⟩
  · rw [hlinks.info j hj, hv1]
    exact ⟨rfl, rfl⟩

/-- `fs_unlink_path` once the entry has been found: refused for a directory with
other entries than the dots, otherwise the entry goes. -/
theorem removeEntry_spec (h : Healthy v) {n block : Nat} (hp : (view v).Dir p n) (hk : k < n)
    (hf : Found v p name k s nr block) (h1 : name ≠ dot) (h2 : name ≠ dotdot) :
    ((view v).IsDir nr ∧ (∃ k s c nm, (view v).Child nr k s c nm) ∧
      removeEntry v p nr block s (inodeAt v nr) = (false, v)) ∨
    ∃ w, removeEntry v p nr block s (inodeAt v nr) = (true, w) ∧ Sound w ∧
      Unlinked (view v) (view w) p k s nr name ∧ KeepsFiles (view v) (view w) ∧
      Severed v w nr ∧ (v.openRefs nr = 0 → w.sb = v.sb) := by
  have hs := h.sound
  have hchild : (view v).Child p k s nr name := ⟨hf.entry, h1, h2⟩
  obtain ⟨hused, -, hkind⟩ := h.names.child hp.isDir hchild
  have hlt := (view_used_iff.mp hused).1
  have hinfo : (view v).info nr = (inodeAt v nr).info := view_info hlt
  have hvalid : validInode v nr := ⟨Nat.pos_of_ne_zero hf.entry.used, hlt⟩
  have htab : diskTab v nr = some (inodeAt v nr) :=
    diskTab_eq hlt (Or.inl (view_used_iff.mp hused).2)
  have hdirnr : (inodeAt v nr).type = fsTypeDirectory → (view v).IsDir nr :=
    fun ht => ⟨hused, by rw [hinfo]; exact ht⟩
  unfold removeEntry
  split
  next hbad =>
    refine Or.inl ⟨hdirnr hbad.1, ?_, rfl⟩
    obtain ⟨m, hm⟩ := h.names.dirs (hdirnr hbad.1)
    by_contra hno
    have hall : dirEmpty v nr = true := by
      rw [dirEmpty_spec hs hm]
      intro k' s' c nm he
      by_contra hnm
      rw [not_or] at hnm
      exact hno ⟨k', s', c, nm, he, hnm.1, hnm.2⟩
    rw [hbad.2] at hall
    cases hall
  next hbad =>
    have hmax : k < fsMaxFileBlocks := Nat.lt_of_lt_of_le hk hp.le_max
    have hleaf := (locate_isLeaf hmax p).1
    have hget : cacheGet v block = some ((view v).data p k) := by
      have hdisk : v.disk block = (view v).data p k := by
        rw [view_data p hmax, leaf, hf.block, if_neg hf.block_ne]
      rw [← hdisk]
      exact cacheGet_of_lt (hf.block ▸ hs.owned.hi hleaf (hf.block ▸ hf.block_ne))
    have hempty : (view v).IsDir nr → ∀ k s c nm, (view v).Entry nr k s c nm →
        nm = dot ∨ nm = dotdot := by
      intro hd
      obtain ⟨m, hm⟩ := h.names.dirs hd
      rw [← dirEmpty_spec hs hm]
      by_contra hne
      have ht := hd.2
      rw [hinfo] at ht
      exact hbad ⟨ht, by simpa using hne⟩
    have hpnr : p ≠ nr := by
      rintro rfl
      exact (hempty hp.isDir _ _ _ _ hchild.entry).elim h1 h2
    have hdet := detached_spec hs hp hmax hf hpnr ((inodeAt v nr).type = fsTypeDirectory)
      (fun n => if 0 < n then some (n - 1) else none)
    rw [hget]
    dsimp only
    generalize (if (inodeAt v nr).type = fsTypeDirectory then updateLinks _ p _ else _) = u at hdet ⊢
    obtain ⟨w, hw, hsw, hvw, herase⟩ := unlinkInode_spec hdet.sound
      (by rw [validInode, hdet.sb]; exact hvalid) (hdet.tab.trans htab)
      (by rw [hdet.used]; exact hused)
    have hkeep : KeepsFiles (view v) (view u) := by
      intro j hj
      rw [(hdet.info j).1] at hj
      exact Or.inl ⟨hj, (hdet.info j).2.1, (hdet.files j hj).2⟩
    have hrefs : u.openRefs = v.openRefs := hdet.refs
    refine Or.inr ⟨w, hw, hsw, Unlinked.of_steps h.names hp hk hchild hempty hdet.used hdet.refs
      hdet.data hdet.info (by rw [hvw, hrefs]; rfl), hkeep.trans ?_,
      Severed.of_steps hdet.sound hrefs hdet.used (fun j => (hdet.info j).1)
        (fun j hj => hdet.files j hj.2) (fun hne => h.names.refs hne) hdet.blocks hvw herase,
      fun h0 => (herase (by rw [hrefs]; exact h0)).sb.trans hdet.sb⟩
    rw [hvw]
    split
    · exact KeepsFiles.free _ nr
    · intro j hj
      left
      by_cases hjn : j = nr
      · subst hjn
        simpa [setInfo] using hj
      · simpa [setInfo, hjn] using hj

end OrangeOs.Fs
