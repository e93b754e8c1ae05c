import OrangeOs.Fs.Release

/-! # The state a caller can see

`diskTab` is the table of current inodes when no operation is running: the
inodes whose bitmap bit is set, and the stale `FILE` slots a failed creation
leaves behind, which `fs_write_inode` still accepts. `View` is what remains of a
volume when block numbers are forgotten: bitmap bits, inode fields, open
references and file data. Every operation is specified by what it does to the
view, next to keeping `Sound`.
-/

namespace OrangeOs.Fs

open Bytes PointerForest Function

/-! ## Current inodes -/

def diskTab (v : Volume) : Table := fun i =>
  if i < v.sb.totalInodes ∧ (imapBit v i = true ∨ (inodeAt v i).type = fsTypeFile) then
    some (inodeAt v i)
  else none

/-- A volume at rest: every block in use is owned once. The bound on the inode
count keeps the `int` results of inode allocation exact. -/
structure Sound (v : Volume) : Prop where
  mounted : Mounted v.sb
  inodes : v.sb.totalInodes ≤ 2 ^ 31
  owned : Owned v (diskTab v)

variable {v w : Volume} {i k b : Nat} {tab : Table}

theorem diskTab_eq (hi : i < v.sb.totalInodes)
    (h : imapBit v i = true ∨ (inodeAt v i).type = fsTypeFile) :
    diskTab v i = some (inodeAt v i) := if_pos ⟨hi, h⟩

theorem diskTab_eq_some {ino : Inode} (h : diskTab v i = some ino) :
    i < v.sb.totalInodes ∧ ino = inodeAt v i := by
  unfold diskTab at h
  split at h
  · next hi => exact ⟨hi.1, (Option.some.inj h).symm⟩
  · cases h

theorem diskTab_congr (hsb : w.sb = v.sb)
    (himap : ∀ i, i < v.sb.totalInodes → imapBit w i = imapBit v i)
    (hino : ∀ i, i < v.sb.totalInodes → inodeAt w i = inodeAt v i) : diskTab w = diskTab v := by
  funext i
  unfold diskTab
  rw [hsb]
  by_cases hi : i < v.sb.totalInodes
  · rw [himap i hi, hino i hi]
  · simp [hi]

/-! ## Changes outside bitmap and data blocks -/

/-- The blocks of the inode bitmap and the inode table. -/
def metaRegion (sb : SuperBlock) (b : Nat) : Prop := imapRegion sb b ∨ inodeRegion sb b

theorem metaRegion_disjoint {sb : SuperBlock} (hm : Mounted sb) (h : metaRegion sb b) :
    ¬bmapRegion sb b ∧ ¬dataRegion sb b := by
  rcases h with h | h
  · exact ⟨(imapRegion_disjoint hm h).1, (imapRegion_disjoint hm h).2.2⟩
  · exact ⟨(inodeRegion_disjoint hm h).2.1, (inodeRegion_disjoint hm h).2.2⟩

theorem Owned.leaf_frame {P : Nat → Prop} (ho : Owned v tab) (hframe : Frame P v w)
    (hdata : ∀ b, dataRegion v.sb b → ¬P b)
    (hval : ∀ r p, indexShape.ok r p → blockAt w tab r p = blockAt v tab r p) (i : Nat)
    (hk : k < fsMaxFileBlocks) : leaf w tab i k = leaf v tab i k := by
  have hleaf := locate_isLeaf hk i
  unfold leaf
  rw [hval _ _ hleaf.1]
  split
  · rfl
  · next hne => exact hframe.disk _ (hdata _ (ho.lo hleaf.1 hne))

theorem Owned.of_meta (ho : Owned v tab) (hm : Mounted v.sb) (hframe : Frame (metaRegion v.sb) v w) :
    Owned w tab ∧ (∀ i k, k < fsMaxFileBlocks → leaf w tab i k = leaf v tab i k) ∧
      ∀ r p, indexShape.ok r p → blockAt w tab r p = blockAt v tab r p := by
  have hdata : ∀ b, dataRegion v.sb b → ¬metaRegion v.sb b :=
    fun b hd hb => (metaRegion_disjoint hm hb).2 hd
  obtain ⟨hval, how⟩ := ho.of_bits hframe hdata fun x hx h => by
    rw [bmapBit_frame hm hframe (fun b hb hmeta => (metaRegion_disjoint hm hmeta).1 hb) hx]
    exact h
  exact ⟨how, fun i k hk => ho.leaf_frame hframe hdata hval i hk, hval⟩

/-! ## Views -/

/-- The fields of an inode that are not block pointers. -/
structure Info where
  type : UInt16
  size : UInt64
  linkCount : UInt16
deriving DecidableEq

def Inode.info (ino : Inode) : Info := ⟨ino.type, ino.size, ino.linkCount⟩

@[ext] structure View where
  used : Nat → Bool
  info : Nat → Info
  refs : Nat → UInt32
  data : Nat → Nat → Block

/-- What is visible of a volume under a table of current inodes. -/
def viewOf (v : Volume) (tab : Table) : View where
  used i := decide (i < v.sb.totalInodes) && imapBit v i
  info i := if i < v.sb.totalInodes then (inodeAt v i).info else Inode.blank.info
  refs := v.openRefs
  data i k := if k < fsMaxFileBlocks then leaf v tab i k else zero

def view (v : Volume) : View := viewOf v (diskTab v)

abbrev SameInode (v w : Volume) (i : Nat) : Prop :=
  (view w).info i = (view v).info i ∧ (view w).data i = (view v).data i

theorem view_used_iff : (view v).used i = true ↔ i < v.sb.totalInodes ∧ imapBit v i = true := by
  simp [view, viewOf]

theorem view_info (hi : i < v.sb.totalInodes) : (view v).info i = (inodeAt v i).info := if_pos hi

theorem view_data (i : Nat) (hk : k < fsMaxFileBlocks) :
    (view v).data i k = leaf v (diskTab v) i k := if_pos hk

/-! ## Updates of a view -/

def View.setUsed (V : View) (i : Nat) (b : Bool) : View :=
  { V with used := update V.used i b }

def View.setInfo (V : View) (i : Nat) (info : Info) : View :=
  { V with info := update V.info i info }

def View.setRefs (V : View) (i : Nat) (n : UInt32) : View :=
  { V with refs := update V.refs i n }

def View.setBlocks (V : View) (i : Nat) (D : Nat → Block) : View :=
  { V with data := update V.data i D }

def View.setData (V : View) (i k : Nat) (d : Block) : View :=
  V.setBlocks i (update (V.data i) k d)

@[simp] theorem View.setBlocks_data_self (V : View) (i : Nat) (D : Nat → Block) :
    (V.setBlocks i D).data i = D := by
  simp [View.setBlocks]

@[simp] theorem View.setBlocks_setBlocks (V : View) (i : Nat) (D E : Nat → Block) :
    (V.setBlocks i D).setBlocks i E = V.setBlocks i E := by
  simp [View.setBlocks]

@[simp] theorem View.setBlocks_self (V : View) (i : Nat) : V.setBlocks i (V.data i) = V := by
  simp [View.setBlocks]

/-! ## An operation in progress -/

/-- An operation on inode `i` is running: `tab` is the table of current inodes,
which may differ from the one on disk at `i` only, and the view is `V`. -/
structure Running (v : Volume) (tab : Table) (i : Nat) (V : View) : Prop where
  mounted : Mounted v.sb
  inodes : v.sb.totalInodes ≤ 2 ^ 31
  owned : Owned v tab
  agree : ∀ j, j ≠ i → tab j = diskTab v j
  view : viewOf v tab = V

theorem Sound.running (h : Sound v) (i : Nat) : Running v (diskTab v) i (view v) :=
  ⟨h.mounted, h.inodes, h.owned, fun _ _ => rfl, rfl⟩

theorem Running.settled {V : View} (h : Running v tab i V) (hi : tab i = diskTab v i) :
    tab = diskTab v := by
  funext j
  by_cases hj : j = i
  · rw [hj, hi]
  · exact h.agree j hj

theorem Running.finish {V : View} (h : Running v tab i V) (hi : tab i = diskTab v i) :
    Sound v ∧ Fs.view v = V := by
  have hview := h.view
  have howned := h.owned
  rw [h.settled hi] at hview howned
  exact ⟨⟨h.mounted, h.inodes, howned⟩, hview⟩

/-! The parts of the view that the bitmap, the inode table and the blocks determine. -/

theorem viewOf_used (tab : Table) {tab' : Table} (hsb : w.sb = v.sb)
    (himap : ∀ i, i < v.sb.totalInodes → imapBit w i = imapBit v i) :
    (viewOf w tab').used = (viewOf v tab).used := by
  funext i
  by_cases hi : i < v.sb.totalInodes
  · simp [viewOf, hsb, hi, himap i hi]
  · simp [viewOf, hsb, hi]

theorem viewOf_info (tab : Table) {tab' : Table} (hsb : w.sb = v.sb)
    (hino : ∀ i, i < v.sb.totalInodes → inodeAt w i = inodeAt v i) :
    (viewOf w tab').info = (viewOf v tab).info := by
  funext i
  by_cases hi : i < v.sb.totalInodes
  · simp [viewOf, hsb, hi, hino i hi]
  · simp [viewOf, hsb, hi]

theorem viewOf_data {tab' : Table}
    (hdata : ∀ i k, k < fsMaxFileBlocks → leaf w tab' i k = leaf v tab i k) :
    (viewOf w tab').data = (viewOf v tab).data := by
  funext i k
  by_cases hk : k < fsMaxFileBlocks
  · simp [viewOf, hk, hdata i k hk]
  · simp [viewOf, hk]

section Frames

variable (hm : Mounted v.sb) (hframe : Frame (growRegion v.sb) v w)
include hm hframe

theorem imapBit_grow (hi : i < v.sb.totalInodes) : imapBit w i = imapBit v i :=
  imapBit_frame hm hframe (fun _ hb hg =>
    hg.elim (imapRegion_disjoint hm hb).1 (imapRegion_disjoint hm hb).2.2) hi

theorem inodeAt_grow (hi : i < v.sb.totalInodes) : inodeAt w i = inodeAt v i :=
  inodeAt_frame hm hframe (fun _ hb hg =>
    hg.elim (inodeRegion_disjoint hm hb).2.1 (inodeRegion_disjoint hm hb).2.2) hi

theorem diskTab_grow : diskTab w = diskTab v :=
  diskTab_congr hframe.sb (fun _ => imapBit_grow hm hframe) fun _ => inodeAt_grow hm hframe

end Frames

section Steps

variable {tab' : Table} {V : View} (h : Running v tab i V)
include h

theorem Running.grow (hg : Grow v tab w tab') (htab : ∀ j, j ≠ i → tab' j = tab j) :
    Running w tab' i V := by
  have hm := h.mounted
  have hsb := hg.frame.sb
  refine ⟨hsb ▸ hm, hsb ▸ h.inodes, hg.owned, ?_, ?_⟩
  · intro j hj
    rw [htab j hj, diskTab_grow hm hg.frame, h.agree j hj]
  · rw [← h.view]
    exact View.ext (viewOf_used tab hsb fun _ => imapBit_grow hm hg.frame)
      (viewOf_info tab hsb fun _ => inodeAt_grow hm hg.frame) hg.frame.openRefs
      (viewOf_data fun j _ hk => hg.leaf_eq j hk)

theorem Running.store {j : Nat} (hk : k < fsMaxFileBlocks) (d : Block)
    (hb : blockAt v tab (j, (locate k).1) (locate k).2 = b) (hne : b ≠ 0) :
    Running (v.store b d) tab i (V.setData j k d) := by
  obtain ⟨hframe, howned, hleaf⟩ := h.owned.store_leaf h.mounted hk hb hne d
  have hgrow := hframe.mono fun _ hb => (Or.inr hb : growRegion v.sb _)
  refine ⟨h.mounted, h.inodes, howned, ?_, ?_⟩
  · intro l hl
    rw [diskTab_grow h.mounted hgrow, h.agree l hl]
  · rw [← h.view]
    apply View.ext
    · exact viewOf_used tab rfl fun _ => imapBit_grow h.mounted hgrow
    · exact viewOf_info tab rfl fun _ => inodeAt_grow h.mounted hgrow
    · rfl
    · funext l m
      simp only [viewOf, View.setData, View.setBlocks, update_apply]
      by_cases hm : m < fsMaxFileBlocks
      · rw [if_pos hm, hleaf l m hm]
        by_cases hl : l = j
        · by_cases hmk : m = k
          · simp [hl, hmk]
          · simp [hl, hmk, hm]
        · simp only [hl, false_and, if_false, if_pos hm]
      · have hmk : m ≠ k := fun he => hm (he ▸ hk)
        by_cases hl : l = j
        · simp [hm, hl, hmk]
        · simp [hm, hl]

theorem Running.touch {ino : Inode} (ino' : Inode) (hi : tab i = some ino)
    (hroot : ∀ j, j < 14 → ino'.root j = ino.root j) :
    Running v (update tab i (some ino')) i V ∧ ∀ r p, indexShape.ok r p →
      blockAt v (update tab i (some ino')) r p = blockAt v tab r p := by
  have hval : ∀ {r p}, indexShape.ok r p →
      blockAt v (update tab i (some ino')) r p = blockAt v tab r p := by
    intro r p hp
    refine Store.at_congr (F := pointers v tab)
      (G := pointers v (update tab i (some ino'))) ?_ (fun _ _ _ _ _ => rfl) hp
    intro r hr
    by_cases hri : r.1 = i
    · simp [pointers, hri, hi, hroot r.2 hr.1]
    · simp [pointers, hri]
  refine ⟨⟨h.mounted, h.inodes, h.owned.congr rfl (fun r p hp => hval hp) fun _ _ hb => hb, ?_, ?_⟩,
    fun r p hp => hval hp⟩
  · intro j hj
    rw [update_of_ne hj, h.agree j hj]
  · rw [← h.view]
    refine View.ext rfl rfl rfl (viewOf_data fun j k hk => ?_)
    unfold leaf
    rw [hval (locate_isLeaf hk j).1]

theorem Running.put (hi : validInode v i) (ino : Inode) :
    ∃ w, fsPutInode v i ino = some w ∧ Running w tab i (V.setInfo i ino.info) ∧ w.sb = v.sb ∧
      inodeAt w i = ino ∧ imapBit w i = imapBit v i ∧
      ∀ r p, indexShape.ok r p → blockAt w tab r p = blockAt v tab r p := by
  have hm := h.mounted
  obtain ⟨w, he, hframe, hino⟩ := fsPutInode_spec hm hi ino
  have himap : ∀ j, j < v.sb.totalInodes → imapBit w j = imapBit v j := fun j hj =>
    imapBit_frame hm hframe (fun b hb => (imapRegion_disjoint hm hb).2.1) hj
  have hmeta : Frame (metaRegion v.sb) v w := hframe.mono fun _ => Or.inr
  obtain ⟨howned, hleaf, hval⟩ := h.owned.of_meta hm hmeta
  refine ⟨w, he, ⟨hframe.sb ▸ hm, hframe.sb ▸ h.inodes, howned, ?_, ?_⟩, hframe.sb, ?_,
    himap i hi.2, hval⟩
  · intro j hj
    rw [h.agree j hj]
    unfold diskTab
    rw [hframe.sb]
    by_cases hlt : j < v.sb.totalInodes
    · rw [himap j hlt, hino j hlt, if_neg hj]
    · simp [hlt]
  · rw [← h.view]
    apply View.ext
    · exact viewOf_used tab hframe.sb himap
    · funext j
      by_cases hj : j = i
      · subst hj
        simp [viewOf, View.setInfo, hframe.sb, hi.2, hino j hi.2]
      · by_cases hlt : j < v.sb.totalInodes
        · simp [viewOf, View.setInfo, hframe.sb, hlt, hino j hlt, hj]
        · simp [viewOf, View.setInfo, hframe.sb, hlt, hj]
    · exact hframe.openRefs
    · exact viewOf_data hleaf
  · rw [hino i hi.2, if_pos rfl]

theorem Running.commit {ino : Inode} (hi : validInode v i) (htab : tab i = some ino)
    (hkind : imapBit v i = true ∨ ino.type = fsTypeFile) :
    ∃ w, fsPutInode v i ino = some w ∧ Sound w ∧ Fs.view w = V.setInfo i ino.info ∧
      w.sb = v.sb ∧ tab = diskTab w ∧
      ∀ r p, indexShape.ok r p → blockAt w tab r p = blockAt v tab r p := by
  obtain ⟨w, hput, hrun, hsb, hino, himap, hval⟩ := h.put hi ino
  have hdisk : tab i = diskTab w i := by
    rw [htab, diskTab_eq (by rw [hsb]; exact hi.2) (by rwa [himap, hino]), hino]
  obtain ⟨hs, hv⟩ := hrun.finish hdisk
  exact ⟨w, hput, hs, hv, hsb, hrun.settled hdisk, hval⟩

theorem Running.imap {b : Bool} (hi : i < v.sb.totalInodes) (hframe : Frame (imapRegion v.sb) v w)
    (hbits : ∀ x, x < v.sb.totalInodes → imapBit w x = if x = i then b else imapBit v x) :
    Running w tab i (V.setUsed i b) ∧ ∀ j, j < v.sb.totalInodes → inodeAt w j = inodeAt v j := by
  have hm := h.mounted
  have hino : ∀ j, j < v.sb.totalInodes → inodeAt w j = inodeAt v j := fun j hj =>
    inodeAt_frame hm hframe (fun b hb => (inodeRegion_disjoint hm hb).1) hj
  have hmeta : Frame (metaRegion v.sb) v w := hframe.mono fun _ => Or.inl
  obtain ⟨howned, hleaf, -⟩ := h.owned.of_meta hm hmeta
  refine ⟨⟨hframe.sb ▸ hm, hframe.sb ▸ h.inodes, howned, ?_, ?_⟩, hino⟩
  · intro j hj
    rw [h.agree j hj]
    unfold diskTab
    rw [hframe.sb]
    by_cases hlt : j < v.sb.totalInodes
    · rw [hbits j hlt, hino j hlt, if_neg hj]
    · simp [hlt]
  · rw [← h.view]
    apply View.ext
    · funext j
      by_cases hj : j = i
      · subst hj
        simp [viewOf, View.setUsed, hframe.sb, hi, hbits j hi]
      · by_cases hlt : j < v.sb.totalInodes
        · simp [viewOf, View.setUsed, hframe.sb, hlt, hbits j hlt, hj]
        · simp [viewOf, View.setUsed, hframe.sb, hlt, hj]
    · exact viewOf_info tab hframe.sb hino
    · exact hframe.openRefs
    · exact viewOf_data hleaf

/-- The inode is replaced by one that has kept some of its pointer slots and lost
the others, together with bits of blocks below the lost ones. -/
theorem Running.drop {S : Nat → Prop} (keep : Nat → Prop) [DecidablePred keep] (x : Option Inode)
    (hc : Cleared v w S) (hroot : ∀ j, j < 14 → blockAt w (update tab i x) (i, j) [] =
      if keep j then blockAt v tab (i, j) [] else 0)
    (hS : ∀ b, S b → ∃ j, ¬keep j ∧ Below v tab (i, j) [] b) :
    Running w (update tab i x) i
      (V.setBlocks i fun k => if keep (locate k).1 then V.data i k else zero) := by
  have hm := h.mounted
  have hframe : Frame (growRegion v.sb) v w := hc.frame.mono fun _ => Or.inl
  have hsb := hframe.sb
  obtain ⟨howned, hval⟩ := h.owned.drop (update tab i x)
    (fun r => r.1 = i → keep r.2) hm hc (by
      rintro ⟨k, j⟩ hr
      by_cases hk : k = i
      · subst hk
        simpa using hroot j hr.1
      · simp [pointers, hk]) (by
      intro b hb
      obtain ⟨j, hj, hbelow⟩ := hS b hb
      exact ⟨(i, j), by simpa using hj, hbelow⟩)
  refine ⟨hsb ▸ hm, hsb ▸ h.inodes, howned, ?_, ?_⟩
  · intro j hj
    rw [update_of_ne hj, diskTab_grow hm hframe, h.agree j hj]
  · have hleaf : ∀ j k, k < fsMaxFileBlocks → leaf w (update tab i x) j k =
        if j = i → keep (locate k).1 then leaf v tab j k else zero := by
      intro j k hk
      have hpos := locate_isLeaf hk j
      unfold leaf
      rw [hval _ _ hpos.1]
      by_cases hkeep : j = i → keep (locate k).1
      · simp only [if_pos hkeep]
        split
        · rfl
        · next hne =>
          exact hc.frame.disk _ fun hb =>
            (bmapRegion_disjoint hm hb).2.2 (h.owned.lo hpos.1 hne)
      · simp only [if_neg hkeep, if_true]
    rw [← h.view]
    apply View.ext
    · exact viewOf_used tab hsb fun _ => imapBit_grow hm hframe
    · exact viewOf_info tab hsb fun _ => inodeAt_grow hm hframe
    · exact hframe.openRefs
    · funext j k
      by_cases hj : j = i
      · subst hj
        by_cases hk : k < fsMaxFileBlocks
        · simp [viewOf, View.setBlocks, hk, hleaf j k hk]
        · simp [viewOf, View.setBlocks, hk]
      · by_cases hk : k < fsMaxFileBlocks
        · simp [viewOf, View.setBlocks, hk, hleaf j k hk, hj]
        · simp [viewOf, View.setBlocks, hk, hj]

end Steps

theorem Grow.undo {tab' : Table} (h : Grow v tab w tab') (hm : Mounted v.sb) :
    Grow v tab w tab := by
  have hmw : Mounted w.sb := by
    rw [h.frame.sb]
    exact hm
  obtain ⟨howned, hval⟩ := h.owned.drop tab (fun r => blockAt v tab r [] ≠ 0) hmw
    (Cleared.none (S := fun _ => False) fun _ => id) (by
      intro r hr
      by_cases h0 : blockAt v tab r [] = 0
      · rw [if_neg (not_not.mpr h0)]
        exact h0
      · rw [if_pos h0, h.keep hr h0]
        rfl) (fun _ hb => hb.elim)
  have hcase : ∀ {r p}, indexShape.ok r p → blockAt w tab r p ≠ 0 →
      blockAt w tab r p = blockAt w tab' r p := by
    intro r p hp hne
    rw [hval r p hp] at hne ⊢
    split at hne
    · next hk => rw [if_pos hk]
    · exact absurd rfl hne
  have hkeep : ∀ {r p}, indexShape.ok r p → blockAt v tab r p ≠ 0 →
      blockAt w tab r p = blockAt v tab r p := by
    intro r p hp hne
    have hroot : blockAt v tab r [] ≠ 0 := by
      intro h0
      exact hne ((pointers v tab).at_append_of_null (p := []) p h0)
    rw [hval r p hp, if_pos hroot, h.keep hp hne]
  refine ⟨h.frame, howned, hkeep, ?_, ?_, h.leaves, h.bits⟩
  · intro r p hp h0 hne
    have heq := hcase hp hne
    rw [heq] at hne ⊢
    exact h.fresh hp h0 hne
  · intro r p hp h0 hne
    have heq := hcase hp.1 hne
    rw [heq] at hne ⊢
    exact h.blank hp h0 hne

theorem Sound.store (h : Sound v) (hk : k < fsMaxFileBlocks) (d : Block)
    (hb : blockAt v (diskTab v) (i, (locate k).1) (locate k).2 = b) (hne : b ≠ 0) :
    Sound (v.store b d) ∧ view (v.store b d) = (view v).setData i k d ∧
      diskTab (v.store b d) = diskTab v := by
  have hlo : v.sb.firstDataBlock ≤ b := hb ▸ h.owned.lo (locate_isLeaf hk i).1 (hb ▸ hne)
  have hframe : Frame (growRegion v.sb) v (v.store b d) := Frame.store v d (Or.inr hlo)
  have htab := diskTab_grow h.mounted hframe
  obtain ⟨h1, h2⟩ := ((h.running i).store hk d hb hne).finish (by rw [htab])
  exact ⟨h1, h2, htab⟩

end OrangeOs.Fs
