import OrangeOs.Fs.Creation
import OrangeOs.Fs.Space

/-! # Withdrawn creations

What `fs_create_path` leaves behind when it gives up after it has taken an inode
number. It returns the number and the block of a new directory; blocks that the
parent took before its own allocation failed it does not know of.
-/

namespace OrangeOs.Fs

open Bytes

/-- `w` differs from `v` in inode `i`, in the contents of free blocks, and in the free
blocks in `B` being marked. -/
structure Aside (v w : Volume) (i : Nat) (B : Nat → Prop) : Prop where
  sb : w.sb = v.sb
  fresh : ∀ b, B b → b ∈ freeSet v
  data : ∀ b, dataRegion v.sb b → b ∉ freeSet v → w.disk b = v.disk b
  inodes : ∀ j, j < v.sb.totalInodes → j ≠ i → inodeAt w j = inodeAt v j
  imap : ∀ j, j < v.sb.totalInodes → j ≠ i → imapBit w j = imapBit v j
  bmap : ∀ b, b < v.sb.totalBlocks → (bmapBit w b = true ↔ bmapBit v b = true ∨ B b)

variable {j i n : Nat} {v w u : Volume} {type : UInt16}

section Aside

variable {B : Nat → Prop} (hm : Mounted v.sb) (h : Aside v w i B)
include hm h

theorem Aside.imapChanged (hframe : Frame (imapRegion w.sb) w u)
    (hbits : ∀ j, j < w.sb.totalInodes → j ≠ i → imapBit u j = imapBit w j) :
    Aside v u i B := by
  have hmw : Mounted w.sb := h.sb ▸ hm
  refine ⟨hframe.sb.trans h.sb, h.fresh, ?_, ?_, ?_, ?_⟩
  · intro b hb hA
    rw [hframe.disk b fun hreg => (imapRegion_disjoint hmw hreg).2.2 (h.sb ▸ hb), h.data b hb hA]
  · intro j hj hne
    rw [inodeAt_frame hmw hframe (fun b hb hreg => (imapRegion_disjoint hmw hreg).2.1 hb)
      (by rwa [h.sb]), h.inodes j hj hne]
  · intro j hj hne
    rw [hbits j (by rwa [h.sb]) hne, h.imap j hj hne]
  · intro b hb
    rw [bmapBit_frame hmw hframe (fun b hb hreg => (imapRegion_disjoint hmw hreg).1 hb)
      (by rwa [h.sb])]
    exact h.bmap b hb

theorem Aside.put {ino : Inode} (hframe : Frame (inodeRegion w.sb) w u)
    (hino : ∀ j, j < w.sb.totalInodes → inodeAt u j = if j = i then ino else inodeAt w j) :
    Aside v u i B := by
  have hmw : Mounted w.sb := h.sb ▸ hm
  refine ⟨hframe.sb.trans h.sb, h.fresh, ?_, ?_, ?_, ?_⟩
  · intro b hb hA
    rw [hframe.disk b fun hreg => ?_, h.data b hb hA]
    have hlt := region_lt hmw (Or.inr (Or.inr hreg))
    rw [h.sb] at hlt
    exact absurd hb (Nat.not_le.mpr hlt)
  · intro j hj hne
    rw [hino j (by rwa [h.sb]), if_neg hne, h.inodes j hj hne]
  · intro j hj hne
    rw [imapBit_frame hmw hframe (fun b hb => (imapRegion_disjoint hmw hb).2.1) (by rwa [h.sb]),
      h.imap j hj hne]
  · intro b hb
    rw [bmapBit_frame hmw hframe (fun b hb => (bmapRegion_disjoint hmw hb).2.1) (by rwa [h.sb])]
    exact h.bmap b hb

theorem Aside.allocated (ha : Allocated w u n) : Aside v u i (fun b => B b ∨ b = n) := by
  have hmw : Mounted w.sb := h.sb ▸ hm
  have hreg : ∀ b, bmapRegion w.sb b ∨ b = n → bmapRegion w.sb b ∨ dataRegion w.sb b := by
    rintro b (hb | rfl)
    · exact Or.inl hb
    · exact Or.inr ha.lo
  have hn : n ∈ freeSet v := by
    refine mem_freeSet.mpr ⟨h.sb ▸ ha.hi, h.sb ▸ ha.lo, ?_⟩
    by_contra hset
    rw [Bool.not_eq_false] at hset
    have := (h.bmap n (h.sb ▸ ha.hi)).mpr (Or.inl hset)
    rw [ha.free] at this
    cases this
  refine ⟨ha.frame.sb.trans h.sb, ?_, ?_, ?_, ?_, ?_⟩
  · rintro b (hb | rfl)
    · exact h.fresh b hb
    · exact hn
  · intro b hb hA
    rw [ha.frame.disk b ?_, h.data b hb hA]
    rintro (hb' | rfl)
    · exact (bmapRegion_disjoint hmw hb').2.2 (h.sb ▸ hb)
    · exact hA hn
  · intro j hj hne
    rw [inodeAt_grow hmw (ha.frame.mono hreg) (by rwa [h.sb]), h.inodes j hj hne]
  · intro j hj hne
    rw [imapBit_grow hmw (ha.frame.mono hreg) (by rwa [h.sb]), h.imap j hj hne]
  · intro b hb
    rw [ha.bits b (by rwa [h.sb]), Bool.or_eq_true, decide_eq_true_iff, h.bmap b hb]
    constructor
    · rintro (heq | hv | hB)
      · exact Or.inr (Or.inr heq)
      · exact Or.inl hv
      · exact Or.inr (Or.inl hB)
    · rintro (hv | hB | heq)
      · exact Or.inr (Or.inl hv)
      · exact Or.inr (Or.inr hB)
      · exact Or.inl heq

theorem Aside.stored (hn : n ∈ freeSet v) (d : Block) : Aside v (w.store n d) i B := by
  have hdata : dataRegion v.sb n := (mem_freeSet.mp hn).2.1
  have hmw : Mounted w.sb := h.sb ▸ hm
  have hframe : Frame (growRegion w.sb) w (w.store n d) :=
    Frame.store w d (Or.inr (h.sb ▸ hdata))
  refine ⟨h.sb, h.fresh, ?_, ?_, ?_, ?_⟩
  · intro b hb hA
    have hne : b ≠ n := by
      rintro rfl
      exact hA hn
    rw [w.store_of_ne d hne, h.data b hb hA]
  · intro j hj hne
    rw [inodeAt_grow hmw hframe (by rwa [h.sb]), h.inodes j hj hne]
  · intro j hj hne
    rw [imapBit_grow hmw hframe (by rwa [h.sb]), h.imap j hj hne]
  · intro b hb
    rw [bmapBit_frame hmw (Frame.store w d rfl : Frame (· = n) _ _) ?_ (by rwa [h.sb])]
    · exact h.bmap b hb
    · intro x hx heq
      exact (bmapRegion_disjoint hmw hx).2.2 (heq ▸ h.sb ▸ hdata)

theorem Aside.cleared {S : Nat → Prop} (hc : Cleared w u S) (hS : ∀ b, S b ↔ B b) :
    Aside v u i (fun _ => False) := by
  have hmw : Mounted w.sb := h.sb ▸ hm
  have hframe := hc.frame.mono (Q := growRegion w.sb) fun b hb => Or.inl hb
  refine ⟨hc.frame.sb.trans h.sb, fun _ hf => hf.elim, ?_, ?_, ?_, ?_⟩
  · intro b hb hA
    rw [hc.frame.disk b fun hreg => (bmapRegion_disjoint hmw hreg).2.2 (h.sb ▸ hb), h.data b hb hA]
  · intro j hj hne
    rw [inodeAt_grow hmw hframe (by rwa [h.sb]), h.inodes j hj hne]
  · intro j hj hne
    rw [imapBit_grow hmw hframe (by rwa [h.sb]), h.imap j hj hne]
  · intro b hb
    rw [hc.bits b (by rwa [h.sb]), h.bmap b hb, hS, or_false]
    constructor
    · rintro ⟨hv | hB, hnot⟩
      · exact hv
      · exact absurd hB hnot
    · intro hv
      refine ⟨Or.inl hv, fun hB => ?_⟩
      rw [(mem_freeSet.mp (h.fresh b hB)).2.2] at hv
      cases hv

end Aside

/-! ## What stays of the other inodes -/

section Others

variable {B : Nat → Prop} (hs : Sound v) (h : Aside v w i B)
include h

theorem Aside.diskTab_eq (hj : j < v.sb.totalInodes) (hne : j ≠ i) : diskTab w j = diskTab v j := by
  unfold diskTab
  rw [h.sb, h.imap j hj hne, h.inodes j hj hne]

include hs

theorem Aside.disk_eq {r : Nat × Nat} {p : List Nat} (hp : indexShape.ok r p)
    (hb : blockAt v (diskTab v) r p ≠ 0) :
    w.disk (blockAt v (diskTab v) r p) = v.disk (blockAt v (diskTab v) r p) := by
  refine h.data _ (hs.owned.lo hp hb) fun hfree => ?_
  have hmarked := hs.owned.marked hp hb
  rw [(mem_freeSet.mp hfree).2.2] at hmarked
  cases hmarked

theorem Aside.blockAt_eq {s : Nat} (hj : j < v.sb.totalInodes) (hne : j ≠ i) {p : List Nat}
    (hp : indexShape.ok (j, s) p) :
    blockAt w (diskTab w) (j, s) p = blockAt v (diskTab v) (j, s) p := by
  induction p using List.reverseRecOn with
  | nil => simp [pointers, h.diskTab_eq hj hne]
  | append_singleton p k ih =>
    have hp' := indexShape.ok_of_snoc hp
    rw [blockAt_snoc, blockAt_snoc, ih hp']
    split
    · rfl
    · next hb => rw [h.disk_eq hs hp' hb]

theorem Aside.leaf_eq (hj : j < v.sb.totalInodes) (hne : j ≠ i) {k : Nat}
    (hk : k < fsMaxFileBlocks) : leaf w (diskTab w) j k = leaf v (diskTab v) j k := by
  have hp := (locate_isLeaf hk j).1
  unfold leaf
  rw [h.blockAt_eq hs hj hne hp]
  split
  · rfl
  · next hb => exact h.disk_eq hs hp hb

end Others

theorem Taken.aside (ht : Taken v w i) (hm : Mounted v.sb) : Aside v w i (fun _ => False) := by
  have hrefl : Aside v v i (fun _ => False) :=
    ⟨rfl, fun _ hf => hf.elim, fun _ _ _ => rfl, fun _ _ _ => rfl, fun _ _ _ => rfl,
      fun _ _ => by simp⟩
  refine hrefl.imapChanged hm ht.frame fun j hj hne => ?_
  rw [ht.bits j hj]
  simp [hne]

/-! ## The steps of a creation -/

/-- The blocks a creation needs for the new inode itself. -/
def newNeed (type : UInt16) : Nat := if type = fsTypeDirectory then 1 else 0

/-- The new inode built: `B` is its only block, if it has one. -/
structure Built (v w : Volume) (i : Nat) (type : UInt16) (ino : Inode) (B : Nat → Prop) : Prop where
  aside : Aside v w i B
  free : freeBlocks w + newNeed type = freeBlocks v
  root : ∀ x, B x ↔ x ≠ 0 ∧ ino.root 0 = x
  roots : ∀ j, j ≠ 0 → ino.root j = 0
  int : type = fsTypeDirectory → ∃ x ∈ freeSet v, x < 2 ^ 31

theorem Aside.mem_freeSet_iff {B : Nat → Prop} (h : Aside v w i B) (x : Nat) :
    x ∈ freeSet w ↔ x ∈ freeSet v ∧ ¬B x := by
  rw [mem_freeSet, mem_freeSet, h.sb]
  constructor
  · rintro ⟨hhi, hlo, hfree⟩
    have hbits := h.bmap x hhi
    rw [hfree] at hbits
    simp only [Bool.false_eq_true, false_iff, not_or, Bool.not_eq_true] at hbits
    exact ⟨⟨hhi, hlo, hbits.1⟩, hbits.2⟩
  · rintro ⟨⟨hhi, hlo, hfree⟩, hB⟩
    refine ⟨hhi, hlo, Bool.eq_false_iff.mpr fun hset => ?_⟩
    rcases (h.bmap x hhi).mp hset with hv | hx
    · rw [hfree] at hv
      cases hv
    · exact hB hx

theorem Taken.freeSet_eq (ht : Taken v w i) (hm : Mounted v.sb) : freeSet w = freeSet v :=
  Finset.ext fun x => by
    rw [(ht.aside hm).mem_freeSet_iff x]
    exact and_iff_left id

theorem Taken.allocates (ht : Taken v w i) (hm : Mounted v.sb) (hsmall : SmallVolume v.sb)
    (hfree : 0 < freeBlocks v) (y : Volume) : allocDataBlock w ≠ (none, y) := by
  have hsb := (ht.aside hm).sb
  rw [freeBlocks, ← ht.freeSet_eq hm] at hfree
  obtain ⟨b, u, halloc, -⟩ := allocDataBlock_enough (hsb ▸ hm) (hsb ▸ hsmall) hfree
  rw [halloc]
  simp

theorem Taken.built {p : Nat} {out : Option Inode} (ht : Taken v w i) (hm : Mounted v.sb)
    (he : newInode w i p type = (out, u)) :
    (out = none ∧ type = fsTypeDirectory ∧ allocDataBlock w = (none, u)) ∨
      ∃ ino B, out = some ino ∧ Built v u i type ino B := by
  have haside := ht.aside hm
  have hmw : Mounted w.sb := haside.sb ▸ hm
  unfold newInode at he
  split at he
  next htype =>
    rcases allocDataBlock_spec hmw with ⟨y, hnone, -⟩ | ⟨n, y, halloc, ha⟩
    · rw [hnone] at he
      cases he
      exact Or.inl ⟨rfl, htype, hnone⟩
    · have hget : cacheGet y n = some (y.disk n) :=
        cacheGet_of_lt (by rw [ha.frame.sb]; exact ha.hi)
      simp only [halloc, hget] at he
      cases he
      have hstep := haside.allocated hm ha
      have hroot := fun j => (freshInode type 4096).root_setRoot (ha.lt_word hmw)
        (by decide : 0 < 14) j
      have hn := hstep.fresh n (Or.inr rfl)
      have hint := allocDataBlock_int hmw halloc
      have hstored := hstep.stored hm hn
        (strcpyEntry (strcpyEntry (y.disk n) 0 i dot) 1 p dotdot)
      refine Or.inr ⟨_, fun b => False ∨ b = n, rfl, hstored, ?_, ?_, ?_, fun _ => ⟨n, hn, hint⟩⟩
      · rw [newNeed, if_pos htype, freeBlocks, freeBlocks, ← Finset.card_erase_add_one hn]
        refine congrArg (fun s : Finset Nat => s.card + 1) (Finset.ext fun x => ?_)
        rw [hstored.mem_freeSet_iff x, Finset.mem_erase, false_or, and_comm]
      · intro x
        rw [hroot 0, if_pos rfl, false_or]
        constructor
        · rintro rfl
          exact ⟨ha.ne_zero hmw, rfl⟩
        · rintro ⟨-, hx⟩
          exact hx.symm
      · intro j hj
        rw [hroot j, if_neg hj]
        exact Inode.root_blank j
  next htype =>
    cases he
    refine Or.inr ⟨_, fun _ => False, rfl, haside, ?_, ?_, ?_, fun h => absurd h htype⟩
    · rw [newNeed, if_neg htype, Nat.add_zero, freeBlocks, ht.freeSet_eq hm, freeBlocks]
    · intro x
      rw [show (freshInode type 0).root 0 = 0 from Inode.root_blank 0]
      exact ⟨False.elim, fun hx => hx.1 hx.2.symm⟩
    · exact fun j _ => Inode.root_blank j

/-- A failing `dir_add` does not take the name and changes nothing, or fails to give the
directory its next block. -/
theorem dirAdd_false (hs : Sound v) {d : Nat} (hd : (view v).Dir d n) {name : Str} {nr : Nat}
    (hadd : dirAdd v d name nr = (false, w)) :
    ((name.length = 0 ∨ 60 ≤ name.length ∨ (dirFind v d name).isSome) ∧ w = v) ∨
      name.length ≠ 0 ∧ name.length < 60 ∧
        ∃ dir, inodeDataBlock v (inodeAt v d) n true = (none, dir, w) := by
  unfold dirAdd at hadd
  by_cases hbad : name.length = 0 ∨ 60 ≤ name.length ∨ (dirFind v d name).isSome
  · rw [if_pos hbad] at hadd
    cases hadd
    exact Or.inl ⟨hbad, rfl⟩
  · rw [if_neg hbad, hd.get hs] at hadd
    dsimp only at hadd
    rw [if_neg (not_not.mpr hd.type_eq), hd.blocks, Nat.max_eq_right hd.one_le] at hadd
    obtain ⟨hnone, hvol⟩ := dirAddFrom_refused hs hd name nr 0 n (by omega) (congrArg Prod.fst hadd)
    rw [hadd] at hvol
    refine Or.inr ⟨by omega, by omega, _, Prod.ext hnone (Prod.ext rfl hvol.symm)⟩

theorem Built.below {z : Volume} {ino : Inode} {B : Nat → Prop} (h : Built v w i type ino B)
    {tab : Table} (htab : tab i = some ino) (x : Nat) :
    (∃ j, j < 14 ∧ Below z tab (i, j) [] x) ↔ B x := by
  rw [h.root x]
  constructor
  · rintro ⟨j, -, hbelow⟩
    by_cases hj : j = 0
    · obtain ⟨hx, q, hq, hat⟩ := hbelow
      have hnil : q = [] := by
        have hlen := hq.2.1
        rw [hj] at hlen
        exact List.length_eq_zero_iff.mp (Nat.le_zero.mp hlen)
      rw [hnil, hj] at hat
      exact ⟨hx, by simpa [pointers, htab] using hat⟩
    · exact absurd hbelow (not_below_slot htab (h.roots j hj) x)
  · rintro ⟨hx, hroot⟩
    have hok : indexShape.ok (i, 0) ([] ++ []) := ⟨Nat.zero_lt_succ 13, Nat.zero_le _, by simp⟩
    exact ⟨0, by decide, hx, [], hok, by simpa [pointers, htab] using hroot⟩

/-- What a failed creation leaves: nothing but the slot of an inode that is free. -/
structure Withdrawn (v w : Volume) (i : Nat) : Prop where
  aside : Aside v w i (fun _ => False)
  before : imapBit v i = false
  after : imapBit w i = false

theorem Taken.withdrawn (ht : Taken v w i) (hm : Mounted v.sb) (h : Aside v u i (fun _ => False)) :
    Withdrawn v (bitmapFree u u.sb.imapStart i) i := by
  have hmu : Mounted u.sb := h.sb ▸ hm
  have hi : i < u.sb.totalInodes := h.sb ▸ ht.lt
  refine ⟨?_, ht.free, ?_⟩
  · refine h.imapChanged hm (bitmapFree_imap_frame hmu hi) fun j hj hne => ?_
    rw [imapBit_bitmapFree hmu hi hj]
    simp [hne]
  · rw [imapBit_bitmapFree hmu hi hi]
    simp

theorem dirFind_none_congr {z : Volume} {d : Nat} {name : Str} (hs : Sound v) (hz : Sound z)
    (hd : (view v).Dir d n)
    (hdz : (view z).Dir d n) (hdata : (view z).data d = (view v).data d) (hlen : name.length < 60)
    (hfind : dirFind v d name = none) : dirFind z d name = none := by
  rcases dirFind_spec hz hdz name with ⟨hnone, -⟩ | ⟨k, s, nr, block, -, -, hfound, -⟩
  · exact hnone
  · have hentry : (view v).Entry d k s nr name := hfound.entry.congr hdata.symm
    rcases dirFind_spec hs hd name with ⟨-, hall⟩ | ⟨_, _, _, _, -, -, -, hsome⟩
    · exact absurd hentry (hall k s nr (by omega) (by simpa using hentry.lt hd) hlen)
    · rw [hfind] at hsome
      cases hsome

/-- The volume with the new inode stored, before `dir_add`. -/
structure Stored (v z : Volume) (i p : Nat) (type : UInt16) (ino : Inode) (B : Nat → Prop) :
    Prop where
  built : Built v z i type ino B
  sound : Sound z
  tab : diskTab z i = some ino
  seen : view z = (view v).install i (newInfo type) (newBlocks type i p)

theorem Taken.stored (ht : Taken v w i) (hs : Sound v) (p : Nat) (name : Str) (type : UInt16) :
    (∃ y, createAt w i p name type = (none, bitmapFree y y.sb.imapStart i) ∧
      type = fsTypeDirectory ∧ allocDataBlock w = (none, y)) ∨
    ∃ z ino B, Stored v z i p type ino B ∧
      createAt w i p name type = match dirAdd z p name i with
        | (false, x) =>
          (none, bitmapFree (freeInodeBlocks x ino) (freeInodeBlocks x ino).sb.imapStart i)
        | (true, x) => (some i, if type = fsTypeDirectory then
            updateLinks x p (fun n => some (n + 1)) else x) := by
  have hm := hs.mounted
  rcases hnew : newInode w i p type with ⟨out, y⟩
  rcases ht.built hm hnew with ⟨rfl, hfailed⟩ | ⟨ino, B, rfl, hb⟩
  · exact Or.inl ⟨y, by simp only [createAt, hnew], hfailed⟩
  · obtain ⟨z, hput, hsz, -, htabz, hviewz⟩ : ∃ z, fsPutInode y i ino = some z ∧ Sound z ∧
        z.sb = v.sb ∧ diskTab z i = some ino ∧
        view z = (view v).install i (newInfo type) (newBlocks type i p) := by
      rcases newInode_spec (ht.running hs).1 p type with ⟨y', hnone, -⟩ | ⟨ino', y', hsome, hn⟩
      · cases hnew.symm.trans hnone
      · cases hnew.symm.trans hsome
        exact ht.put hn
    have hz : Aside v z i B := by
      have hmy : Mounted y.sb := hb.aside.sb ▸ hm
      have hvalid : validInode y i :=
        ⟨Nat.pos_of_ne_zero fun h0 => absurd ht.ge (by rw [h0]; decide), hb.aside.sb ▸ ht.lt⟩
      obtain ⟨z', hput', hframe, hino⟩ := fsPutInode_spec hmy hvalid ino
      cases hput.symm.trans hput'
      exact hb.aside.put hm hframe hino
    have hfree : freeBlocks z = freeBlocks y := by
      refine congrArg Finset.card (Finset.ext fun x => ?_)
      rw [hz.mem_freeSet_iff, hb.aside.mem_freeSet_iff]
    refine Or.inr ⟨z, ino, B, ⟨⟨hz, by rw [hfree, hb.free], hb.root, hb.roots, hb.int⟩, hsz, htabz,
      hviewz⟩, ?_⟩
    rcases hadd : dirAdd z p name i with ⟨_ | _, x⟩
    · simp only [createAt, hnew, hput, hadd]
    · simp only [createAt, hnew, hput, hadd]

section Stored

variable {z : Volume} {p : Nat} {ino : Inode} {B : Nat → Prop} (h : Stored v z i p type ino B)
include h

theorem Stored.dir (hd : (view v).Dir p n) (hpi : p ≠ i) : (view z).Dir p n := by
  obtain ⟨hzu, hzi, hzd⟩ := (view v).install_of_ne (newInfo type) (newBlocks type i p) hpi
  rw [h.seen]
  exact hd.congr hzu (by rw [hzi]) (by rw [hzi]) hzd

theorem Stored.find (hs : Sound v) (hd : (view v).Dir p n) (hpi : p ≠ i) {name : Str}
    (hlen : name.length < 60) (hfind : dirFind v p name = none) : dirFind z p name = none := by
  obtain ⟨-, -, hdata⟩ := (view v).install_of_ne (newInfo type) (newBlocks type i p) hpi
  rw [← h.seen] at hdata
  exact dirFind_none_congr hs h.sound hd (h.dir hd hpi) hdata hlen hfind

theorem Stored.undo (hm : Mounted v.sb) (ht : Taken v w i) :
    Withdrawn v (bitmapFree (freeInodeBlocks z ino) (freeInodeBlocks z ino).sb.imapStart i) i := by
  have hclear := freeInodeBlocks_spec h.sound.mounted h.sound.owned h.tab (Frame.refl _ z)
  exact ht.withdrawn hm (h.built.aside.cleared hm hclear (h.built.below h.tab))

/-- A block that a failing `dir_add` has marked stays marked: it belongs to no inode, so
releasing the new one does not release it. -/
theorem Stored.leak {x : Volume} {b : Nat} (ht : Taken v w i) (hx : Sound x)
    (htab : diskTab x = diskTab z) (hsb : x.sb = z.sb) (hb : b ∈ freeSet z)
    (hset : bmapBit x b = true) :
    b ∈ freeSet v ∧
      bmapBit (bitmapFree (freeInodeBlocks x ino) (freeInodeBlocks x ino).sb.imapStart i) b =
        true := by
  obtain ⟨hfree, hB⟩ := (h.built.aside.mem_freeSet_iff b).mp hb
  have hbx : b < x.sb.totalBlocks := hsb ▸ (mem_freeSet.mp hb).1
  have hclear := freeInodeBlocks_spec hx.mounted hx.owned (htab ▸ h.tab) (Frame.refl _ x)
  have hi : i < (freeInodeBlocks x ino).sb.totalInodes := by
    rw [hclear.frame.sb, hsb, h.built.aside.sb]
    exact ht.lt
  refine ⟨hfree, ?_⟩
  rw [bmapBit_bitmapFree_imap (hclear.frame.sb ▸ hx.mounted) hi (hclear.frame.sb ▸ hbx),
    hclear.bits b hbx]
  exact ⟨hset, fun hbelow => hB ((h.built.below (htab ▸ h.tab) b).mp hbelow)⟩

end Stored

/-- The parent needs its next block for the new entry. -/
structure Grows (v : Volume) (p : Nat) (name : Str) : Prop where
  name : name.length ≠ 0 ∧ name.length < 60
  dir : (view v).IsDir p
  blocks : dirBlocks (inodeAt v p) < fsMaxFileBlocks

/-- No block is left for the allocation that fails: the one for the block of the new
directory, or the one for the next block of the parent `p`. -/
def NoneLeft (v : Volume) (p : Nat) (name : Str) (type : UInt16) : Prop :=
  if type = fsTypeDirectory ∧ ∀ b ∈ freeSet v, 2 ^ 31 ≤ b then freeBlocks v = 0
  else Grows v p name → freeBlocks v = newNeed type

theorem Taken.unbuilt {y : Volume} {name : Str} {p : Nat} (ht : Taken v w i) (hm : Mounted v.sb)
    (htype : type = fsTypeDirectory) (hnone : allocDataBlock w = (none, y)) :
    (Withdrawn v (bitmapFree y y.sb.imapStart i) i ∧ NoneLeft v p name type) ∨
      (∃ b ∈ freeSet v, bmapBit (bitmapFree y y.sb.imapStart i) b = true) ∧
        ¬NoneLeft v p name type := by
  have haside := ht.aside hm
  have hmw : Mounted w.sb := haside.sb ▸ hm
  obtain ⟨hsame, hcases⟩ := allocDataBlock_none hmw hnone
  rcases hcases with ⟨rfl, hempty⟩ | ⟨⟨b, hb, hset⟩, hfar⟩
  · rw [ht.freeSet_eq hm] at hempty
    refine Or.inl ⟨ht.withdrawn hm haside, ?_⟩
    rw [NoneLeft, if_pos ⟨htype, by simp [hempty]⟩, freeBlocks, hempty, Finset.card_empty]
  · rw [ht.freeSet_eq hm] at hb hfar
    have hsb : y.sb = v.sb := hsame.trans haside.sb
    refine Or.inr ⟨⟨b, hb, ?_⟩, ?_⟩
    · rw [bmapBit_bitmapFree_imap (hsb ▸ hm) (hsb ▸ ht.lt) (hsb ▸ (mem_freeSet.mp hb).1)]
      exact hset
    · rw [NoneLeft, if_pos ⟨htype, hfar⟩]
      exact Finset.card_ne_zero_of_mem hb

/-- A failing creation leaves no trace and had no block left, or leaves a block marked. -/
theorem createAt_failed (h : Healthy v) {p : Nat} {name : Str} (ht : Taken v w i)
    (hp : (view v).used p = true) (hfind : dirFind v p name = none)
    (he : createAt w i p name type = (none, u)) :
    (Withdrawn v u i ∧ NoneLeft v p name type) ∨
      (∃ b ∈ freeSet v, bmapBit u b = true) ∧ ¬NoneLeft v p name type := by
  have hm := h.sound.mounted
  have hpi : p ≠ i := by
    rintro rfl
    rw [ht.fresh] at hp
    cases hp
  rcases ht.stored h.sound p name type with ⟨y, hfail, htype, hnone⟩ | ⟨z, ino, B, hz, hcreate⟩
  · cases he.symm.trans hfail
    exact ht.unbuilt hm htype hnone
  · have hleft : NoneLeft v p name type ↔ (Grows v p name → freeBlocks z = 0) := by
      have hfree := hz.built.free
      rw [NoneLeft, if_neg]
      · exact imp_congr_right fun _ => by omega
      · rintro ⟨htype, hfar⟩
        obtain ⟨b, hb, hlt⟩ := hz.built.int htype
        exact absurd hlt (Nat.not_lt.mpr (hfar b hb))
    rw [hcreate] at he
    rcases hadd : dirAdd z p name i with ⟨ok, x⟩
    rw [hadd] at he
    cases ok with
    | true => cases he
    | false =>
      cases he
      rw [hleft]
      by_cases hdir : (view v).IsDir p
      · obtain ⟨n, hd⟩ := h.names.dirs hdir
        have hdz := hz.dir hd hpi
        rcases dirAdd_false hz.sound hdz hadd with ⟨hbad, rfl⟩ | ⟨hname, hlen, dir, hblock⟩
        · refine Or.inl ⟨hz.undo hm ht, fun hg => ?_⟩
          rw [hz.find h.sound hd hpi hg.name.2 hfind] at hbad
          have := hg.name
          simp only [Option.isSome_none, Bool.false_eq_true, or_false] at hbad
          omega
        · by_cases hspace : n < fsMaxFileBlocks ∧ freeBlocks z ≠ 0
          · have hg : Grows v p name := ⟨⟨hname, hlen⟩, hdir, hd.blocks ▸ hspace.1⟩
            obtain ⟨hsb, b, hb, hset⟩ := inodeDataBlock_takes hz.sound.mounted hz.sound.owned hdz.tab
              hspace.1 hspace.2 hblock
            have hres := (dirAdd_spec hz.sound hdz name i).1
            rw [hadd] at hres
            cases hres with
            | refused hsx _ htabx =>
              exact Or.inr ⟨⟨b, hz.leak ht hsx htabx hsb hb hset⟩, fun h0 => hspace.2 (h0 hg)⟩
          · obtain rfl : x = z := by
              by_cases hmax : n < fsMaxFileBlocks
              · have hfull := allocDataBlock_full hz.sound.mounted
                  (not_not.mp fun h0 => hspace ⟨hmax, h0⟩)
                have hsame := inodeDataBlock_full hfull (inodeAt z p) n
                rw [hblock] at hsame
                exact congrArg Prod.snd hsame
              · rw [inodeDataBlock, if_pos (Nat.le_of_not_lt hmax)] at hblock
                cases hblock
                rfl
            refine Or.inl ⟨hz.undo hm ht, fun hg => ?_⟩
            have hlt := hg.blocks
            rw [hd.blocks] at hlt
            exact not_not.mp fun h0 => hspace ⟨hlt, h0⟩
      · obtain ⟨hzu, hzi, -⟩ := (view v).install_of_ne (newInfo type) (newBlocks type i p) hpi
        have hnot : ¬(view z).IsDir p := by
          rw [hz.seen, View.IsDir, hzu, hzi]
          exact hdir
        have hzp : (view z).used p = true := by
          rw [hz.seen]
          exact hzu.trans hp
        obtain rfl : x = z :=
          congrArg Prod.snd (hadd.symm.trans (dirAdd_of_not_dir hz.sound hnot hzp name i))
        exact Or.inl ⟨hz.undo hm ht, fun hg => absurd hg.dir hdir⟩

end OrangeOs.Fs
