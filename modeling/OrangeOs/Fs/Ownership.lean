import OrangeOs.Fs.Index

/-! # Ownership of blocks

`Owned` is the invariant: every block at a position of a current inode lies in
the data area, is marked, and is at no other position. `Grow` says what block
lookup with allocation does to a volume and its table, success or not: positions
in use keep their block, new blocks were free, new data blocks are zero and the
old data blocks keep their contents. Growth composes, so the walk through the
index levels and the loops above it are proved one allocation at a time.
-/

namespace OrangeOs.Fs

open Bytes PointerForest Function

structure Owned (v : Volume) (tab : Table) : Prop where
  lo : ∀ {r p}, indexShape.ok r p → blockAt v tab r p ≠ 0 → v.sb.firstDataBlock ≤ blockAt v tab r p
  hi : ∀ {r p}, indexShape.ok r p → blockAt v tab r p ≠ 0 → blockAt v tab r p < v.sb.totalBlocks
  marked : ∀ {r p}, indexShape.ok r p → blockAt v tab r p ≠ 0 → bmapBit v (blockAt v tab r p) = true
  unshared : (pointers v tab).Unshared indexShape

variable {v w : Volume} {p : List Nat} {i : Nat} {ino : Inode}

theorem Owned.congr {tab tab' : Table} (ho : Owned v tab) (hsb : w.sb = v.sb)
    (hval : ∀ r p, indexShape.ok r p → blockAt w tab' r p = blockAt v tab r p)
    (hbits : ∀ x, x < v.sb.totalBlocks → bmapBit v x = true → bmapBit w x = true) :
    Owned w tab' := by
  refine ⟨?_, ?_, ?_, Store.Unshared.of_sub ho.unshared fun r p hp _ => hval r p hp⟩
  · intro r p hp hne
    rw [hval r p hp, hsb] at *
    exact ho.lo hp hne
  · intro r p hp hne
    rw [hval r p hp, hsb] at *
    exact ho.hi hp hne
  · intro r p hp hne
    rw [hval r p hp] at *
    exact hbits _ (ho.hi hp hne) (ho.marked hp hne)

/-- The blocks an allocation may touch. -/
def growRegion (sb : SuperBlock) (b : Nat) : Prop := bmapRegion sb b ∨ dataRegion sb b

structure Grow (v : Volume) (tab : Table) (w : Volume) (tab' : Table) : Prop where
  frame : Frame (growRegion v.sb) v w
  owned : Owned w tab'
  keep : ∀ {r p}, indexShape.ok r p → blockAt v tab r p ≠ 0 → blockAt w tab' r p = blockAt v tab r p
  fresh : ∀ {r p}, indexShape.ok r p → blockAt v tab r p = 0 → blockAt w tab' r p ≠ 0 →
    bmapBit v (blockAt w tab' r p) = false
  blank : ∀ {r p}, IsLeaf r p → blockAt v tab r p = 0 → blockAt w tab' r p ≠ 0 →
    w.disk (blockAt w tab' r p) = zero
  leaves : ∀ {r p}, IsLeaf r p → blockAt v tab r p ≠ 0 →
    w.disk (blockAt v tab r p) = v.disk (blockAt v tab r p)
  bits : ∀ x, x < v.sb.totalBlocks → bmapBit v x = true → bmapBit w x = true

theorem Grow.refl {tab : Table} (h : Owned v tab) : Grow v tab v tab where
  frame := Frame.refl _ v
  owned := h
  keep _ _ := rfl
  fresh _ h1 h2 := absurd h1 h2
  blank _ h1 h2 := absurd h1 h2
  leaves _ _ := rfl
  bits _ _ h := h

theorem Grow.trans {u : Volume} {ta tb tc : Table} (h1 : Grow u ta v tb) (h2 : Grow v tb w tc) :
    Grow u ta w tc where
  frame := h1.frame.trans (h1.frame.sb ▸ h2.frame)
  owned := h2.owned
  keep hp hne := by
    rw [← h1.keep hp hne]
    exact h2.keep hp (by rwa [h1.keep hp hne])
  fresh {r p} hp h0 hne := by
    by_cases hmid : blockAt v tb r p = 0
    · have hfree := h2.fresh hp hmid hne
      have hlt := h2.owned.hi hp hne
      rw [h2.frame.sb, h1.frame.sb] at hlt
      by_contra hset
      rw [h1.bits _ hlt (by simpa using hset)] at hfree
      exact absurd hfree (by simp)
    · rw [h2.keep hp hmid]
      exact h1.fresh hp h0 hmid
  blank {r p} hp h0 hne := by
    by_cases hmid : blockAt v tb r p = 0
    · exact h2.blank hp hmid hne
    · rw [h2.keep hp.1 hmid, h2.leaves hp hmid]
      exact h1.blank hp h0 hmid
  leaves {r p} hp hne := by
    have hk := h1.keep hp.1 hne
    rw [← h1.leaves hp hne, ← hk]
    exact h2.leaves hp (by rwa [hk])
  bits x hx h := h2.bits x (by rwa [h1.frame.sb]) (h1.bits x hx h)

/-! ## One allocation -/

section Attach

variable {tab : Table} {n : Nat} (hm : Mounted v.sb) (ho : Owned v tab)
include hm ho

section

variable (ha : Allocated v w n)
include ha

theorem Owned.untouched {r : Nat × Nat} (hp : indexShape.ok r p) (hne : blockAt v tab r p ≠ 0) :
    blockAt v tab r p ≠ n ∧ w.disk (blockAt v tab r p) = v.disk (blockAt v tab r p) := by
  have hlo := ho.lo hp hne
  have hmark := ho.marked hp hne
  have hne' : blockAt v tab r p ≠ n := by
    intro h
    rw [h, ha.free] at hmark
    exact absurd hmark (by simp)
  refine ⟨hne', ha.frame.disk _ ?_⟩
  rintro (hb | hb)
  · exact (bmapRegion_disjoint hm hb).2.2 hlo
  · exact hne' hb

theorem Owned.not_holds : ¬(pointers v tab).Holds indexShape n := by
  rintro ⟨r, p, hp, heq⟩
  have hpos := hm.data_pos
  have hlo := ha.lo
  have hne : blockAt v tab r p ≠ 0 := by
    rw [blockAt, heq]
    omega
  exact (ho.untouched hm ha hp hne).1 heq

/-- What any attachment of the freshly allocated block does, whichever pointer
it was stored in. -/
theorem Owned.grow_of_attached {u : Volume} {tab' : Table} {r0 : Nat × Nat}
    {p0 : List Nat} (hatt : Attached (pointers v tab) (pointers u tab') indexShape r0 p0 n)
    (hbits : ∀ x, x < v.sb.totalBlocks → bmapBit u x = bmapBit w x)
    (hframe : Frame (growRegion v.sb) v u) (hleaves : ∀ {r p}, IsLeaf r p → blockAt v tab r p ≠ 0 →
      u.disk (blockAt v tab r p) = v.disk (blockAt v tab r p))
    (hblank : u.disk n = zero) : Grow v tab u tab' := by
  have hval : ∀ {r p}, indexShape.ok r p →
      blockAt u tab' r p = if r = r0 ∧ p = p0 then n else blockAt v tab r p :=
    fun hp => hatt.at_eq hp
  have hnew : ∀ {r p}, indexShape.ok r p → blockAt v tab r p = 0 → blockAt u tab' r p ≠ 0 →
      blockAt u tab' r p = n := by
    intro r p hp h0 hne
    rw [hval hp, h0] at hne ⊢
    split at hne
    · next h => rw [if_pos h]
    · exact absurd rfl hne
  have hcases : ∀ {r p}, indexShape.ok r p → blockAt u tab' r p ≠ 0 →
      blockAt u tab' r p = n ∨
        (blockAt v tab r p ≠ 0 ∧ blockAt u tab' r p = blockAt v tab r p) := by
    intro r p hp hne
    by_cases h0 : blockAt v tab r p = 0
    · exact Or.inl (hnew hp h0 hne)
    · exact Or.inr ⟨h0, hatt.at_old hp h0⟩
  have hbit : ∀ x, x < v.sb.totalBlocks → bmapBit u x = (decide (x = n) || bmapBit v x) :=
    fun x hx => by rw [hbits x hx, ha.bits x hx]
  refine ⟨hframe, ⟨?_, ?_, ?_, ?_⟩, fun hp hne => hatt.at_old hp hne, ?_, ?_, hleaves, ?_⟩
  · intro r p hp hne
    rw [hframe.sb]
    rcases hcases hp hne with h | ⟨h0, h⟩
    · rw [h]
      exact ha.lo
    · rw [h]
      exact ho.lo hp h0
  · intro r p hp hne
    rw [hframe.sb]
    rcases hcases hp hne with h | ⟨h0, h⟩
    · rw [h]
      exact ha.hi
    · rw [h]
      exact ho.hi hp h0
  · intro r p hp hne
    rcases hcases hp hne with h | ⟨h0, h⟩
    · rw [h, hbit n ha.hi]
      simp
    · rw [h, hbit _ (ho.hi hp h0), ho.marked hp h0, Bool.or_true]
  · exact hatt.unshared ho.unshared (ho.not_holds hm ha)
  · intro r p hp h0 hne
    rw [hnew hp h0 hne]
    exact ha.free
  · intro r p hp h0 hne
    rw [hnew hp.1 h0 hne]
    exact hblank
  · intro x hx h
    rw [hbit x hx, h, Bool.or_true]

theorem Owned.grow_root {j : Nat} (hi : tab i = some ino) (hj : j < 14)
    (hnull : ino.root j = 0) : Grow v tab w (update tab i (some (ino.setRoot j n))) := by
  have hn32 := ha.lt_word hm
  have hatt : Attached (pointers v tab)
      (pointers w (update tab i (some (ino.setRoot j n)))) indexShape (i, j) [] n := by
    apply Attached.of_root
    · simp [pointers, hi, hnull]
    · funext r
      obtain ⟨k, l⟩ := r
      by_cases hk : k = i
      · subst hk
        by_cases hl : l = j
        · simp [pointers, hl, Inode.root_setRoot hn32 ino hj]
        · simp [pointers, hl, hi, Inode.root_setRoot hn32 ino hj, update_apply]
      · simp [pointers, hk, update_apply]
    · intro r p k hp hne
      change indexEntry (w.disk (blockAt v tab r p)) k = indexEntry (v.disk (blockAt v tab r p)) k
      rw [(ho.untouched hm ha (indexShape.ok_of_snoc hp) hne).2]
    · intro k
      simp [pointers, ha.blank]
  refine ho.grow_of_attached hm ha hatt (fun x _ => rfl) (ha.frame.mono ?_)
    (fun hp hne => (ho.untouched hm ha hp.1 hne).2) ha.blank
  rintro b (hb | rfl)
  · exact Or.inl hb
  · exact Or.inr ha.lo

theorem Owned.grow_entry {r0 : Nat × Nat} {k : Nat}
    (hp : indexShape.ok r0 (p ++ [k])) (hparent : blockAt v tab r0 p ≠ 0)
    (hnull : indexEntry (v.disk (blockAt v tab r0 p)) k = 0) :
    Grow v tab
      (w.store (blockAt v tab r0 p) (setIndexEntry (w.disk (blockAt v tab r0 p)) k n)) tab := by
  have hn32 := ha.lt_word hm
  have hp0 := indexShape.ok_of_snoc hp
  have hpar := ho.untouched hm ha hp0 hparent
  generalize hu : w.store (blockAt v tab r0 p) (setIndexEntry (w.disk (blockAt v tab r0 p)) k n) = u
  have hstore : ∀ x, x ≠ blockAt v tab r0 p → u.disk x = w.disk x := by
    intro x hx
    rw [← hu]
    exact w.store_of_ne _ hx
  have hhere : u.disk (blockAt v tab r0 p) =
      setIndexEntry (v.disk (blockAt v tab r0 p)) k n := by
    rw [← hu, Volume.store_same, hpar.2]
  have hatt : Attached (pointers v tab) (pointers u tab) indexShape r0 (p ++ [k]) n := by
    refine Attached.of_entry ho.unshared hp hparent hnull (by rfl) ?_ ?_
    · intro r q l hq hne
      have hq' := (ho.untouched hm ha (indexShape.ok_of_snoc hq) hne).2
      change indexEntry (u.disk (blockAt v tab r q)) l = if blockAt v tab r q = blockAt v tab r0 p ∧
        l = k then n else indexEntry (v.disk (blockAt v tab r q)) l
      by_cases hsame : blockAt v tab r q = blockAt v tab r0 p
      · rw [hsame, hhere, indexEntry_set _ _ _ hn32]
        simp
      · rw [hstore _ hsame, hq', if_neg (fun h => hsame h.1)]
    · intro l
      simp [pointers, hstore n (Ne.symm hpar.1), ha.blank]
  have hframe : Frame (growRegion v.sb) v u := by
    have h1 : Frame (growRegion v.sb) v w := ha.frame.mono (by
      rintro b (hb | rfl)
      · exact Or.inl hb
      · exact Or.inr ha.lo)
    rw [← hu]
    exact h1.trans (Frame.store w _ (Or.inr (ho.lo hp0 hparent)))
  refine ho.grow_of_attached hm ha hatt ?_ hframe ?_ (by rw [hstore n (Ne.symm hpar.1), ha.blank])
  · intro x hx
    have hmw : Mounted w.sb := by rw [ha.frame.sb]; exact hm
    rw [← hu]
    refine bmapBit_frame hmw (Frame.store w _ rfl : Frame (· = blockAt v tab r0 p) _ _) ?_
      (by rwa [ha.frame.sb])
    rintro b hb rfl
    rw [ha.frame.sb] at hb
    exact (bmapRegion_disjoint hm hb).2.2 (ho.lo hp0 hparent)
  · intro r q hq hne
    rw [hstore _ ?_, (ho.untouched hm ha hq.1 hne).2]
    intro hsame
    obtain ⟨rfl, rfl⟩ := ho.unshared hq.1 hp0 hne hsame
    have h1 := hp.2.1
    have h2 := hq.2
    simp only [List.length_append, List.length_singleton] at h1
    omega

end

omit hm in
theorem Owned.of_bits {P : Nat → Prop} (hframe : Frame P v w)
    (hdata : ∀ b, dataRegion v.sb b → ¬P b)
    (hbits : ∀ x, x < v.sb.totalBlocks → bmapBit v x = true → bmapBit w x = true) :
    (∀ r p, indexShape.ok r p → blockAt w tab r p = blockAt v tab r p) ∧ Owned w tab := by
  have hsame : ∀ {r p}, indexShape.ok r p → blockAt w tab r p = blockAt v tab r p := by
    intro r p hp
    refine Store.at_congr (F := pointers v tab) (G := pointers w tab) (fun _ _ => rfl) ?_ hp
    intro r p k hp hne
    have hlo := ho.lo (indexShape.ok_of_snoc hp) hne
    change indexEntry (w.disk (blockAt v tab r p)) k = indexEntry (v.disk (blockAt v tab r p)) k
    rw [hframe.disk _ (hdata _ hlo)]
  exact ⟨fun r p hp => hsame hp, ho.congr hframe.sb (fun r p hp => hsame hp) hbits⟩

theorem Owned.grow_failed (hf : AllocFailed v w) : Grow v tab w tab := by
  have hdata : ∀ b, dataRegion v.sb b → ¬bmapRegion v.sb b :=
    fun b hd hb => (bmapRegion_disjoint hm hb).2.2 hd
  obtain ⟨hsame, how⟩ := ho.of_bits hf.frame hdata hf.bits
  refine ⟨hf.frame.mono fun _ => Or.inl, how, fun hp _ => hsame _ _ hp, ?_, ?_, ?_, hf.bits⟩
  · intro r p hp h0 hne
    exact absurd (hsame r p hp ▸ h0) hne
  · intro r p hp h0 hne
    exact absurd (hsame r p hp.1 ▸ h0) hne
  · intro r p hp hne
    exact hf.frame.disk _ (hdata _ (ho.lo hp.1 hne))

end Attach

/-! ## The walk through the index levels -/

theorem blockAt_snoc (v : Volume) (tab : Table) (r : Nat × Nat) (p : List Nat) (k : Nat) :
    blockAt v tab r (p ++ [k]) =
      if blockAt v tab r p = 0 then 0 else indexEntry (v.disk (blockAt v tab r p)) k :=
  (pointers v tab).at_snoc r p k

theorem Allocated.ne_zero {n : Nat} (ha : Allocated v w n) (hm : Mounted v.sb) : n ≠ 0 := by
  have h1 := ha.lo
  have h2 := hm.data_pos
  omega

/-- The outcome of a lookup of the position `(r, p)`: the volume and the table
have grown, a result is the block now at the position, a creating lookup never
answers with the null block and a plain one changes nothing. -/
structure Reached (create : Bool) (v : Volume) (tab : Table) (w : Volume) (tab' : Table)
    (r : Nat × Nat) (p : List Nat) (out : Option Nat) : Prop where
  grow : Grow v tab w tab'
  found : ∀ x, out = some x → x = blockAt w tab' r p
  made : create = true → out ≠ some 0
  plain : create = false → w = v ∧ tab' = tab ∧ out = some (blockAt v tab r p)

section Walk

variable {tab : Table} {r : Nat × Nat}

theorem ensureEntry_spec {k b : Nat} (create : Bool) (hm : Mounted v.sb) (ho : Owned v tab)
    (hb : blockAt v tab r p = b) (hb0 : b ≠ 0) (hp : indexShape.ok r (p ++ [k])) :
    ∃ out w, ensureEntry v b k create = (out, w) ∧ Reached create v tab w tab r (p ++ [k]) out := by
  subst hb
  have hp0 := indexShape.ok_of_snoc hp
  have hget := cacheGet_of_lt (ho.hi hp0 hb0)
  have hentry := blockAt_snoc v tab r p k
  rw [if_neg hb0] at hentry
  by_cases hcreate : indexEntry (v.disk (blockAt v tab r p)) k = 0 ∧ create = true
  · rcases allocDataBlock_spec hm with ⟨w, he, hf⟩ | ⟨n, w, he, ha⟩
    · refine ⟨none, w, ?_, ho.grow_failed hm hf, by simp, by simp, ?_⟩
      · simp only [ensureEntry, hget, if_pos hcreate, he]
      · simp [hcreate.2]
    · have hg := ho.grow_entry hm ha hp hb0 hcreate.1
      refine ⟨some n, _, ?_, hg, ?_, ?_, ?_⟩
      · simp only [ensureEntry, hget, if_pos hcreate, he]
      · rintro x ⟨⟩
        have hn32 := ha.lt_word hm
        rw [blockAt_snoc, hg.keep hp0 hb0, if_neg hb0, Volume.store_same,
          indexEntry_set _ _ _ hn32, if_pos rfl]
      · simp [ha.ne_zero hm]
      · simp [hcreate.2]
  · refine ⟨_, v, ?_, Grow.refl ho, ?_, ?_, fun _ => ⟨rfl, rfl, rfl⟩⟩
    · simp only [ensureEntry, hget, if_neg hcreate, hentry]
    · rintro x ⟨⟩
      rfl
    · intro hc
      rw [hentry]
      simpa [hc] using hcreate

theorem walkIndex_spec {b : Nat} (create : Bool) (path : List Nat) (hm : Mounted v.sb)
    (ho : Owned v tab) (hb : blockAt v tab r p = b) (hb0 : create = true → b ≠ 0)
    (hp : indexShape.ok r (p ++ path)) :
    ∃ out w, walkIndex create v b path = (out, w) ∧
      Reached create v tab w tab r (p ++ path) out := by
  induction path generalizing v p b with
  | nil =>
    rw [List.append_nil, ← hb]
    refine ⟨_, v, rfl, Grow.refl ho, ?_, ?_, fun _ => ⟨rfl, rfl, rfl⟩⟩
    · rintro x ⟨⟩
      rfl
    · intro hc
      simpa [hb] using hb0 hc
  | cons k path ih =>
    by_cases hnull : b = 0
    · have hempty : blockAt v tab r (p ++ k :: path) = 0 :=
        (pointers v tab).at_append_of_null _ (hb.trans hnull)
      refine ⟨some 0, v, by simp [walkIndex, hnull], Grow.refl ho, ?_, ?_, ?_⟩
      · rintro x ⟨⟩
        exact hempty.symm
      · exact fun hc => absurd hnull (hb0 hc)
      · exact fun _ => ⟨rfl, rfl, by rw [hempty]⟩
    · have hp' : indexShape.ok r ((p ++ [k]) ++ path) := by simpa using hp
      have hpk := indexShape.ok_of_append path hp'
      obtain ⟨child, u, he, hr⟩ := ensureEntry_spec create hm ho hb hnull hpk
      cases child with
      | none =>
        refine ⟨none, u, by simp [walkIndex, hnull, he], hr.grow, by simp, by simp, ?_⟩
        intro hc
        simpa using (hr.plain hc).2.2
      | some c =>
        have hmu : Mounted u.sb := by
          rw [hr.grow.frame.sb]
          exact hm
        have hc0 : create = true → c ≠ 0 := fun hc h0 => hr.made hc (by rw [h0])
        obtain ⟨out, w, hw, hr'⟩ := ih hmu hr.grow.owned (hr.found c rfl).symm hc0 hp'
        rw [List.append_assoc, List.singleton_append] at hr'
        refine ⟨out, w, by simp [walkIndex, hnull, he, hw], hr.grow.trans hr'.grow, hr'.found,
          hr'.made, ?_⟩
        intro hc
        obtain ⟨h1, -, h2⟩ := hr'.plain hc
        obtain ⟨h3, -, -⟩ := hr.plain hc
        subst h3
        exact ⟨h1, rfl, h2⟩

theorem lookupSlot_spec {j : Nat} {path : List Nat} (create : Bool) (hm : Mounted v.sb)
    (ho : Owned v tab) (hi : tab i = some ino) (hp : indexShape.ok (i, j) path) :
    ∃ out ino' w, lookupSlot v ino j path create = (out, ino', w) ∧
      Reached create v tab w (update tab i (some ino')) (i, j) path out ∧
      (ino'.type = ino.type ∧ ino'.size = ino.size ∧ ino'.linkCount = ino.linkCount) := by
  have hsame : update tab i (some ino) = tab := by
    rw [← hi, update_eq_self]
  have hroot : blockAt v tab (i, j) [] = ino.root j := by simp [pointers, hi]
  by_cases hcreate : ino.root j = 0 ∧ create = true
  · rcases allocDataBlock_spec hm with ⟨w, he, hf⟩ | ⟨n, w, he, ha⟩
    · refine ⟨none, ino, w, by simp only [lookupSlot, if_pos hcreate, he], ?_, rfl, rfl, rfl⟩
      rw [hsame]
      exact ⟨ho.grow_failed hm hf, by simp, by simp, by simp [hcreate.2]⟩
    · have hg := ho.grow_root hm ha hi hp.1 hcreate.1
      have hn32 := ha.lt_word hm
      have hhere : blockAt w (update tab i (some (ino.setRoot j n))) (i, j) [] = n := by
        simp [pointers, Inode.root_setRoot hn32 ino hp.1]
      have hmw : Mounted w.sb := by
        rw [hg.frame.sb]
        exact hm
      obtain ⟨out, u, hw, hr⟩ := walkIndex_spec create path hmw hg.owned hhere
        (fun _ => ha.ne_zero hm) hp
      refine ⟨out, ino.setRoot j n, u, ?_, ?_, by simp, by simp, by simp⟩
      · simp only [lookupSlot, if_pos hcreate, he, hw]
      · exact ⟨hg.trans hr.grow, hr.found, hr.made, by simp [hcreate.2]⟩
  · have hb0 : create = true → ino.root j ≠ 0 := fun hc h0 => hcreate ⟨h0, hc⟩
    obtain ⟨out, u, hw, hr⟩ := walkIndex_spec create path hm ho hroot hb0 hp
    refine ⟨out, ino, u, by simp only [lookupSlot, if_neg hcreate, hw], ?_, rfl, rfl, rfl⟩
    rw [hsame]
    exact hr

theorem inodeDataBlock_spec {index : Nat} (create : Bool) (hm : Mounted v.sb) (ho : Owned v tab)
    (hi : tab i = some ino) (hindex : index < fsMaxFileBlocks) :
    ∃ out ino' w, inodeDataBlock v ino index create = (out, ino', w) ∧
      Reached create v tab w (update tab i (some ino')) (i, (locate index).1)
        (locate index).2 out ∧
      (ino'.type = ino.type ∧ ino'.size = ino.size ∧ ino'.linkCount = ino.linkCount) := by
  rw [inodeDataBlock_of_lt v ino create hindex]
  exact lookupSlot_spec create hm ho hi (locate_isLeaf hindex i).1

end Walk

end OrangeOs.Fs
