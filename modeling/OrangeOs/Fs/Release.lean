import OrangeOs.Fs.Ownership

/-! # Releasing blocks

The release and rollback functions clear bits of the block bitmap and change
nothing else, so each is described by the set of block numbers it clears.
`Owned.drop` is the one place where clearing meets ownership: bits may be
cleared when the positions that held them leave the table.
-/

namespace OrangeOs.Fs

open Bytes PointerForest List

/-! ## Clearing sets of bits -/

/-- `w` is `u` with the bits of the blocks in `S` cleared. -/
structure Cleared (u w : Volume) (S : Nat → Prop) : Prop where
  frame : Frame (bmapRegion u.sb) u w
  bits : ∀ x, x < u.sb.totalBlocks → (bmapBit w x = true ↔ bmapBit u x = true ∧ ¬S x)

variable {u v w : Volume} {S : Nat → Prop} {tab : Table} {r : Nat × Nat} {p : List Nat} {i k : Nat}
  {free : Volume → Nat → Volume} {ino : Inode}

theorem Cleared.none (h : ∀ x, ¬S x) : Cleared u u S :=
  ⟨Frame.refl _ u, fun x _ => by simp [h x]⟩

theorem Cleared.congr {T : Nat → Prop} (h : Cleared u w S) (hST : ∀ x, S x ↔ T x) : Cleared u w T :=
  ⟨h.frame, fun x hx => by rw [h.bits x hx, hST x]⟩

theorem Cleared.trans {z : Volume} {T : Nat → Prop} (h1 : Cleared u w S) (h2 : Cleared w z T) :
    Cleared u z (fun x => S x ∨ T x) := by
  refine ⟨h1.frame.trans (h1.frame.sb ▸ h2.frame), fun x hx => ?_⟩
  rw [h2.bits x (by rwa [h1.frame.sb]), h1.bits x hx, not_or, and_assoc]

theorem Cleared.foldl {ι : Type} {f : Volume → ι → Volume} {S : ι → Nat → Prop} {l : List ι}
    (hf : ∀ u i, i ∈ l → Frame (bmapRegion v.sb) v u → Cleared u (f u i) (S i))
    (hu : Frame (bmapRegion v.sb) v u) : Cleared u (l.foldl f u) (fun x => ∃ i ∈ l, S i x) := by
  induction l generalizing u with
  | nil => exact Cleared.none (by simp)
  | cons i l ih =>
    have hstep := hf u i (by simp) hu
    have hframe : Frame (bmapRegion v.sb) v (f u i) := hu.trans (hu.sb ▸ hstep.frame)
    have hrest := ih (fun u j hj => hf u j (by simp [hj])) hframe
    exact (hstep.trans hrest).congr fun x => by simp

theorem Cleared.of_bitmapFree {b : Nat} (hm : Mounted u.sb) (hb : b < u.sb.totalBlocks) :
    Cleared u (bitmapFree u u.sb.bmapStart b) (· = b) :=
  ⟨bitmapFree_bmap_frame hm hb, fun x hx => by simp [bmapBit_bitmapFree hm hb hx, and_comm]⟩

/-! ## Subtrees -/

/-- The blocks at and below a position. -/
def Below (v : Volume) (tab : Table) (r : Nat × Nat) (p : List Nat) (x : Nat) : Prop :=
  x ≠ 0 ∧ ∃ q, indexShape.ok r (p ++ q) ∧ blockAt v tab r (p ++ q) = x

theorem not_below_of_null (h : blockAt v tab r p = 0) (x : Nat) : ¬Below v tab r p x := by
  rintro ⟨hx, q, -, rfl⟩
  exact hx ((pointers v tab).at_append_of_null q h)

theorem below_iff (hp : indexShape.ok r p) (hne : blockAt v tab r p ≠ 0) (x : Nat) :
    Below v tab r p x ↔
      (∃ i ∈ range 1024, Below v tab r (p ++ [i]) x) ∨ x = blockAt v tab r p := by
  constructor
  · rintro ⟨hx, q, hq, rfl⟩
    cases q with
    | nil => exact Or.inr (by simp)
    | cons i q =>
      refine Or.inl ⟨i, ?_, hx, q, by simpa using hq, by simp⟩
      simpa using hq.2.2 i (by simp)
  · rintro (⟨i, -, hx, q, hq, rfl⟩ | rfl)
    · exact ⟨hx, i :: q, by simpa using hq, by simp⟩
    · exact ⟨hne, [], by simpa using hp, by simp⟩

section Trees

variable (hm : Mounted v.sb) (ho : Owned v tab)

/-- `free` clears the subtree of any position `l` levels above the data blocks,
whatever bits have been cleared before. -/
def Releases (v : Volume) (tab : Table) (l : Nat) (free : Volume → Nat → Volume) : Prop :=
  ∀ (u : Volume) (r : Nat × Nat) (p : List Nat), Frame (bmapRegion v.sb) v u →
    indexShape.ok r p → p.length + l = level r.2 → blockAt v tab r p ≠ 0 →
    Cleared u (free u (blockAt v tab r p)) (Below v tab r p)

include hm ho

theorem readEntry_of_frame (hu : Frame (bmapRegion v.sb) v u) (hp : indexShape.ok r p)
    (hne : blockAt v tab r p ≠ 0) (k : Nat) :
    readEntry u (blockAt v tab r p) k = blockAt v tab r (p ++ [k]) := by
  have hlo := ho.lo hp hne
  have hget : cacheGet u (blockAt v tab r p) = some (u.disk (blockAt v tab r p)) :=
    cacheGet_of_lt (by rw [hu.sb]; exact ho.hi hp hne)
  have hdisk := hu.disk _ fun hb => (bmapRegion_disjoint hm hb).2.2 hlo
  rw [readEntry, hget, blockAt_snoc, if_neg hne, hdisk]

theorem releases_data : Releases v tab 0 freeDataBlock := by
  intro u r p hu hp hlen hne
  have hmu : Mounted u.sb := by
    rw [hu.sb]
    exact hm
  refine (Cleared.of_bitmapFree hmu (by rw [hu.sb]; exact ho.hi hp hne)).congr fun x => ?_
  constructor
  · rintro rfl
    exact ⟨hne, [], by simpa using hp, by simp⟩
  · rintro ⟨-, q, hq, rfl⟩
    have h1 := hq.2.1
    rw [length_append] at h1
    have hnil : q = [] := length_eq_zero_iff.mp (by omega)
    simp [hnil]

theorem releases_index {l : Nat} (hfree : Releases v tab l free) :
    Releases v tab (l + 1) (freeIndexTree free) := by
  intro u r p hu hp hlen hne
  have hchild : ∀ u i, i ∈ range 1024 → Frame (bmapRegion v.sb) v u →
      Cleared u (let child := readEntry u (blockAt v tab r p) i
        if child ≠ 0 then free u child else u) (Below v tab r (p ++ [i])) := by
    intro u i hi hu
    have hi : i < 1024 := by simpa using hi
    rw [readEntry_of_frame hm ho hu hp hne]
    by_cases h0 : blockAt v tab r (p ++ [i]) = 0
    · simp only [h0, ne_eq, not_true_eq_false, if_false]
      exact Cleared.none (not_below_of_null h0)
    · rw [if_pos h0]
      have hok : indexShape.ok r (p ++ [i]) := by
        refine ⟨hp.1, by simp; omega, fun k hk => ?_⟩
        rcases mem_append.mp hk with hk | hk
        · exact hp.2.2 k hk
        · rw [mem_singleton.mp hk]
          exact hi
      exact hfree u r _ hu hok (by simp; omega) h0
  have hall := Cleared.foldl hchild hu
  unfold freeIndexTree
  rw [if_neg hne]
  generalize (range 1024).foldl _ u = w at hall ⊢
  have hsb : w.sb = v.sb := hall.frame.sb.trans hu.sb
  have hmw : Mounted w.sb := by
    rw [hsb]
    exact hm
  have hself := Cleared.of_bitmapFree hmw (by rw [hsb]; exact ho.hi hp hne)
  exact (hall.trans hself).congr fun x => (below_iff hp hne x).symm

theorem releases_single : Releases v tab 1 freeSingleIndexBlock :=
  releases_index hm ho (releases_data hm ho)

theorem releases_double : Releases v tab 2 freeDoubleIndexTree :=
  releases_index hm ho (releases_single hm ho)

theorem releases_triple : Releases v tab 3 freeTripleIndexTree :=
  releases_index hm ho (releases_double hm ho)

omit hm ho in
theorem Releases.slot {l j : Nat} (hfree : Releases v tab l free) (hi : tab i = some ino)
    (hj : j < 14) (hl : l = level j) (hu : Frame (bmapRegion v.sb) v u) (hne : ino.root j ≠ 0) :
    Cleared u (free u (ino.root j)) (Below v tab (i, j) []) := by
  have hroot : blockAt v tab (i, j) [] = ino.root j := by simp [pointers, hi]
  rw [← hroot]
  exact hfree u (i, j) [] hu ⟨hj, by simp, by simp⟩ (by simp [hl]) (by rwa [hroot])

omit hm ho in
theorem not_below_slot {j : Nat} (hi : tab i = some ino) (h : ino.root j = 0) (x : Nat) :
    ¬Below v tab (i, j) [] x :=
  not_below_of_null (by simp [pointers, hi, h]) x

omit hm ho in
theorem Cleared.slots {S : Nat → Nat → Prop} (direct : Volume → Nat → Volume)
    (single double triple : Volume → Volume)
    (h0 : ∀ u j, j < 11 → Frame (bmapRegion v.sb) v u → Cleared u (direct u j) (S j))
    (h1 : ∀ u, Frame (bmapRegion v.sb) v u → Cleared u (single u) (S 11))
    (h2 : ∀ u, Frame (bmapRegion v.sb) v u → Cleared u (double u) (S 12))
    (h3 : ∀ u, Frame (bmapRegion v.sb) v u → Cleared u (triple u) (S 13))
    (hu : Frame (bmapRegion v.sb) v u) :
    Cleared u (triple (double (single ((range 11).foldl direct u))))
      (fun x => ∃ j, j < 14 ∧ S j x) := by
  have c0 := Cleared.foldl (l := range 11) (fun u j hj => h0 u j (by simpa using hj)) hu
  have hu0 := hu.trans (hu.sb ▸ c0.frame)
  have c1 := h1 _ hu0
  have hu1 := hu0.trans (hu0.sb ▸ c1.frame)
  have c2 := h2 _ hu1
  have hu2 := hu1.trans (hu1.sb ▸ c2.frame)
  refine (((c0.trans c1).trans c2).trans (h3 _ hu2)).congr fun x => ?_
  constructor
  · rintro (((⟨j, hj, hx⟩ | hx) | hx) | hx)
    · exact ⟨j, by simp at hj; omega, hx⟩
    · exact ⟨11, by decide, hx⟩
    · exact ⟨12, by decide, hx⟩
    · exact ⟨13, by decide, hx⟩
  · rintro ⟨j, hj, hx⟩
    by_cases hlow : j < 11
    · exact Or.inl (Or.inl (Or.inl ⟨j, by simpa using hlow, hx⟩))
    · obtain rfl | rfl | rfl : j = 11 ∨ j = 12 ∨ j = 13 := by omega
      · exact Or.inl (Or.inl (Or.inr hx))
      · exact Or.inl (Or.inr hx)
      · exact Or.inr hx

theorem freeInodeBlocks_spec (hi : tab i = some ino) (hu : Frame (bmapRegion v.sb) v u) :
    Cleared u (freeInodeBlocks u ino) (fun x => ∃ j, j < 14 ∧ Below v tab (i, j) [] x) := by
  have hindex : ∀ {l j} {f : Volume → Nat → Volume}, Releases v tab l (freeIndexTree f) →
      j < 14 → l = level j → ∀ u, Frame (bmapRegion v.sb) v u →
      Cleared u (freeIndexTree f u (ino.root j)) (Below v tab (i, j) []) := by
    intro l j f hf hj hl u hu
    by_cases h0 : ino.root j = 0
    · rw [h0]
      exact Cleared.none (not_below_slot hi h0)
    · exact hf.slot hi hj hl hu h0
  refine Cleared.slots (fun u j => if ino.root j ≠ 0 then freeDataBlock u (ino.root j) else u)
    (freeSingleIndexBlock · (ino.root 11)) (freeDoubleIndexTree · (ino.root 12))
    (freeTripleIndexTree · (ino.root 13)) ?_
    (hindex (releases_single hm ho) (by decide) rfl)
    (hindex (releases_double hm ho) (by decide) rfl)
    (hindex (releases_triple hm ho) (by decide) rfl) hu
  intro u j hj hu
  by_cases h0 : ino.root j = 0
  · simp only [h0, ne_eq, not_true_eq_false, if_false]
    exact Cleared.none (not_below_slot hi h0)
  · rw [if_pos h0]
    exact (releases_data hm ho).slot hi (by omega) (by simp [level]; omega) hu h0

omit hm ho in
/-- Two equal trees differ nowhere, so comparing them entry by entry frees nothing. -/
theorem rollbackAdded_same {each : Volume → Nat → Nat → Volume} (heach : ∀ u x, each u x x = u)
    (u : Volume) (x : Nat) : rollbackAdded free each u x x = u := by
  have hfold : ∀ (l : List Nat) u, l.foldl (fun u i => each u (readEntry u x i) (readEntry u x i)) u
      = u := by
    intro l
    induction l with
    | nil => exact fun _ => rfl
    | cons i l ih =>
      intro u
      rw [foldl_cons, heach, ih]
  unfold rollbackAdded
  split
  · next h => exact absurd h.1 h.2
  · split
    · rfl
    · exact hfold _ u

omit hm ho in
theorem rollbackDataAdded_same (u : Volume) (x : Nat) : rollbackDataAdded u x x = u :=
  if_neg fun h => h.2 h.1

omit hm ho in
theorem rollbackSingleAdded_same : ∀ u x, rollbackSingleAdded u x x = u :=
  rollbackAdded_same rollbackDataAdded_same

omit hm ho in
theorem rollbackDoubleAdded_same : ∀ u x, rollbackDoubleAdded u x x = u :=
  rollbackAdded_same rollbackSingleAdded_same

omit hm ho in
theorem rollbackTripleAdded_same : ∀ u x, rollbackTripleAdded u x x = u :=
  rollbackAdded_same rollbackDoubleAdded_same

/-- Slots in use keep their pointer while a write runs, so `rollback_new_blocks`
releases exactly the slots the write filled. -/
theorem rollbackNewBlocks_spec {old now : Inode} (hi : tab i = some now)
    (hkeep : ∀ j, j < 14 → old.root j ≠ 0 → now.root j = old.root j)
    (hu : Frame (bmapRegion v.sb) v u) :
    Cleared u (rollbackNewBlocks u old now)
      (fun x => ∃ j, j < 14 ∧ old.root j = 0 ∧ Below v tab (i, j) [] x) := by
  have hslot : ∀ {l j} {free : Volume → Nat → Volume} {roll : Volume → Nat → Nat → Volume},
      Releases v tab l free → (∀ u x, roll u x x = u) →
      (∀ u x, x ≠ 0 → roll u 0 x = free u x) → j < 14 → l = level j →
      ∀ u, Frame (bmapRegion v.sb) v u → Cleared u (roll u (old.root j) (now.root j))
        (fun x => old.root j = 0 ∧ Below v tab (i, j) [] x) := by
    intro l j free roll hfree hsame hnew hj hl u hu
    by_cases h0 : old.root j = 0
    · by_cases h1 : now.root j = 0
      · rw [h0, h1, hsame]
        exact Cleared.none fun x h => not_below_slot hi h1 x h.2
      · rw [h0, hnew _ _ h1]
        exact (hfree.slot hi hj hl hu h1).congr fun x => by simp
    · rw [hkeep j hj h0, hsame]
      exact Cleared.none fun x h => h0 h.1
  have hfresh : ∀ {free : Volume → Nat → Volume} {each : Volume → Nat → Nat → Volume} u x,
      x ≠ 0 → rollbackAdded free each u 0 x = free u x := fun u x hx => if_pos ⟨rfl, hx⟩
  refine Cleared.slots (fun u j => rollbackDataAdded u (old.root j) (now.root j))
    (rollbackSingleAdded · (old.root 11) (now.root 11))
    (rollbackDoubleAdded · (old.root 12) (now.root 12))
    (rollbackTripleAdded · (old.root 13) (now.root 13)) ?_
    (hslot (releases_single hm ho) rollbackSingleAdded_same hfresh (by decide) rfl)
    (hslot (releases_double hm ho) rollbackDoubleAdded_same hfresh (by decide) rfl)
    (hslot (releases_triple hm ho) rollbackTripleAdded_same hfresh (by decide) rfl) hu
  intro u j hj hu
  exact hslot (releases_data hm ho) rollbackDataAdded_same (fun u x hx => if_pos ⟨rfl, hx⟩)
    (by omega) (by simp [level]; omega) u hu

end Trees

/-! ## Positions leaving the table -/

theorem Owned.drop (tab' : Table) (keep : Nat × Nat → Prop) [DecidablePred keep] (ho : Owned v tab)
    (hm : Mounted v.sb) (hc : Cleared v w S) (hroot : ∀ r, indexShape.ok r [] →
      blockAt w tab' r [] = if keep r then blockAt v tab r [] else 0)
    (hS : ∀ x, S x → ∃ r, ¬keep r ∧ Below v tab r [] x) :
    Owned w tab' ∧ ∀ r p, indexShape.ok r p →
      blockAt w tab' r p = if keep r then blockAt v tab r p else 0 := by
  have hval : ∀ r p, indexShape.ok r p →
      blockAt w tab' r p = if keep r then blockAt v tab r p else 0 := by
    intro r p hp
    refine Store.at_of_cleared (F := pointers v tab) (G := pointers w tab') hroot ?_ hp
    intro r p k hp _ hne
    have hlo := ho.lo (indexShape.ok_of_snoc hp) hne
    change indexEntry (w.disk (blockAt v tab r p)) k = indexEntry (v.disk (blockAt v tab r p)) k
    rw [hc.frame.disk _ fun hb => (bmapRegion_disjoint hm hb).2.2 hlo]
  have hkept : ∀ {r p}, indexShape.ok r p → blockAt w tab' r p ≠ 0 →
      keep r ∧ blockAt w tab' r p = blockAt v tab r p ∧ blockAt v tab r p ≠ 0 := by
    intro r p hp hne
    rw [hval r p hp] at hne ⊢
    split at hne
    · next hk => exact ⟨hk, if_pos hk, hne⟩
    · exact absurd rfl hne
  refine ⟨⟨?_, ?_, ?_, ?_⟩, hval⟩
  · intro r p hp hne
    obtain ⟨-, heq, h0⟩ := hkept hp hne
    rw [heq, hc.frame.sb]
    exact ho.lo hp h0
  · intro r p hp hne
    obtain ⟨-, heq, h0⟩ := hkept hp hne
    rw [heq, hc.frame.sb]
    exact ho.hi hp h0
  · intro r p hp hne
    obtain ⟨hk, heq, h0⟩ := hkept hp hne
    rw [heq, hc.bits _ (ho.hi hp h0)]
    refine ⟨ho.marked hp h0, fun hs => ?_⟩
    -- a cleared block sits below a root that left, this one below a root that stayed
    obtain ⟨r', hr', -, q, hq, hbelow⟩ := hS _ hs
    obtain ⟨rfl, -⟩ := ho.unshared hp hq h0 hbelow.symm
    exact hr' hk
  · exact Store.Unshared.of_sub ho.unshared fun r p hp hne => (hkept hp hne).2.1

/-! ## Data blocks -/

/-- The data of file block `k` of inode `i`; a hole reads as zeros. -/
def leaf (v : Volume) (tab : Table) (i k : Nat) : Block :=
  if blockAt v tab (i, (locate k).1) (locate k).2 = 0 then zero
  else v.disk (blockAt v tab (i, (locate k).1) (locate k).2)

theorem Grow.leaf_eq {tab' : Table} (h : Grow v tab w tab') (i : Nat) (hk : k < fsMaxFileBlocks) :
    leaf w tab' i k = leaf v tab i k := by
  have hleaf := locate_isLeaf hk i
  unfold leaf
  by_cases h0 : blockAt v tab (i, (locate k).1) (locate k).2 = 0
  · rw [if_pos h0]
    split
    · rfl
    · next hne => exact h.blank hleaf h0 hne
  · rw [h.keep hleaf.1 h0, if_neg h0, if_neg h0, h.leaves hleaf h0]

theorem Owned.store_leaf_at (ho : Owned v tab) (hk : k < fsMaxFileBlocks)
    (hb : blockAt v tab (i, (locate k).1) (locate k).2 = b) (d : Block) (r : Nat × Nat)
    (p : List Nat) (hp : indexShape.ok r p) : blockAt (v.store b d) tab r p = blockAt v tab r p := by
  have hleaf := locate_isLeaf hk i
  refine Store.at_congr (F := pointers v tab) (G := pointers (v.store b d) tab)
    (fun _ _ => rfl) ?_ hp
  intro r p l hp hne
  change indexEntry ((v.store b d).disk (blockAt v tab r p)) l =
    indexEntry (v.disk (blockAt v tab r p)) l
  rw [v.store_of_ne d]
  intro heq
  obtain ⟨rfl, rfl⟩ := ho.unshared (indexShape.ok_of_snoc hp) hleaf.1 hne (heq.trans hb.symm)
  have h1 := hp.2.1
  have h2 := hleaf.2
  rw [length_append, length_singleton] at h1
  omega

theorem Owned.store_leaf (ho : Owned v tab) (hm : Mounted v.sb) (hk : k < fsMaxFileBlocks)
    (hb : blockAt v tab (i, (locate k).1) (locate k).2 = b) (hne : b ≠ 0) (d : Block) :
    Frame (dataRegion v.sb) v (v.store b d) ∧ Owned (v.store b d) tab ∧
    ∀ j l, l < fsMaxFileBlocks →
      leaf (v.store b d) tab j l = if j = i ∧ l = k then d else leaf v tab j l := by
  have hleaf := locate_isLeaf hk i
  have hsame := ho.store_leaf_at hk hb d
  have hlo : v.sb.firstDataBlock ≤ b := hb ▸ ho.lo hleaf.1 (hb ▸ hne)
  have hframe : Frame (dataRegion v.sb) v (v.store b d) := Frame.store v d hlo
  have hbits : ∀ x, x < v.sb.totalBlocks → bmapBit (v.store b d) x = bmapBit v x := by
    intro x hx
    exact bmapBit_frame hm hframe (fun y hy => (bmapRegion_disjoint hm hy).2.2) hx
  refine ⟨hframe, ho.congr rfl hsame fun x hx h => by rwa [hbits x hx], ?_⟩
  · intro j l hl
    have hleaf' := locate_isLeaf hl j
    unfold leaf
    rw [hsame _ _ hleaf'.1]
    by_cases hjl : j = i ∧ l = k
    · obtain ⟨rfl, rfl⟩ := hjl
      rw [hb, if_neg hne, if_pos ⟨rfl, rfl⟩, Volume.store_same]
    · rw [if_neg hjl]
      split
      · rfl
      · next h0 =>
        rw [v.store_of_ne d]
        intro heq
        obtain ⟨hr, hp⟩ := ho.unshared hleaf'.1 hleaf.1 h0 (heq.trans hb.symm)
        obtain ⟨rfl, hslot⟩ := Prod.mk.inj hr
        exact hjl ⟨rfl, locate_injective (Prod.ext hslot hp)⟩

end OrangeOs.Fs
