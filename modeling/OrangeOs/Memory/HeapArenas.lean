import OrangeOs.Memory.HeapBlocks
import OrangeOs.Memory.MemoryMap

/-! # New arenas and reclaimed ones

The calls that reach the page manager: `create_arena` places headers in pages that were
free, and `reclaim_empty_arena` gives the pages of an arena back, or keeps it if the page
manager refuses them.
-/

namespace OrangeOs.Memory.Heap

open Links Function List

variable {h h' : Heap} {as : List Nat} {blocks : Nat → List Nat} {a : Nat}

theorem ArenaShape.page_mem {bs : List Nat} (ha : ArenaShape h a bs) {x : Nat} (h1 : a ≤ x)
    (h2 : x < h.arenaEnd a) : h.InArena a ((x - pageOffset) / pageSize) := by
  have hbase := ha.base
  have hdiv := Nat.div_add_mod (h.arena a).paddr pageSize
  rw [ha.aligned] at hdiv
  unfold arenaEnd p2v at *
  unfold InArena pageSize at *
  omega

theorem Shape.getBit (hs : Shape h as blocks) (ha : a ∈ as) {p : Nat} (hp : h.InArena a p) :
    h.pmm.getBit p = true := by
  have hinside := (hs.arena a ha).inside
  have hlt : p < h.pmm.pageCount := Nat.lt_of_lt_of_le hp.2 hinside
  have howner := (hs.owned p hlt).mpr ⟨a, ha, hp⟩
  have hres : h.pmm.isReserved p = false := by
    by_contra hr
    rw [hs.sound.reserved p hlt (by simpa using hr)] at howner
    cases howner
  exact (hs.sound.allocated p hlt hres).mpr (by simp [howner])

theorem setArena?_apply (h : Heap) (a : Option Nat) (f : HeapArena → HeapArena) (x : Nat) :
    (h.setArena? a f).arena x = if a = some x then f (h.arena x) else h.arena x := by
  cases a with
  | none => simp [setArena?]
  | some a =>
    rw [setArena?, setArena_apply]
    by_cases hx : x = a
    · simp [hx]
    · simp [hx, Ne.symm hx]

theorem setArena?_rest (h : Heap) (a : Option Nat) (f : HeapArena → HeapArena) :
    (h.setArena? a f).pmm = h.pmm ∧ (h.setArena? a f).arenas = h.arenas ∧
      (h.setArena? a f).block = h.block ∧ (h.setArena? a f).initialized = h.initialized := by
  cases a <;> exact ⟨rfl, rfl, rfl, rfl⟩

/-! ## Links between arenas -/

/-- Only links between arenas change. -/
structure Relinked (h h' : Heap) : Prop where
  pmm : h'.pmm = h.pmm
  block : h'.block = h.block
  initialized : h'.initialized = h.initialized
  arena : ∀ x, h'.arena x =
    { h.arena x with prev := (h'.arena x).prev, next := (h'.arena x).next }

theorem linkArena_arena (h : Heap) (a : Nat) (hne : h.arenas ≠ some a) (x : Nat) :
    (h.linkArena a).arena x =
      if x = a then { h.arena a with prev := none, next := h.arenas }
      else { h.arena x with prev := if h.arenas = some x then some a else (h.arena x).prev } := by
  unfold linkArena
  rw [setArena?_apply, setArena_apply]
  by_cases hx : x = a
  · subst hx
    simp [setArena, hne]
  · by_cases hhead : h.arenas = some x
    · simp [setArena, hx, hhead]
    · simp [setArena, hx, hhead]

theorem linkArena_rest (h : Heap) (a : Nat) :
    (h.linkArena a).pmm = h.pmm ∧ (h.linkArena a).block = h.block ∧
      (h.linkArena a).initialized = h.initialized ∧ (h.linkArena a).arenas = some a := by
  obtain ⟨h1, -, h3, h4⟩ := setArena?_rest
    (h.setArena a fun x => { x with prev := none, next := h.arenas }) h.arenas
    fun x => { x with prev := some a }
  exact ⟨h1, h3, h4, rfl⟩

theorem linkArena_relinked (h : Heap) (a : Nat) (hne : h.arenas ≠ some a) :
    Relinked h (h.linkArena a) := by
  obtain ⟨h1, h2, h3, -⟩ := linkArena_rest h a
  refine ⟨h1, h2, h3, fun x => ?_⟩
  rw [linkArena_arena h a hne]
  split
  next heq => rw [heq]
  · rfl

theorem linkArena_linked (hl : Linked (fun a => (h.arena a).next) (fun a => (h.arena a).prev) none
      h.arenas as) (hnodup : (a :: as).Nodup) :
    Linked (fun x => ((h.linkArena a).arena x).next) (fun x => ((h.linkArena a).arena x).prev) none
      (some a) (a :: as) := by
  have hnot := (nodup_cons.mp hnodup).1
  have hat := linkArena_arena h a (hl.path.head_ne hnot)
  refine hl.push hnodup ?_ ?_ (fun y hy => ?_) fun y hy => ?_
  · rw [hat, if_pos rfl]
  · rw [hat, if_pos rfl]
  · rw [hat, if_neg (ne_of_mem_of_not_mem hy hnot)]
  · rw [hat, if_neg (ne_of_mem_of_not_mem hy hnot)]

theorem unlinkArena_arena (h : Heap) (a x : Nat) : (h.unlinkArena a).arena x = { h.arena x with
      next := if (h.arena a).prev = some x then (h.arena a).next else (h.arena x).next,
      prev := if (h.arena a).next = some x then (h.arena a).prev else (h.arena x).prev } := by
  unfold unlinkArena
  rw [setArena?_apply]
  cases (h.arena a).prev with
  | none => split <;> rfl
  | some p =>
    rw [setArena_apply]
    by_cases hx : x = p
    · subst hx
      split <;> simp
    · have hx' : some p ≠ some x := fun heq => hx (Option.some.inj heq).symm
      rw [if_neg hx, if_neg hx']
      split <;> rfl

theorem unlinkArena_relinked (h : Heap) (a : Nat) : Relinked h (h.unlinkArena a) ∧
    (h.unlinkArena a).arenas = if (h.arena a).prev = none then (h.arena a).next else h.arenas := by
  have hrest : (h.unlinkArena a).pmm = h.pmm ∧ (h.unlinkArena a).block = h.block ∧
      (h.unlinkArena a).initialized = h.initialized ∧ (h.unlinkArena a).arenas =
        if (h.arena a).prev = none then (h.arena a).next else h.arenas := by
    unfold unlinkArena
    cases (h.arena a).prev <;> cases (h.arena a).next <;> exact ⟨rfl, rfl, rfl, rfl⟩
  refine ⟨⟨hrest.1, hrest.2.1, hrest.2.2.1, fun x => ?_⟩, hrest.2.2.2⟩
  rw [unlinkArena_arena]

theorem unlinkArena_linked {l r : List Nat}
    (hl : Linked (fun a => (h.arena a).next) (fun a => (h.arena a).prev) none h.arenas
      (l ++ a :: r)) (hnodup : (l ++ a :: r).Nodup) :
    Linked (fun x => ((h.unlinkArena a).arena x).next) (fun x => ((h.unlinkArena a).arena x).prev)
      none (h.unlinkArena a).arenas (l ++ r) := by
  have hprev : (h.arena a).prev = l.getLast? := by rw [hl.prev_eq, Option.or_none]
  have hnext : (h.arena a).next = r.head? := hl.path.next_eq
  have hdisj := (nodup_append.mp hnodup).2.2
  have hhead : (h.unlinkArena a).arenas = if l = [] then (h.arena a).next else h.arenas := by
    rw [(unlinkArena_relinked h a).2, hprev]
    simp [getLast?_eq_none_iff]
  rw [hhead]
  refine hl.unlink hnodup (fun y hy => ?_) (fun y hy => ?_) fun y hy => ?_
  · rw [unlinkArena_arena, hprev, hnext]
    refine ⟨rfl, ?_⟩
    have hne : r.head? ≠ some y := fun heq =>
      hdisj y hy y (mem_cons_of_mem a (mem_of_mem_head? heq)) rfl
    rw [if_neg hne]
  · rw [unlinkArena_arena, hprev]
    have hne : l.getLast? ≠ some y := fun heq =>
      hdisj y (mem_of_getLast? heq) y (mem_cons_of_mem a hy) rfl
    rw [if_neg hne]
  · rw [unlinkArena_arena]

/-! ## A new arena -/

theorem Shape.withPmm (hs : Shape h as blocks) {m : Pmm} (hsound : m.Sound)
    (hcount : m.pageCount = h.pmm.pageCount)
    (howners : ∀ p, p < h.pmm.pageCount → (m.owners p = .heap ↔ h.pmm.owners p = .heap)) :
    Shape { h with pmm := m } as blocks where
  sound := hsound
  initialized := hs.initialized
  linked := hs.linked
  nodup := hs.nodup
  arena x hx := (hs.arena x hx).congr hcount rfl fun _ _ _ => rfl
  owned p hp := by
    have hp' : p < h.pmm.pageCount := hcount ▸ hp
    exact (howners p hp').trans (hs.owned p hp')
  disjoint := hs.disjoint

theorem placeArena_rest (h : Heap) (paddr pages : Nat) : (h.placeArena paddr pages).pmm = h.pmm ∧
      (h.placeArena paddr pages).initialized = h.initialized ∧
      (h.placeArena paddr pages).arenas = some (p2v paddr) := by
  unfold placeArena
  obtain ⟨h1, -, h3, h4⟩ := linkArena_rest _ _
  rw [h1, h3, h4]
  exact ⟨rfl, rfl, rfl⟩

theorem placeArena_block (h : Heap) (paddr pages x : Nat) :
    (h.placeArena paddr pages).block x = if x = p2v paddr + arenaHeader then
      ⟨heapBlockMagic, pages * pageSize - (arenaHeader + blockHeader), true, p2v paddr, none, none⟩
      else h.block x := by
  unfold placeArena
  rw [(linkArena_rest _ _).2.1, setBlock_apply]
  rfl

theorem placeArena_arena (h : Heap) {paddr : Nat} (pages : Nat) (hne : h.arenas ≠ some (p2v paddr))
    (x : Nat) : (h.placeArena paddr pages).arena x = if x = p2v paddr then
      ⟨heapArenaMagic, paddr, pages, 0, none, h.arenas, some (p2v paddr + arenaHeader)⟩
      else { h.arena x with
        prev := if h.arenas = some x then some (p2v paddr) else (h.arena x).prev } := by
  unfold placeArena
  rw [linkArena_arena]
  swap
  · exact hne
  by_cases hx : x = p2v paddr
  · subst hx
    simp [setArena, setBlock]
  · simp [setArena, setBlock, hx]

section Place

variable {m : Pmm} {start pages : Nat}

theorem Shape.fresh (hs : Shape h as blocks)
    (hfree : ∀ p, start ≤ p → p < start + pages → h.pmm.getBit p = false) {x : Nat} (hx : x ∈ as)
    {y : Nat} (h1 : p2v (start * pageSize) ≤ y)
    (h2 : y < p2v (start * pageSize) + pages * pageSize) : y < x ∨ h.arenaEnd x ≤ y := by
  by_contra hin
  push Not at hin
  have hpage := (hs.arena x hx).page_mem hin.1 hin.2
  have hbit := hs.getBit hx hpage
  rw [hfree] at hbit
  · cases hbit
  · unfold p2v pageSize at *
    omega
  · unfold p2v pageSize at *
    omega

theorem placed_shape (hpos : 0 < pages) (hinside : start + pages ≤ m.pageCount)
    (hne : h.arenas ≠ some (p2v (start * pageSize))) :
    ArenaShape (Heap.placeArena { h with pmm := m } (start * pageSize) pages)
      (p2v (start * pageSize)) [p2v (start * pageSize) + arenaHeader] := by
  obtain ⟨e48, e56, e8⟩ := header_sizes
  have harena := placeArena_arena { h with pmm := m } pages hne (p2v (start * pageSize))
  rw [if_pos rfl] at harena
  have hblock := placeArena_block { h with pmm := m } (start * pageSize) pages
    (p2v (start * pageSize) + arenaHeader)
  rw [if_pos rfl] at hblock
  have hbytes : arenaHeader + blockHeader ≤ pages * pageSize := by
    unfold pageSize
    omega
  refine ⟨?_, ?_, ?_, ?_, ?_, ⟨⟨rfl, ?_, ?_⟩, ⟨rfl, ?_⟩, fun b hb => ?_⟩, ?_, fun b hb c hc => ?_⟩
  · rw [harena]
  · rw [harena]
  · rw [harena]
    exact Nat.mul_mod_left _ _
  · rw [harena, (placeArena_rest _ _ _).1, Nat.mul_div_cancel _ (by decide)]
    exact hinside
  · rw [harena]
  · dsimp only
    rw [hblock]
  · dsimp only
    rw [hblock]
    rfl
  · dsimp only [Tiled]
    rw [arenaEnd, harena, hblock]
    dsimp only
    omega
  · rw [mem_singleton.mp hb, hblock]
    refine ⟨rfl, rfl, ?_⟩
    dsimp only
    unfold pageSize at hbytes ⊢
    rw [e48, e56, e8] at *
    omega
  · rw [harena, countP_singleton, hblock]
    rfl
  · rw [mem_singleton.mp hb, hblock] at hc
    cases hc

/-- What `place` gives: a new first arena with one free block, the others as before. -/
structure Placed (h h' : Heap) (as : List Nat) (blocks : Nat → List Nat) (a pages : Nat) : Prop where
  fresh : a ∉ as
  shape : Shape h' (a :: as) (update blocks a [a + arenaHeader])
  kept : ∀ x ∈ as, ∀ b ∈ blocks x, h'.block b = h.block b
  counts : ∀ x ∈ as, (h'.arena x).liveBlocks = (h.arena x).liveBlocks
  free : (h'.block (a + arenaHeader)).isFree = true
  size : (h'.block (a + arenaHeader)).size = pages * pageSize - (arenaHeader + blockHeader)

theorem Shape.place (hs : Shape h as blocks) (hsound : m.Sound)
    (hcount : m.pageCount = h.pmm.pageCount) (hpos : 0 < pages)
    (hinside : start + pages ≤ m.pageCount)
    (hfree : ∀ p, start ≤ p → p < start + pages → h.pmm.getBit p = false)
    (howners : ∀ p, m.owners p = if start ≤ p ∧ p < start + pages then .heap else h.pmm.owners p) :
    Placed h (Heap.placeArena { h with pmm := m } (start * pageSize) pages) as blocks
      (p2v (start * pageSize)) pages := by
  have hapart := fun (x : Nat) (hx : x ∈ as) (y : Nat) => hs.fresh hfree hx (y := y)
  have hbytes : arenaHeader < pages * pageSize := by
    unfold arenaHeader pageSize
    omega
  have hfresh : p2v (start * pageSize) ∉ as := fun hmem => by
    have hx := hapart _ hmem (p2v (start * pageSize)) (Nat.le_refl _) (by omega)
    have hend := (hs.arena _ hmem).pages_pos
    unfold arenaEnd at hx
    have : 0 < (h.arena (p2v (start * pageSize))).pageCount * pageSize :=
      Nat.mul_pos hend (by decide)
    omega
  have hne : h.arenas ≠ some (p2v (start * pageSize)) := hs.linked.path.head_ne hfresh
  have hnodup : (p2v (start * pageSize) :: as).Nodup := nodup_cons.mpr ⟨hfresh, hs.nodup⟩
  have hnew := placed_shape hpos hinside hne
  have harena := placeArena_arena { h with pmm := m } pages hne
  have hblock := placeArena_block { h with pmm := m } (start * pageSize) pages
  obtain ⟨hpmm, hinit, harenas⟩ := placeArena_rest { h with pmm := m } (start * pageSize) pages
  generalize hh' : Heap.placeArena { h with pmm := m } (start * pageSize) pages = h' at *
  generalize ha : p2v (start * pageSize) = a at *
  -- the old arenas keep everything but their links
  have hother : ∀ x ∈ as, h'.arena x =
      { h.arena x with prev := (h'.arena x).prev, next := (h'.arena x).next } := fun x hx => by
    rw [harena, if_neg (ne_of_mem_of_not_mem hx hfresh)]
  have hkept : ∀ x ∈ as, ∀ y, x ≤ y → y < h.arenaEnd x → h'.block y = h.block y := by
    intro x hx y h1 h2
    rw [hblock, if_neg]
    rintro rfl
    have := hapart x hx (a + arenaHeader) (by omega) (by omega)
    omega
  have hin : ∀ x ∈ as, ∀ p, h'.InArena x p ↔ h.InArena x p := fun x hx p => by
    rw [InArena, hother x hx]
    rfl
  have hinNew : ∀ p, h'.InArena a p ↔ start ≤ p ∧ p < start + pages := fun p => by
    rw [InArena, harena, if_pos rfl, Nat.mul_div_cancel _ (by decide)]
  have hdisj : ∀ x ∈ as, ∀ p, h'.InArena a p → ¬h'.InArena x p := fun x hx p h1 h2 => by
    have hbit := hs.getBit hx ((hin x hx p).mp h2)
    obtain ⟨h3, h4⟩ := (hinNew p).mp h1
    rw [hfree p h3 h4] at hbit
    cases hbit
  refine ⟨hfresh, ⟨?_, ?_, ?_, hnodup, ?_, fun p hp => ?_, ?_⟩, ?_, ?_, ?_, ?_⟩
  · rw [hpmm]
    exact hsound
  · rw [hinit]
    exact hs.initialized
  · rw [harenas]
    refine hs.linked.push hnodup ?_ ?_ (fun y hy => ?_) fun y hy => ?_
    · rw [harena, if_pos rfl]
    · rw [harena, if_pos rfl]
    · rw [harena, if_neg (ne_of_mem_of_not_mem hy hfresh)]
    · rw [harena, if_neg (ne_of_mem_of_not_mem hy hfresh)]
  · intro x hx
    rcases mem_cons.mp hx with rfl | hx
    · rw [update_self]
      exact hnew
    · rw [update_of_ne (ne_of_mem_of_not_mem hx hfresh)]
      exact (hs.arena x hx).congr (by rw [hpmm]; exact hcount) (hother x hx) (hkept x hx)
  · rw [hpmm] at hp ⊢
    rw [howners p, exists_mem_cons_iff, hinNew p]
    split
    next hrange => simp [hrange]
    next hrange =>
      rw [hs.owned p (hcount ▸ hp)]
      simp only [hrange, false_or]
      exact exists_congr fun x => and_congr_right fun hx => (hin x hx p).symm
  · intro x hx x' hx' p hp hp'
    rcases mem_cons.mp hx with hxa | hx <;> rcases mem_cons.mp hx' with hxa' | hx'
    · rw [hxa, hxa']
    · exact absurd hp' (hdisj x' hx' p (hxa ▸ hp))
    · exact absurd hp (hdisj x hx p (hxa' ▸ hp'))
    · exact hs.disjoint x hx x' hx' p ((hin x hx p).mp hp) ((hin x' hx' p).mp hp')
  · intro x hx b hb
    have hmem := (hs.arena x hx).block_mem hb
    have hpos := header_sizes.1
    exact hkept x hx b (by omega) (by omega)
  · intro x hx
    rw [hother x hx]
  · rw [hblock, if_pos rfl]
  · rw [hblock, if_pos rfl]

end Place

/-- The bytes a request needs do not fit in a page count of 32 bits. -/
def Overflows (n : Nat) : Prop :=
  (2 ^ 32 - 1) * pageSize < arenaHeader + blockHeader + (n + 7) / 8 * 8

variable {n : Nat} {ring : List ThreadPages}

/-- The pages of an arena for a request of `n` bytes. -/
def pagesFor (n : Nat) : Nat :=
  (arenaHeader + blockHeader + (n + 7) / 8 * 8 + pageSize - 1) / pageSize

theorem arenaPages_cases (n : Nat) :
    arenaPages n = none ∧ Overflows n ∨ arenaPages n = some (pagesFor n) := by
  unfold arenaPages alignSize heapAlignment Overflows pagesFor arenaHeader blockHeader pageSize
  by_cases hround : 2 ^ 64 - 1 - n < 8 - 1
  · rw [if_pos hround]
    exact Or.inl ⟨rfl, by omega⟩
  · rw [if_neg hround]
    dsimp only
    split
    · exact Or.inl ⟨rfl, by omega⟩
    · split
      · exact Or.inl ⟨rfl, by omega⟩
      · split
        · exact Or.inl ⟨rfl, by omega⟩
        · exact Or.inr rfl

theorem pagesFor_large (n : Nat) :
    0 < pagesFor n ∧ arenaHeader + blockHeader + n ≤ pagesFor n * pageSize := by
  unfold pagesFor arenaHeader blockHeader pageSize
  omega

theorem alignSize_spec {aligned : Nat} (h : alignSize n = some aligned) :
    n ≤ aligned ∧ aligned % heapAlignment = 0 ∧ aligned = (n + 7) / 8 * 8 := by
  unfold alignSize heapAlignment at *
  split at h
  · cases h
  · cases h
    omega

theorem alignSize_none (h : alignSize n = none) : Overflows n := by
  unfold alignSize heapAlignment at h
  unfold Overflows arenaHeader blockHeader pageSize
  split at h
  · omega
  · cases h

variable (hs : Shape h as blocks)
include hs

/-- The page manager gives no run of `n` pages: there is none, or a failure is injected. -/
def NoRun (m : Pmm) (ring : List ThreadPages) (n : Nat) : Prop :=
  m.failAllocations ≠ 0 ∨
    ∀ start, start + n ≤ m.pageCount → ¬FirstFit.Fits (m.available ring) n start

theorem createArena_cases (ring : List ThreadPages) (n : Nat) :
    (∃ a h', h.createArena ring n = (some a, h') ∧ Placed h h' as blocks a (pagesFor n)) ∨
    ∃ h', h.createArena ring n = (none, h') ∧ { h' with pmm := h.pmm } = h ∧ Shape h' as blocks ∧
      (Overflows n ∨ NoRun h.pmm ring (pagesFor n)) := by
  unfold createArena
  rcases arenaPages_cases n with ⟨hpages, hover⟩ | hpages
  · rw [hpages]
    exact Or.inr ⟨h, rfl, rfl, hs, Or.inl hover⟩
  · rw [hpages]
    dsimp only
    have hout := Pmm.allocPagesOwned_outcome hs.sound ring (pagesFor n) .heap
    have hsound := hout.sound hs.sound
    generalize h.pmm.allocPagesOwned ring (pagesFor n) .heap = r at hout hsound ⊢
    cases hout with
    | @taken start m' _ hpages' hpos hinside hfree htaken =>
      have hne : start * pageSize ≠ 0 := Nat.mul_ne_zero (by omega) (by decide)
      generalize hp : start * pageSize = paddr at hne ⊢
      cases paddr with
      | zero => exact absurd rfl hne
      | succ k =>
        refine Or.inl ⟨_, _, rfl, ?_⟩
        rw [← hp]
        exact hs.place { hsound with } htaken.fixed.pageCount hpages'
          (by rw [htaken.fixed.pageCount]; exact hinside)
          (fun p h1 h2 => (hfree p h1 h2).1) htaken.owners
    | invalid hbad =>
      rcases hbad with hzero | howner
      · exact absurd hzero (pagesFor_large n).1.ne'
      · cases howner
    | injected hfail =>
      exact Or.inr ⟨_, rfl, rfl, hs.withPmm hsound rfl fun _ _ => Iff.rfl, Or.inr (Or.inl hfail)⟩
    | full hnone => exact Or.inr ⟨_, rfl, rfl, hs, Or.inr (Or.inr hnone)⟩

/-! ## An arena without live blocks -/

theorem Shape.relist {as' : List Nat} (hsub : ∀ x ∈ as', x ∈ as) (hnodup : as'.Nodup)
    (harena : ∀ x, h'.arena x =
      { h.arena x with prev := (h'.arena x).prev, next := (h'.arena x).next })
    (hblock : h'.block = h.block) (hinit : h'.initialized = h.initialized)
    (hsound : h'.pmm.Sound) (hcount : h'.pmm.pageCount = h.pmm.pageCount)
    (hlinked : Linked (fun a => (h'.arena a).next) (fun a => (h'.arena a).prev) none h'.arenas as')
    (howned : ∀ p, p < h.pmm.pageCount →
      (h'.pmm.owners p = .heap ↔ ∃ a ∈ as', h.InArena a p)) : Shape h' as' blocks := by
  have hin : ∀ x p, h'.InArena x p ↔ h.InArena x p := fun x p => by
    rw [InArena, harena x]
    rfl
  refine ⟨hsound, hinit.trans hs.initialized, hlinked, hnodup, fun x hx => ?_, fun p hp => ?_, ?_⟩
  · exact (hs.arena x (hsub x hx)).congr hcount (harena x) fun y _ _ => by rw [hblock]
  · rw [howned p (hcount ▸ hp)]
    simp only [hin]
  · intro x hx x' hx' p hp hp'
    exact hs.disjoint x (hsub x hx) x' (hsub x' hx') p ((hin x p).mp hp) ((hin x' p).mp hp')

/-- The page manager does not take the pages of arena `a`. -/
def refuses (h : Heap) (ring : List ThreadPages) (a : Nat) : Bool :=
  !(h.pmm.freePagesOwned ring (h.arena a).paddr (h.arena a).pageCount .heap).1

structure Reclaimed (h h' : Heap) (ring : List ThreadPages) (a : Nat) (as as' : List Nat)
    (blocks : Nat → List Nat) : Prop where
  shape : Shape h' as' blocks
  block : h'.block = h.block
  counts : ∀ x, (h'.arena x).liveBlocks = (h.arena x).liveBlocks
  sub : ∀ x ∈ as', x ∈ as
  gone : ∀ x ∈ as, x ∈ as' ∨ x = a ∧ (h.arena a).liveBlocks = 0
  stays : a ∈ as' → (h.arena a).liveBlocks = 0 → h.refuses ring a = true

theorem Shape.reclaim_refused (ha : a ∈ as) (hrefuses : h.refuses ring a = true) :
    ∃ as', Reclaimed h ((h.unlinkArena a).linkArena a) ring a as as' blocks := by
  obtain ⟨l, r, rfl⟩ := append_of_mem ha
  have hperm : (a :: (l ++ r)).Perm (l ++ a :: r) := perm_middle.symm
  have hnodup : (a :: (l ++ r)).Nodup := hperm.nodup_iff.mpr hs.nodup
  have hlinked := unlinkArena_linked hs.linked hs.nodup
  have hne := hlinked.path.head_ne (nodup_cons.mp hnodup).1
  have hun := (unlinkArena_relinked h a).1
  have hre := linkArena_relinked (h.unlinkArena a) a hne
  have harena : ∀ x, ((h.unlinkArena a).linkArena a).arena x =
      { h.arena x with
        prev := (((h.unlinkArena a).linkArena a).arena x).prev,
        next := (((h.unlinkArena a).linkArena a).arena x).next } := fun x => by
    rw [hre.arena x, hun.arena x]
  have hpmm : ((h.unlinkArena a).linkArena a).pmm = h.pmm := hre.pmm.trans hun.pmm
  have hblock := hre.block.trans hun.block
  refine ⟨a :: (l ++ r), ?_, hblock, fun x => by rw [harena x], fun x => hperm.mem_iff.mp,
    fun x hx => Or.inl (hperm.mem_iff.mpr hx), fun _ _ => hrefuses⟩
  refine hs.relist (fun x => hperm.mem_iff.mp) hnodup harena hblock
    (hre.initialized.trans hun.initialized) (by rw [hpmm]; exact hs.sound) (by rw [hpmm]) ?_
    fun p hp => ?_
  · rw [(linkArena_rest _ a).2.2.2]
    exact linkArena_linked hlinked hnodup
  · rw [hpmm, hs.owned p hp]
    simp only [hperm.mem_iff]

theorem Shape.reclaim_freed (ha : a ∈ as)
    (hlive : (h.arena a).liveBlocks = 0) {m : Pmm} (hsound : m.Sound)
    (hback : Pmm.GivenBack h.pmm m ((h.arena a).paddr / pageSize) (h.arena a).pageCount) :
    ∃ as', Reclaimed h { h.unlinkArena a with pmm := m } ring a as as' blocks := by
  obtain ⟨l, r, rfl⟩ := append_of_mem ha
  have hnot : a ∉ l ++ r := (nodup_middle.mp hs.nodup).notMem
  have hun := (unlinkArena_relinked h a).1
  have hsub : ∀ x ∈ l ++ r, x ∈ l ++ a :: r := fun x hx =>
    perm_middle.symm.subset (mem_cons_of_mem a hx)
  have hrest : ∀ x ∈ l ++ a :: r, x ≠ a → x ∈ l ++ r := fun x hx hxa =>
    (mem_cons.mp (perm_middle.mem_iff.mp hx)).resolve_left hxa
  refine ⟨l ++ r, ?_, hun.block, fun x => by rw [hun.arena x], hsub, fun x hx => ?_,
    fun hmem _ => absurd hmem hnot⟩
  · refine hs.relist hsub (nodup_middle.mp hs.nodup).of_cons hun.arena hun.block
      hun.initialized hsound hback.fixed.pageCount (unlinkArena_linked hs.linked hs.nodup)
      fun p hp => ?_
    rw [hback.owners p]
    split
    next hrange =>
      refine ⟨fun h0 => (by cases h0), fun ⟨x, hx, hin⟩ => ?_⟩
      exact absurd (hs.disjoint x (hsub x hx) a ha p hin hrange) (ne_of_mem_of_not_mem hx hnot)
    next hrange =>
      rw [hs.owned p hp]
      constructor
      · rintro ⟨x, hx, hin⟩
        have hxa : x ≠ a := by
          rintro rfl
          exact hrange hin
        exact ⟨x, hrest x hx hxa, hin⟩
      · rintro ⟨x, hx, hin⟩
        exact ⟨x, hsub x hx, hin⟩
  · by_cases hxa : x = a
    · exact Or.inr ⟨hxa, hlive⟩
    · exact Or.inl (hrest x hx hxa)

theorem Shape.reclaim (ha : a ∈ as) (ring : List ThreadPages) :
    ∃ as', Reclaimed h (h.reclaimEmptyArena ring a) ring a as as' blocks := by
  unfold reclaimEmptyArena
  by_cases hlive : (h.arena a).liveBlocks = 0
  · rw [if_neg (not_not.mpr hlive)]
    dsimp only
    have hun := (unlinkArena_relinked h a).1
    rw [hun.pmm, hun.arena a]
    have hout := h.pmm.freePagesOwned_outcome ring (h.arena a).paddr (h.arena a).pageCount .heap
    have hsound := hout.sound hs.sound
    generalize hr : h.pmm.freePagesOwned ring (h.arena a).paddr (h.arena a).pageCount .heap = out
      at hout hsound ⊢
    cases hout with
    | refused =>
      have hrefuses : h.refuses ring a = true := by rw [refuses, hr]; rfl
      have hsame : ({ h.unlinkArena a with pmm := h.pmm } : Heap) = h.unlinkArena a := by
        rw [← hun.pmm]
      dsimp only
      rw [hsame]
      exact hs.reclaim_refused ha hrefuses
    | freed _ _ _ back => exact hs.reclaim_freed ha hlive hsound back
  · rw [if_pos hlive]
    exact ⟨as, hs, rfl, fun _ => rfl, fun _ hx => hx, fun _ hx => Or.inl hx,
      fun _ hzero => absurd hzero hlive⟩

end OrangeOs.Memory.Heap
