import Mathlib.Data.List.Perm.Subperm
import OrangeOs.Memory.Heap

/-! # The shape of the heap

What the headers of the arenas and blocks look like between calls: the blocks of an arena
tile its pages, and the lists are linked both ways. A block is split and freed within one
arena; the other arenas do not notice.
-/

namespace OrangeOs.Memory.Heap

open Links Function List

theorem header_sizes : blockHeader = 48 ∧ arenaHeader = 56 ∧ heapAlignment = 8 := ⟨rfl, rfl, rfl⟩

/-! ## Tilings -/

/-- Blocks `bs` with their headers fill the bytes from `start` to `stop`. -/
def Tiled (size : Nat → Nat) : Nat → List Nat → Nat → Prop
  | start, [], stop => start = stop
  | start, b :: bs, stop => b = start ∧ Tiled size (b + blockHeader + size b) bs stop

section Tiled

variable {size size' : Nat → Nat} {start stop : Nat} {bs l r : List Nat} {b : Nat}

theorem Tiled.le (h : Tiled size start bs stop) : start + blockHeader * bs.length ≤ stop := by
  induction bs generalizing start with
  | nil =>
    have hstop : start = stop := h
    simp [hstop]
  | cons b bs ih =>
    obtain ⟨rfl, hrest⟩ := h
    have := ih hrest
    rw [length_cons, Nat.mul_succ]
    omega

theorem Tiled.congr (h : Tiled size start bs stop) (hsize : ∀ b ∈ bs, size' b = size b) :
    Tiled size' start bs stop := by
  induction bs generalizing start with
  | nil => exact h
  | cons b bs ih =>
    obtain ⟨rfl, hrest⟩ := h
    refine ⟨rfl, ?_⟩
    rw [hsize b mem_cons_self]
    exact ih hrest fun c hc => hsize c (mem_cons_of_mem b hc)

theorem Tiled.append_iff : Tiled size start (l ++ r) stop ↔
    ∃ mid, Tiled size start l mid ∧ Tiled size mid r stop := by
  induction l generalizing start with
  | nil => exact ⟨fun h => ⟨start, rfl, h⟩, fun ⟨mid, h1, h2⟩ => by rwa [show start = mid from h1]⟩
  | cons b l ih =>
    constructor
    · rintro ⟨rfl, h⟩
      obtain ⟨mid, h1, h2⟩ := ih.mp h
      exact ⟨mid, ⟨rfl, h1⟩, h2⟩
    · rintro ⟨mid, ⟨rfl, h1⟩, h2⟩
      exact ⟨rfl, ih.mpr ⟨mid, h1, h2⟩⟩

theorem Tiled.bounds (h : Tiled size start bs stop) (hb : b ∈ bs) :
    start ≤ b ∧ b + blockHeader + size b ≤ stop := by
  obtain ⟨l, r, rfl⟩ := append_of_mem hb
  obtain ⟨mid, h1, rfl, h2⟩ := Tiled.append_iff.mp h
  have := h1.le
  have := h2.le
  omega

theorem Tiled.split (h : Tiled size start (l ++ b :: r) stop) :
    Tiled size start l b ∧ Tiled size (b + blockHeader + size b) r stop := by
  obtain ⟨mid, h1, rfl, h2⟩ := Tiled.append_iff.mp h
  exact ⟨h1, h2⟩

theorem Tiled.nodup (h : Tiled size start bs stop) : bs.Nodup := by
  induction bs generalizing start with
  | nil => exact nodup_nil
  | cons b bs ih =>
    obtain ⟨rfl, hrest⟩ := h
    refine nodup_cons.mpr ⟨fun hmem => ?_, ih hrest⟩
    have := (hrest.bounds hmem).1
    unfold blockHeader at this
    omega

theorem Tiled.notMem (h : Tiled size start (l ++ b :: r) stop) : b ∉ l ∧ b ∉ r := by
  obtain ⟨h1, h2⟩ := h.split
  unfold blockHeader at h2
  refine ⟨fun hmem => ?_, fun hmem => ?_⟩
  · have := (h1.bounds hmem).2
    unfold blockHeader at this
    omega
  · have := (h2.bounds hmem).1
    omega

theorem Tiled.disjoint (h : Tiled size start bs stop) {c : Nat} (hb : b ∈ bs) (hc : c ∈ bs)
    (hne : b ≠ c) : b + blockHeader + size b ≤ c ∨ c + blockHeader + size c ≤ b := by
  obtain ⟨l, r, rfl⟩ := append_of_mem hb
  obtain ⟨h1, h2⟩ := h.split
  rcases mem_append.mp hc with hl | hr
  · exact Or.inr (h1.bounds hl).2
  · rcases mem_cons.mp hr with rfl | hr
    · exact absurd rfl hne
    · exact Or.inl (h2.bounds hr).1

end Tiled

/-! ## The blocks of an arena -/

theorem setBlock_apply (h : Heap) (b : Nat) (f : HeapBlock → HeapBlock) (x : Nat) :
    (h.setBlock b f).block x = if x = b then f (h.block b) else h.block x :=
  update_apply _ _ _ _

theorem setBlock?_apply (h : Heap) (b : Option Nat) (f : HeapBlock → HeapBlock) (x : Nat) :
    (h.setBlock? b f).block x = if b = some x then f (h.block x) else h.block x := by
  cases b with
  | none => simp [setBlock?]
  | some b =>
    rw [setBlock?, setBlock_apply]
    by_cases hx : x = b
    · simp [hx]
    · simp [hx, Ne.symm hx]

/-- The headers of the blocks `bs` of arena `a`, from `start` to `stop`. -/
structure Blocks (blk : Nat → HeapBlock) (a start stop : Nat) (bs : List Nat) : Prop where
  linked : Linked (fun b => (blk b).next) (fun b => (blk b).prev) none (some start) bs
  tiled : Tiled (fun b => (blk b).size) start bs stop
  good : ∀ b ∈ bs, (blk b).magic = heapBlockMagic ∧ (blk b).arena = a ∧
    (blk b).size % heapAlignment = 0

section Blocks

variable {blk blk' : Nat → HeapBlock} {a start stop : Nat} {bs l r : List Nat} {b c : Nat}

theorem Blocks.congr (h : Blocks blk a start stop bs)
    (hsame : ∀ b ∈ bs, blk' b = { blk b with isFree := (blk' b).isFree }) :
    Blocks blk' a start stop bs where
  linked := h.linked.congr (fun b hb => by rw [hsame b hb]) fun b hb => by rw [hsame b hb]
  tiled := h.tiled.congr fun b hb => by rw [hsame b hb]
  good b hb := by
    rw [hsame b hb]
    exact h.good b hb

theorem Blocks.next_eq (h : Blocks blk a start stop (l ++ b :: r)) : (blk b).next = r.head? :=
  h.linked.path.next_eq

theorem Blocks.prev_eq (h : Blocks blk a start stop (l ++ b :: r)) : (blk b).prev = l.getLast? := by
  rw [h.linked.prev_eq, Option.or_none]

theorem Blocks.next_tiled (h : Blocks blk a start stop (l ++ b :: c :: r)) :
    c = b + blockHeader + (blk b).size := h.tiled.split.2.1

theorem Blocks.insert {n : Nat} (h : Blocks blk a start stop (l ++ b :: r))
    (hn : n % heapAlignment = 0) (hroom : n + (blockHeader + heapAlignment) ≤ (blk b).size)
    (hc : c = b + blockHeader + n)
    (hb' : blk' b = { blk b with next := some c, size := n, isFree := (blk' b).isFree })
    (hc' : blk' c = ⟨heapBlockMagic, (blk b).size - n - blockHeader, true, (blk b).arena, some b,
      (blk b).next⟩)
    (hl : ∀ x ∈ l, blk' x = blk x)
    (hr : ∀ x ∈ r, blk' x =
      { blk x with prev := if (blk b).next = some x then some c else (blk x).prev }) :
    Blocks blk' a start stop (l ++ b :: c :: r) := by
  obtain ⟨hbefore, hafter⟩ := h.tiled.split
  obtain ⟨-, harena, hsize⟩ := h.good b (by simp)
  have htiled : Tiled (fun b => (blk' b).size) start (l ++ b :: c :: r) stop := by
    refine Tiled.append_iff.mpr ⟨b, hbefore.congr fun x hx => by rw [hl x hx], rfl, ?_, ?_⟩
    · change c = b + blockHeader + (blk' b).size
      rw [hb', hc]
    · have hend : c + blockHeader + (blk' c).size = b + blockHeader + (blk b).size := by
        rw [hc', hc]
        dsimp only
        omega
      rw [hend]
      exact hafter.congr fun x hx => by rw [hr x hx]
  refine ⟨?_, htiled, fun x hx => ?_⟩
  · refine h.linked.insertAfter htiled.nodup ?_ ?_ ?_ ?_ (fun x hx => ?_) (fun x hx => ?_)
      fun x hx => ?_
    · rw [hb']
    · rw [hb']
    · rw [hc']
    · rw [hc']
    · rw [hl x hx]
      exact ⟨rfl, rfl⟩
    · rw [hr x hx]
    · rw [hr x hx]
  · rcases mem_append.mp hx with hx | hx
    · rw [hl x hx]
      exact h.good x (by simp [hx])
    · rcases mem_cons.mp hx with rfl | hx
      · rw [hb']
        exact ⟨(h.good x (by simp)).1, harena, hn⟩
      · rcases mem_cons.mp hx with rfl | hx
        · rw [hc']
          refine ⟨rfl, harena, ?_⟩
          unfold heapAlignment blockHeader at *
          dsimp only
          omega
        · rw [hr x hx]
          exact h.good x (by simp [hx])

theorem Blocks.absorb (h : Blocks blk a start stop (l ++ b :: c :: r)) (hb' : blk' b = { blk b with
      size := (blk b).size + (blockHeader + (blk c).size), next := (blk c).next,
      isFree := (blk' b).isFree })
    (hl : ∀ x ∈ l, blk' x = blk x)
    (hr : ∀ x ∈ r, blk' x =
      { blk x with prev := if (blk c).next = some x then some b else (blk x).prev }) :
    Blocks blk' a start stop (l ++ b :: r) := by
  obtain ⟨hbefore, hc, hafter⟩ := h.tiled.split
  have hnodup := h.tiled.nodup
  obtain ⟨-, harena, hsize⟩ := h.good b (by simp)
  obtain ⟨-, -, hsize'⟩ := h.good c (by simp)
  refine ⟨?_, ?_, fun x hx => ?_⟩
  · have hassoc : l ++ b :: c :: r = (l ++ [b]) ++ c :: r := by simp
    have hlinked := h.linked
    rw [hassoc] at hlinked hnodup
    have hprev : (blk c).prev = some b := by
      have := hlinked.prev_eq
      simpa using this
    have hun : Linked (fun x => (blk' x).next) (fun x => (blk' x).prev) none
        (if l ++ [b] = [] then (blk c).next else some start) ((l ++ [b]) ++ r) := by
      refine hlinked.unlink hnodup (fun x hx => ?_) (fun x hx => by rw [hr x hx])
        fun x hx => by rw [hr x hx, hprev]
      · rcases mem_append.mp hx with hx | hx
        · have hxb : b ≠ x := by
            rintro rfl
            have := (hbefore.bounds hx).2
            unfold blockHeader at this
            omega
          simp [hl x hx, hxb]
        · rw [mem_singleton] at hx
          subst hx
          refine ⟨?_, by rw [hb']⟩
          rw [hb', getLast?_concat, if_pos rfl]
    simpa using hun
  · refine Tiled.append_iff.mpr ⟨b, hbefore.congr fun x hx => by rw [hl x hx], rfl, ?_⟩
    have hend : b + blockHeader + (blk' b).size = c + blockHeader + (blk c).size := by
      rw [hb']
      dsimp only
      omega
    rw [hend]
    exact hafter.congr fun x hx => by rw [hr x hx]
  · rcases mem_append.mp hx with hx | hx
    · rw [hl x hx]
      exact h.good x (by simp [hx])
    · rcases mem_cons.mp hx with rfl | hx
      · rw [hb']
        refine ⟨(h.good x (by simp)).1, harena, ?_⟩
        unfold heapAlignment blockHeader at *
        dsimp only
        omega
      · rw [hr x hx]
        exact h.good x (by simp [hx])

end Blocks

/-! ## Arenas -/

/-- The page `p` belongs to arena `a`. -/
def InArena (h : Heap) (a p : Nat) : Prop :=
  (h.arena a).paddr / pageSize ≤ p ∧ p < (h.arena a).paddr / pageSize + (h.arena a).pageCount

def arenaEnd (h : Heap) (a : Nat) : Nat := a + (h.arena a).pageCount * pageSize

structure ArenaShape (h : Heap) (a : Nat) (bs : List Nat) : Prop where
  magic : (h.arena a).magic = heapArenaMagic
  base : a = p2v (h.arena a).paddr
  aligned : (h.arena a).paddr % pageSize = 0
  inside : (h.arena a).paddr / pageSize + (h.arena a).pageCount ≤ h.pmm.pageCount
  first : (h.arena a).first = some (a + arenaHeader)
  blocks : Blocks h.block a (a + arenaHeader) (h.arenaEnd a) bs
  live : (h.arena a).liveBlocks = bs.countP fun b => !(h.block b).isFree
  apart : ∀ b ∈ bs, ∀ c, (h.block b).next = some c →
    (h.block b).isFree = false ∨ (h.block c).isFree = false

/-- The arenas `as`, each with its blocks. -/
structure Shape (h : Heap) (as : List Nat) (bs : Nat → List Nat) : Prop where
  sound : h.pmm.Sound
  initialized : h.initialized = true
  linked : Linked (fun a => (h.arena a).next) (fun a => (h.arena a).prev) none h.arenas as
  nodup : as.Nodup
  arena : ∀ a ∈ as, ArenaShape h a (bs a)
  owned : ∀ p, p < h.pmm.pageCount → (h.pmm.owners p = .heap ↔ ∃ a ∈ as, h.InArena a p)
  disjoint : ∀ a ∈ as, ∀ a' ∈ as, ∀ p, h.InArena a p → h.InArena a' p → a = a'

section Arena

variable {h : Heap} {a : Nat} {as bs : List Nat} {blocks : Nat → List Nat}

theorem ArenaShape.pages_pos (ha : ArenaShape h a bs) : 0 < (h.arena a).pageCount := by
  have hle := ha.blocks.tiled.le
  unfold arenaEnd arenaHeader at hle
  by_contra hzero
  rw [show (h.arena a).pageCount = 0 by omega] at hle
  omega

theorem ArenaShape.length_le (ha : ArenaShape h a bs) : bs.length ≤ h.fuel := by
  have hle := ha.blocks.tiled.le
  have hinside := ha.inside
  have hmul : (h.arena a).pageCount * pageSize ≤ h.pmm.pageCount * pageSize :=
    Nat.mul_le_mul_right _ ((Nat.le_add_left _ _).trans hinside)
  unfold arenaEnd blockHeader at hle
  unfold fuel
  omega

variable (hs : Shape h as blocks)
include hs

theorem Shape.start_injective {a a' : Nat} (ha : a ∈ as) (ha' : a' ∈ as)
    (heq : (h.arena a).paddr / pageSize = (h.arena a').paddr / pageSize) : a = a' := by
  have h1 := hs.arena a ha
  have h2 := hs.arena a' ha'
  have hpaddr : (h.arena a).paddr = (h.arena a').paddr := by
    rw [← Nat.div_add_mod (h.arena a).paddr pageSize, ← Nat.div_add_mod (h.arena a').paddr pageSize,
      heq, h1.aligned, h2.aligned]
  rw [h1.base, h2.base, hpaddr]

theorem Shape.length_le : as.length ≤ h.fuel := by
  have hnodup : (as.map fun a => (h.arena a).paddr / pageSize).Nodup :=
    hs.nodup.map_on fun a ha a' ha' heq => hs.start_injective ha ha' heq
  have hsub : (as.map fun a => (h.arena a).paddr / pageSize) ⊆ range h.pmm.pageCount := by
    intro p hp
    obtain ⟨a, ha, rfl⟩ := mem_map.mp hp
    have h1 := (hs.arena a ha).inside
    have h2 := (hs.arena a ha).pages_pos
    exact mem_range.mpr (by omega)
  have hle := (subperm_of_subset hnodup hsub).length_le
  rw [length_map, length_range] at hle
  unfold fuel pageSize
  omega

theorem Shape.arenaList_eq : h.arenaList = as :=
  hs.linked.path.walk_eq hs.length_le

theorem Shape.blockList_eq (ha : a ∈ as) : h.blockList a = blocks a := by
  have harena := hs.arena a ha
  rw [blockList, harena.first]
  exact harena.blocks.linked.path.walk_eq harena.length_le

theorem Shape.findFit_some {n b : Nat} (hfind : h.findFit n = some (a, b)) :
    a ∈ as ∧ b ∈ blocks a ∧ (h.block b).isFree = true ∧ n ≤ (h.block b).size := by
  rw [findFit, hs.arenaList_eq] at hfind
  obtain ⟨a', ha', hb⟩ := exists_of_findSome?_eq_some hfind
  rw [hs.blockList_eq ha', Option.map_eq_some_iff] at hb
  obtain ⟨b', hb', heq⟩ := hb
  cases heq
  have htest := find?_some hb'
  simp only [Bool.and_eq_true, decide_eq_true_eq] at htest
  exact ⟨ha', mem_of_find?_eq_some hb', htest⟩

theorem Shape.findFit_none {n b : Nat} (hfind : h.findFit n = none)
    (ha : a ∈ as) (hb : b ∈ blocks a) (hfree : (h.block b).isFree = true) :
    (h.block b).size < n := by
  rw [findFit, hs.arenaList_eq, findSome?_eq_none_iff] at hfind
  have hnone := hfind a ha
  rw [hs.blockList_eq ha, Option.map_eq_none_iff, find?_eq_none] at hnone
  have := hnone b hb
  simpa [hfree] using this

theorem Shape.findBlock_some {ptr b : Nat}
    (hfind : h.findBlock ptr = some b) : ∃ a ∈ as, b ∈ blocks a ∧ ptr = b + blockHeader := by
  rw [findBlock, hs.arenaList_eq] at hfind
  obtain ⟨a, ha, hb⟩ := exists_of_findSome?_eq_some hfind
  rw [if_neg (by simp [(hs.arena a ha).magic]), hs.blockList_eq ha] at hb
  have htest := find?_some hb
  simp only [Bool.and_eq_true, beq_iff_eq] at htest
  exact ⟨a, ha, mem_of_find?_eq_some hb, htest.2.symm⟩

theorem Shape.findBlock_none {ptr b : Nat}
    (hfind : h.findBlock ptr = none) (ha : a ∈ as) (hb : b ∈ blocks a) : ptr ≠ b + blockHeader := by
  rw [findBlock, hs.arenaList_eq, findSome?_eq_none_iff] at hfind
  have hnone := hfind a ha
  rw [if_neg (by simp [(hs.arena a ha).magic]), hs.blockList_eq ha, find?_eq_none] at hnone
  have := hnone b hb
  simp only [((hs.arena a ha).blocks.good b hb).1, beq_self_eq_true, Bool.true_and,
    beq_iff_eq] at this
  exact Ne.symm this

end Arena

/-! ## Changes within one arena -/

/-- `h'` is `h` but for blocks in the pages of arena `a` and its count of live blocks. -/
structure Local (h h' : Heap) (a : Nat) : Prop where
  pmm : h'.pmm = h.pmm
  arenas : h'.arenas = h.arenas
  initialized : h'.initialized = h.initialized
  others : ∀ x, x ≠ a → h'.arena x = h.arena x
  here : h'.arena a = { h.arena a with liveBlocks := (h'.arena a).liveBlocks }
  block : ∀ x, x < a ∨ h.arenaEnd a ≤ x → h'.block x = h.block x

section Local

variable {h h' : Heap} {a : Nat} {as bs bs' : List Nat} {blocks : Nat → List Nat}

theorem ArenaShape.relaid (ha : ArenaShape h a bs) (hpmm : h'.pmm.pageCount = h.pmm.pageCount)
    (harena : h'.arena a = { h.arena a with
      liveBlocks := (h'.arena a).liveBlocks, prev := (h'.arena a).prev, next := (h'.arena a).next })
    (hblocks : Blocks h'.block a (a + arenaHeader) (h.arenaEnd a) bs')
    (hlive : (h'.arena a).liveBlocks = bs'.countP fun b => !(h'.block b).isFree)
    (hapart : ∀ b ∈ bs', ∀ c, (h'.block b).next = some c →
      (h'.block b).isFree = false ∨ (h'.block c).isFree = false) : ArenaShape h' a bs' := by
  have hend : h'.arenaEnd a = h.arenaEnd a := by rw [arenaEnd, arenaEnd, harena]
  refine ⟨?_, ?_, ?_, ?_, ?_, ?_, hlive, hapart⟩
  · rw [harena]
    exact ha.magic
  · rw [harena]
    exact ha.base
  · rw [harena]
    exact ha.aligned
  · rw [harena, hpmm]
    exact ha.inside
  · rw [harena]
    exact ha.first
  · rw [hend]
    exact hblocks

theorem ArenaShape.congr (ha : ArenaShape h a bs) (hpmm : h'.pmm.pageCount = h.pmm.pageCount)
    (harena : h'.arena a = { h.arena a with prev := (h'.arena a).prev, next := (h'.arena a).next })
    (hblock : ∀ x, a ≤ x → x < h.arenaEnd a → h'.block x = h.block x) : ArenaShape h' a bs := by
  have hin : ∀ b ∈ bs, h'.block b = h.block b := by
    intro b hb
    obtain ⟨h1, h2⟩ := ha.blocks.tiled.bounds hb
    unfold blockHeader at h2
    exact hblock b (by omega) (by omega)
  refine ha.relaid hpmm (by rw [harena]) (ha.blocks.congr fun b hb => by rw [hin b hb]) ?_
    fun b hb c hc => ?_
  · rw [harena]
    refine ha.live.trans (countP_congr fun b hb => ?_)
    rw [hin b hb]
  · rw [hin b hb] at hc ⊢
    rw [hin c (ha.blocks.linked.next_mem hb hc)]
    exact ha.apart b hb c hc

theorem Shape.apart (hs : Shape h as blocks) {x : Nat} (hx : x ∈ as) (ha : a ∈ as) (hne : x ≠ a) :
    h.arenaEnd x ≤ a ∨ h.arenaEnd a ≤ x := by
  have h1 := hs.arena x hx
  have h2 := hs.arena a ha
  have hpx := h1.pages_pos
  have hpa := h2.pages_pos
  have hx1 := Nat.div_add_mod (h.arena x).paddr pageSize
  have ha1 := Nat.div_add_mod (h.arena a).paddr pageSize
  have hdisj := hs.disjoint x hx a ha
  have hbx := h1.base
  have hba := h2.base
  rw [h1.aligned] at hx1
  rw [h2.aligned] at ha1
  unfold arenaEnd p2v InArena pageSize at *
  by_cases hle : (h.arena x).paddr / 4096 ≤ (h.arena a).paddr / 4096
  · by_cases hin : (h.arena a).paddr / 4096 < (h.arena x).paddr / 4096 + (h.arena x).pageCount
    · exact absurd (hdisj _ ⟨hle, hin⟩ ⟨Nat.le_refl _, by omega⟩) hne
    · omega
  · by_cases hin : (h.arena x).paddr / 4096 < (h.arena a).paddr / 4096 + (h.arena a).pageCount
    · exact absurd (hdisj _ ⟨Nat.le_refl _, by omega⟩ ⟨by omega, hin⟩) hne
    · omega

theorem Shape.modify (hs : Shape h as blocks) (ha : a ∈ as) (hl : Local h h' a)
    (hshape : ArenaShape h' a bs) : Shape h' as (update blocks a bs) := by
  have hfield : ∀ x, h'.arena x = { h.arena x with liveBlocks := (h'.arena x).liveBlocks } := by
    intro x
    by_cases hx : x = a
    · rw [hx]
      exact hl.here
    · rw [hl.others x hx]
  have hin : ∀ x p, h'.InArena x p ↔ h.InArena x p := by
    intro x p
    rw [InArena, hfield x]
    rfl
  refine ⟨?_, ?_, ?_, hs.nodup, fun x hx => ?_, ?_, ?_⟩
  · rw [hl.pmm]
    exact hs.sound
  · rw [hl.initialized]
    exact hs.initialized
  · rw [hl.arenas]
    exact hs.linked.congr (fun x _ => by rw [hfield x]) fun x _ => by rw [hfield x]
  · by_cases hxa : x = a
    · subst hxa
      rw [update_self]
      exact hshape
    · rw [update_of_ne hxa]
      refine (hs.arena x hx).congr (by rw [hl.pmm]) (by rw [hl.others x hxa]) fun y h1 h2 => ?_
      have hdisj := hs.apart hx ha hxa
      refine hl.block y ?_
      omega
  · intro p hp
    rw [hl.pmm] at hp ⊢
    simp only [hin]
    exact hs.owned p hp
  · intro x hx x' hx' p hp hp'
    rw [hin] at hp hp'
    exact hs.disjoint x hx x' hx' p hp hp'

end Local

end OrangeOs.Memory.Heap
