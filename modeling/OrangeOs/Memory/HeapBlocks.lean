import OrangeOs.Memory.HeapShape

/-! # Taking and freeing a block

The part of `kmalloc` and `kfree` that works within one arena: a free block is cut to size
and marked, a block in use is marked free and merged with its neighbours.
-/

namespace OrangeOs.Memory.Heap

open List

def Used (h : Heap) (bs : List Nat) (x : Nat) : Prop := x ∈ bs ∧ (h.block x).isFree = false

section Fields

variable (h : Heap) (b a n : Nat)

variable (f : HeapBlock → HeapBlock)

@[simp] theorem setBlock_arena : (h.setBlock b f).arena = h.arena := rfl
@[simp] theorem setBlock_pmm : (h.setBlock b f).pmm = h.pmm := rfl
@[simp] theorem setArena_block (f : HeapArena → HeapArena) : (h.setArena a f).block = h.block := rfl
@[simp] theorem setArena_pmm (f : HeapArena → HeapArena) : (h.setArena a f).pmm = h.pmm := rfl

theorem setArena_apply (f : HeapArena → HeapArena) (x : Nat) :
    (h.setArena a f).arena x = if x = a then f (h.arena a) else h.arena x :=
  Function.update_apply _ _ _ _

def SameArenas (h h' : Heap) : Prop :=
  h'.pmm = h.pmm ∧ h'.arenas = h.arenas ∧ h'.initialized = h.initialized ∧ h'.arena = h.arena

theorem setBlock_same : SameArenas h (h.setBlock b f) :=
  ⟨rfl, rfl, rfl, rfl⟩

theorem setBlock?_same (o : Option Nat) (f : HeapBlock → HeapBlock) :
    SameArenas h (h.setBlock? o f) := by
  cases o <;> exact ⟨rfl, rfl, rfl, rfl⟩

theorem SameArenas.trans {h h' h'' : Heap} (h1 : SameArenas h h') (h2 : SameArenas h' h'') :
    SameArenas h h'' :=
  ⟨h2.1.trans h1.1, h2.2.1.trans h1.2.1, h2.2.2.1.trans h1.2.2.1, h2.2.2.2.trans h1.2.2.2⟩

theorem splitBlock_same : SameArenas h (h.splitBlock b n) := by
  unfold splitBlock
  dsimp only
  split
  · exact ⟨rfl, rfl, rfl, rfl⟩
  · split
    · exact ⟨rfl, rfl, rfl, rfl⟩
    · exact ((setBlock_same h _ _).trans (setBlock?_same _ _ _)).trans (setBlock_same _ _ _)

theorem mergeWithNext_same : SameArenas h (h.mergeWithNext b) := by
  unfold mergeWithNext
  split
  · exact ⟨rfl, rfl, rfl, rfl⟩
  · split
    · exact ⟨rfl, rfl, rfl, rfl⟩
    · exact (setBlock_same h _ _).trans (setBlock?_same _ _ _)

theorem splitBlock_apply {h : Heap} {b n : Nat}
    (hroom : n + (blockHeader + heapAlignment) ≤ (h.block b).size)
    (hb : (h.block b).next ≠ some b) (hc : (h.block b).next ≠ some (b + blockHeader + n)) (x : Nat) :
    (h.splitBlock b n).block x =
      if x = b then { h.block b with next := some (b + blockHeader + n), size := n }
      else if x = b + blockHeader + n then
        ⟨heapBlockMagic, (h.block b).size - n - blockHeader, true, (h.block b).arena, some b,
          (h.block b).next⟩
      else { h.block x with
        prev := if (h.block b).next = some x then some (b + blockHeader + n)
          else (h.block x).prev } := by
  have hne : b ≠ b + blockHeader + n := by
    unfold blockHeader
    omega
  unfold splitBlock
  rw [if_neg (by omega), if_neg (by omega), setBlock_apply, setBlock?_apply, setBlock?_apply,
    setBlock_apply, setBlock_apply, if_neg hne]
  by_cases hxb : x = b
  · simp [hxb, hb]
  · by_cases hxc : x = b + blockHeader + n
    · simp [hxc, hc, Ne.symm hne]
    · by_cases hnext : (h.block b).next = some x
      · simp [hxb, hxc, hnext]
      · simp [hxb, hxc, hnext]

theorem mergeWithNext_apply {h : Heap} {b c : Nat} (hnext : (h.block b).next = some c)
    (hfree : (h.block c).isFree = true) (hc : c = b + blockHeader + (h.block b).size)
    (hb : (h.block c).next ≠ some b) (x : Nat) : (h.mergeWithNext b).block x =
      if x = b then { h.block b with
        size := (h.block b).size + (blockHeader + (h.block c).size), next := (h.block c).next }
      else { h.block x with
        prev := if (h.block c).next = some x then some b else (h.block x).prev } := by
  unfold mergeWithNext
  simp only [hnext]
  rw [if_neg (by simp [hfree, ← hc]), setBlock?_apply, setBlock_apply]
  by_cases hxb : x = b
  · simp [hxb, hb]
  · by_cases hx : (h.block c).next = some x
    · simp [hxb, hx]
    · simp [hxb, hx]

end Fields

section Arena

variable {h h' : Heap} {a : Nat} {bs bs' : List Nat}

theorem Blocks.mark {blk blk' : Nat → HeapBlock} {start stop b : Nat} {f : Bool}
    (hblocks : Blocks blk a start stop bs) (hb : b ∈ bs)
    (hblk : ∀ x, blk' x = if x = b then { blk b with isFree := f } else blk x) :
    Blocks blk' a start stop bs ∧ (bs.countP fun x => !(blk' x).isFree) + (!(blk b).isFree).toNat =
      (bs.countP fun x => !(blk x).isFree) + (!f).toNat := by
  constructor
  · refine hblocks.congr fun x _ => ?_
    rw [hblk]
    split
    next heq => rw [heq]
    · rfl
  · obtain ⟨l, r, rfl⟩ := append_of_mem hb
    obtain ⟨hbl, hbr⟩ := hblocks.tiled.notMem
    have hl : l.countP (fun x => !(blk' x).isFree) = l.countP fun x => !(blk x).isFree :=
      countP_congr fun x hx => by rw [hblk, if_neg (ne_of_mem_of_not_mem hx hbl)]
    have hr : r.countP (fun x => !(blk' x).isFree) = r.countP fun x => !(blk x).isFree :=
      countP_congr fun x hx => by rw [hblk, if_neg (ne_of_mem_of_not_mem hx hbr)]
    rw [countP_append, countP_append, countP_cons, countP_cons, hl, hr, hblk b, if_pos rfl]
    cases f <;> cases (blk b).isFree <;> simp <;> omega

/-- An arena in which neighbours may both be free where `S` says so. -/
structure Nearly (h : Heap) (a : Nat) (bs : List Nat) (S : Nat → Nat → Prop) : Prop where
  blocks : Blocks h.block a (a + arenaHeader) (h.arenaEnd a) bs
  live : (h.arena a).liveBlocks = bs.countP fun b => !(h.block b).isFree
  apart : ∀ x ∈ bs, ∀ y, (h.block x).next = some y →
    S x y ∨ (h.block x).isFree = false ∨ (h.block y).isFree = false

theorem ArenaShape.block_mem (ha : ArenaShape h a bs) {b : Nat} (hb : b ∈ bs) :
    a + arenaHeader ≤ b ∧ b + blockHeader + (h.block b).size ≤ h.arenaEnd a :=
  ha.blocks.tiled.bounds hb

/-- Block `b` has been cut, to `n` bytes at least, and is not in use yet. -/
structure CutBlock (h h' : Heap) (a b n : Nat) (bs bs' : List Nat) : Prop where
  near : Nearly h' a bs' fun x _ => x = b
  mem : b ∈ bs'
  large : n ≤ (h'.block b).size
  free : (h'.block b).isFree = true
  used : ∀ x, Used h' bs' x ↔ Used h bs x
  sizes : ∀ x, Used h bs x → (h'.block x).size = (h.block x).size
  block : ∀ x, x < a ∨ h.arenaEnd a ≤ x → h'.block x = h.block x

theorem splitBlock_small {b n : Nat} (h : Heap)
    (hsmall : (h.block b).size < n + (blockHeader + heapAlignment)) : h.splitBlock b n = h := by
  unfold splitBlock
  dsimp only
  split
  · rfl
  · rw [if_pos (by omega)]

theorem ArenaShape.cut_small (ha : ArenaShape h a bs) {b n : Nat} (hb : b ∈ bs)
    (hfree : (h.block b).isFree = true) (hsize : n ≤ (h.block b).size)
    (hsmall : (h.block b).size < n + (blockHeader + heapAlignment)) :
    CutBlock h (h.splitBlock b n) a b n bs bs := by
  rw [h.splitBlock_small hsmall]
  exact ⟨⟨ha.blocks, ha.live, fun x hx y hy => Or.inr (ha.apart x hx y hy)⟩, hb, hsize, hfree,
    fun _ => Iff.rfl, fun _ _ => rfl, fun _ _ => rfl⟩

theorem ArenaShape.cut_large (ha : ArenaShape h a bs) {b n : Nat} (hb : b ∈ bs)
    (hfree : (h.block b).isFree = true) (hn : n % heapAlignment = 0)
    (hroom : n + (blockHeader + heapAlignment) ≤ (h.block b).size) :
    ∃ bs', CutBlock h (h.splitBlock b n) a b n bs bs' := by
  obtain ⟨e48, e56, e8⟩ := header_sizes
  obtain ⟨l, r, rfl⟩ := append_of_mem hb
  obtain ⟨hbl, hbr⟩ := ha.blocks.tiled.notMem
  obtain ⟨hbefore, hafter⟩ := ha.blocks.tiled.split
  have hnext := ha.blocks.next_eq
  obtain ⟨c, hc⟩ : ∃ c, c = b + blockHeader + n := ⟨_, rfl⟩
  have hin := ha.block_mem hb
  have hcl : c ∉ l := fun hmem => by
    have := (hbefore.bounds hmem).2
    omega
  have hcr : c ∉ r := fun hmem => by
    have := (hafter.bounds hmem).1
    omega
  have hcb : c ≠ b := by
    omega
  have hnew : c ∉ l ++ b :: r := by simp [hcl, hcb, hcr]
  have hnb : (h.block b).next ≠ some b := by
    rw [hnext]
    exact fun heq => hbr (mem_of_mem_head? heq)
  have hnc : (h.block b).next ≠ some c := by
    rw [hnext]
    exact fun heq => hcr (mem_of_mem_head? heq)
  have hblk := splitBlock_apply hroom hnb (hc ▸ hnc)
  rw [← hc] at hblk
  have hflag : ∀ x, ((h.splitBlock b n).block x).isFree =
      if x = c then true else (h.block x).isFree := fun x => by
    rw [hblk]
    by_cases hxb : x = b
    · simp [hxb, Ne.symm hcb]
    · rw [if_neg hxb]
      split <;> rfl
  have hsame : ∀ x ∈ l ++ b :: r, ((h.splitBlock b n).block x).isFree = (h.block x).isFree :=
    fun x hx => by rw [hflag, if_neg (ne_of_mem_of_not_mem hx hnew)]
  have harena := (splitBlock_same h b n).2.2.2
  refine ⟨l ++ b :: c :: r, ⟨?_, ?_, fun x hx y hy => ?_⟩, by simp, ?_, ?_, fun x => ?_,
    fun x hx => ?_, fun x hx => ?_⟩
  · rw [arenaEnd, harena]
    refine ha.blocks.insert hn hroom hc ?_ ?_ (fun x hx => ?_) fun x hx => ?_
    · rw [hblk, if_pos rfl]
    · rw [hblk, if_neg hcb, if_pos rfl]
    · have hxn : (h.block b).next ≠ some x := fun heq => by
        rw [hnext] at heq
        have h1 := (hbefore.bounds hx).2
        have h2 := (hafter.bounds (mem_of_mem_head? heq)).1
        omega
      rw [hblk, if_neg (ne_of_mem_of_not_mem hx hbl), if_neg (ne_of_mem_of_not_mem hx hcl),
        if_neg hxn]
    · rw [hblk, if_neg (ne_of_mem_of_not_mem hx hbr), if_neg (ne_of_mem_of_not_mem hx hcr)]
  · have hperm : (l ++ b :: c :: r).Perm (c :: (l ++ b :: r)) := by
      rw [append_cons, append_cons l b r]
      exact perm_middle
    rw [harena, ha.live, hperm.countP_eq, countP_cons_of_neg (by simp [hflag])]
    exact countP_congr fun x hx => by rw [hsame x hx]
  · by_cases hxb : x = b
    · exact Or.inl hxb
    · right
      rw [hblk, if_neg hxb] at hy
      by_cases hxc : x = c
      · -- behind the new block is what was behind the old one
        rw [if_pos hxc] at hy
        rw [hsame y (ha.blocks.linked.next_mem hb hy)]
        exact Or.inr ((ha.apart b hb y hy).resolve_left (by simp [hfree]))
      · rw [if_neg hxc] at hy
        have hxmem : x ∈ l ++ b :: r := by
          simp only [mem_append, mem_cons] at hx ⊢
          tauto
        rw [hsame x hxmem, hsame y (ha.blocks.linked.next_mem hxmem hy)]
        exact ha.apart x hxmem y hy
  · rw [hblk, if_pos rfl]
  · rw [hsame b hb]
    exact hfree
  · simp only [Used, hflag, mem_append, mem_cons]
    by_cases hxc : x = c
    · simp [hxc, hcb, hcl, hcr]
    · simp [hxc]
  · have hxb : x ≠ b := by
      rintro rfl
      rw [hx.2] at hfree
      cases hfree
    rw [hblk, if_neg hxb, if_neg (ne_of_mem_of_not_mem hx.1 hnew)]
  · have hxn : (h.block b).next ≠ some x := fun heq => by
      have hbounds := ha.block_mem (ha.blocks.linked.next_mem hb heq)
      omega
    rw [hblk, if_neg (by omega), if_neg (by omega), if_neg hxn]

/-- What taking block `b` does to the blocks in use. -/
structure TookBlock (h h' : Heap) (a b n : Nat) (bs bs' : List Nat) : Prop where
  shape : ArenaShape h' a bs'
  here : Local h h' a
  used : ∀ x, Used h' bs' x ↔ x = b ∨ Used h bs x
  large : n ≤ (h'.block b).size
  sizes : ∀ x, Used h bs x → (h'.block x).size = (h.block x).size

theorem ArenaShape.take (ha : ArenaShape h a bs) {b n : Nat} (hb : b ∈ bs)
    (hfree : (h.block b).isFree = true) (hn : n % heapAlignment = 0)
    (hsize : n ≤ (h.block b).size) : ∃ bs', TookBlock h (h.takeBlock a b n).2 a b n bs bs' := by
  obtain ⟨bs', hcut⟩ : ∃ bs', CutBlock h (h.splitBlock b n) a b n bs bs' := by
    by_cases hroom : n + (blockHeader + heapAlignment) ≤ (h.block b).size
    · exact ha.cut_large hb hfree hn hroom
    · exact ⟨bs, ha.cut_small hb hfree hsize (by omega)⟩
  obtain ⟨h1, h2, h3, h4⟩ := splitBlock_same h b n
  have hin := ha.block_mem hb
  have hblk : ∀ x, (h.takeBlock a b n).2.block x =
      if x = b then { (h.splitBlock b n).block b with isFree := false }
      else (h.splitBlock b n).block x :=
    (h.splitBlock b n).setBlock_apply b fun y => { y with isFree := false }
  have hlocal : Local h (h.takeBlock a b n).2 a := by
    refine ⟨h1, h2, h3, fun x hx => ?_, ?_, fun x hx => ?_⟩
    · simp [takeBlock, setArena_apply, hx, h4]
    · simp [takeBlock, setArena_apply, h4]
    · unfold blockHeader at hin
      rw [hblk, if_neg (by omega), hcut.block x hx]
  obtain ⟨hblocks, hcount⟩ := hcut.near.blocks.mark hcut.mem hblk
  rw [arenaEnd, h4] at hblocks
  refine ⟨bs', ha.relaid (by rw [hlocal.pmm]) (by rw [hlocal.here]) hblocks ?_
    fun x hx y hy => ?_, hlocal, fun x => ?_, ?_, fun x hx => ?_⟩
  · rw [← hcut.near.live] at hcount
    simpa [takeBlock, setArena_apply, hcut.free] using hcount.symm
  · rw [hblk] at hy
    rw [hblk x, hblk y]
    by_cases hxb : x = b
    · simp [hxb]
    · rw [if_neg hxb] at hy ⊢
      by_cases hyb : y = b
      · simp [hyb]
      · rw [if_neg hyb]
        exact (hcut.near.apart x hx y hy).resolve_left hxb
  · rw [← hcut.used x]
    simp only [Used, hblk]
    by_cases hxb : x = b
    · simp [hxb, hcut.mem]
    · simp [hxb]
  · rw [hblk, if_pos rfl]
    exact hcut.large
  · rw [← hcut.sizes x hx, hblk]
    split
    next heq => rw [heq]
    · rfl

/-! ## Freeing -/

/-- What a merge at block `b` changes. -/
structure Merged (h h' : Heap) (a b : Nat) (bs bs' : List Nat) : Prop where
  same : SameArenas h h'
  flags : ∀ x, (h'.block x).isFree = (h.block x).isFree
  used : ∀ x, Used h' bs' x ↔ Used h bs x
  sizes : ∀ x, x ≠ b → (h'.block x).size = (h.block x).size
  block : ∀ x, x < a ∨ h.arenaEnd a ≤ x → h'.block x = h.block x
  prev : (h'.block b).prev = (h.block b).prev

theorem Merged.refl (h : Heap) (a b : Nat) (bs : List Nat) : Merged h h a b bs bs :=
  ⟨⟨rfl, rfl, rfl, rfl⟩, fun _ => rfl, fun _ => Iff.rfl, fun _ _ => rfl, fun _ _ => rfl, rfl⟩

theorem mergeWithNext_of_used {b : Nat}
    (hused : ∀ c, (h.block b).next = some c → (h.block c).isFree = false) :
    h.mergeWithNext b = h := by
  unfold mergeWithNext
  cases hnext : (h.block b).next with
  | none => rfl
  | some c =>
    dsimp only
    rw [if_pos (Or.inl (hused c hnext))]

theorem Nearly.absorb {S : Nat → Nat → Prop} {l r : List Nat} {b c : Nat}
    (hn : Nearly h a (l ++ b :: c :: r) S) (hfree : (h.block c).isFree = true)
    (hS : ∀ y, (h.block c).next = some y → ¬S c y) :
    Nearly (h.mergeWithNext b) a (l ++ b :: r) (fun x y => S x y ∧ x ≠ b) ∧
      Merged h (h.mergeWithNext b) a b (l ++ b :: c :: r) (l ++ b :: r) := by
  obtain ⟨e48, e56, e8⟩ := header_sizes
  obtain ⟨hbl, hbr⟩ := hn.blocks.tiled.notMem
  have hcmem : c ∈ l ++ b :: c :: r := by simp
  have hnextb : (h.block b).next = some c := hn.blocks.next_eq
  have hc := hn.blocks.next_tiled
  have hassoc : l ++ b :: c :: r = (l ++ [b]) ++ c :: r := by simp
  have hnextc : (h.block c).next = r.head? := by
    have hblocks := hn.blocks
    rw [hassoc] at hblocks
    exact hblocks.next_eq
  obtain ⟨hcl, hcr⟩ : c ∉ l ++ [b] ∧ c ∉ r := by
    have htiled := hn.blocks.tiled
    rw [hassoc] at htiled
    exact htiled.notMem
  have hnb : (h.block c).next ≠ some b := by
    rw [hnextc]
    exact fun heq => hbr (mem_cons_of_mem c (mem_of_mem_head? heq))
  have hblk := mergeWithNext_apply hnextb hfree hc hnb
  have hflag : ∀ x, ((h.mergeWithNext b).block x).isFree = (h.block x).isFree := fun x => by
    rw [hblk]
    split
    next heq => rw [heq]
    · rfl
  have hend : (h.mergeWithNext b).arenaEnd a = h.arenaEnd a := by
    rw [arenaEnd, arenaEnd, (mergeWithNext_same h b).2.2.2]
  refine ⟨⟨?_, ?_, fun x hx y hy => ?_⟩, mergeWithNext_same h b, hflag, fun x => ?_, fun x hx => ?_,
    fun x hx => ?_, ?_⟩
  · rw [hend]
    refine hn.blocks.absorb ?_ (fun x hx => ?_) fun x hx => ?_
    · rw [hblk, if_pos rfl]
    · have hxn : (h.block c).next ≠ some x := fun heq => by
        have h1 := (hn.blocks.tiled.split.1.bounds hx).2
        rw [hnextc] at heq
        have h2 := (hn.blocks.tiled.split.2.2.bounds (mem_of_mem_head? heq)).1
        omega
      rw [hblk, if_neg (ne_of_mem_of_not_mem hx hbl), if_neg hxn]
    · rw [hblk, if_neg (ne_of_mem_of_not_mem (mem_cons_of_mem c hx) hbr)]
  · rw [(mergeWithNext_same h b).2.2.2, hn.live]
    simp only [hflag, countP_append, countP_cons, hfree, Bool.not_true]
    simp
  · rw [hflag x, hflag y]
    rw [hblk] at hy
    split at hy
    · have := (hn.apart c hcmem y hy).resolve_left (hS y hy)
      exact Or.inr (Or.inr (this.resolve_left (by simp [hfree])))
    next hxb =>
      have hxmem : x ∈ l ++ b :: c :: r := by
        simp only [mem_append, mem_cons] at hx ⊢
        tauto
      rcases hn.apart x hxmem y hy with hs | hrest
      · exact Or.inl ⟨hs, hxb⟩
      · exact Or.inr hrest
  · simp only [Used, hflag, mem_append, mem_cons]
    by_cases hxc : x = c
    · simp [hxc, hfree]
    · simp [hxc]
  · rw [hblk, if_neg hx]
  · have hb := hn.blocks.tiled.bounds (show b ∈ l ++ b :: c :: r by simp)
    have hxb : x ≠ b := by omega
    have hxn : (h.block c).next ≠ some x := fun heq => by
      have hin := hn.blocks.tiled.bounds (hn.blocks.linked.next_mem hcmem heq)
      omega
    rw [hblk, if_neg hxb, if_neg hxn]
  · rw [hblk, if_pos rfl]

theorem Nearly.merge {S : Nat → Nat → Prop} {l r : List Nat} {b : Nat}
    (hn : Nearly h a (l ++ b :: r) S)
    (hS : ∀ c y, (h.block b).next = some c → (h.block c).next = some y → ¬S c y) :
    ∃ r', Nearly (h.mergeWithNext b) a (l ++ b :: r') (fun x y => S x y ∧ x ≠ b) ∧
      Merged h (h.mergeWithNext b) a b (l ++ b :: r) (l ++ b :: r') := by
  by_cases hused : ∀ c, (h.block b).next = some c → (h.block c).isFree = false
  · rw [mergeWithNext_of_used hused]
    refine ⟨r, ⟨hn.blocks, hn.live, fun x hx y hy => ?_⟩, Merged.refl h a b _⟩
    by_cases hxb : x = b
    · rw [hxb] at hy
      exact Or.inr (Or.inr (hused y hy))
    · rcases hn.apart x hx y hy with hs | hrest
      · exact Or.inl ⟨hs, hxb⟩
      · exact Or.inr hrest
  · push Not at hused
    obtain ⟨c, hc, hfree⟩ := hused
    have hr := hn.blocks.next_eq
    rw [hc] at hr
    cases r with
    | nil => cases hr
    | cons d r =>
      cases hr
      exact ⟨r, hn.absorb (by simpa using hfree) fun y hy => hS c y hc hy⟩

/-- What freeing block `b` does to the blocks in use. -/
structure FreedBlock (h h' : Heap) (a b : Nat) (bs bs' : List Nat) : Prop where
  shape : ArenaShape h' a bs'
  here : Local h h' a
  used : ∀ x, Used h' bs' x ↔ x ≠ b ∧ Used h bs x
  sizes : ∀ x, x ≠ b → Used h bs x → (h'.block x).size = (h.block x).size

theorem markFree_apply (h : Heap) (a b x : Nat) : (h.markFree a b).block x =
    if x = b then { h.block b with isFree := true } else h.block x :=
  h.setBlock_apply b (fun x => { x with isFree := true }) x

theorem markFree_local {b : Nat} (hb : a ≤ b ∧ b < h.arenaEnd a) : Local h (h.markFree a b) a := by
  refine ⟨rfl, rfl, rfl, fun x hx => ?_, ?_, fun x hx => ?_⟩
  · simp [markFree, setArena_apply, hx]
  · simp [markFree, setArena_apply]
  · rw [markFree_apply, if_neg (by omega)]

theorem ArenaShape.markFree (ha : ArenaShape h a bs) {b : Nat} (hb : Used h bs b) :
    Nearly (h.markFree a b) a bs fun x y => x = b ∨ y = b := by
  obtain ⟨hmem, hflag⟩ := hb
  have hend : (h.markFree a b).arenaEnd a = h.arenaEnd a := by
    simp [arenaEnd, Heap.markFree, setArena_apply]
  obtain ⟨hblocks, hcount⟩ := ha.blocks.mark hmem (h.markFree_apply a b)
  rw [← hend] at hblocks
  refine ⟨hblocks, ?_, fun x hx y hy => ?_⟩
  · have hlive : ((h.markFree a b).arena a).liveBlocks = (h.arena a).liveBlocks - 1 := by
      simp [Heap.markFree, setArena_apply]
    simp only [hflag, Bool.not_false, Bool.toNat_true, Bool.not_true, Bool.toNat_false] at hcount
    rw [hlive, ha.live]
    omega
  · by_cases hxy : x = b ∨ y = b
    · exact Or.inl hxy
    · simp only [not_or] at hxy
      rw [markFree_apply, if_neg hxy.1] at hy
      rw [markFree_apply, markFree_apply, if_neg hxy.1, if_neg hxy.2]
      exact Or.inr (ha.apart x hx y hy)

theorem Local.of_same {h h₁ h₂ : Heap} (hl : Local h h₁ a) (hs : SameArenas h₁ h₂)
    (hblock : ∀ x, x < a ∨ h.arenaEnd a ≤ x → h₂.block x = h₁.block x) : Local h h₂ a := by
  obtain ⟨h1, h2, h3, h4⟩ := hs
  refine ⟨h1.trans hl.pmm, h2.trans hl.arenas, h3.trans hl.initialized, fun x hx => ?_, ?_,
    fun x hx => (hblock x hx).trans (hl.block x hx)⟩
  · rw [h4]
    exact hl.others x hx
  · rw [h4]
    exact hl.here

theorem ArenaShape.settled (ha : ArenaShape h a bs) (hl : Local h h' a)
    {S : Nat → Nat → Prop} (hn : Nearly h' a bs' S)
    (hS : ∀ x ∈ bs', ∀ y, (h'.block x).next = some y → S x y →
      (h'.block x).isFree = false ∨ (h'.block y).isFree = false) : ArenaShape h' a bs' := by
  have hend : h'.arenaEnd a = h.arenaEnd a := by rw [arenaEnd, arenaEnd, hl.here]
  refine ha.relaid (by rw [hl.pmm]) (by rw [hl.here]) (hend ▸ hn.blocks) hn.live fun x hx y hy => ?_
  rcases hn.apart x hx y hy with hs | hrest
  · exact hS x hx y hy hs
  · exact hrest

theorem ArenaShape.release (ha : ArenaShape h a bs) {b : Nat} (hb : Used h bs b) :
    ∃ bs', FreedBlock h (h.releaseBlock a b) a b bs bs' := by
  obtain ⟨e48, e56, e8⟩ := header_sizes
  have hbounds := ha.block_mem hb.1
  have hmark := ha.markFree hb
  have hlocal : Local h (h.markFree a b) a := markFree_local (by omega)
  have hend : (h.markFree a b).arenaEnd a = h.arenaEnd a := by rw [arenaEnd, arenaEnd, hlocal.here]
  have hflag : ∀ x, ((h.markFree a b).block x).isFree = true ↔ x = b ∨ (h.block x).isFree = true := by
    intro x
    rw [markFree_apply]
    by_cases hx : x = b <;> simp [hx]
  obtain ⟨l, r, rfl⟩ := append_of_mem hb.1
  obtain ⟨hbl, hbr⟩ := ha.blocks.tiled.notMem
  -- behind `b` everything else is as before, so the first merge settles that side
  obtain ⟨r', hnear, hmerged⟩ := hmark.merge fun c y hc hy => by
    have hr := hmark.blocks.next_eq
    rw [hc] at hr
    cases r with
    | nil => cases hr
    | cons d r =>
      cases hr
      have hblocks := hmark.blocks
      rw [show l ++ b :: c :: r = (l ++ [b]) ++ c :: r by simp] at hblocks
      rw [hblocks.next_eq] at hy
      simp only [mem_cons, not_or] at hbr
      rintro (rfl | rfl)
      · exact hbr.1 rfl
      · exact hbr.2 (mem_of_mem_head? hy)
  have hlocal' := hlocal.of_same hmerged.same fun x hx => hmerged.block x (by rwa [hend])
  have hused : ∀ x, Used ((h.markFree a b).mergeWithNext b) (l ++ b :: r') x ↔
      x ≠ b ∧ Used h (l ++ b :: r) x := by
    intro x
    rw [hmerged.used, Used, Used, markFree_apply]
    by_cases hx : x = b <;> simp [hx]
  have hsizes : ∀ x, x ≠ b →
      (((h.markFree a b).mergeWithNext b).block x).size = (h.block x).size := fun x hx => by
    rw [hmerged.sizes x hx, markFree_apply, if_neg hx]
  have hprev := hnear.blocks.prev_eq
  have honly : ∀ x ∈ l ++ b :: r',
      (((h.markFree a b).mergeWithNext b).block x).next = some b → l.getLast? = some x :=
    fun x hx hy => hprev ▸ hnear.blocks.linked.prev_of_next hx hy
  unfold releaseBlock
  cases hlast : l.getLast? with
  | none =>
    simp only [hprev, hlast]
    refine ⟨l ++ b :: r', ha.settled hlocal' hnear fun x hx y hy hs => ?_, hlocal', hused,
      fun x hx _ => hsizes x hx⟩
    rcases hs.1 with rfl | rfl
    · exact absurd rfl hs.2
    · rw [honly x hx hy] at hlast
      cases hlast
  | some p =>
    simp only [hprev, hlast]
    by_cases hp : (((h.markFree a b).mergeWithNext b).block p).isFree = true
    · -- `p` takes over `b`, which is then in the list no more
      obtain ⟨l0, rfl⟩ := getLast?_eq_some_iff.mp hlast
      have hassoc : l0 ++ [p] ++ b :: r' = l0 ++ p :: b :: r' := by simp
      have hbfree : (((h.markFree a b).mergeWithNext b).block b).isFree = true := by
        rw [hmerged.flags, hflag]
        exact Or.inl rfl
      have hgone : b ∉ l0 ++ p :: r' := by
        have hnot := hnear.blocks.tiled.notMem
        simp only [mem_append, mem_singleton, not_or] at hnot
        simp [hnot]
      rw [hassoc] at hnear hused
      obtain ⟨hnear', hmerged'⟩ := hnear.absorb hbfree fun y _ hs => hs.2 rfl
      have hend' : ((h.markFree a b).mergeWithNext b).arenaEnd a = h.arenaEnd a := by
        rw [arenaEnd, arenaEnd, hlocal'.here]
      have hlocal'' := hlocal'.of_same hmerged'.same fun x hx => hmerged'.block x (by rwa [hend'])
      rw [if_pos hp]
      refine ⟨l0 ++ p :: r', ha.settled hlocal'' hnear' fun x hx y hy hs => ?_, hlocal'',
        fun x => (hmerged'.used x).trans (hused x), fun x hx hxu => ?_⟩
      · rcases hs.1.1 with rfl | rfl
        · exact absurd rfl hs.1.2
        · exact absurd (hnear'.blocks.linked.next_mem hx hy) hgone
      · have hxp : x ≠ p := by
          rintro rfl
          rw [((hused x).mpr ⟨hx, hxu⟩).2] at hp
          cases hp
        rw [hmerged'.sizes x hxp, hsizes x hx]
    · rw [if_neg hp]
      refine ⟨l ++ b :: r', ha.settled hlocal' hnear fun x hx y hy hs => ?_, hlocal', hused,
        fun x hx _ => hsizes x hx⟩
      rcases hs.1 with rfl | rfl
      · exact absurd rfl hs.2
      · have hxp := honly x hx hy
        rw [hlast] at hxp
        cases hxp
        exact Or.inl (by simpa using hp)

end Arena

end OrangeOs.Memory.Heap
