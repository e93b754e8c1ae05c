import OrangeOs.Memory.HeapCalls

/-! # Runs of the kernel heap

What holds in every state that calls of the heap and of the other users of the page manager
lead to. Beside the heap a run keeps the live pointers with the sizes asked for, and for each
arena whether the page manager refused its pages when it was last offered them.
-/

namespace OrangeOs.Memory

open Machine Heap Function

structure HeapRun where
  heap : Heap
  live : Nat → Option Nat
  refused : Nat → Bool

inductive HeapOp where
  | kmalloc (ring : List ThreadPages) (n : Nat)
  | kfree (ring : List ThreadPages) (ptr : Nat)
  | pmm (op : Pmm.Op)

namespace HeapRun

/-- The answer of the page manager if the block at `ptr` is the last of its arena in use. -/
def offered (h : Heap) (ring : List ThreadPages) (ptr : Nat) (refused : Nat → Bool) : Nat → Bool :=
  match h.findBlock ptr with
  | none => refused
  | some b =>
    let a := (h.block b).arena
    let h := h.releaseBlock a b
    if (h.arena a).liveBlocks = 0 then update refused a (h.refuses ring a) else refused

def step (s : HeapRun) : HeapOp → HeapRun
  | .kmalloc ring n =>
    match s.heap.kmalloc ring n with
    | (some ptr, h) => { s with heap := h, live := update s.live ptr (some n) }
    | (none, h) => { s with heap := h }
  | .kfree ring ptr =>
    match s.heap.kfree ring ptr with
    | (true, h) => ⟨h, update s.live ptr none, offered s.heap ring ptr s.refused⟩
    | (false, h) => { s with heap := h }
  | .pmm op => { s with heap := { s.heap with pmm := s.heap.pmm.apply op } }

/-- The other users of the page manager leave the heap's pages alone. -/
def Foreign (s : HeapRun) : HeapOp → Prop
  | .pmm (.alloc _ _ owner) => owner ≠ .heap
  | .pmm (.free _ paddr n _) => ∀ p, paddr / pageSize ≤ p → p < paddr / pageSize + n →
      s.heap.pmm.owners p ≠ .heap
  | _ => True

def start (m : Pmm) (arena : Nat → HeapArena) (block : Nat → HeapBlock) : HeapRun :=
  ⟨Heap.kmallocInit m arena block, fun _ => none, fun _ => false⟩

/-! ## The invariant -/

/-- The blocks in use are the live allocations, and an empty arena was refused. -/
structure Tracks (s : HeapRun) (as : List Nat) (blocks : Nat → List Nat) : Prop where
  shape : s.heap.Shape as blocks
  live : ∀ ptr n, s.live ptr = some n →
    ∃ b, ptr = b + blockHeader ∧ s.heap.UsedAt as blocks b ∧ n ≤ (s.heap.block b).size
  used : ∀ b, s.heap.UsedAt as blocks b → s.live (b + blockHeader) ≠ none
  empty : ∀ a ∈ as, (s.heap.arena a).liveBlocks = 0 → s.refused a = true

variable {s : HeapRun} {as : List Nat} {blocks : Nat → List Nat}

theorem start_tracks {m : Pmm} (hm : m.Sound)
    (hheap : ∀ p, p < m.pageCount → m.owners p ≠ .heap) (arena : Nat → HeapArena)
    (block : Nat → HeapBlock) : Tracks (start m arena block) [] fun _ => [] where
  shape := {
    sound := hm
    initialized := rfl
    linked := rfl
    nodup := List.nodup_nil
    arena := fun a ha => by cases ha
    owned := fun p hp => ⟨fun h => absurd h (hheap p hp), fun ⟨a, ha, _⟩ => by cases ha⟩
    disjoint := fun a ha => by cases ha }
  live ptr n h := by cases h
  used b h := by
    obtain ⟨a, ha, -⟩ := h
    cases ha
  empty a ha := by cases ha

theorem Tracks.withPmm (ht : Tracks s as blocks) {h : Heap}
    (hsame : { h with pmm := s.heap.pmm } = s.heap) (hshape : h.Shape as blocks) :
    Tracks { s with heap := h } as blocks := by
  have harena : h.arena = s.heap.arena := by rw [← hsame]
  have hblock : h.block = s.heap.block := by rw [← hsame]
  refine ⟨hshape, fun ptr k hk => ?_, fun x hx => ?_, fun a hmem hzero => ?_⟩
  · dsimp only [Heap.UsedAt, Heap.Used] at hk ⊢
    rw [hblock]
    exact ht.live ptr k hk
  · dsimp only [Heap.UsedAt, Heap.Used] at hx ⊢
    rw [hblock] at hx
    exact ht.used x hx
  · rw [harena] at hzero
    exact ht.empty a hmem hzero

theorem Tracks.kmalloc (ht : Tracks s as blocks) (ring : List ThreadPages) (n : Nat) :
    ∃ as' blocks', Tracks (s.step (.kmalloc ring n)) as' blocks' := by
  have hout := ht.shape.kmalloc ring n
  unfold step
  dsimp only
  generalize s.heap.kmalloc ring n = r at hout ⊢
  cases hout with
  | @block h' as' blocks' b ha =>
    refine ⟨as', blocks', ha.shape, fun ptr k hk => ?_, fun x hx => ?_, fun a hmem hzero => ?_⟩
    · dsimp only at hk ⊢
      by_cases hptr : ptr = b + blockHeader
      · rw [hptr, update_self] at hk
        cases hk
        exact ⟨b, hptr, (ha.used b).mpr (Or.inl rfl), ha.large⟩
      · rw [update_of_ne hptr] at hk
        obtain ⟨c, hc, hused, hsize⟩ := ht.live ptr k hk
        exact ⟨c, hc, (ha.used c).mpr (Or.inr hused), by rwa [ha.sizes c hused]⟩
    · dsimp only at hx ⊢
      by_cases hxb : x = b
      · rw [hxb, update_self]
        exact Option.some_ne_none n
      · rw [update_of_ne (by omega)]
        exact ht.used x (((ha.used x).mp hx).resolve_left hxb)
    · obtain ⟨hold, hlive⟩ := ha.empty a hmem hzero
      exact ht.empty a hold hlive
  | null hsame hshape => exact ⟨as, blocks, ht.withPmm hsame hshape⟩

theorem Tracks.kfree (ht : Tracks s as blocks) (ring : List ThreadPages) (ptr : Nat) :
    ∃ as' blocks', Tracks (s.step (.kfree ring ptr)) as' blocks' := by
  by_cases hptr : ptr = 0
  · -- nothing is found at the null pointer
    subst hptr
    have hfind : s.heap.findBlock 0 = none := by
      cases hfind : s.heap.findBlock 0 with
      | none => rfl
      | some b =>
        obtain ⟨a, -, -, heq⟩ := ht.shape.findBlock_some hfind
        have := header_sizes.1
        omega
    have hdead : s.live 0 = none := by
      cases hlive : s.live 0 with
      | none => rfl
      | some n =>
        obtain ⟨b, heq, -⟩ := ht.live 0 n hlive
        have := header_sizes.1
        omega
    have hsame : s.step (.kfree ring 0) = s := by
      simp only [step, Heap.kfree, if_true, offered, hfind]
      rw [← hdead, update_eq_self]
    rw [hsame]
    exact ⟨as, blocks, ht⟩
  have hout := ht.shape.kfree ring hptr
  unfold step
  dsimp only
  generalize s.heap.kfree ring ptr = r at hout ⊢
  cases hout with
  | @freed h' as' blocks' b hfind heq hused hf =>
    refine ⟨as', blocks', hf.shape, fun q k hk => ?_, fun x hx => ?_, fun a hmem hzero => ?_⟩
    · dsimp only at hk ⊢
      by_cases hq : q = ptr
      · rw [hq, update_self] at hk
        cases hk
      · rw [update_of_ne hq] at hk
        obtain ⟨c, hc, hused', hsize⟩ := ht.live q k hk
        have hne : c ≠ b := by omega
        exact ⟨c, hc, (hf.used c).mpr ⟨hne, hused'⟩, by rwa [hf.sizes c hne hused']⟩
    · obtain ⟨hne, hx'⟩ := (hf.used x).mp hx
      dsimp only
      rw [update_of_ne (by omega)]
      exact ht.used x hx'
    · have hcase := hf.empty a hmem hzero
      simp only [offered, hfind]
      split at hcase
      next ha =>
        rw [if_pos hcase.1, ha, update_self]
        exact hcase.2
      next ha =>
        have hold := ht.empty a hcase.1 hcase.2
        split
        · rwa [update_of_ne ha]
        · exact hold
  | refused => exact ⟨as, blocks, ht⟩

/-! ## Other users of the page manager -/

theorem heap_iff_of_outcome {m : Pmm} {page count : Nat} {last : Prop} {out : Bool × Pmm}
    (ho : m.MapOutcome page count last out) (p : Nat) :
    out.2.owners p = .heap ↔ m.owners p = .heap := by
  cases ho with
  | refused => rfl
  | counted => rfl
  | freed mappable =>
    rw [(m.giveBack_givenBack mappable.1).owners p]
    split
    next hrange =>
      rw [show p = page by omega, mappable.2.2]
      exact iff_of_false (by decide) (by decide)
    · rfl

theorem Foreign.owners {op : Pmm.Op} (hop : s.Foreign (.pmm op)) (hm : s.heap.pmm.Sound) {p : Nat}
    (hp : p < s.heap.pmm.pageCount) :
    (s.heap.pmm.apply op).owners p = .heap ↔ s.heap.pmm.owners p = .heap := by
  cases op with
  | alloc ring n owner =>
    have hout := Pmm.allocPagesOwned_outcome hm ring n owner
    simp only [Pmm.apply]
    generalize s.heap.pmm.allocPagesOwned ring n owner = r at hout ⊢
    cases hout with
    | taken _ _ _ _ hfree ht =>
      rw [ht.owners p]
      split
      next hrange =>
        obtain ⟨hbit, hres⟩ := hfree p hrange.1 hrange.2
        have howner : s.heap.pmm.owners p = .free := by
          by_contra hne
          rw [(hm.allocated p hp hres).mpr hne] at hbit
          cases hbit
        rw [howner]
        exact iff_of_false hop (by decide)
      · rfl
    | invalid => rfl
    | injected => rfl
    | full => rfl
  | free ring paddr n expected =>
    have hout := s.heap.pmm.freePagesOwned_outcome ring paddr n expected
    simp only [Pmm.apply]
    generalize s.heap.pmm.freePagesOwned ring paddr n expected = r at hout ⊢
    cases hout with
    | refused => rfl
    | freed _ _ _ hg =>
      rw [hg.owners p]
      split
      next hrange =>
        exact iff_of_false (by decide) (hop p hrange.1 hrange.2)
      · rfl
  | acquire paddr => exact heap_iff_of_outcome (s.heap.pmm.acquireUserMapping_outcome paddr) p
  | release paddr => exact heap_iff_of_outcome (s.heap.pmm.releaseUserMapping_outcome paddr) p
  | inject => rfl

section

variable (ht : Tracks s as blocks)
include ht

theorem Tracks.step {op : HeapOp} (hop : s.Foreign op) :
    ∃ as' blocks', Tracks (s.step op) as' blocks' := by
  cases op with
  | kmalloc ring n => exact ht.kmalloc ring n
  | kfree ring ptr => exact ht.kfree ring ptr
  | pmm op =>
    refine ⟨as, blocks, ht.withPmm rfl ?_⟩
    exact ht.shape.withPmm (Pmm.apply_sound ht.shape.sound op)
      (Pmm.apply_stepped ht.shape.sound op).pageCount fun p hp => hop.owners ht.shape.sound hp

omit ht in
theorem tracks_run {m : Pmm} (hm : m.Sound) (hheap : ∀ p, p < m.pageCount → m.owners p ≠ .heap)
    (arena : Nat → HeapArena) (block : Nat → HeapBlock) {ops : List HeapOp}
    (hops : Throughout Foreign HeapRun.step (start m arena block) ops) :
    ∃ as blocks, Tracks (ops.foldl HeapRun.step (start m arena block)) as blocks :=
  hops.invariant (fun s => ∃ as blocks, Tracks s as blocks) (fun _ _ ⟨_, _, ht⟩ hop => ht.step hop)
    ⟨[], fun _ => [], start_tracks hm hheap arena block⟩

/-! ## Correctness -/

/-- The bytes from `ptr` on, `n` of them, lie in one arena and meet no header and no other live
allocation of `s`. -/
structure Room (s : HeapRun) (h : Heap) (as : List Nat) (blocks : Nat → List Nat) (ptr n : Nat) :
    Prop where
  inside : ∃ a ∈ as, a ≤ ptr ∧ ptr + n ≤ h.arenaEnd a
  arenaHeaders : ∀ a ∈ as, ptr + n ≤ a ∨ a + arenaHeader ≤ ptr
  blockHeaders : ∀ a ∈ as, ∀ b ∈ blocks a, ptr + n ≤ b ∨ b + blockHeader ≤ ptr
  others : ∀ q k, s.live q = some k → ptr + n ≤ q ∨ q + k ≤ ptr

/-- The state `s` of a run, and the calls from there. -/
structure Correct (s : HeapRun) : Prop where
  shape : ∃ as blocks, s.heap.Shape as blocks ∧
    ∀ a ∈ as, (s.heap.arena a).liveBlocks = 0 → s.refused a = true
  kmalloc : ∀ ring n ptr h, s.heap.kmalloc ring n = (some ptr, h) →
    ptr % heapAlignment = 0 ∧ ∃ as blocks, h.Shape as blocks ∧ Room s h as blocks ptr n
  null : ∀ ring n h, s.heap.kmalloc ring n = (none, h) → { h with pmm := s.heap.pmm } = s.heap ∧
    (n = 0 ∨ Overflows n ∨ NoRun s.heap.pmm ring (pagesFor n))
  kfree : ∀ ring ptr, ptr ≠ 0 → ((s.heap.kfree ring ptr).1 = true ↔ s.live ptr ≠ none)
  unchanged : ∀ ring ptr h, s.heap.kfree ring ptr = (false, h) → h = s.heap
  drained : (∀ ptr, s.live ptr = none) → ∀ p, p < s.heap.pmm.pageCount →
    s.heap.pmm.owners p = .heap → ∃ a, s.heap.InArena a p ∧ s.refused a = true

theorem Tracks.room {h' : Heap} {as' : List Nat} {blocks' : Nat → List Nat} {b n : Nat}
    (ha : Allocated s.heap h' as as' blocks blocks' b n) :
    Room s h' as' blocks' (b + blockHeader) n := by
  obtain ⟨e48, e56, -⟩ := header_sizes
  have hlarge := ha.large
  obtain ⟨a, hmem, hb, -⟩ := (ha.used b).mpr (Or.inl rfl)
  have hbounds := (ha.shape.arena a hmem).block_mem hb
  refine ⟨⟨a, hmem, by omega, by omega⟩, fun a' ha' => ?_, fun a' ha' c hc => ?_,
    fun q k hk => ?_⟩
  · by_cases heq : a' = a
    · subst heq
      omega
    · have hapart := ha.shape.apart ha' hmem heq
      have hpages := (ha.shape.arena a' ha').pages_pos
      have hend : a' + 4096 ≤ h'.arenaEnd a' := by
        unfold arenaEnd pageSize
        omega
      omega
  · by_cases heq : b = c
    · subst heq
      omega
    · have hdisj := ha.shape.blocks_disjoint hmem hb ha' hc heq
      omega
  · obtain ⟨c, rfl, hused, hsize⟩ := ht.live q k hk
    have hne : b ≠ c := by
      rintro rfl
      exact ha.fresh hused
    obtain ⟨a', ha', hc, -⟩ := (ha.used c).mpr (Or.inr hused)
    have hdisj := ha.shape.blocks_disjoint hmem hb ha' hc hne
    rw [ha.sizes c hused] at hdisj
    omega

theorem Tracks.kfree_iff (ring : List ThreadPages) {ptr : Nat}
    (hptr : ptr ≠ 0) : (s.heap.kfree ring ptr).1 = true ↔ s.live ptr ≠ none := by
  have hout := ht.shape.kfree ring hptr
  generalize s.heap.kfree ring ptr = r at hout ⊢
  cases hout with
  | freed _ heq hused _ =>
    rw [heq]
    exact ⟨fun _ => ht.used _ hused, fun _ => rfl⟩
  | refused hunused =>
    refine ⟨nofun, fun hlive => ?_⟩
    obtain ⟨n, hn⟩ := Option.ne_none_iff_exists'.mp hlive
    obtain ⟨b, heq, hused, -⟩ := ht.live ptr n hn
    exact absurd heq (hunused b hused)

theorem Tracks.drained (hlive : ∀ ptr, s.live ptr = none) {p : Nat}
    (hp : p < s.heap.pmm.pageCount) (howner : s.heap.pmm.owners p = .heap) :
    ∃ a, s.heap.InArena a p ∧ s.refused a = true := by
  obtain ⟨a, ha, hin⟩ := (ht.shape.owned p hp).mp howner
  refine ⟨a, hin, ht.empty a ha ?_⟩
  rw [(ht.shape.arena a ha).live, List.countP_eq_zero]
  intro b hb hfree
  exact ht.used b ⟨a, ha, hb, by simpa using hfree⟩ (hlive _)

theorem Tracks.correct : Correct s where
  shape := ⟨as, blocks, ht.shape, ht.empty⟩
  kmalloc ring n ptr h heq := by
    have hout := ht.shape.kmalloc ring n
    rw [heq] at hout
    cases hout with
    | @block _ as' blocks' b ha =>
      refine ⟨?_, as', blocks', ha.shape, ht.room ha⟩
      obtain ⟨a, hmem, hb, -⟩ := (ha.used b).mpr (Or.inl rfl)
      have haligned := ha.shape.block_aligned hmem hb
      unfold heapAlignment blockHeader at *
      omega
  null ring n h heq := by
    have hout := ht.shape.kmalloc ring n
    rw [heq] at hout
    cases hout with
    | null hsame _ hreason => exact ⟨hsame, hreason⟩
  kfree ring ptr hptr := ht.kfree_iff ring hptr
  unchanged ring ptr h heq := by
    by_cases hptr : ptr = 0
    · rw [Heap.kfree, if_pos hptr] at heq
      cases heq
    · have hout := ht.shape.kfree ring hptr
      rw [heq] at hout
      cases hout
      rfl
  drained hlive p hp howner := ht.drained hlive hp howner

end

/-- Every state of every run is correct, from any page manager without heap pages on. -/
theorem heap_runs_correct {m : Pmm} (hm : m.Sound)
    (hheap : ∀ p, p < m.pageCount → m.owners p ≠ .heap) (arena : Nat → HeapArena)
    (block : Nat → HeapBlock) {ops : List HeapOp}
    (hops : Throughout Foreign step (start m arena block) ops) :
    Correct (ops.foldl step (start m arena block)) := by
  obtain ⟨as, blocks, ht⟩ := tracks_run hm hheap arena block hops
  exact ht.correct

/-- An arena in one of the three pages above the reserved memory, with a block in use between two
that were freed. -/
theorem heap_runs_correct_boot : ∃ m₀, initPhyMemMap [⟨0, 0x204000, 1⟩] (fun _ _ => 1) [] = some m₀ ∧
    Correct ([.kmalloc [] 40, .kmalloc [] 24, .kmalloc [] 8, .kfree [] (p2v 0x201068),
      .pmm (.alloc [] 1 .user), .kfree [] (p2v 0x201108)].foldl step
      (start m₀ (fun _ => ⟨0, 0, 0, 0, none, none, none⟩)
        fun _ => ⟨0, 0, false, 0, none, none⟩)) := by
  have hinit : (initPhyMemMap [⟨0, 0x204000, 1⟩] (fun _ _ => 1) []).isSome = true := by
    decide +kernel
  obtain ⟨m₀, hm⟩ := Option.isSome_iff_exists.mp hinit
  refine ⟨m₀, hm, heap_runs_correct (initPhyMemMap_sound hm) (fun p hp howner => ?_) _ _ ?_⟩
  · rcases initPhyMemMap_owners hm hp with h | h | h <;> rw [h] at howner <;> cases howner
  · simp [Throughout, Foreign]

end HeapRun

end OrangeOs.Memory
