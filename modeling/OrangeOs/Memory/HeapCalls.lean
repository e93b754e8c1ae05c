import OrangeOs.Memory.HeapArenas

/-! # The calls of the kernel heap

`kmalloc` and `kfree` on the whole heap: which blocks are in use afterwards, how large they
are, and which arenas are left without one.
-/

namespace OrangeOs.Memory.Heap

open Function List

/-- Some arena has the block `x` in use. -/
def UsedAt (h : Heap) (as : List Nat) (blocks : Nat → List Nat) (x : Nat) : Prop :=
  ∃ a ∈ as, Used h (blocks a) x

section Layout

variable {h h' : Heap} {as bs' : List Nat} {blocks : Nat → List Nat} {a b c : Nat}

theorem Tiled.aligned {size : Nat → Nat} {start stop : Nat} {bs : List Nat}
    (h : Tiled size start bs stop) (hstart : start % heapAlignment = 0)
    (hsize : ∀ b ∈ bs, size b % heapAlignment = 0) : ∀ b ∈ bs, b % heapAlignment = 0 := by
  induction bs generalizing start with
  | nil => exact fun b hb => by cases hb
  | cons c bs ih =>
    obtain ⟨rfl, hrest⟩ := h
    have hc := hsize c mem_cons_self
    have hnext : (c + blockHeader + size c) % heapAlignment = 0 := by
      unfold heapAlignment blockHeader at *
      omega
    intro b hb
    rcases mem_cons.mp hb with rfl | hb
    · exact hstart
    · exact ih hrest hnext (fun d hd => hsize d (mem_cons_of_mem c hd)) b hb

theorem Shape.block_aligned (hs : Shape h as blocks) (ha : a ∈ as) (hb : b ∈ blocks a) :
    b % heapAlignment = 0 := by
  have harena := hs.arena a ha
  refine harena.blocks.tiled.aligned ?_ (fun c hc => (harena.blocks.good c hc).2.2) b hb
  have hbase := harena.base
  have haligned := harena.aligned
  unfold p2v pageOffset at hbase
  unfold heapAlignment arenaHeader
  unfold pageSize at haligned
  omega

theorem Shape.blocks_disjoint (hs : Shape h as blocks) {a' : Nat} (ha : a ∈ as)
    (hb : b ∈ blocks a) (ha' : a' ∈ as) (hc : c ∈ blocks a') (hne : b ≠ c) :
    b + blockHeader + (h.block b).size ≤ c ∨ c + blockHeader + (h.block c).size ≤ b := by
  by_cases heq : a = a'
  · subst heq
    exact (hs.arena a ha).blocks.tiled.disjoint hb hc hne
  · have hapart := hs.apart ha ha' heq
    have hbounds := (hs.arena a ha).block_mem hb
    have hbounds' := (hs.arena a' ha').block_mem hc
    omega

theorem Shape.other_block (hs : Shape h as blocks) (ha : a ∈ as) (hl : Local h h' a) {a' x : Nat}
    (ha' : a' ∈ as) (hne : a' ≠ a) (hx : x ∈ blocks a') : h'.block x = h.block x := by
  have hbounds := (hs.arena a' ha').block_mem hx
  have hapart := hs.apart ha' ha hne
  have hsize := header_sizes.1
  exact hl.block x (by omega)

theorem usedAt_split (ha : a ∈ as) (x : Nat) : UsedAt h as blocks x ↔
    Used h (blocks a) x ∨ ∃ a' ∈ as, a' ≠ a ∧ Used h (blocks a') x := by
  constructor
  · rintro ⟨a', ha', hused⟩
    by_cases heq : a' = a
    · subst heq
      exact Or.inl hused
    · exact Or.inr ⟨a', ha', heq, hused⟩
  · rintro (hused | ⟨a', ha', -, hused⟩)
    · exact ⟨a, ha, hused⟩
    · exact ⟨a', ha', hused⟩

theorem Shape.usedAt_iff (hs : Shape h as blocks) (ha : a ∈ as) (hl : Local h h' a) (x : Nat) :
    UsedAt h' as (update blocks a bs') x ↔
      Used h' bs' x ∨ ∃ a' ∈ as, a' ≠ a ∧ Used h (blocks a') x := by
  rw [usedAt_split ha, update_self]
  refine or_congr_right (exists_congr fun a' => and_congr_right fun ha' =>
    and_congr_right fun hne => ?_)
  rw [update_of_ne hne]
  exact and_congr_right fun hx => by rw [hs.other_block ha hl ha' hne hx]

theorem ArenaShape.live_pos {bs : List Nat} (ha : ArenaShape h a bs) (hb : Used h bs b) :
    (h.arena a).liveBlocks ≠ 0 := by
  rw [ha.live]
  refine Nat.ne_of_gt (countP_pos_iff.mpr ⟨b, hb.1, ?_⟩)
  rw [hb.2]
  rfl

end Layout

/-! ## Allocation -/

/-- `h'` is `h` with the block `b` of at least `n` bytes in use. -/
structure Allocated (h h' : Heap) (as as' : List Nat) (blocks blocks' : Nat → List Nat)
    (b n : Nat) : Prop where
  shape : Shape h' as' blocks'
  used : ∀ x, UsedAt h' as' blocks' x ↔ x = b ∨ UsedAt h as blocks x
  fresh : ¬UsedAt h as blocks b
  large : n ≤ (h'.block b).size
  sizes : ∀ x, UsedAt h as blocks x → (h'.block x).size = (h.block x).size
  empty : ∀ a ∈ as', (h'.arena a).liveBlocks = 0 → a ∈ as ∧ (h.arena a).liveBlocks = 0

section Allocation

variable {h h' : Heap} {as : List Nat} {blocks : Nat → List Nat} {a b n : Nat}

theorem not_usedAt (hfree : (h.block b).isFree = true) : ¬UsedAt h as blocks b := by
  rintro ⟨a', -, -, hused⟩
  rw [hfree] at hused
  cases hused

theorem Shape.take (hs : Shape h as blocks) (ha : a ∈ as) (hb : b ∈ blocks a)
    (hfree : (h.block b).isFree = true) (hn : n % heapAlignment = 0)
    (hsize : n ≤ (h.block b).size) :
    ∃ blocks', Allocated h (h.takeBlock a b n).2 as as blocks blocks' b n ∧
      ((h.takeBlock a b n).2.arena a).liveBlocks ≠ 0 := by
  obtain ⟨bs', htook⟩ := (hs.arena a ha).take hb hfree hn hsize
  have hlive := htook.shape.live_pos ((htook.used b).mpr (Or.inl rfl))
  refine ⟨update blocks a bs', ⟨hs.modify ha htook.here htook.shape, fun x => ?_,
    not_usedAt hfree, htook.large, fun x hx => ?_, fun a' ha' hzero => ?_⟩, hlive⟩
  · rw [hs.usedAt_iff ha htook.here, htook.used, usedAt_split ha, or_assoc]
  · rcases (usedAt_split ha x).mp hx with hused | ⟨a', ha', hne, hused⟩
    · exact htook.sizes x hused
    · rw [hs.other_block ha htook.here ha' hne hused.1]
  · have hne : a' ≠ a := by
      rintro rfl
      exact hlive hzero
    rw [htook.here.others a' hne] at hzero
    exact ⟨ha', hzero⟩

theorem Placed.findFit {pages : Nat} (hp : Placed h h' as blocks a pages)
    (hs : Shape h as blocks) (hnone : h.findFit n = none)
    (hroom : arenaHeader + blockHeader + n ≤ pages * pageSize) :
    ∃ b, h'.findFit n = some (a, b) := by
  cases hfind : h'.findFit n with
  | none =>
    have hsmall := hp.shape.findFit_none hfind mem_cons_self
      (by rw [update_self]; exact mem_singleton_self _) hp.free
    rw [hp.size] at hsmall
    omega
  | some r =>
    obtain ⟨a', b⟩ := r
    obtain ⟨ha', hb, hfree, hsize⟩ := hp.shape.findFit_some hfind
    rcases mem_cons.mp ha' with rfl | ha'
    · exact ⟨b, rfl⟩
    · -- the other arenas were searched before
      rw [update_of_ne (ne_of_mem_of_not_mem ha' hp.fresh)] at hb
      have hsame := hp.kept a' ha' b hb
      rw [hsame] at hfree hsize
      have := hs.findFit_none hnone ha' hb hfree
      omega

theorem Placed.usedAt_iff {pages : Nat} (hp : Placed h h' as blocks a pages) (x : Nat) :
    UsedAt h' (a :: as) (update blocks a [a + arenaHeader]) x ↔ UsedAt h as blocks x := by
  have hsame : ∀ a' ∈ as, Used h' (update blocks a [a + arenaHeader] a') x ↔
      Used h (blocks a') x := by
    intro a' ha'
    rw [update_of_ne (ne_of_mem_of_not_mem ha' hp.fresh)]
    exact and_congr_right fun hx => by rw [hp.kept a' ha' x hx]
  constructor
  · rintro ⟨a', ha', hused⟩
    rcases mem_cons.mp ha' with rfl | ha'
    · rw [update_self] at hused
      obtain ⟨hmem, hused⟩ := hused
      rw [mem_singleton.mp hmem, hp.free] at hused
      cases hused
    · exact ⟨a', ha', (hsame a' ha').mp hused⟩
  · rintro ⟨a', ha', hused⟩
    exact ⟨a', mem_cons_of_mem a ha', (hsame a' ha').mpr hused⟩

/-- What a call gives: a block, or nothing and the heap as it was. -/
inductive KmallocOutcome (h : Heap) (ring : List ThreadPages) (as : List Nat)
    (blocks : Nat → List Nat) (n : Nat) : Option Nat × Heap → Prop
  | block {h' : Heap} {as' : List Nat} {blocks' : Nat → List Nat} {b : Nat}
      (allocated : Allocated h h' as as' blocks blocks' b n) :
      KmallocOutcome h ring as blocks n (some (b + blockHeader), h')
  | null {h' : Heap} (same : { h' with pmm := h.pmm } = h) (shape : Shape h' as blocks)
      (reason : n = 0 ∨ Overflows n ∨ NoRun h.pmm ring (pagesFor n)) :
      KmallocOutcome h ring as blocks n (none, h')

theorem Allocated.trans_placed {h1 h2 : Heap} {pages : Nat} {blocks' : Nat → List Nat}
    (hp : Placed h h1 as blocks a pages)
    (ha : Allocated h1 h2 (a :: as) (a :: as) (update blocks a [a + arenaHeader]) blocks'
      b n) (hlive : (h2.arena a).liveBlocks ≠ 0) :
    Allocated h h2 as (a :: as) blocks blocks' b n where
  shape := ha.shape
  used x := by rw [ha.used, hp.usedAt_iff]
  fresh := by rw [← hp.usedAt_iff]; exact ha.fresh
  large := ha.large
  sizes x hx := by
    rw [ha.sizes x ((hp.usedAt_iff x).mpr hx)]
    obtain ⟨a', ha', hused⟩ := hx
    rw [hp.kept a' ha' x hused.1]
  empty a' ha' hzero := by
    have hne : a' ≠ a := by
      rintro rfl
      exact hlive hzero
    have hmem := (mem_cons.mp ha').resolve_left hne
    refine ⟨hmem, ?_⟩
    rw [← hp.counts a' hmem]
    exact (ha.empty a' ha' hzero).2

/-- The loop takes a block in its first round, or in its second from a new arena. -/
theorem Shape.kmallocLoop (hs : Shape h as blocks) (ring : List ThreadPages)
    (hn : n % heapAlignment = 0) :
    KmallocOutcome h ring as blocks n (kmallocLoop ring n 2 h) := by
  rw [Heap.kmallocLoop]
  cases hfind : h.findFit n with
  | some r =>
    obtain ⟨a, b⟩ := r
    obtain ⟨ha, hb, hfree, hsize⟩ := hs.findFit_some hfind
    obtain ⟨blocks', htook, -⟩ := hs.take ha hb hfree hn hsize
    exact .block htook
  | none =>
    rcases createArena_cases hs ring n with ⟨a, h1, hcreate, hp⟩ | ⟨h1, hcreate, hsame, hshape, hno⟩
    · obtain ⟨b, hfit⟩ := hp.findFit hs hfind (pagesFor_large n).2
      obtain ⟨ha, hb, hfree, hsize⟩ := hp.shape.findFit_some hfit
      obtain ⟨blocks', htook, hlive⟩ := hp.shape.take ha hb hfree hn hsize
      simp only [hcreate, Heap.kmallocLoop, hfit]
      exact .block (Allocated.trans_placed hp htook hlive)
    · simp only [hcreate]
      exact .null hsame hshape (Or.inr hno)

theorem Shape.kmalloc (hs : Shape h as blocks) (ring : List ThreadPages) (n : Nat) :
    KmallocOutcome h ring as blocks n (h.kmalloc ring n) := by
  unfold Heap.kmalloc
  by_cases hzero : n = 0
  · rw [if_pos (Or.inr hzero)]
    exact .null rfl hs (Or.inl hzero)
  rw [if_neg (by simp [hs.initialized, hzero])]
  cases halign : alignSize n with
  | none => exact .null rfl hs (Or.inr (Or.inl (alignSize_none halign)))
  | some k =>
    obtain ⟨hle, hmod, hk⟩ := alignSize_spec halign
    have hout := hs.kmallocLoop ring hmod
    dsimp only
    generalize Heap.kmallocLoop ring k 2 h = r at hout ⊢
    have hround : (k + 7) / 8 * 8 = (n + 7) / 8 * 8 := by omega
    cases hout with
    | block ha => exact .block { ha with large := hle.trans ha.large }
    | null hsame hshape hreason =>
      refine .null hsame hshape (Or.inr ?_)
      rw [Overflows, pagesFor, hround] at hreason
      rw [Overflows, pagesFor]
      exact hreason.resolve_left (by omega)

end Allocation

/-! ## Release -/

/-- `h'` is `h` without the block `b`, whose arena was offered to the page manager if it was the
last one in use there. -/
structure Freed (h h' : Heap) (ring : List ThreadPages) (as as' : List Nat)
    (blocks blocks' : Nat → List Nat) (a b : Nat) : Prop where
  shape : Shape h' as' blocks'
  used : ∀ x, UsedAt h' as' blocks' x ↔ x ≠ b ∧ UsedAt h as blocks x
  sizes : ∀ x, x ≠ b → UsedAt h as blocks x → (h'.block x).size = (h.block x).size
  empty : ∀ a' ∈ as', (h'.arena a').liveBlocks = 0 →
    if a' = a then ((h.releaseBlock a b).arena a).liveBlocks = 0 ∧
      (h.releaseBlock a b).refuses ring a = true
    else a' ∈ as ∧ (h.arena a').liveBlocks = 0

inductive KfreeOutcome (h : Heap) (ring : List ThreadPages) (as : List Nat)
    (blocks : Nat → List Nat) (ptr : Nat) : Bool × Heap → Prop
  | freed {h' : Heap} {as' : List Nat} {blocks' : Nat → List Nat} {b : Nat}
      (find : h.findBlock ptr = some b) (ptr_eq : ptr = b + blockHeader)
      (used : UsedAt h as blocks b)
      (freed : Freed h h' ring as as' blocks blocks' (h.block b).arena b) :
      KfreeOutcome h ring as blocks ptr (true, h')
  | refused (unused : ∀ b, UsedAt h as blocks b → ptr ≠ b + blockHeader) :
      KfreeOutcome h ring as blocks ptr (false, h)

section Release

variable {h h' : Heap} {as : List Nat} {blocks : Nat → List Nat} {a b : Nat}

theorem Reclaimed.usedAt_iff {ring : List ThreadPages} {as' : List Nat}
    (hr : Reclaimed h h' ring a as as' blocks) (hs : Shape h as blocks) (x : Nat) :
    UsedAt h' as' blocks x ↔ UsedAt h as blocks x := by
  unfold UsedAt Used
  rw [hr.block]
  constructor
  · rintro ⟨a', ha', hused⟩
    exact ⟨a', hr.sub a' ha', hused⟩
  · rintro ⟨a', ha', hused⟩
    rcases hr.gone a' ha' with hmem | ⟨rfl, hzero⟩
    · exact ⟨a', hmem, hused⟩
    · exact absurd hzero ((hs.arena a' ha').live_pos hused)

theorem Shape.release (hs : Shape h as blocks) (ha : a ∈ as) (hb : Used h (blocks a) b)
    (ring : List ThreadPages) :
    ∃ as' blocks', Freed h ((h.releaseBlock a b).reclaimEmptyArena ring a) ring as as' blocks
      blocks' a b := by
  obtain ⟨bs', hfreed⟩ := (hs.arena a ha).release hb
  have hshape := hs.modify ha hfreed.here hfreed.shape
  obtain ⟨as', hrec⟩ := hshape.reclaim ha ring
  have hunique : ∀ a' ∈ as, a' ≠ a → ¬Used h (blocks a') b := fun a' ha' hne hused => by
    have h1 := ((hs.arena a ha).blocks.good b hb.1).2.1
    have h2 := ((hs.arena a' ha').blocks.good b hused.1).2.1
    exact hne (h2.symm.trans h1)
  refine ⟨as', update blocks a bs', hrec.shape, fun x => ?_, fun x hne hx => ?_,
    fun a' ha' hzero => ?_⟩
  · rw [hrec.usedAt_iff hshape, hs.usedAt_iff ha hfreed.here, hfreed.used, usedAt_split ha]
    constructor
    · rintro (⟨hne, hused⟩ | ⟨a', ha', hne, hused⟩)
      · exact ⟨hne, Or.inl hused⟩
      · refine ⟨?_, Or.inr ⟨a', ha', hne, hused⟩⟩
        rintro rfl
        exact hunique a' ha' hne hused
    · rintro ⟨hne, hused | hother⟩
      · exact Or.inl ⟨hne, hused⟩
      · exact Or.inr hother
  · rw [hrec.block]
    rcases (usedAt_split ha x).mp hx with hused | ⟨a', ha', hne', hused⟩
    · exact hfreed.sizes x hne hused
    · rw [hs.other_block ha hfreed.here ha' hne' hused.1]
  · rw [hrec.counts] at hzero
    split
    next heq =>
      subst heq
      exact ⟨hzero, hrec.stays ha' hzero⟩
    next hne =>
      rw [hfreed.here.others a' hne] at hzero
      exact ⟨hrec.sub a' ha', hzero⟩

theorem Shape.kfree (hs : Shape h as blocks) (ring : List ThreadPages) {ptr : Nat}
    (hptr : ptr ≠ 0) : KfreeOutcome h ring as blocks ptr (h.kfree ring ptr) := by
  unfold Heap.kfree
  rw [if_neg hptr]
  cases hfind : h.findBlock ptr with
  | none =>
    refine .refused fun b hused => ?_
    obtain ⟨a, ha, hb, -⟩ := hused
    exact hs.findBlock_none hfind ha hb
  | some b =>
    obtain ⟨a, ha, hb, heq⟩ := hs.findBlock_some hfind
    have harena := ((hs.arena a ha).blocks.good b hb).2.1
    dsimp only
    by_cases hfree : (h.block b).isFree = true
    · rw [if_pos (Or.inl hfree)]
      refine .refused fun c hused hc => ?_
      have hcb : c = b := by omega
      exact not_usedAt hfree (hcb ▸ hused)
    · have hused : Used h (blocks a) b := ⟨hb, by simpa using hfree⟩
      have hlive := (hs.arena a ha).live_pos hused
      rw [if_neg (by rw [harena]; exact not_or.mpr ⟨hfree, hlive⟩), harena]
      obtain ⟨as', blocks', hfreed⟩ := hs.release ha hused ring
      exact .freed hfind heq ⟨a, ha, hused⟩ (by rw [harena]; exact hfreed)

end Release

end OrangeOs.Memory.Heap
