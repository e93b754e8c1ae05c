import OrangeOs.Lib.Bytes
import OrangeOs.Lib.FirstFit
import OrangeOs.Lib.Machine

/-! # The physical page manager

`phy_mem_map` with its two bitmaps, owner bytes and mapping counts, and the functions that
hand out and take back pages. The arrays are kept apart from the page contents: they lie in
pages that are reserved, which no function here gives to a caller.
-/

namespace OrangeOs.Memory

open Bytes Function

def pageSize : Nat := 4096

/-- `PAGE_OFFSET`, where physical address 0 is mapped. -/
def pageOffset : Nat := 0xFFFF800000000000

def v2p (vaddr : Nat) : Nat := (vaddr + (2 ^ 64 - pageOffset)) % 2 ^ 64

/-- `page_owner_t`. -/
inductive PageOwner where
  | free | generic | pageTable | kernel | heap | user | thread | process | tty | test
  | reserved | count | any
deriving DecidableEq, Repr

def PageOwner.code : PageOwner → Nat
  | .free => 0
  | .generic => 1
  | .pageTable => 2
  | .kernel => 3
  | .heap => 4
  | .user => 5
  | .thread => 6
  | .process => 7
  | .tty => 8
  | .test => 9
  | .reserved => 10
  | .count => 11
  | .any => 0xFF

structure Pmm where
  pageCount : Nat
  bits : Block
  reservedBits : Block
  owners : Nat → PageOwner
  refcounts : Nat → Nat
  /-- The contents of the physical pages. -/
  memory : Nat → Block
  failAllocations : Nat
  ready : Bool

/-- What `live_thread_owns_page` reads of a thread. -/
structure ThreadPages where
  objectPaddr : Nat
  stackBase : Nat

/-- The threads of the ring from `current_thread` on; none before the first thread runs. -/
def liveThreadOwnsPage (ring : List ThreadPages) (paddr : Nat) : Bool :=
  ring.any fun t => t.objectPaddr == paddr || (t.stackBase != 0 && v2p t.stackBase == paddr)

namespace Pmm

def setBit (m : Pmm) (i : Nat) (value : Bool) : Block :=
  if m.pageCount ≤ i then m.bits
  else if value then Bytes.setBit m.bits i
  else clearBit m.bits i

def getBit (m : Pmm) (i : Nat) : Bool := if m.pageCount ≤ i then true else bit m.bits i

def isReserved (m : Pmm) (i : Nat) : Bool := bit m.reservedBits i

/-! ## Handing out pages -/

def validAllocOwner (owner : PageOwner) : Bool :=
  PageOwner.free.code < owner.code && owner.code < PageOwner.count.code && owner != .reserved

/-- The test that lengthens the run in the loop of `alloc_pages_owned_locked`. -/
def available (m : Pmm) (ring : List ThreadPages) (i : Nat) : Bool :=
  m.getBit i == false && !m.isReserved i && !liveThreadOwnsPage ring (i * pageSize)

def takePage (m : Pmm) (owner : PageOwner) (page : Nat) : Pmm :=
  { m with
    bits := m.setBit page true
    owners := update m.owners page owner
    refcounts := update m.refcounts page 0 }

def takePages (m : Pmm) (owner : PageOwner) (start : Nat) : Nat → Pmm
  | 0 => m
  | n + 1 => (m.takePages owner start n).takePage owner (start + n)

def allocPagesOwnedLocked (m : Pmm) (ring : List ThreadPages) (n : Nat) (owner : PageOwner) :
    Nat × Pmm :=
  match FirstFit.search (m.available ring) n m.pageCount with
  | some start => (start * pageSize, m.takePages owner start n)
  | none => (0, m)

/-- The physical address of the first page, `0` for failure. -/
def allocPagesOwned (m : Pmm) (ring : List ThreadPages) (n : Nat) (owner : PageOwner) :
    Nat × Pmm :=
  if m.ready = false ∨ n = 0 ∨ validAllocOwner owner = false then (0, m)
  else if m.failAllocations ≠ 0 then (0, { m with failAllocations := m.failAllocations - 1 })
  else m.allocPagesOwnedLocked ring n owner

def allocPageOwned (m : Pmm) (ring : List ThreadPages) (owner : PageOwner) : Nat × Pmm :=
  m.allocPagesOwned ring 1 owner

def testInjectAllocFailureOnce (m : Pmm) : Pmm := { m with failAllocations := 1 }

/-! ## Taking them back -/

/-- The test of the first loop of `free_pages_owned`. -/
def mayFree (m : Pmm) (ring : List ThreadPages) (expected : PageOwner) (page : Nat) : Bool :=
  !liveThreadOwnsPage ring (page * pageSize) && m.getBit page && !m.isReserved page &&
    m.refcounts page == 0 && (expected == .any || m.owners page == expected)

def giveBack (m : Pmm) (page : Nat) : Pmm :=
  { m with
    memory := update m.memory page zero
    bits := m.setBit page false
    owners := update m.owners page .free
    refcounts := update m.refcounts page 0 }

def giveBackPages (m : Pmm) (start : Nat) : Nat → Pmm
  | 0 => m
  | n + 1 => (m.giveBackPages start n).giveBack (start + n)

/-- `true` stands for `0`, `false` for `-1`, here and in the two calls below. -/
def freePagesOwned (m : Pmm) (ring : List ThreadPages) (paddr n : Nat) (expected : PageOwner) :
    Bool × Pmm :=
  if m.ready = false ∨ paddr = 0 ∨ n = 0 ∨ paddr % pageSize ≠ 0 then (false, m)
  else
    let start := paddr / pageSize
    if m.pageCount ≤ start ∨ m.pageCount - start < n then (false, m)
    else if (List.range n).all fun i => m.mayFree ring expected (start + i) then
      (true, m.giveBackPages start n)
    else (false, m)

/-! ## Mapping counts -/

def setRefcount (m : Pmm) (page count : Nat) : Pmm :=
  { m with refcounts := update m.refcounts page count }

def acquireUserMapping (m : Pmm) (paddr : Nat) : Bool × Pmm :=
  if m.ready = false ∨ paddr = 0 ∨ paddr % pageSize ≠ 0 then (false, m)
  else
    let page := paddr / pageSize
    if page < m.pageCount ∧ m.getBit page = true ∧ m.owners page = .user ∧
        m.refcounts page ≠ 2 ^ 32 - 1 then
      (true, m.setRefcount page (m.refcounts page + 1))
    else (false, m)

def releaseUserMapping (m : Pmm) (paddr : Nat) : Bool × Pmm :=
  if m.ready = false ∨ paddr = 0 ∨ paddr % pageSize ≠ 0 then (false, m)
  else
    let page := paddr / pageSize
    if page < m.pageCount ∧ m.getBit page = true ∧ m.owners page = .user ∧
        m.refcounts page ≠ 0 then
      if m.refcounts page - 1 = 0 then (true, m.giveBack page)
      else (true, m.setRefcount page (m.refcounts page - 1))
    else (false, m)

/-! ## What the calls do to ranges -/

/-- What only `init_phy_mem_map` and the injection of failures set. -/
structure Fixed (m m' : Pmm) : Prop where
  pageCount : m'.pageCount = m.pageCount
  reservedBits : m'.reservedBits = m.reservedBits
  failAllocations : m'.failAllocations = m.failAllocations
  ready : m'.ready = m.ready

/-- From `m` to `m'`, `n` pages from `start` on were given to `owner`. -/
structure Taken (m m' : Pmm) (owner : PageOwner) (start n : Nat) : Prop where
  getBit : ∀ p, m'.getBit p = (decide (start ≤ p ∧ p < start + n) || m.getBit p)
  owners : ∀ p, m'.owners p = if start ≤ p ∧ p < start + n then owner else m.owners p
  refcounts : ∀ p, m'.refcounts p = if start ≤ p ∧ p < start + n then 0 else m.refcounts p
  memory : m'.memory = m.memory
  fixed : Fixed m m'

/-- From `m` to `m'`, `n` pages from `start` on were cleared and became free. -/
structure GivenBack (m m' : Pmm) (start n : Nat) : Prop where
  getBit : ∀ p, m'.getBit p = (!decide (start ≤ p ∧ p < start + n) && m.getBit p)
  owners : ∀ p, m'.owners p = if start ≤ p ∧ p < start + n then .free else m.owners p
  refcounts : ∀ p, m'.refcounts p = if start ≤ p ∧ p < start + n then 0 else m.refcounts p
  memory : ∀ p, m'.memory p = if start ≤ p ∧ p < start + n then zero else m.memory p
  fixed : Fixed m m'

theorem Fixed.refl (m : Pmm) : Fixed m m := ⟨rfl, rfl, rfl, rfl⟩

theorem getBit_setBit (m : Pmm) {i : Nat} (hi : i < m.pageCount) (value : Bool) (j : Nat) :
    ({ m with bits := m.setBit i value } : Pmm).getBit j = if j = i then value else m.getBit j := by
  simp only [getBit, setBit, if_neg (Nat.not_le.mpr hi)]
  cases value with
  | true => grind [bit_setBit]
  | false => grind [bit_clearBit]

theorem getBit_takePage (m : Pmm) (owner : PageOwner) {page : Nat} (h : page < m.pageCount)
    (p : Nat) : (m.takePage owner page).getBit p = if p = page then true else m.getBit p :=
  m.getBit_setBit h true p

theorem getBit_giveBack (m : Pmm) {page : Nat} (h : page < m.pageCount) (p : Nat) :
    (m.giveBack page).getBit p = if p = page then false else m.getBit p :=
  m.getBit_setBit h false p

theorem takePages_taken (m : Pmm) (owner : PageOwner) {start n : Nat}
    (h : start + n ≤ m.pageCount) : Taken m (m.takePages owner start n) owner start n := by
  induction n with
  | zero =>
    refine ⟨fun p => ?_, fun p => ?_, fun p => ?_, rfl, Fixed.refl m⟩ <;>
      simp [takePages, show ¬(start ≤ p ∧ p < start) by omega]
  | succ n ih =>
    have hn := ih (by omega)
    have hcount := hn.fixed.pageCount
    refine ⟨fun p => ?_, fun p => ?_, fun p => ?_, hn.memory,
      ⟨hcount, hn.fixed.reservedBits, hn.fixed.failAllocations, hn.fixed.ready⟩⟩
    · rw [takePages, getBit_takePage _ _ (by omega), hn.getBit]
      grind
    · simp only [takePages, takePage, update_apply, hn.owners]
      grind
    · simp only [takePages, takePage, update_apply, hn.refcounts]
      grind

theorem giveBackPages_givenBack (m : Pmm) {start n : Nat} (h : start + n ≤ m.pageCount) :
    GivenBack m (m.giveBackPages start n) start n := by
  induction n with
  | zero =>
    refine ⟨fun p => ?_, fun p => ?_, fun p => ?_, fun p => ?_, Fixed.refl m⟩ <;>
      simp [giveBackPages, show ¬(start ≤ p ∧ p < start) by omega]
  | succ n ih =>
    have hn := ih (by omega)
    have hcount := hn.fixed.pageCount
    refine ⟨fun p => ?_, fun p => ?_, fun p => ?_, fun p => ?_,
      ⟨hcount, hn.fixed.reservedBits, hn.fixed.failAllocations, hn.fixed.ready⟩⟩
    · rw [giveBackPages, getBit_giveBack _ (by omega), hn.getBit]
      grind
    · simp only [giveBackPages, giveBack, update_apply, hn.owners]
      grind
    · simp only [giveBackPages, giveBack, update_apply, hn.refcounts]
      grind
    · simp only [giveBackPages, giveBack, update_apply, hn.memory]
      grind

/-! ## Outcomes -/

/-- The outcomes of `free_pages_owned`. -/
inductive FreeOutcome (m : Pmm) (ring : List ThreadPages) (paddr n : Nat) (expected : PageOwner) :
    Bool × Pmm → Prop
  | refused : FreeOutcome m ring paddr n expected (false, m)
  | freed {m' : Pmm} (nonempty : 0 < n) (inside : paddr / pageSize + n ≤ m.pageCount)
      (allowed : ∀ p, paddr / pageSize ≤ p → p < paddr / pageSize + n →
        m.mayFree ring expected p = true)
      (back : GivenBack m m' (paddr / pageSize) n) :
      FreeOutcome m ring paddr n expected (true, m')

theorem freePagesOwned_outcome (m : Pmm) (ring : List ThreadPages) (paddr n : Nat)
    (expected : PageOwner) :
    FreeOutcome m ring paddr n expected (m.freePagesOwned ring paddr n expected) := by
  unfold freePagesOwned
  dsimp only
  split
  · exact .refused
  next hgood =>
    split
    · exact .refused
    next hin =>
      split
      next hall =>
        have hin' : paddr / pageSize + n ≤ m.pageCount := by omega
        refine .freed (by omega) hin' (fun p h1 h2 => ?_) (m.giveBackPages_givenBack hin')
        have hp := List.all_eq_true.mp hall (p - paddr / pageSize) (List.mem_range.mpr (by omega))
        rwa [show paddr / pageSize + (p - paddr / pageSize) = p by omega] at hp
      · exact .refused

theorem mayFree_iff (m : Pmm) (ring : List ThreadPages) (expected : PageOwner) (p : Nat) :
    m.mayFree ring expected p = true ↔ liveThreadOwnsPage ring (p * pageSize) = false ∧
      m.getBit p = true ∧ m.isReserved p = false ∧ m.refcounts p = 0 ∧
      (expected = .any ∨ m.owners p = expected) := by
  simp [mayFree, and_assoc]

theorem giveBack_givenBack (m : Pmm) {page : Nat} (h : page < m.pageCount) :
    GivenBack m (m.giveBack page) page 1 := m.giveBackPages_givenBack (n := 1) h

def Mappable (m : Pmm) (page : Nat) : Prop :=
  page < m.pageCount ∧ m.getBit page = true ∧ m.owners page = .user

/-- The outcomes of `acquire_user_mapping` and `release_user_mapping`: a new count, or the end of
the last mapping. -/
inductive MapOutcome (m : Pmm) (page count : Nat) (last : Prop) : Bool × Pmm → Prop
  | refused : MapOutcome m page count last (false, m)
  | counted (mappable : m.Mappable page) :
      MapOutcome m page count last (true, m.setRefcount page count)
  | freed (mappable : m.Mappable page) (gone : last) :
      MapOutcome m page count last (true, m.giveBack page)

theorem acquireUserMapping_outcome (m : Pmm) (paddr : Nat) :
    MapOutcome m (paddr / pageSize) (m.refcounts (paddr / pageSize) + 1) False
      (m.acquireUserMapping paddr) := by
  unfold acquireUserMapping
  dsimp only
  split
  · exact .refused
  · split
    next h => exact .counted ⟨h.1, h.2.1, h.2.2.1⟩
    · exact .refused

theorem releaseUserMapping_outcome (m : Pmm) (paddr : Nat) :
    MapOutcome m (paddr / pageSize) (m.refcounts (paddr / pageSize) - 1) True
      (m.releaseUserMapping paddr) := by
  unfold releaseUserMapping
  dsimp only
  split
  · exact .refused
  · split
    next h =>
      have hmap : m.Mappable (paddr / pageSize) := ⟨h.1, h.2.1, h.2.2.1⟩
      split
      · exact .freed hmap trivial
      · exact .counted hmap
    · exact .refused

theorem MapOutcome.unchanged {m m' : Pmm} {page count : Nat} {last : Prop}
    (h : MapOutcome m page count last (false, m')) : m' = m := by
  cases h
  rfl

/-! ## The invariant -/

/-- The four arrays agree, and page 0 is reserved. -/
structure Sound (m : Pmm) : Prop where
  ready : m.ready = true
  null : m.isReserved 0 = true
  reserved : ∀ p, p < m.pageCount → m.isReserved p = true → m.owners p = .reserved
  allocated : ∀ p, p < m.pageCount → m.isReserved p = false →
    (m.getBit p = true ↔ m.owners p ≠ .free)
  mapped : ∀ p, p < m.pageCount → 0 < m.refcounts p → m.getBit p = true ∧ m.owners p = .user

theorem Fixed.isReserved {m m' : Pmm} (h : Fixed m m') (p : Nat) :
    m'.isReserved p = m.isReserved p := by
  rw [Pmm.isReserved, h.reservedBits]
  rfl

/-- The outcomes of `alloc_pages_owned`. -/
inductive AllocOutcome (m : Pmm) (ring : List ThreadPages) (n : Nat) (owner : PageOwner) :
    Nat × Pmm → Prop
  | taken {start : Nat} {m' : Pmm} (valid : validAllocOwner owner = true) (nonempty : 0 < n)
      (pos : 0 < start) (inside : start + n ≤ m.pageCount)
      (free : ∀ p, start ≤ p → p < start + n → m.getBit p = false ∧ m.isReserved p = false)
      (taken : Taken m m' owner start n) : AllocOutcome m ring n owner (start * pageSize, m')
  | invalid (h : n = 0 ∨ validAllocOwner owner = false) : AllocOutcome m ring n owner (0, m)
  | injected (h : m.failAllocations ≠ 0) : AllocOutcome m ring n owner
      (0, { m with failAllocations := m.failAllocations - 1 })
  | full (h : ∀ s, s + n ≤ m.pageCount → ¬FirstFit.Fits (m.available ring) n s) :
      AllocOutcome m ring n owner (0, m)

theorem available_iff (m : Pmm) (ring : List ThreadPages) (i : Nat) :
    m.available ring i = true ↔ m.getBit i = false ∧ m.isReserved i = false ∧
      liveThreadOwnsPage ring (i * pageSize) = false := by
  simp [available, and_assoc]

theorem allocPagesOwned_outcome {m : Pmm} (h : Sound m) (ring : List ThreadPages) (n : Nat)
    (owner : PageOwner) :
    AllocOutcome m ring n owner (m.allocPagesOwned ring n owner) := by
  unfold allocPagesOwned
  split
  next hbad =>
    rcases hbad with hr | hbad
    · rw [h.ready] at hr
      cases hr
    · exact .invalid hbad
  next hgood =>
    simp only [not_or] at hgood
    split
    next hfail => exact .injected hfail
    · have hspec := FirstFit.search_spec (m.available ring) (Nat.pos_of_ne_zero hgood.2.1) m.pageCount
      unfold allocPagesOwnedLocked
      cases hsearch : FirstFit.search (m.available ring) n m.pageCount with
      | none =>
        rw [hsearch] at hspec
        exact .full hspec
      | some start =>
        rw [hsearch] at hspec
        have hn := Nat.pos_of_ne_zero hgood.2.1
        have hfree : ∀ p, start ≤ p → p < start + n →
            m.getBit p = false ∧ m.isReserved p = false := by
          intro p h1 h2
          have hp := hspec.2 (p - start) (by omega)
          rw [show start + (p - start) = p by omega, available_iff] at hp
          exact ⟨hp.1, hp.2.1⟩
        have hpos : 0 < start := by
          by_contra hzero
          have hnull := (hfree start (Nat.le_refl _) (by omega)).2
          rw [show start = 0 by omega, h.null] at hnull
          cases hnull
        exact .taken (by simpa using hgood.2.2) hn hpos hspec.1 hfree
          (m.takePages_taken owner hspec.1)

section Invariant

variable {m m' : Pmm} {start n : Nat} {owner : PageOwner}

theorem Sound.reassign (h : Sound m) (hfixed : Fixed m m') (range : Nat → Prop)
    (hfree : ∀ p, range p → m.isReserved p = false)
    (hin : ∀ p, range p → (m'.getBit p = true ↔ m'.owners p ≠ .free) ∧ m'.refcounts p = 0)
    (hout : ∀ p, ¬range p → m'.getBit p = m.getBit p ∧ m'.owners p = m.owners p ∧
      m'.refcounts p = m.refcounts p) : Sound m' where
  ready := hfixed.ready.trans h.ready
  null := (hfixed.isReserved 0).trans h.null
  reserved p hp hr := by
    rw [hfixed.pageCount] at hp
    rw [hfixed.isReserved] at hr
    have hp' : ¬range p := by
      intro hrange
      rw [hfree p hrange] at hr
      cases hr
    rw [(hout p hp').2.1]
    exact h.reserved p hp hr
  allocated p hp hr := by
    rw [hfixed.pageCount] at hp
    rw [hfixed.isReserved] at hr
    by_cases hrange : range p
    · exact (hin p hrange).1
    · rw [(hout p hrange).1, (hout p hrange).2.1]
      exact h.allocated p hp hr
  mapped p hp hc := by
    rw [hfixed.pageCount] at hp
    by_cases hrange : range p
    · rw [(hin p hrange).2] at hc
      omega
    · rw [(hout p hrange).2.2] at hc
      rw [(hout p hrange).1, (hout p hrange).2.1]
      exact h.mapped p hp hc

theorem Sound.taken (h : Sound m) (hvalid : validAllocOwner owner = true)
    (hfree : ∀ p, start ≤ p → p < start + n → m.getBit p = false ∧ m.isReserved p = false)
    (ht : Taken m m' owner start n) : Sound m' := by
  have howner : owner ≠ .free := by
    rintro rfl
    cases hvalid
  refine h.reassign ht.fixed (fun p => start ≤ p ∧ p < start + n)
    (fun p hp => (hfree p hp.1 hp.2).2) (fun p hp => ?_) fun p hp => ?_
  · simp [ht.getBit, ht.owners, ht.refcounts, hp, howner]
  · simp [ht.getBit, ht.owners, ht.refcounts, hp]

theorem Sound.givenBack (h : Sound m)
    (hfree : ∀ p, start ≤ p → p < start + n → m.isReserved p = false)
    (hg : GivenBack m m' start n) : Sound m' := by
  refine h.reassign hg.fixed (fun p => start ≤ p ∧ p < start + n)
    (fun p hp => hfree p hp.1 hp.2) (fun p hp => ?_) fun p hp => ?_
  · simp [hg.getBit, hg.owners, hg.refcounts, hp]
  · simp [hg.getBit, hg.owners, hg.refcounts, hp]

theorem Sound.setRefcount (h : Sound m) {page : Nat} (hm : m.Mappable page) (c : Nat) :
    Sound (m.setRefcount page c) where
  ready := h.ready
  null := h.null
  reserved := h.reserved
  allocated := h.allocated
  mapped p hp hc := by
    by_cases hpage : p = page
    · rw [hpage]
      exact hm.2
    · exact h.mapped p hp (by simpa [Pmm.setRefcount, hpage] using hc)

theorem Sound.mappable_free (h : Sound m) {page : Nat} (hm : m.Mappable page) :
    m.isReserved page = false := by
  by_contra hr
  have hres := h.reserved page hm.1 (by simpa using hr)
  rw [hm.2.2] at hres
  cases hres

end Invariant

end Pmm

end OrangeOs.Memory
