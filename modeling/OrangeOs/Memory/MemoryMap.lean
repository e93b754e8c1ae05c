import OrangeOs.Lib.Machine
import OrangeOs.Memory.Pmm

/-! # The memory map at boot, and the page manager from then on

`init_phy_mem_map` frees the usable ranges of the E820 records, reserves the others again with
the boot structures and its own arrays, and takes pages for the direct map. The main result
is about every state that calls of the page manager lead to from there.
-/

namespace OrangeOs.Memory

open Bytes Function List Pmm

/-! ## Initialization -/

structure Ards where
  baseAddr : UInt64
  length : UInt64
  type : UInt32

def bootKernelPml4Paddr : Nat := 0x70000
def memoryBitmapPaddr : Nat := 0x200000
def bootReservedEnd : Nat := 0x200000
def directMapMaxPhys : Nat := 2 ^ 47

/-- The end of the record does not overflow. -/
def Ards.fits (e : Ards) : Bool := e.length.toNat ≤ 2 ^ 64 - 1 - e.baseAddr.toNat

def Ards.endAddr (e : Ards) : Nat := e.baseAddr.toNat + e.length.toNat

def maxPhyAddr (ards : List Ards) : Nat :=
  ards.foldl (fun m e => if e.type = 1 ∧ e.fits = true ∧ m < e.endAddr then e.endAddr else m) 0

namespace Pmm

/-- The arrays as `memset` leaves them. -/
def blank (pageCount : Nat) (memory : Nat → Block) : Pmm where
  pageCount := pageCount
  bits := zero
  reservedBits := fun _ => 0xFF
  owners := fun _ => .reserved
  refcounts := fun _ => 0
  memory := memory
  failAllocations := 0
  ready := false

def releasePage (m : Pmm) (page : Nat) : Pmm :=
  if page < m.pageCount then
    { m with
      reservedBits := clearBit m.reservedBits page
      owners := update m.owners page .free }
  else m

def releaseUsable (m : Pmm) (e : Ards) : Pmm :=
  if e.type ≠ 1 ∨ e.fits = false then m
  else
    let startPage := (e.baseAddr.toNat + 4095) % 2 ^ 64 / 4096
    let endPage := e.endAddr / 4096
    (List.range' startPage (endPage - startPage)).foldl releasePage m

def reservePage (m : Pmm) (page : Nat) : Pmm :=
  { m with
    bits := m.setBit page true
    owners := update m.owners page .reserved
    reservedBits := Bytes.setBit m.reservedBits page }

def reservePhysicalRange (managedEnd : Nat) (m : Pmm) (start stop : Nat) : Pmm :=
  if stop ≤ start ∨ managedEnd ≤ start then m
  else
    let stop := if managedEnd < stop then managedEnd else stop
    let firstPage := start / pageSize
    let lastPage := (stop + pageSize - 1) / pageSize
    (List.range' firstPage (lastPage - firstPage)).foldl reservePage m

def reserveUnusable (managedEnd : Nat) (m : Pmm) (e : Ards) : Pmm :=
  if e.type = 1 ∨ e.fits = false then m
  else m.reservePhysicalRange managedEnd e.baseAddr.toNat e.endAddr

/-! ### The direct map -/

/-- Entry `i` of the page table in `page`. -/
def entry (m : Pmm) (page i : Nat) : Nat := readLE 8 (m.memory page) (8 * i)

def setEntry (m : Pmm) (page i e : Nat) : Pmm :=
  { m with memory := update m.memory page (writeLE 8 (m.memory page) (8 * i) e) }

def clearPage (m : Pmm) (page : Nat) : Pmm :=
  { m with memory := update m.memory page zero }

/-- The table below entry `i` of `page`, with `PTE_P | PTE_RW` for a new one. -/
def ensureTable (ring : List ThreadPages) (m : Pmm) (page i : Nat) : Option Pmm :=
  if m.entry page i % 2 = 1 then some m
  else
    match m.allocPageOwned ring .pageTable with
    | (0, _) => none
    | (paddr, m) => some ((m.clearPage (paddr / pageSize)).setEntry page i (paddr ||| 3))

/-- The innermost loop of `build_kernel_direct_map`; past `mappedEnd` it does nothing more. -/
def fillPageDirectory (mappedEnd physBase pd : Nat) (m : Pmm) : Pmm :=
  (List.range 512).foldl (fun m i =>
    let pagePhys := physBase + i * 2 ^ 21
    if mappedEnd ≤ pagePhys ∨ m.entry pd i % 2 = 1 then m
    else m.setEntry pd i (pagePhys ||| 0x83)) m

def fillDirectoryPointers (ring : List ThreadPages) (mappedEnd pml4Index pdpt : Nat) (m : Pmm) :
    Option Pmm :=
  (List.range 512).foldlM (fun m i =>
    let physBase := ((pml4Index - 256) * 512 + i) * 2 ^ 30
    if mappedEnd ≤ physBase then some m
    else
      match ensureTable ring m pdpt i with
      | none => none
      | some m => some (m.fillPageDirectory mappedEnd physBase (m.entry pdpt i / 4096))) m

def buildKernelDirectMap (ring : List ThreadPages) (m : Pmm) (maxPhysAddr : Nat) : Option Pmm :=
  let mappedEnd := (maxPhysAddr + (2 ^ 21 - 1)) / 2 ^ 21 * 2 ^ 21
  let maxPml4Index := (pageOffset + mappedEnd - 1) % 2 ^ 64 / 2 ^ 39 % 512
  let pml4 := bootKernelPml4Paddr / pageSize
  if maxPhysAddr = 0 ∨ directMapMaxPhys < maxPhysAddr ∨ 512 ≤ maxPml4Index then none
  else
    (List.range' 256 (maxPml4Index + 1 - 256)).foldlM (fun m i =>
      match ensureTable ring m pml4 i with
      | none => none
      | some m => m.fillDirectoryPointers ring mappedEnd i (m.entry pml4 i / 4096)) m

end Pmm

def metadataBytes (pageCount : Nat) : Nat := 2 * ((pageCount + 7) / 8) + pageCount + pageCount * 4

def managedEnd (ards : List Ards) : Nat := (maxPhyAddr ards + pageSize - 1) / pageSize * pageSize

/-- `init_phy_mem_map` up to the direct map. -/
def readyMap (ards : List Ards) (memory : Nat → Block) : Option Pmm :=
  let pageCount := managedEnd ards / pageSize
  if maxPhyAddr ards = 0 ∨ directMapMaxPhys < maxPhyAddr ards then none
  else if managedEnd ards < memoryBitmapPaddr ∨
      managedEnd ards - memoryBitmapPaddr < metadataBytes pageCount then none
  else
    let m := ards.foldl Pmm.releaseUsable (Pmm.blank pageCount memory)
    let m := ards.foldl (Pmm.reserveUnusable (managedEnd ards)) m
    let m := m.reservePhysicalRange (managedEnd ards) 0 bootReservedEnd
    let m := m.reservePhysicalRange (managedEnd ards) memoryBitmapPaddr
      (memoryBitmapPaddr + metadataBytes pageCount)
    some { m with ready := true }

/-- `init_phy_mem_map` on the E820 records and the memory the loader leaves. -/
def initPhyMemMap (ards : List Ards) (memory : Nat → Block) (ring : List ThreadPages) :
    Option Pmm :=
  (readyMap ards memory).bind fun m => m.buildKernelDirectMap ring (managedEnd ards)

/-! ## The state after initialization -/

variable {m m' : Pmm} {ring : List ThreadPages} {p n : Nat} {ards : List Ards}
  {memory : Nat → Block}

namespace Pmm

/-- No page is handed out yet: a page is reserved or free. -/
structure Clean (m : Pmm) : Prop where
  reserved : ∀ p, p < m.pageCount → m.isReserved p = true → m.owners p = .reserved
  free : ∀ p, p < m.pageCount → m.isReserved p = false → m.getBit p = false ∧ m.owners p = .free
  counts : ∀ p, m.refcounts p = 0

theorem isReserved_blank (pageCount : Nat) (memory : Nat → Block) (p : Nat) :
    (blank pageCount memory).isReserved p = true := bit_ones p

theorem blank_clean (pageCount : Nat) (memory : Nat → Block) : Clean (blank pageCount memory) where
  reserved _ _ _ := rfl
  free p _ hr := by
    rw [isReserved_blank] at hr
    cases hr
  counts _ := rfl

theorem Clean.releasePage (h : Clean m) (hbits : m.bits = zero) (page : Nat) :
    Clean (m.releasePage page) ∧ (m.releasePage page).bits = zero := by
  unfold Pmm.releasePage
  split
  next hpage =>
    have hr : ∀ p, ({ m with
        reservedBits := clearBit m.reservedBits page
        owners := update m.owners page .free } : Pmm).isReserved p =
        (!decide (p = page) && m.isReserved p) := fun p => bit_clearBit _ _ _
    refine ⟨⟨fun p hp hres => ?_, fun p hp hfree => ?_, h.counts⟩, hbits⟩
    · rw [hr] at hres
      simp only [Bool.and_eq_true, Bool.not_eq_true', decide_eq_false_iff_not] at hres
      change update m.owners page .free p = .reserved
      rw [update_of_ne hres.1]
      exact h.reserved p hp hres.2
    · have hzero : m.getBit p = false := by
        have hp' : p < m.pageCount := hp
        rw [getBit, if_neg (by omega), hbits, bit_zero]
      refine ⟨hzero, ?_⟩
      rw [hr] at hfree
      change update m.owners page .free p = .free
      by_cases hpp : p = page
      · rw [hpp, update_self]
      · rw [update_of_ne hpp]
        exact (h.free p hp (by simpa [hpp] using hfree)).2
  · exact ⟨h, hbits⟩

theorem isReserved_reservePage (m : Pmm) (page p : Nat) :
    (m.reservePage page).isReserved p = (decide (p = page) || m.isReserved p) := bit_setBit _ _ _

theorem Clean.reservePage (h : Clean m) (page : Nat) : Clean (m.reservePage page) where
  reserved p hp hres := by
    change update m.owners page .reserved p = .reserved
    by_cases hpp : p = page
    · rw [hpp, update_self]
    · rw [isReserved_reservePage] at hres
      rw [update_of_ne hpp]
      exact h.reserved p hp (by simpa [hpp] using hres)
  free p hp hfree := by
    rw [isReserved_reservePage] at hfree
    simp only [Bool.or_eq_false_iff, decide_eq_false_iff_not] at hfree
    obtain ⟨hbit, howner⟩ := h.free p hp hfree.2
    refine ⟨?_, (update_of_ne hfree.1 _ _).trans howner⟩
    by_cases hpage : page < m.pageCount
    · exact (m.getBit_setBit hpage true p).trans (by rw [if_neg hfree.1, hbit])
    · rw [← hbit]
      simp [Pmm.reservePage, getBit, setBit, Nat.le_of_not_lt hpage]
  counts := h.counts

section Keeps

variable {P : Pmm → Prop}

theorem releaseUsable_keeps (hP : ∀ (m : Pmm) page, P m → P (m.releasePage page)) (h : P m)
    (e : Ards) : P (m.releaseUsable e) := by
  unfold releaseUsable
  split
  · exact h
  · exact foldlRecOn _ _ h fun m hm page _ => hP m page hm

variable (hP : ∀ (m : Pmm) page, P m → P (m.reservePage page))
include hP

theorem reservePhysicalRange_keeps (h : P m) (managedEnd start stop : Nat) :
    P (m.reservePhysicalRange managedEnd start stop) := by
  unfold reservePhysicalRange
  split
  · exact h
  · exact foldlRecOn _ _ h fun m hm page _ => hP m page hm

theorem reserveUnusable_keeps (h : P m) (managedEnd : Nat) (e : Ards) :
    P (m.reserveUnusable managedEnd e) := by
  unfold reserveUnusable
  split
  · exact h
  · exact reservePhysicalRange_keeps hP h managedEnd _ _

end Keeps

theorem releasePage_pageCount (m : Pmm) (page : Nat) :
    (m.releasePage page).pageCount = m.pageCount := by
  unfold releasePage
  split <;> rfl

/-- Clean arrays for `n` pages. -/
def CleanOf (n : Nat) (m : Pmm) : Prop := m.Clean ∧ m.pageCount = n

theorem CleanOf.reservePage (m : Pmm) (page : Nat) (h : m.CleanOf n) :
    (m.reservePage page).CleanOf n := ⟨h.1.reservePage page, h.2⟩

theorem records_clean (ards : List Ards) (managedEnd pageCount : Nat) (memory : Nat → Block) :
    CleanOf pageCount (ards.foldl (reserveUnusable managedEnd)
      (ards.foldl releaseUsable (blank pageCount memory))) := by
  have hpage : ∀ (m : Pmm) page, m.CleanOf pageCount ∧ m.bits = zero →
      (m.releasePage page).CleanOf pageCount ∧ (m.releasePage page).bits = zero := by
    rintro m page ⟨⟨hm, hcount⟩, hbits⟩
    obtain ⟨hclean, hzero⟩ := hm.releasePage hbits page
    exact ⟨⟨hclean, (m.releasePage_pageCount page).trans hcount⟩, hzero⟩
  have hfirst := foldlRecOn (motive := fun m : Pmm => m.CleanOf pageCount ∧ m.bits = zero) ards
    releaseUsable ⟨⟨blank_clean pageCount memory, rfl⟩, rfl⟩ fun m hm e _ =>
      releaseUsable_keeps hpage hm e
  exact foldlRecOn (motive := CleanOf pageCount) ards _ hfirst.1 fun m hm e _ =>
    reserveUnusable_keeps CleanOf.reservePage hm managedEnd e

/-- A byte of the page lies in the range. -/
def Meets (p start stop : Nat) : Prop := ∃ x, x / pageSize = p ∧ start ≤ x ∧ x < stop

theorem meets_iff (start : Nat) {stop : Nat} : Meets p start stop ↔
    start < stop ∧ start < (p + 1) * pageSize ∧ p * pageSize < stop := by
  unfold Meets pageSize
  constructor
  · rintro ⟨x, hx, hstart, hstop⟩
    omega
  · rintro ⟨hlt, hstart, hstop⟩
    exact ⟨max start (p * 4096), by omega, by omega, by omega⟩

theorem isReserved_reservePhysicalRange {managedEnd : Nat} (hp : (p + 1) * pageSize ≤ managedEnd)
    (m : Pmm) (start stop : Nat) :
    (m.reservePhysicalRange managedEnd start stop).isReserved p = true ↔
      m.isReserved p = true ∨ Meets p start stop := by
  unfold reservePhysicalRange
  rw [meets_iff]
  unfold pageSize at hp ⊢
  split
  · exact (or_iff_left (by omega)).symm
  · rw [Machine.foldl_iff (I := fun _ => True) (P := fun m : Pmm => m.isReserved p = true)
      (Q := fun page => p = page) (fun _ _ _ => trivial)
      (fun m page _ => by rw [isReserved_reservePage]; simp [or_comm]) trivial]
    refine or_congr_right ?_
    simp only [exists_eq_right', mem_range'_1]
    split <;> omega

section Keeps

variable {P : Pmm → Prop}

theorem foldlM_keeps {α : Type} {f : Pmm → α → Option Pmm}
    (hf : ∀ m a m', P m → f m a = some m' → P m') {l : List α} (h : P m)
    (hrun : l.foldlM f m = some m') : P m' := by
  induction l generalizing m with
  | nil =>
    cases hrun
    exact h
  | cons a l ih =>
    rw [foldlM_cons] at hrun
    cases hstep : f m a with
    | none =>
      rw [hstep] at hrun
      cases hrun
    | some u =>
      rw [hstep] at hrun
      exact ih (hf m a u h hstep) hrun

variable (hmemory : ∀ (m : Pmm) (f : Nat → Block), P m → P { m with memory := f })
  (halloc : ∀ m, P m → P (m.allocPageOwned ring .pageTable).2)

include hmemory halloc in
theorem ensureTable_keeps {page i : Nat} (h : P m) (hrun : ensureTable ring m page i = some m') :
    P m' := by
  unfold ensureTable at hrun
  have hnext := halloc m h
  split at hrun
  next =>
    cases hrun
    exact h
  · split at hrun
    · cases hrun
    next heq =>
      rw [heq] at hnext
      cases hrun
      exact hmemory _ _ (hmemory _ _ hnext)

include hmemory in
theorem fillPageDirectory_keeps (h : P m) (mappedEnd physBase pd : Nat) :
    P (m.fillPageDirectory mappedEnd physBase pd) := by
  refine foldlRecOn (motive := P) _ _ h fun m hm i _ => ?_
  dsimp only
  split
  · exact hm
  · exact hmemory _ _ hm

include hmemory halloc in
theorem fillDirectoryPointers_keeps {mappedEnd pml4Index pdpt : Nat} (h : P m)
    (hrun : m.fillDirectoryPointers ring mappedEnd pml4Index pdpt = some m') : P m' := by
  refine foldlM_keeps (fun m i m' hm hstep => ?_) h hrun
  dsimp only at hstep
  split at hstep
  next =>
    cases hstep
    exact hm
  next =>
    cases htable : ensureTable ring m pdpt i with
    | none =>
      rw [htable] at hstep
      cases hstep
    | some u =>
      rw [htable] at hstep
      rw [← Option.some.inj hstep]
      exact fillPageDirectory_keeps hmemory (ensureTable_keeps hmemory halloc hm htable) _ _ _

include hmemory halloc in
theorem buildKernelDirectMap_keeps {maxPhysAddr : Nat} (h : P m)
    (hrun : buildKernelDirectMap ring m maxPhysAddr = some m') : P m' := by
  unfold buildKernelDirectMap at hrun
  dsimp only at hrun
  split at hrun
  · cases hrun
  · refine foldlM_keeps (fun m i m' hm hstep => ?_) h hrun
    cases htable : ensureTable ring m (bootKernelPml4Paddr / pageSize) i with
    | none =>
      rw [htable] at hstep
      cases hstep
    | some u =>
      rw [htable] at hstep
      exact fillDirectoryPointers_keeps hmemory halloc
        (ensureTable_keeps hmemory halloc hm htable) hstep

end Keeps

/-! ## Calls -/

theorem AllocOutcome.sound (h : Sound m) {owner : PageOwner} {out : Nat × Pmm}
    (ho : AllocOutcome m ring n owner out) : Sound out.2 := by
  cases ho with
  | taken valid _ _ _ free taken => exact h.taken valid free taken
  | invalid => exact h
  | injected => exact { h with }
  | full => exact h

theorem FreeOutcome.sound (h : Sound m) {paddr : Nat} {expected : PageOwner} {out : Bool × Pmm}
    (ho : FreeOutcome m ring paddr n expected out) : Sound out.2 := by
  cases ho with
  | refused => exact h
  | freed _ _ allowed back =>
    exact h.givenBack (fun p h1 h2 => ((m.mayFree_iff ring expected p).mp (allowed p h1 h2)).2.2.1)
      back

theorem MapOutcome.sound (h : Sound m) {page count : Nat} {last : Prop} {out : Bool × Pmm}
    (ho : MapOutcome m page count last out) : Sound out.2 := by
  cases ho with
  | refused => exact h
  | counted mappable => exact h.setRefcount mappable _
  | freed mappable =>
    refine h.givenBack (fun p h1 h2 => ?_) (m.giveBack_givenBack mappable.1)
    rw [show p = page by omega]
    exact h.mappable_free mappable

end Pmm

theorem Pmm.Clean.sound (h : m.Clean) (hready : m.ready = true) (hnull : m.isReserved 0 = true) :
    m.Sound where
  ready := hready
  null := hnull
  reserved := h.reserved
  allocated p hp hr := by
    obtain ⟨hbit, howner⟩ := h.free p hp hr
    simp [hbit, howner]
  mapped p _ hc := absurd (h.counts p) (Nat.ne_of_gt hc)

/-! ## The pages left to allocate -/

theorem le_maxPhyAddr_iff {k : Nat} : k ≤ maxPhyAddr ards ↔
    k ≤ 0 ∨ ∃ e ∈ ards, e.type = 1 ∧ e.fits = true ∧ k ≤ e.endAddr := by
  refine Machine.foldl_iff (I := fun _ => True) (P := fun s => k ≤ s) (fun _ _ _ => trivial)
    (fun s e _ => ?_) trivial ards
  split
  next h => simp only [h.1, h.2.1, true_and]; omega
  next h => by_cases hu : e.type = 1 ∧ e.fits = true <;> grind

namespace Pmm

theorem isReserved_releasePage (hp : p < m.pageCount) (page : Nat) :
    (m.releasePage page).isReserved p = false ↔ m.isReserved p = false ∨ p = page := by
  unfold releasePage
  split
  · change bit (clearBit m.reservedBits page) p = false ↔ _
    rw [bit_clearBit]
    by_cases hpp : p = page <;> simp [isReserved, hpp]
  next hpage => exact (or_iff_left (by omega)).symm

theorem releaseUsable_pageCount (m : Pmm) (e : Ards) :
    (m.releaseUsable e).pageCount = m.pageCount :=
  releaseUsable_keeps (P := fun u => u.pageCount = m.pageCount)
    (fun u page hu => (u.releasePage_pageCount page).trans hu) rfl e

theorem isReserved_releaseUsable (hp : p < m.pageCount) (e : Ards) :
    (m.releaseUsable e).isReserved p = false ↔ m.isReserved p = false ∨ (e.type = 1 ∧
      e.fits = true ∧ (e.baseAddr.toNat + 4095) % 2 ^ 64 / 4096 ≤ p ∧ p < e.endAddr / 4096) := by
  unfold releaseUsable
  split
  next h => exact (or_iff_left (by grind)).symm
  next h =>
    rw [Machine.foldl_iff (I := fun m : Pmm => p < m.pageCount)
      (P := fun m : Pmm => m.isReserved p = false) (Q := fun page => p = page)
      (fun m page hm => (m.releasePage_pageCount page).symm ▸ hm)
      (fun m page hm => isReserved_releasePage hm page) hp]
    refine or_congr_right ?_
    simp only [exists_eq_right', mem_range'_1]
    grind

theorem isReserved_reserveUnusable {stop : Nat} (m : Pmm) (hp : (p + 1) * pageSize ≤ stop)
    (e : Ards) : (m.reserveUnusable stop e).isReserved p = true ↔ m.isReserved p = true ∨
      (e.type ≠ 1 ∧ e.fits = true ∧ Meets p e.baseAddr.toNat e.endAddr) := by
  unfold reserveUnusable
  split
  next h => exact (or_iff_left (by grind)).symm
  next h =>
    rw [isReserved_reservePhysicalRange hp]
    exact or_congr_right (by grind)

end Pmm

/-- A page that may be handed out. -/
structure SafePage (ards : List Ards) (pageCount p : Nat) : Prop where
  usable : ∃ e ∈ ards, e.type = 1 ∧ e.fits = true ∧ e.baseAddr.toNat ≤ p * pageSize ∧
    (p + 1) * pageSize ≤ e.endAddr
  unusable : ∀ e ∈ ards, e.type ≠ 1 → e.fits = true → ¬ Pmm.Meets p e.baseAddr.toNat e.endAddr
  boot : bootReservedEnd ≤ p * pageSize
  metadata : ¬ Pmm.Meets p memoryBitmapPaddr (memoryBitmapPaddr + metadataBytes pageCount)

theorem blank_released (ards : List Ards) (memory : Nat → Block) (hp : p < n) :
    (ards.foldl releaseUsable (blank n memory)).isReserved p = false ↔ ∃ e ∈ ards,
      e.type = 1 ∧ e.fits = true ∧ (e.baseAddr.toNat + 4095) % 2 ^ 64 / 4096 ≤ p ∧
        p < e.endAddr / 4096 := by
  refine (Machine.foldl_iff (I := fun m : Pmm => p < m.pageCount)
    (P := fun m : Pmm => m.isReserved p = false)
    (fun m e hm => (m.releaseUsable_pageCount e).symm ▸ hm)
    (fun m e hm => isReserved_releaseUsable hm e) (s := blank n memory) hp ards).trans ?_
  rw [isReserved_blank]
  simp

/-- Rounding a base up does not wrap, as no usable record ends above the direct map. -/
theorem released_iff_usable (htop : maxPhyAddr ards ≤ directMapMaxPhys) :
    (∃ e ∈ ards, e.type = 1 ∧ e.fits = true ∧ (e.baseAddr.toNat + 4095) % 2 ^ 64 / 4096 ≤ p ∧
      p < e.endAddr / 4096) ↔
    ∃ e ∈ ards, e.type = 1 ∧ e.fits = true ∧ e.baseAddr.toNat ≤ p * pageSize ∧
      (p + 1) * pageSize ≤ e.endAddr := by
  refine exists_congr fun e => and_congr_right fun he => and_congr_right fun ht =>
    and_congr_right fun hfits => ?_
  have hend : e.endAddr ≤ maxPhyAddr ards := le_maxPhyAddr_iff.mpr (.inr ⟨e, he, ht, hfits, le_rfl⟩)
  have hbase : e.baseAddr.toNat ≤ e.endAddr := Nat.le_add_right _ _
  unfold directMapMaxPhys at htop
  unfold pageSize
  omega

theorem readyMap_spec (h : readyMap ards memory = some m) :
    m.Clean ∧ m.ready = true ∧ 0 < m.pageCount ∧
      ∀ p < m.pageCount, m.isReserved p = false ↔ SafePage ards m.pageCount p := by
  unfold readyMap at h
  dsimp only at h
  split at h
  · cases h
  next htop =>
    split at h
    · cases h
    next hend =>
      obtain rfl := Option.some.inj h
      have hrecords := records_clean ards (managedEnd ards) (managedEnd ards / pageSize) memory
      obtain ⟨hclean, hcount⟩ := reservePhysicalRange_keeps Pmm.CleanOf.reservePage
        (reservePhysicalRange_keeps Pmm.CleanOf.reservePage hrecords (managedEnd ards) 0
          bootReservedEnd) (managedEnd ards) memoryBitmapPaddr
        (memoryBitmapPaddr + metadataBytes (managedEnd ards / pageSize))
      refine ⟨{ hclean with }, rfl, ?_⟩
      simp only [hcount]
      constructor
      · refine Nat.div_pos ?_ (by decide)
        unfold memoryBitmapPaddr at hend
        unfold pageSize
        omega
      · intro p hp
        have hlast : (p + 1) * pageSize ≤ managedEnd ards := (Nat.le_div_iff_mul_le (by decide)).mp hp
        rw [← Bool.not_eq_true]
        change ¬ isReserved (reservePhysicalRange ..) p = true ↔ _
        rw [isReserved_reservePhysicalRange hlast, isReserved_reservePhysicalRange hlast,
          Machine.foldl_iff (I := fun _ => True) (P := fun m : Pmm => m.isReserved p = true)
            (fun _ _ _ => trivial) (fun m e _ => m.isReserved_reserveUnusable hlast e) trivial,
          ← Bool.not_eq_false, blank_released ards memory hp,
          released_iff_usable (by omega), meets_iff 0]
        constructor
        · intro hnot
          constructor
          case usable => exact by_contra fun hu => hnot (.inl (.inl (.inl hu)))
          case unusable =>
            exact fun e he ht hf hm => hnot (.inl (.inl (.inr ⟨e, he, ht, hf, hm⟩)))
          case boot =>
            exact Nat.le_of_not_lt fun hlt => hnot (.inl (.inr
              ⟨by decide, Nat.mul_pos (Nat.succ_pos p) (by decide), hlt⟩))
          case metadata => exact fun hm => hnot (.inr hm)
        · rintro hs (((hu | ⟨e, he, ht, hf, hm⟩) | ⟨-, -, hlt⟩) | hm)
          · exact hu hs.usable
          · exact hs.unusable e he ht hf hm
          · exact Nat.not_lt.mpr hs.boot hlt
          · exact hs.metadata hm

/-- Just before the direct map is built, the free pages are the safe ones, for every E820 table. -/
theorem init_marks_safe_pages (h : readyMap ards memory = some m) :
    (∀ ring, initPhyMemMap ards memory ring = m.buildKernelDirectMap ring (managedEnd ards)) ∧
    m.ready = true ∧ ∀ p < m.pageCount,
      (m.getBit p = false ∧ m.isReserved p = false ↔ SafePage ards m.pageCount p) ∧
      (¬ SafePage ards m.pageCount p → m.isReserved p = true ∧ m.owners p = .reserved) := by
  obtain ⟨hclean, hready, -, hsafe⟩ := readyMap_spec h
  refine ⟨fun ring => by rw [initPhyMemMap, h]; rfl, hready, fun p hp => ⟨?_, fun hnot => ?_⟩⟩
  · rw [← hsafe p hp]
    exact and_iff_right_of_imp fun hr => (hclean.free p hp hr).1
  · have hr : m.isReserved p = true := by
      rw [← Bool.not_eq_false, hsafe p hp]
      exact hnot
    exact ⟨hr, hclean.reserved p hp hr⟩

/-- Four pages above the reserved 2 MiB, with a record of another type over the last. -/
theorem init_marks_safe_pages_four :
    ∃ m, readyMap [⟨0, 0x204000, 1⟩, ⟨0x203800, 0x10, 2⟩] (fun _ _ => 0) = some m ∧
      m.ready = true ∧ ∀ p < m.pageCount, (m.getBit p = false ∧ m.isReserved p = false ↔
        SafePage [⟨0, 0x204000, 1⟩, ⟨0x203800, 0x10, 2⟩] m.pageCount p) := by
  have hready : (readyMap [⟨0, 0x204000, 1⟩, ⟨0x203800, 0x10, 2⟩] (fun _ _ => 0)).isSome = true := by
    decide +kernel
  obtain ⟨m, hm⟩ := Option.isSome_iff_exists.mp hready
  obtain ⟨-, hset, hpages⟩ := init_marks_safe_pages hm
  exact ⟨m, hm, hset, fun p hp => (hpages p hp).1⟩

theorem initPhyMemMap_keeps {P : Pmm → Prop}
    (hclean : ∀ m : Pmm, m.Clean → m.ready = true → m.isReserved 0 = true → P m)
    (hmemory : ∀ (m : Pmm) (f : Nat → Block), P m → P { m with memory := f })
    (halloc : ∀ m : Pmm, P m → P (m.allocPageOwned ring .pageTable).2)
    (h : initPhyMemMap ards memory ring = some m) : P m := by
  rw [initPhyMemMap] at h
  obtain ⟨m₁, hmap, hbuild⟩ := Option.bind_eq_some_iff.mp h
  obtain ⟨hm, hready, hpos, hsafe⟩ := readyMap_spec hmap
  refine buildKernelDirectMap_keeps hmemory halloc (hclean m₁ hm hready ?_) hbuild
  rw [← Bool.not_eq_false, hsafe 0 hpos]
  exact fun hnull => absurd hnull.boot (by decide)

theorem initPhyMemMap_sound (h : initPhyMemMap ards memory ring = some m) : m.Sound := by
  refine initPhyMemMap_keeps (fun m hm hready hnull => hm.sound hready hnull) (fun m f hm => ?_)
    (fun m hm => ?_) h
  · exact { hm with }
  · exact (allocPagesOwned_outcome hm ring 1 .pageTable).sound hm

theorem initPhyMemMap_owners (h : initPhyMemMap ards memory ring = some m) (hp : p < m.pageCount) :
    m.owners p = .reserved ∨ m.owners p = .free ∨ m.owners p = .pageTable := by
  refine (initPhyMemMap_keeps (P := fun m => m.Sound ∧ ∀ p, p < m.pageCount →
      m.owners p = .reserved ∨ m.owners p = .free ∨ m.owners p = .pageTable)
    (fun m hm hready hnull => ⟨hm.sound hready hnull, fun p hp => ?_⟩) (fun m f hm => ?_)
    (fun m hm => ?_) h).2 p hp
  · by_cases hr : m.isReserved p = true
    · exact Or.inl (hm.reserved p hp hr)
    · exact Or.inr (Or.inl (hm.free p hp (by simpa using hr)).2)
  · exact ⟨{ hm.1 with }, hm.2⟩
  · have hout := allocPagesOwned_outcome hm.1 ring 1 .pageTable
    refine ⟨hout.sound hm.1, ?_⟩
    rw [allocPageOwned]
    generalize m.allocPagesOwned ring 1 .pageTable = out at hout ⊢
    cases hout with
    | taken _ _ _ _ _ ht =>
      intro p hp
      rw [ht.fixed.pageCount] at hp
      rw [ht.owners]
      split
      · exact Or.inr (Or.inr rfl)
      · exact hm.2 p hp
    | invalid | injected | full => exact hm.2

/-! ## Runs of calls -/

namespace Pmm

inductive Op where
  | alloc (ring : List ThreadPages) (n : Nat) (owner : PageOwner)
  | free (ring : List ThreadPages) (paddr n : Nat) (expected : PageOwner)
  | acquire (paddr : Nat)
  | release (paddr : Nat)
  | inject

def apply (m : Pmm) : Op → Pmm
  | .alloc ring n owner => (m.allocPagesOwned ring n owner).2
  | .free ring paddr n expected => (m.freePagesOwned ring paddr n expected).2
  | .acquire paddr => (m.acquireUserMapping paddr).2
  | .release paddr => (m.releaseUserMapping paddr).2
  | .inject => m.testInjectAllocFailureOnce

/-- The operation hands out `page`. -/
def Takes (m : Pmm) (page : Nat) : Op → Prop
  | .alloc ring n owner =>
    (m.allocPagesOwned ring n owner).1 ≠ 0 ∧
      (m.allocPagesOwned ring n owner).1 / pageSize ≤ page ∧
      page < (m.allocPagesOwned ring n owner).1 / pageSize + n
  | _ => False

/-- Some operation of the run hands out `page`. -/
def TakenIn (page : Nat) : Pmm → List Op → Prop
  | _, [] => False
  | m, op :: ops => m.Takes page op ∨ TakenIn page (m.apply op) ops

theorem apply_sound (h : Sound m) (op : Op) : Sound (m.apply op) := by
  cases op with
  | alloc ring n owner => exact (allocPagesOwned_outcome h ring n owner).sound h
  | free ring paddr n expected => exact (m.freePagesOwned_outcome ring paddr n expected).sound h
  | acquire paddr => exact (m.acquireUserMapping_outcome paddr).sound h
  | release paddr => exact (m.releaseUserMapping_outcome paddr).sound h
  | inject => exact { h with }

/-- What an operation does to the page `p`: it stays allocated or free unless it is taken. -/
structure Stepped (m m' : Pmm) (op : Op) : Prop where
  pageCount : m'.pageCount = m.pageCount
  reservedBits : m'.reservedBits = m.reservedBits
  getBit : ∀ p, m.getBit p = false → m'.getBit p = true → m.Takes p op

theorem Stepped.of_free {op : Op} (hcount : m'.pageCount = m.pageCount)
    (hreserved : m'.reservedBits = m.reservedBits)
    (hbits : ∀ p, m.getBit p = false → m'.getBit p = false) : Stepped m m' op where
  pageCount := hcount
  reservedBits := hreserved
  getBit p hp hp' := by
    rw [hbits p hp] at hp'
    cases hp'

theorem GivenBack.stepped {start : Nat} (h : GivenBack m m' start n) {op : Op} : Stepped m m' op :=
  .of_free h.fixed.pageCount h.fixed.reservedBits fun p hp => by
    rw [h.getBit, hp, Bool.and_false]

theorem AllocOutcome.stepped {owner : PageOwner} {out : Nat × Pmm}
    (ho : AllocOutcome m ring n owner out) (hout : m.allocPagesOwned ring n owner = out) :
    Stepped m out.2 (.alloc ring n owner) := by
  cases ho with
  | taken _ hn hpos _ _ ht =>
    refine ⟨ht.fixed.pageCount, ht.fixed.reservedBits, fun p hp hp' => ?_⟩
    rw [ht.getBit, hp, Bool.or_false, decide_eq_true_eq] at hp'
    rw [Takes, hout, Nat.mul_div_cancel _ (by decide : 0 < pageSize)]
    exact ⟨Nat.mul_ne_zero (by omega) (by decide), hp'⟩
  | invalid | injected | full => exact .of_free rfl rfl fun _ hp => hp

theorem FreeOutcome.stepped {paddr : Nat} {expected : PageOwner} {out : Bool × Pmm}
    (ho : FreeOutcome m ring paddr n expected out) :
    Stepped m out.2 (.free ring paddr n expected) := by
  cases ho with
  | refused => exact .of_free rfl rfl fun _ hp => hp
  | freed _ _ _ hg => exact hg.stepped

theorem MapOutcome.stepped {page count : Nat} {last : Prop} {out : Bool × Pmm}
    (ho : MapOutcome m page count last out) {op : Op} : Stepped m out.2 op := by
  cases ho with
  | refused | counted => exact .of_free rfl rfl fun _ hp => hp
  | freed mappable => exact (m.giveBack_givenBack mappable.1).stepped

theorem apply_stepped (h : Sound m) (op : Op) : Stepped m (m.apply op) op := by
  cases op with
  | alloc ring n owner => exact (allocPagesOwned_outcome h ring n owner).stepped rfl
  | free ring paddr n expected => exact (m.freePagesOwned_outcome ring paddr n expected).stepped
  | acquire paddr => exact (m.acquireUserMapping_outcome paddr).stepped
  | release paddr => exact (m.releaseUserMapping_outcome paddr).stepped
  | inject => exact .of_free rfl rfl fun _ hp => hp

theorem foldl_apply_getBit (h : Sound m) (ops : List Op) (hp : m.getBit p = false)
    (hp' : (ops.foldl apply m).getBit p = true) : TakenIn p m ops := by
  induction ops generalizing m with
  | nil =>
    rw [foldl_nil, hp] at hp'
    cases hp'
  | cons op ops ih =>
    by_cases hnext : (m.apply op).getBit p = true
    · exact Or.inl ((apply_stepped h op).getBit p hp hnext)
    · exact Or.inr (ih (apply_sound h op) (by simpa using hnext) hp')

/-- The invariant and the calls in a state `m`, with `m₀` the state after initialization. -/
structure Managed (m₀ m : Pmm) : Prop where
  pageCount : m.pageCount = m₀.pageCount
  reservedBit : ∀ p, m.isReserved p = m₀.isReserved p
  reservedOwner : ∀ p, p < m.pageCount → m₀.isReserved p = true → m.owners p = .reserved
  allocated : ∀ p, p < m.pageCount → m.isReserved p = false →
    (m.getBit p = true ↔ m.owners p ≠ .free)
  mapped : ∀ p, p < m.pageCount → 0 < m.refcounts p →
    m.isReserved p = false ∧ m.getBit p = true ∧ m.owners p = .user
  alloc : ∀ ring n owner, AllocOutcome m ring n owner (m.allocPagesOwned ring n owner)
  free : ∀ ring paddr n expected m', m.freePagesOwned ring paddr n expected = (false, m') → m' = m
  acquire : ∀ paddr m', m.acquireUserMapping paddr = (false, m') → m' = m
  release : ∀ paddr m', m.releaseUserMapping paddr = (false, m') → m' = m
  freeAgain : ∀ ring paddr n expected m1, m.freePagesOwned ring paddr n expected = (true, m1) →
    ∀ ops ring' expected' m2,
      (ops.foldl apply m1).freePagesOwned ring' paddr n expected' = (true, m2) →
      ∀ p, paddr / pageSize ≤ p → p < paddr / pageSize + n → TakenIn p m1 ops

theorem Sound.managed {m₀ : Pmm} (h : Sound m) (hcount : m.pageCount = m₀.pageCount)
    (hreserved : m.reservedBits = m₀.reservedBits) : Managed m₀ m where
  pageCount := hcount
  reservedBit p := by rw [isReserved, isReserved, hreserved]
  reservedOwner p hp hr := by
    rw [isReserved, ← hreserved] at hr
    exact h.reserved p hp hr
  allocated := h.allocated
  mapped p hp hc := by
    obtain ⟨hbit, howner⟩ := h.mapped p hp hc
    exact ⟨h.mappable_free ⟨hp, hbit, howner⟩, hbit, howner⟩
  alloc := allocPagesOwned_outcome h
  free ring paddr n expected m' heq := by
    have ho := m.freePagesOwned_outcome ring paddr n expected
    rw [heq] at ho
    cases ho
    rfl
  acquire paddr m' heq := (heq ▸ m.acquireUserMapping_outcome paddr).unchanged
  release paddr m' heq := (heq ▸ m.releaseUserMapping_outcome paddr).unchanged
  freeAgain ring paddr n expected m1 heq ops ring' expected' m2 heq' p h1 h2 := by
    have ho := m.freePagesOwned_outcome ring paddr n expected
    have hsound := ho.sound h
    rw [heq] at ho hsound
    have ho' := (ops.foldl apply m1).freePagesOwned_outcome ring' paddr n expected'
    rw [heq'] at ho'
    cases ho with
    | freed _ _ _ hg =>
      cases ho' with
      | freed _ _ allowed _ =>
        refine foldl_apply_getBit hsound ops ?_ ((mayFree_iff _ _ _ _).mp (allowed p h1 h2)).2.1
        rw [hg.getBit, decide_eq_true ⟨h1, h2⟩]
        rfl

theorem foldl_apply_sound (h : Sound m) (ops : List Op) :
    Sound (ops.foldl apply m) ∧ (ops.foldl apply m).pageCount = m.pageCount ∧
      (ops.foldl apply m).reservedBits = m.reservedBits := by
  induction ops generalizing m with
  | nil => exact ⟨h, rfl, rfl⟩
  | cons op ops ih =>
    have hstep := apply_stepped h op
    obtain ⟨hsound, hcount, hbits⟩ := ih (apply_sound h op)
    exact ⟨hsound, hcount.trans hstep.pageCount, hbits.trans hstep.reservedBits⟩

/-- Every state that calls of the page manager lead to from a successful initialization. -/
theorem page_manager_invariant {ards : List Ards} {memory : Nat → Block} {ring : List ThreadPages}
    {m₀ : Pmm} (hinit : initPhyMemMap ards memory ring = some m₀) (ops : List Op) :
    Managed m₀ (ops.foldl apply m₀) := by
  obtain ⟨hsound, hcount, hbits⟩ := foldl_apply_sound (initPhyMemMap_sound hinit) ops
  exact hsound.managed hcount hbits

/-- Four pages above the reserved 2 MiB, and page tables in which every entry is present. -/
theorem page_manager_invariant_four_pages :
    ∃ m₀, initPhyMemMap [⟨0, 0x204000, 1⟩] (fun _ _ => 1) [] = some m₀ ∧
      Managed m₀ ([.alloc [] 2 .user, .acquire 0x201000].foldl apply m₀) := by
  have hinit : (initPhyMemMap [⟨0, 0x204000, 1⟩] (fun _ _ => 1) []).isSome = true := by
    decide +kernel
  obtain ⟨m₀, hm⟩ := Option.isSome_iff_exists.mp hinit
  exact ⟨m₀, hm, page_manager_invariant hm _⟩

end Pmm

end OrangeOs.Memory
