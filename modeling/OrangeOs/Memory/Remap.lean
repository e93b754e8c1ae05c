import OrangeOs.Lib.Tally
import OrangeOs.Memory.Pmm

/-! # Replacing a mapping

`remap_page` puts another physical page or other flags into a page-table entry that is present. The
tables are kept as words by the physical address of the table and the index in it, apart from the
page contents. A present entry with PTE_US stands for one of the references that the page manager
counts for its page.
-/

namespace OrangeOs.Memory

open Function List

/-- The place of an entry: the physical address of its table and its index there. -/
abbrev Slot := Nat × Nat

structure Paging where
  pmm : Pmm
  entry : Slot → Nat

namespace Paging

/-- The bits PTE_P, PTE_US and PTE_PS, and what PTE_ADDR_MASK keeps. -/
def present (e : Nat) : Bool := e.testBit 0
def user (e : Nat) : Bool := e.testBit 2
def large (e : Nat) : Bool := e.testBit 7
def address (e : Nat) : Nat := e / pageSize * pageSize

def getUserPte (s : Paging) (pml4 vaddr : Nat) : Option Slot :=
  if pml4 = 0 ∨ vaddr % pageSize ≠ 0 then none
  else
    let pml4e := s.entry (pml4, vaddr / 2 ^ 39 % 512)
    if present pml4e = false then none
    else
      let pdpte := s.entry (address pml4e, vaddr / 2 ^ 30 % 512)
      if present pdpte = false ∨ large pdpte = true then none
      else
        let pde := s.entry (address pdpte, vaddr / 2 ^ 21 % 512)
        if present pde = false ∨ large pde = true then none
        else some (address pde, vaddr / 2 ^ 12 % 512)

/-- `true` stands for `0`, `false` for `-1`. -/
def remapPage (s : Paging) (pml4 vaddr paddr flags : Nat) : Bool × Paging :=
  if paddr = 0 ∨ paddr % pageSize ≠ 0 then (false, s)
  else
    match s.getUserPte pml4 vaddr with
    | none => (false, s)
    | some pte =>
      let old := s.entry pte
      if present old = false then (false, s)
      else
        let entry := update s.entry pte (address paddr ||| flags ||| 1)
        if address old = paddr then (true, ⟨s.pmm, entry⟩)
        else
          match if user flags then s.pmm.acquireUserMapping paddr else (true, s.pmm) with
          | (false, m) => (false, ⟨m, s.entry⟩)
          | (true, m) =>
            (true, ⟨if user old then (m.releaseUserMapping (address old)).2 else m, entry⟩)

/-! ## What the references count -/

/-- The entries that `get_user_pte` reads on its way. -/
def above (s : Paging) (pml4 vaddr : Nat) : List Slot :=
  let pml4e := (pml4, vaddr / 2 ^ 39 % 512)
  let pdpte := (address (s.entry pml4e), vaddr / 2 ^ 30 % 512)
  [pml4e, pdpte, (address (s.entry pdpte), vaddr / 2 ^ 21 % 512)]

/-- `ptes` are the entries for pages of the address spaces, and no table of a higher level has
one of them. -/
structure Tables (s : Paging) (spaces : List Nat) (ptes : List Slot) : Prop where
  nodup : ptes.Nodup
  mem : ∀ x, x ∈ ptes ↔ ∃ pml4 ∈ spaces, ∃ vaddr, s.getUserPte pml4 vaddr = some x
  apart : ∀ pml4 ∈ spaces, ∀ vaddr, ∀ x ∈ s.above pml4 vaddr, x ∉ ptes

/-- The page of a present entry with PTE_US. -/
def userPage (s : Paging) (x : Slot) : Option Nat :=
  if present (s.entry x) && user (s.entry x) then some (s.entry x / pageSize) else none

def Accounted (s : Paging) (ptes : List Slot) : Prop :=
  ∀ p < s.pmm.pageCount, pointing ptes s.userPage p = s.pmm.refcounts p

/-- The entry has this page already, and the flags make a user entry of it or end one. -/
def Toggles (s : Paging) (pml4 vaddr paddr flags : Nat) : Prop :=
  paddr / pageSize < s.pmm.pageCount ∧ ∃ pte, s.getUserPte pml4 vaddr = some pte ∧
    address (s.entry pte) = paddr ∧ user (s.entry pte) ≠ user flags

/-- One reference to `page` if the entry is the user's. -/
def refs (isUser : Bool) (page p : Nat) : Nat := if isUser = true ∧ page = p then 1 else 0

variable {s : Paging} {spaces : List Nat} {ptes : List Slot} {pml4 vaddr paddr flags : Nat}

theorem walk_eq (s' : Paging) (h : ∀ x ∈ s.above pml4 vaddr, s'.entry x = s.entry x) :
    s'.getUserPte pml4 vaddr = s.getUserPte pml4 vaddr ∧
      s'.above pml4 vaddr = s.above pml4 vaddr := by
  simp only [above, forall_mem_cons] at h
  obtain ⟨h4, h3, h2, -⟩ := h
  simp only [getUserPte, above, h4, h3, h2, and_self]

theorem Tables.write (h : Tables s spaces ptes) {x : Slot} (hx : x ∈ ptes) (m : Pmm) (w : Nat) :
    Tables ⟨m, update s.entry x w⟩ spaces ptes := by
  have hwalk := fun pml4 (hpml4 : pml4 ∈ spaces) vaddr =>
    walk_eq ⟨m, update s.entry x w⟩ fun y hy => update_of_ne
      (ne_of_mem_of_not_mem hx (h.apart pml4 hpml4 vaddr y hy)).symm w s.entry
  refine ⟨h.nodup, fun y => (h.mem y).trans ?_, fun pml4 hpml4 vaddr => ?_⟩
  · refine exists_congr fun pml4 => and_congr_right fun hpml4 => exists_congr fun vaddr => ?_
    rw [(hwalk pml4 hpml4 vaddr).1]
  · rw [(hwalk pml4 hpml4 vaddr).2]
    exact h.apart pml4 hpml4 vaddr

theorem word_bits (paddr : Nat) (hflags : flags < pageSize) :
    present (address paddr ||| flags ||| 1) = true ∧
      user (address paddr ||| flags ||| 1) = user flags ∧
      (address paddr ||| flags ||| 1) / pageSize = paddr / pageSize := by
  have haddress : address paddr = 2 ^ 12 * (paddr / pageSize) := Nat.mul_comm ..
  have hlow : flags ||| 1 < 2 ^ 12 := Nat.or_lt_two_pow hflags (by decide)
  refine ⟨by simp [present], ?_, ?_⟩
  · rw [user, haddress, Nat.testBit_or, Nat.testBit_or, Nat.testBit_two_pow_mul,
      show Nat.testBit 1 2 = false from rfl, Bool.or_false]
    simp [user]
  · rw [Nat.or_assoc, haddress, ← Nat.two_pow_add_eq_or_of_lt hlow]
    unfold pageSize
    omega

theorem userPage_count {x : Slot} (h : present (s.entry x) = true) (p : Nat) :
    (s.userPage x).toList.count p = refs (user (s.entry x)) (s.entry x / pageSize) p := by
  rw [userPage, h, refs]
  cases user (s.entry x) with
  | false => rfl
  | true => simp [count_singleton]

theorem Tables.pointing_write (h : Tables s spaces ptes) {x : Slot} (hx : x ∈ ptes)
    (hold : present (s.entry x) = true) (hflags : flags < pageSize) (m : Pmm) (paddr p : Nat) :
    pointing ptes (userPage ⟨m, update s.entry x (address paddr ||| flags ||| 1)⟩) p +
        refs (user (s.entry x)) (s.entry x / pageSize) p =
      pointing ptes s.userPage p + refs (user flags) (paddr / pageSize) p := by
  obtain ⟨hpresent, huser, hpage⟩ := word_bits paddr hflags
  have hnew := userPage_count (x := x)
    (s := ⟨m, update s.entry x (address paddr ||| flags ||| 1)⟩) (by simpa using hpresent) p
  simp only [update_self, huser, hpage] at hnew
  rw [← userPage_count hold, ← hnew]
  refine pointing_update h.nodup hx _ _ (fun y _ hy => ?_) p
  simp only [userPage, update_of_ne hy]

/-! ## What the page manager counts -/

theorem acquire_refcounts {m m' : Pmm} (hm : m.Sound) {isUser : Bool}
    (h : (if isUser then m.acquireUserMapping paddr else (true, m)) = (true, m')) :
    m'.Sound ∧ m'.pageCount = m.pageCount ∧
      ∀ p, m'.refcounts p = m.refcounts p + refs isUser (paddr / pageSize) p := by
  cases isUser with
  | false =>
    cases h
    exact ⟨hm, rfl, fun _ => rfl⟩
  | true =>
    rw [if_pos rfl] at h
    have ho := m.acquireUserMapping_outcome paddr
    rw [h] at ho
    cases ho with
    | freed _ gone => exact gone.elim
    | counted mappable =>
      refine ⟨hm.setRefcount mappable _, rfl, fun p => ?_⟩
      simp only [Pmm.setRefcount, update_apply, refs, true_and, eq_comm (a := p)]
      split
      next heq => rw [heq]
      · rfl

theorem release_refcounts {m : Pmm} (hm : m.Sound) (isUser : Bool) (e : Nat)
    (hpos : isUser = true → e / pageSize < m.pageCount → 0 < m.refcounts (e / pageSize)) :
    (if isUser then (m.releaseUserMapping (address e)).2 else m).pageCount = m.pageCount ∧
      ∀ p < m.pageCount, (if isUser then (m.releaseUserMapping (address e)).2 else m).refcounts p +
        refs isUser (e / pageSize) p = m.refcounts p := by
  cases isUser with
  | false => exact ⟨rfl, fun _ _ => rfl⟩
  | true =>
    have hpage : address e / pageSize = e / pageSize := Nat.mul_div_cancel _ (by decide)
    have haligned : address e % pageSize = 0 := Nat.mul_mod_left ..
    simp only [if_true, refs, true_and]
    by_cases hin : e / pageSize < m.pageCount
    · have hcount := hpos rfl hin
      obtain ⟨hbit, howner⟩ := hm.mapped _ hin hcount
      have hne : address e ≠ 0 := by
        intro hzero
        rw [← hpage, hzero] at hin howner
        cases howner.symm.trans (hm.reserved _ hin hm.null)
      rw [Pmm.releaseUserMapping, if_neg (by simp [hm.ready, hne, haligned])]
      rw [hpage, if_pos ⟨hin, hbit, howner, Nat.ne_of_gt hcount⟩]
      split
      · refine ⟨rfl, fun p _ => ?_⟩
        simp only [Pmm.giveBack, update_apply, eq_comm (a := p)]
        split
        next heq => subst heq; omega
        · rfl
      · refine ⟨rfl, fun p _ => ?_⟩
        simp only [Pmm.setRefcount, update_apply, eq_comm (a := p)]
        split
        next heq => subst heq; omega
        · rfl
    · have ho := m.releaseUserMapping_outcome (address e)
      generalize m.releaseUserMapping (address e) = out at ho ⊢
      cases ho with
      | refused => exact ⟨rfl, fun p hp => by rw [if_neg (by omega), Nat.add_zero]⟩
      | counted mappable | freed mappable => exact absurd (hpage ▸ mappable.1) hin

/-! ## Accounting -/

theorem Accounted.same_iff (h : Accounted s ptes) (htables : Tables s spaces ptes) {x : Slot}
    (hx : x ∈ ptes) (hold : present (s.entry x) = true) (hflags : flags < pageSize)
    (hsame : address (s.entry x) = paddr) :
    Accounted ⟨s.pmm, update s.entry x (address paddr ||| flags ||| 1)⟩ ptes ↔
      (paddr / pageSize < s.pmm.pageCount → user (s.entry x) = user flags) := by
  have hpage : s.entry x / pageSize = paddr / pageSize := by
    rw [← hsame, address, Nat.mul_div_cancel _ (by decide)]
  have hcount := htables.pointing_write hx hold hflags s.pmm paddr
  rw [hpage] at hcount
  unfold refs at hcount
  refine ⟨fun hacc hin => ?_, fun huser p hp => ?_⟩
  · have hold' := h _ hin
    have hnew := hacc _ hin
    have heq := hcount (paddr / pageSize)
    rw [hold', hnew] at heq
    cases hu : user (s.entry x) <;> cases hf : user flags <;> simp_all
  · have heq := hcount p
    rw [← h p hp]
    by_cases hpp : paddr / pageSize = p
    · rw [huser (hpp ▸ hp)] at heq
      omega
    · simpa [hpp] using heq

theorem Accounted.moved (h : Accounted s ptes) (hsound : s.pmm.Sound)
    (htables : Tables s spaces ptes) {x : Slot} (hx : x ∈ ptes)
    (hold : present (s.entry x) = true) (hflags : flags < pageSize) {m : Pmm}
    (hm : (if user flags then s.pmm.acquireUserMapping paddr else (true, s.pmm)) = (true, m)) :
    Accounted ⟨if user (s.entry x) then (m.releaseUserMapping (address (s.entry x))).2 else m,
      update s.entry x (address paddr ||| flags ||| 1)⟩ ptes := by
  obtain ⟨hsound', hcount, hacquired⟩ := acquire_refcounts hsound hm
  obtain ⟨hcount', hreleased⟩ := release_refcounts hsound' (user (s.entry x)) (s.entry x)
    fun huser hin => by
      have hpointed : s.userPage x = some (s.entry x / pageSize) := by simp [userPage, hold, huser]
      have hne := pointing_ne_zero hx hpointed
      rw [h _ (hcount ▸ hin)] at hne
      rw [hacquired]
      omega
  intro p hp
  dsimp only at hp ⊢
  rw [hcount'] at hp
  have h1 := htables.pointing_write hx hold hflags
    (if user (s.entry x) then (m.releaseUserMapping (address (s.entry x))).2 else m) paddr p
  have h2 := hreleased p hp
  have h3 := h p (hcount ▸ hp)
  rw [hacquired p] at h2
  omega

/-- A failed call changes nothing, and a successful one keeps the counts exact unless it makes a
user entry of an entry for the same page, or ends one. -/
theorem remap_page_accounts_iff (hsound : s.pmm.Sound) (htables : s.Tables spaces ptes)
    (hacc : s.Accounted ptes) (hpml4 : pml4 ∈ spaces) (vaddr paddr flags : Nat)
    (hflags : flags < pageSize) :
    ((s.remapPage pml4 vaddr paddr flags).1 = false → (s.remapPage pml4 vaddr paddr flags).2 = s) ∧
      ((s.remapPage pml4 vaddr paddr flags).1 = true →
        (s.remapPage pml4 vaddr paddr flags).2.Tables spaces ptes ∧
          ((s.remapPage pml4 vaddr paddr flags).2.Accounted ptes ↔
            ¬s.Toggles pml4 vaddr paddr flags)) := by
  unfold remapPage
  split
  · exact ⟨fun _ => rfl, nofun⟩
  · cases hpte : s.getUserPte pml4 vaddr with
    | none => exact ⟨fun _ => rfl, nofun⟩
    | some pte =>
      have hx : pte ∈ ptes := (htables.mem pte).mpr ⟨pml4, hpml4, vaddr, hpte⟩
      dsimp only
      split
      · exact ⟨fun _ => rfl, nofun⟩
      next hold =>
        rw [Bool.not_eq_false] at hold
        split
        next hsame =>
          refine ⟨nofun, fun _ => ⟨htables.write hx _ _, ?_⟩⟩
          refine (hacc.same_iff htables hx hold hflags hsame).trans ?_
          simp [Toggles, hpte, hsame]
        next hmoved =>
          have hstays : ¬s.Toggles pml4 vaddr paddr flags := by
            rintro ⟨-, y, hy, haddress, -⟩
            cases hpte.symm.trans hy
            exact hmoved haddress
          split
          next m hm =>
            refine ⟨fun _ => ?_, nofun⟩
            split at hm
            · have ho := s.pmm.acquireUserMapping_outcome paddr
              rw [hm] at ho
              rw [ho.unchanged]
            · cases hm
          next m hm =>
            refine ⟨nofun, fun _ => ⟨htables.write hx _ _, ?_⟩⟩
            exact iff_of_true (hacc.moved hsound htables hx hold hflags hm) hstays

/-- All addresses of one address space are mapped to page 5. -/
def sharedPage : Paging where
  pmm := {
    pageCount := 6, ready := true, failAllocations := 0, memory := fun _ => Bytes.zero
    bits := fun _ => 0x3F, reservedBits := fun _ => 0x1F
    owners := fun p => if p = 5 then .user else .reserved
    refcounts := fun p => if p = 5 then 512 else 0 }
  entry x := if x.1 ≤ 0x4000 then x.1 + 0x1007 else 0

def sharedPtes : List Slot := (List.range 512).map (0x4000, ·)

theorem sharedPage_accounted : sharedPage.Accounted sharedPtes := by
  unfold Accounted
  decide +kernel

theorem sharedPage_sound : sharedPage.pmm.Sound := by
  constructor
  all_goals decide

theorem sharedPage_tables : sharedPage.Tables [0x1000] sharedPtes := by
  have hwalk : ∀ vaddr, sharedPage.getUserPte 0x1000 vaddr =
      if vaddr % 4096 ≠ 0 then none else some (0x4000, vaddr / 4096 % 512) := fun vaddr => by
    simp [getUserPte, sharedPage, present, large, address, pageSize, Nat.testBit]
  have habove : ∀ vaddr, ∀ x ∈ sharedPage.above 0x1000 vaddr, x.1 < 0x4000 := fun vaddr => by
    simp [above, sharedPage, address, pageSize]
  refine ⟨by decide +kernel, fun x => ?_, fun pml4 hpml4 vaddr x hx hmem => ?_⟩
  · simp only [mem_singleton, exists_eq_left, hwalk, sharedPtes, mem_map, mem_range]
    constructor
    · rintro ⟨i, hi, rfl⟩
      exact ⟨i * 4096, by simp [Nat.mod_eq_of_lt hi]⟩
    · rintro ⟨vaddr, hv⟩
      split at hv
      · cases hv
      · cases hv
        exact ⟨_, Nat.mod_lt _ (by decide), rfl⟩
  · obtain ⟨i, -, rfl⟩ := mem_map.mp hmem
    cases mem_singleton.mp hpml4
    exact Nat.lt_irrefl _ (habove vaddr _ hx)

theorem remap_page_accounts_iff_shared :
    (sharedPage.remapPage 0x1000 0 0x5000 0x03).2.Accounted sharedPtes ↔
      ¬sharedPage.Toggles 0x1000 0 0x5000 0x03 :=
  ((remap_page_accounts_iff sharedPage_sound sharedPage_tables sharedPage_accounted
    (mem_singleton_self 0x1000) 0 0x5000 0x03 (by decide)).2 (by decide +kernel)).2

/-- The entry is no longer the user's, but its reference is still counted. -/
theorem remap_same_page_miscounts :
    sharedPage.Accounted sharedPtes ∧ (sharedPage.remapPage 0x1000 0 0x5000 0x03).1 = true ∧
      pointing sharedPtes (sharedPage.remapPage 0x1000 0 0x5000 0x03).2.userPage 5 = 511 ∧
      (sharedPage.remapPage 0x1000 0 0x5000 0x03).2.pmm.refcounts 5 = 512 :=
  ⟨sharedPage_accounted, by decide +kernel⟩

end Paging

end OrangeOs.Memory
