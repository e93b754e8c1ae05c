import Mathlib.Data.List.Count
import OrangeOs.Sched.Insertion

/-! # The pages of the threads

For each thread and each of its four pages, the log's releases and what the system still holds add
up to the log's allocations. A freed thread holds nothing, a mapped page belongs to a thread of the
address space it is in, and a page is given back while its thread is current or in the ring only
when that thread has called `process_exit`.
-/

namespace OrangeOs.Sched

open Function List

open Proc (ProcId kernelProcess Lifecycle)
open Ipc (Tid)

/-- The page is in the user's half of an address space. -/
def Page.user : Page → Bool
  | .object | .kernelStack => false
  | .userStack | .tls => true

def Event.isFree (t : Tid) (page : Page) : Event → Bool
  | .free u page' _ _ => decide (u = t ∧ page' = page)
  | _ => false

/-- The event says something about a page. -/
def Event.aboutPages : Event → Bool
  | .alloc _ _ | .free _ _ _ _ => true
  | _ => false

def Mapping.isOf (t : Tid) (page : Page) (m : Mapping) : Bool :=
  decide (m.thread = t ∧ m.page = page)

def Thread.has (r : Thread) : Page → Bool
  | .object => r.objectPage
  | .kernelStack => r.stackPage
  | .userStack => r.userStackPage
  | .tls => r.tlsPage

namespace System

variable {s s' : System} {others : List Tid} {t u : Tid} {p : ProcId} {page : Page}
  {es : List Event}

def allocs (s : System) (t : Tid) (page : Page) : Nat := s.log.count (.alloc t page)

def frees (s : System) (t : Tid) (page : Page) : Nat := s.log.countP (Event.isFree t page)

/-- How often a page of a thread is held. -/
def held (s : System) (t : Tid) (page : Page) : Nat :=
  if page.user then s.mapped.countP (Mapping.isOf t page) else ((s.thread t).has page).toNat

structure Pages (s : System) : Prop where
  balanced : ∀ t page, s.frees t page + s.held t page = s.allocs t page
  once : ∀ t page, s.allocs t page ≤ 1
  unused : ∀ t page, s.nextTid ≤ t → s.allocs t page = 0
  gone : ∀ t page, s.process t = none → s.held t page = 0
  mapping : ∀ m ∈ s.mapped, s.process m.thread = some m.space ∧ (s.proc m.space).cr3 = true ∧
    m.space ≠ kernelProcess ∧ m.page.user = true ∧ (s.thread m.thread).has m.page = true
  whole : ∀ t p page, s.process t = some p → (page.user = true → (s.proc p).cr3 = true) →
    s.frees t page = 0
  apart : ∀ t page current inRing, .free t page current inRing ∈ s.log →
    (current = false ∧ inRing = false) ∨ (page.user = true ∧ .processExit t ∈ s.log)

/-! ## Events added to the log -/

theorem frees_append (hlog : s'.log = es ++ s.log) (hes : ∀ c r, .free t page c r ∉ es) :
    s'.frees t page = s.frees t page := by
  rw [frees, hlog, countP_append, countP_eq_zero.mpr, Nat.zero_add, frees]
  intro e he hfree
  cases e with
  | free u page' c r =>
    obtain ⟨rfl, rfl⟩ := of_decide_eq_true hfree
    exact hes c r he
  | _ => cases hfree

theorem allocs_append (hlog : s'.log = es ++ s.log) (hes : ∀ t page, .alloc t page ∉ es) (t : Tid)
    (page : Page) : s'.allocs t page = s.allocs t page := by
  rw [allocs, hlog, count_append, count_eq_zero.mpr (hes t page), Nat.zero_add, allocs]

theorem Pages.apart_append (h : Pages s) (hlog : s'.log = es ++ s.log)
    (hes : ∀ t page c r, .free t page c r ∈ es →
      (c = false ∧ r = false) ∨ (page.user = true ∧ .processExit t ∈ s.log))
    (t : Tid) (page : Page) (c r : Bool) (hfree : .free t page c r ∈ s'.log) :
    (c = false ∧ r = false) ∨ (page.user = true ∧ .processExit t ∈ s'.log) := by
  rw [hlog] at hfree ⊢
  have hold := (mem_append.mp hfree).elim (hes t page c r) (h.apart t page c r)
  exact hold.imp id fun hexit => ⟨hexit.1, mem_append_right es hexit.2⟩

/-! ## Steps that touch no page -/

/-- The fields that say what pages a thread has. -/
structure SamePages (r r' : Thread) : Prop where
  process : r'.process = r.process
  has : ∀ page, r'.has page = r.has page

theorem modify_has {f : Thread → Thread} (h : ∀ page, (f (s.thread t)).has page =
    (s.thread t).has page) (u : Tid) (page : Page) :
    ((s.modify t f).thread u).has page = (s.thread u).has page :=
  modify_proj (·.has page) (h page) u

theorem Pages.frame (h : Pages s) (hthread : ∀ t, SamePages (s.thread t) (s'.thread t))
    (hmapped : s'.mapped = s.mapped) (hcr3 : ∀ p, (s'.proc p).cr3 = (s.proc p).cr3)
    (htid : s'.nextTid = s.nextTid)
    (hlog : ∃ es, s'.log = es ++ s.log ∧ ∀ e ∈ es, e.aboutPages = false) : Pages s' := by
  obtain ⟨es, hlog, hes⟩ := hlog
  have hfrees : ∀ t page, s'.frees t page = s.frees t page := fun t page =>
    frees_append hlog fun c r hmem => absurd (hes _ hmem) nofun
  have hallocs := allocs_append hlog fun t page hmem => absurd (hes _ hmem) nofun
  have hheld : ∀ t page, s'.held t page = s.held t page := fun t page => by
    rw [held, hmapped, (hthread t).has page, held]
  have hprocess : ∀ t, s'.process t = s.process t := fun t => (hthread t).process
  constructor
  case balanced => exact fun t page => by rw [hfrees, hheld, hallocs]; exact h.balanced t page
  case once => exact fun t page => by rw [hallocs]; exact h.once t page
  case unused => exact fun t page ht => by rw [hallocs]; exact h.unused t page (htid ▸ ht)
  case gone => exact fun t page ht => by rw [hheld]; exact h.gone t page (hprocess t ▸ ht)
  case mapping =>
    intro m hm
    rw [hmapped] at hm
    rw [hprocess, hcr3, (hthread m.thread).has]
    exact h.mapping m hm
  case whole =>
    intro t p page ht hcond
    rw [hfrees]
    exact h.whole t p page (hprocess t ▸ ht) (hcr3 p ▸ hcond)
  case apart => exact h.apart_append hlog fun t page c r hmem => absurd (hes _ hmem) nofun

/-! ## Release of a thread -/

/-- The releases of a page and what is still held of it. -/
def total (s : System) (t : Tid) (page : Page) : Nat := s.frees t page + s.held t page

theorem freePage_frees (s : System) (t u : Tid) (page pg : Page) : (s.freePage t page).frees u pg =
    s.frees u pg + if t = u ∧ page = pg then 1 else 0 := by
  show (Event.free t page _ _ :: s.log).countP (Event.isFree u pg) = _
  rw [countP_cons, frees]
  simp [Event.isFree]

theorem unmapUserPage_total (s : System) (p : ProcId) (t : Tid) (page : Page)
    (hpage : page.user = true) (u : Tid) (pg : Page) :
    (s.unmapUserPage p t page).total u pg = s.total u pg := by
  unfold unmapUserPage
  split
  case isFalse => rfl
  case isTrue hmem =>
    have hmapped : (s.mapped.erase ⟨p, t, page⟩).countP (Mapping.isOf u pg) =
        s.mapped.countP (Mapping.isOf u pg) - if t = u ∧ page = pg then 1 else 0 := by
      rw [countP_erase]
      simp [hmem, Mapping.isOf]
    have hpos : (if t = u ∧ page = pg then 1 else 0) ≤ s.mapped.countP (Mapping.isOf u pg) := by
      split
      case isFalse => exact Nat.zero_le _
      case isTrue heq =>
        exact countP_pos_iff.mpr ⟨⟨p, t, page⟩, hmem, decide_eq_true heq⟩
    rw [total, freePage_frees, total]
    show s.frees u pg + _ + (if pg.user then (s.mapped.erase ⟨p, t, page⟩).countP
      (Mapping.isOf u pg) else ((s.thread u).has pg).toNat) = s.frees u pg + s.held u pg
    rw [held]
    cases hpg : pg.user with
    | false =>
      have hne : ¬ (t = u ∧ page = pg) := fun heq => by
        rw [← heq.2, hpage] at hpg
        cases hpg
      rw [if_neg hne]
      rfl
    | true =>
      simp only [if_true]
      rw [hmapped]
      omega

theorem unmapThreadPages_total (s : System) (t u : Tid) (pg : Page) :
    (s.unmapThreadPages t).total u pg = s.total u pg := by
  have hguard : ∀ (s : System) (b : Bool) (p : ProcId) (page : Page), page.user = true →
      (if b then s.unmapUserPage p t page else s).total u pg = s.total u pg := by
    intro s b p page hpage
    cases b with
    | false => rfl
    | true => exact unmapUserPage_total s p t page hpage u pg
  unfold unmapThreadPages
  cases (s.thread t).process with
  | none => rfl
  | some p =>
    dsimp only
    split
    case isFalse => rfl
    case isTrue => rw [hguard _ _ _ _ rfl, hguard _ _ _ _ rfl]

theorem freeThreadPages_frees (s : System) (t u : Tid) (pg : Page) :
    (s.freeThreadPages t).frees u pg =
      s.frees u pg + if t = u ∧ pg.user = false then ((s.thread t).has pg).toNat else 0 := by
  have hguard : ∀ (s : System) (b : Bool) (page : Page),
      (if b then s.freePage t page else s).frees u pg =
        s.frees u pg + if b = true ∧ t = u ∧ page = pg then 1 else 0 := by
    intro s b page
    cases b with
    | false => simp
    | true => simpa using freePage_frees s t u page pg
  unfold freeThreadPages
  rw [hguard, hguard]
  show s.frees u pg + _ + _ = _
  rw [Nat.add_assoc]
  rcases eq_or_ne t u with rfl | htu
  · cases pg with
    | object => cases hb : (s.thread t).objectPage <;> simp [Thread.has, Page.user, hb]
    | kernelStack => cases hb : (s.thread t).stackPage <;> simp [Thread.has, Page.user, hb]
    | userStack | tls => simp [Page.user]
  · simp [htu]

theorem withoutPages_has (r : Thread) (pg : Page) : r.withoutPages.has pg = false := by
  cases pg <;> rfl

theorem freeThreadPages_total (s : System) (t u : Tid) (pg : Page) :
    (s.freeThreadPages t).total u pg = s.total u pg := by
  have hheld : (s.freeThreadPages t).held u pg =
      if t = u ∧ pg.user = false then 0 else s.held u pg := by
    obtain ⟨es, heq, -⟩ := freeThreadPages_frame s t
    rw [heq]
    unfold held
    cases pg.user with
    | true => simp
    | false =>
      rcases eq_or_ne t u with rfl | htu
      · simp [withoutPages_has]
      · simp [update_of_ne (Ne.symm htu), htu]
  rw [total, total, freeThreadPages_frees, hheld]
  split
  case isFalse => rfl
  case isTrue hcond =>
    obtain ⟨rfl, hpg⟩ := hcond
    rw [held, if_neg (by rw [hpg]; exact Bool.false_ne_true), Nat.add_zero]

theorem unlinkThread_total (s : System) (t u : Tid) (pg : Page) :
    (s.unlinkThreadFromProcess t).total u pg = s.total u pg := by
  have hhas : (update s.thread t { s.thread t with process := none } u).has pg =
      (s.thread u).has pg := by
    rcases eq_or_ne u t with rfl | hut
    · rw [update_self]
      cases pg <;> rfl
    · rw [update_of_ne hut]
  rw [unlinkThread_eq, total, total, held, held]
  rw [hhas]
  rfl

theorem releaseThread_total (s : System) (t u : Tid) (pg : Page) :
    (s.releaseThread t).total u pg = s.total u pg := by
  rw [releaseThread, freeThreadPages_total, unlinkThread_total, unmapThreadPages_total]

theorem releaseThread_mapped (s : System) (t : Tid) :
    (s.releaseThread t).mapped = (s.unmapThreadPages t).mapped := by
  obtain ⟨es, heq, -⟩ := freeThreadPages_frame ((s.unmapThreadPages t).unlinkThreadFromProcess t) t
  rw [releaseThread, heq, unlinkThread_eq]

theorem unmapUserPage_sublist (s : System) (p : ProcId) (t : Tid) (page : Page) (b : Bool) :
    (if b then s.unmapUserPage p t page else s).mapped.Sublist s.mapped := by
  cases b with
  | false => exact List.Sublist.refl _
  | true =>
    rw [if_pos rfl, unmapUserPage]
    split
    · exact erase_sublist
    · exact List.Sublist.refl _

theorem unmapUserPage_thread (s : System) (p : ProcId) (t : Tid) (page : Page) (b : Bool) :
    (if b then s.unmapUserPage p t page else s).thread = s.thread := by
  obtain ⟨m, es, heq, -⟩ := unmapUserPage_frame s p t page b
  rw [heq]

theorem unmapThreadPages_sublist (s : System) (t : Tid) :
    (s.unmapThreadPages t).mapped.Sublist s.mapped := by
  unfold unmapThreadPages
  cases (s.thread t).process with
  | none => exact List.Sublist.refl _
  | some p =>
    dsimp only
    split
    case isFalse => exact List.Sublist.refl _
    case isTrue => exact (unmapUserPage_sublist ..).trans (unmapUserPage_sublist ..)

theorem Pages.held_le (h : Pages s) (t : Tid) (page : Page) : s.held t page ≤ 1 := by
  have hbalanced := h.balanced t page
  have honce := h.once t page
  omega

theorem Pages.mapped_nodup (h : Pages s) : s.mapped.Nodup := by
  refine nodup_iff_count_le_one.mpr fun m => ?_
  by_cases hm : m ∈ s.mapped
  · have hheld := h.held_le m.thread m.page
    rw [held, if_pos (h.mapping m hm).2.2.2.1] at hheld
    refine Nat.le_trans (countP_mono_left fun m' _ heq => ?_) hheld
    rw [eq_of_beq heq]
    exact decide_eq_true ⟨rfl, rfl⟩
  · rw [count_eq_zero.mpr hm]
    exact Nat.zero_le _

theorem not_mem_unmapUserPage (h : s.mapped.Nodup) (m : Mapping) :
    m ∉ (s.unmapUserPage m.space m.thread m.page).mapped := by
  unfold unmapUserPage
  split
  · exact h.not_mem_erase
  next hnot => exact hnot

theorem Pages.unmapped (h : Pages s) {m : Mapping} (hm : m ∈ (s.unmapThreadPages t).mapped) :
    m.thread ≠ t := by
  rintro rfl
  obtain ⟨hprocess, hcr3, -, huser, hhas⟩ := h.mapping m ((unmapThreadPages_sublist s _).subset hm)
  have hprocess : (s.thread m.thread).process = some m.space := hprocess
  rw [unmapThreadPages, hprocess] at hm
  dsimp only at hm
  rw [if_pos hcr3, unmapUserPage_thread] at hm
  cases hpage : m.page with
  | object | kernelStack => rw [hpage] at huser; cases huser
  | userStack =>
    have hflag : (s.thread m.thread).userStackPage = true := by rw [hpage] at hhas; exact hhas
    have hnot := not_mem_unmapUserPage h.mapped_nodup m
    rw [hpage] at hnot
    rw [if_pos hflag] at hm
    exact hnot ((unmapUserPage_sublist ..).subset hm)
  | tls =>
    have hflag : (s.thread m.thread).tlsPage = true := by rw [hpage] at hhas; exact hhas
    have hnot := not_mem_unmapUserPage
      (h.mapped_nodup.sublist (unmapUserPage_sublist s m.space m.thread .userStack
        (s.thread m.thread).userStackPage)) m
    rw [hpage] at hnot
    rw [if_pos hflag] at hm
    exact hnot hm

theorem procWithout_apply (s : System) (t : Tid) (p : ProcId) : s.procWithout t p =
    if s.process t = some p then (s.proc p).unlinkThread t else s.proc p := by
  unfold procWithout
  cases hq : s.process t with
  | none => simp
  | some q =>
    dsimp only
    rw [update_apply]
    rcases eq_or_ne p q with rfl | hne
    · simp
    · rw [if_neg hne, if_neg (by simpa using Ne.symm hne)]

theorem Pages.releaseThread (h : Pages s) (ht : t ≠ s.current)
    (hring : s.threadInSchedulerRing t = false) : Pages (s.releaseThread t) := by
  obtain ⟨es, hlog, hes⟩ := releaseThread_log s t
  rw [FreesNow, decide_eq_false ht, hring] at hes
  have hthread := releaseThread_thread s t
  have hother : ∀ u, u ≠ t → (s.releaseThread t).thread u = s.thread u := fun u hu => by
    rw [hthread, update_of_ne hu]
  have hself : (s.releaseThread t).process t = none := by
    rw [process, hthread, update_self]
    rfl
  have hfrees : ∀ u page, u ≠ t → (s.releaseThread t).frees u page = s.frees u page := by
    intro u page hu
    refine frees_append hlog fun c r he => ?_
    obtain ⟨pg, heq⟩ := hes _ he
    exact hu (Event.free.inj heq).1
  have hallocs := allocs_append hlog fun u page he => by
    obtain ⟨pg, heq⟩ := hes _ he
    cases heq
  have hbalanced : ∀ u page, (s.releaseThread t).frees u page + (s.releaseThread t).held u page =
      (s.releaseThread t).allocs u page := fun u page => by
    rw [hallocs, ← h.balanced u page]
    exact releaseThread_total s t u page
  have hcr3 : ∀ p, ((s.releaseThread t).proc p).cr3 = (s.proc p).cr3 := fun p => by
    rw [releaseThread_proc, procWithout_apply]
    split
    · rfl
    · rfl
  constructor
  case balanced => exact hbalanced
  case once => exact fun u page => by rw [hallocs]; exact h.once u page
  case unused =>
    intro u page hu
    rw [hallocs]
    exact h.unused u page (releaseThread_nextTid s t ▸ hu)
  case gone =>
    intro u page hu
    rcases eq_or_ne u t with rfl | hne
    · rw [held, releaseThread_mapped, hthread, update_self]
      split
      · refine countP_eq_zero.mpr fun m hm hof => ?_
        exact h.unmapped hm (of_decide_eq_true hof).1
      · have hnone : (Thread.released (s.thread u)).has page =
            (s.thread u).withoutPages.has page := by
          cases page <;> rfl
        rw [hnone, withoutPages_has]
        rfl
    · rw [process, hother u hne] at hu
      have hold := h.gone u page hu
      have hnew := hbalanced u page
      have hwas := h.balanced u page
      rw [hfrees u page hne, hallocs] at hnew
      omega
  case mapping =>
    intro m hm
    rw [releaseThread_mapped] at hm
    have hne := h.unmapped hm
    rw [process, hother _ hne, hcr3]
    exact h.mapping m ((unmapThreadPages_sublist s t).subset hm)
  case whole =>
    intro u p page hu hcond
    have hne : u ≠ t := by
      rintro rfl
      rw [hself] at hu
      cases hu
    rw [process, hother u hne] at hu
    rw [hcr3] at hcond
    rw [hfrees u page hne]
    exact h.whole u p page hu hcond
  case apart =>
    refine h.apart_append hlog fun u page c r hnew => ?_
    obtain ⟨pg, heq⟩ := hes _ hnew
    cases heq
    exact .inl ⟨rfl, rfl⟩

theorem Pages.removed (h : Pages s) (t : Tid) (l : Lifecycle) : Pages (s.removed t l) := by
  have hthread : ∀ u, SamePages (s.thread u) ((s.removed t l).thread u) := by
    intro u
    rcases eq_or_ne u t with rfl | hne
    · obtain ⟨n, hn⟩ := removed_self s u l
      rw [hn]
      exact ⟨rfl, fun pg => by cases pg <;> rfl⟩
    · obtain ⟨n, hn⟩ := removed_of_ne s l hne
      rw [hn]
      exact ⟨rfl, fun pg => by cases pg <;> rfl⟩
  obtain ⟨f, hf⟩ := removed_frame s t l
  refine h.frame hthread ?_ ?_ ?_ ⟨[], ?_, nofun⟩
  all_goals rw [hf]
  · exact fun _ => rfl
  · rfl

theorem Pages.retired (h : Pages s) (hring : Ring s others) (ht : t ≠ s.current) (l : Lifecycle) :
    Pages (s.retired t l) := by
  have hcurrent : (s.removed t l).current = s.current := remove_current s t
  refine (h.removed t l).releaseThread (hcurrent ▸ ht) ?_
  exact (hring.removed ht l).inRing_eq_false (hcurrent ▸ hring.not_mem_erase ht)

/-! ## Release of an address space -/

theorem releaseSpace_eq (hcr3 : (s.proc p).cr3 = true) (hp : p ≠ kernelProcess) :
    s.releaseProcessAddressSpace p = { s.modifyProc p fun r => { r with cr3 := false } with
      mapped := s.mapped.filter fun m => m.space ≠ p
      log := (s.mapped.filter fun m => m.space = p).map (fun m =>
        .free m.thread m.page (decide (m.thread = s.current)) (s.threadInSchedulerRing m.thread))
          ++ s.log } := by
  rw [releaseProcessAddressSpace, if_pos ⟨hcr3, hp⟩]

theorem countP_released (s : System) (ms : List Mapping) (u : Tid) (pg : Page) :
    (ms.map fun m => Event.free m.thread m.page (decide (m.thread = s.current))
      (s.threadInSchedulerRing m.thread)).countP (Event.isFree u pg) =
        ms.countP (Mapping.isOf u pg) := by
  rw [countP_map]
  rfl

theorem Pages.not_mapped (h : Pages s) (ms : List Mapping) (hms : ∀ m ∈ ms, m ∈ s.mapped)
    (hpage : page.user = false) : ms.countP (Mapping.isOf t page) = 0 := by
  refine countP_eq_zero.mpr fun m hm hof => ?_
  have huser := (h.mapping m (hms m hm)).2.2.2.1
  rw [(of_decide_eq_true hof).2, hpage] at huser
  cases huser

theorem Pages.releaseSpace_mapped (h : Pages s)
    (hexit : ∀ m ∈ s.mapped, m.space = p → .processExit m.thread ∈ s.log)
    (hthread : s'.thread = s.thread)
    (hproc : s'.proc = (s.modifyProc p fun r => { r with cr3 := false }).proc)
    (htid : s'.nextTid = s.nextTid) (hmapped : s'.mapped = s.mapped.filter fun m => m.space ≠ p)
    (hlog : s'.log = (s.mapped.filter fun m => m.space = p).map (fun m =>
      .free m.thread m.page (decide (m.thread = s.current)) (s.threadInSchedulerRing m.thread))
        ++ s.log) : Pages s' := by
  have hfrees : ∀ u pg, s'.frees u pg =
      (s.mapped.filter fun m => m.space = p).countP (Mapping.isOf u pg) + s.frees u pg := by
    intro u pg
    rw [frees, hlog, countP_append, countP_released, frees]
  have hallocs := allocs_append hlog fun u pg hmem => by
    obtain ⟨m, -, hm⟩ := mem_map.mp hmem
    cases hm
  have hprocess : ∀ u, s'.process u = s.process u := fun u => by rw [process, hthread, process]
  have hsub : ∀ m ∈ s.mapped.filter (fun m => m.space = p), m ∈ s.mapped := fun m hm =>
    (mem_filter.mp hm).1
  have hheld : ∀ u pg, s'.held u pg +
      (s.mapped.filter fun m => m.space = p).countP (Mapping.isOf u pg) = s.held u pg := by
    intro u pg
    have hparts := countP_eq_countP_filter_add s.mapped (Mapping.isOf u pg) fun m => m.space = p
    simp only [← decide_not, ← ne_eq] at hparts
    rw [held, held, hmapped, hthread]
    cases hpg : pg.user with
    | true =>
      simp only [if_true]
      omega
    | false => rw [h.not_mapped _ hsub hpg, Nat.add_zero]; rfl
  constructor
  case balanced =>
    intro u pg
    have hold := h.balanced u pg
    have hnew := hheld u pg
    rw [hfrees, hallocs]
    omega
  case once => exact fun u pg => by rw [hallocs]; exact h.once u pg
  case unused => exact fun u pg hu => by rw [hallocs]; exact h.unused u pg (htid ▸ hu)
  case gone =>
    intro u pg hu
    have hold := h.gone u pg (hprocess u ▸ hu)
    have hnew := hheld u pg
    omega
  case mapping =>
    intro m hm
    rw [hmapped] at hm
    obtain ⟨hmem, hspace⟩ := mem_filter.mp hm
    rw [hprocess, hthread, hproc, modifyProc_of_ne _ _ (of_decide_eq_true hspace)]
    exact h.mapping m hmem
  case whole =>
    intro u q pg hu hcond
    rw [hprocess] at hu
    rw [hproc] at hcond
    rw [hfrees]
    rcases eq_or_ne q p with rfl | hq
    · rw [modifyProc_self] at hcond
      have hpg : pg.user = false := by
        by_contra hne
        exact absurd (hcond (by simpa using hne)) (by simp)
      rw [h.not_mapped _ hsub hpg, h.whole u q pg hu (by simp [hpg])]
    · rw [modifyProc_of_ne _ _ hq] at hcond
      rw [h.whole u q pg hu hcond, Nat.add_zero]
      refine countP_eq_zero.mpr fun m hm hof => ?_
      obtain ⟨hmem, hspace⟩ := mem_filter.mp hm
      have hmine := (h.mapping m hmem).1
      rw [(of_decide_eq_true hof).1, of_decide_eq_true hspace, hu] at hmine
      exact hq (Option.some.inj hmine)
  case apart =>
    refine h.apart_append hlog fun u pg c r hnew => ?_
    obtain ⟨m, hm, heq⟩ := mem_map.mp hnew
    obtain ⟨hmem, hspace⟩ := mem_filter.mp hm
    cases heq
    exact .inr ⟨(h.mapping m hmem).2.2.2.1, hexit m hmem (of_decide_eq_true hspace)⟩

theorem Pages.releaseSpace (h : Pages s) (hp : p ≠ kernelProcess)
    (hexit : ∀ m ∈ s.mapped, m.space = p → .processExit m.thread ∈ s.log) :
    Pages (s.releaseProcessAddressSpace p) := by
  cases hcr3 : (s.proc p).cr3 with
  | false =>
    have hsame : s.releaseProcessAddressSpace p =
        s.modifyProc p fun r => { r with cr3 := false } := by
      rw [releaseProcessAddressSpace, if_neg (by simp [hcr3])]
    rw [hsame]
    refine h.frame (fun t => ⟨rfl, fun _ => rfl⟩) rfl (fun q => ?_) rfl ⟨[], rfl, nofun⟩
    rw [modifyProc_proc]
    split
    next heq => rw [heq, hcr3]
    · rfl
  | true =>
    rw [releaseSpace_eq hcr3 hp]
    exact h.releaseSpace_mapped hexit rfl rfl rfl rfl rfl

/-! ## New pages -/

theorem Pages.frees_eq_zero (h : Pages s) (ht : s.nextTid ≤ t) : s.frees t page = 0 := by
  have hbalanced := h.balanced t page
  rw [h.unused t page ht] at hbalanced
  omega

theorem threadAlloc_allocs (s : System) (p : ProcId) (u : Tid) (pg : Page) :
    (s.threadAllocForProcess p).allocs u pg =
      s.allocs u pg + if u = s.nextTid ∧ pg.user = false then 1 else 0 := by
  show count _ (Event.alloc s.nextTid .kernelStack :: Event.alloc s.nextTid .object ::
    s.log) = _
  rw [count_cons, count_cons, allocs]
  rcases eq_or_ne u s.nextTid with rfl | hu
  · cases pg <;> simp [Page.user]
  · simp [hu, Ne.symm hu]

theorem Pages.threadAlloc (h : Pages s) (hfresh : ∀ t, s.process t ≠ none → t < s.nextTid)
    (p : ProcId) : Pages (s.threadAllocForProcess p) := by
  have hnew := threadAlloc_self s p
  have hother := fun u => threadAlloc_of_ne (t := u) s p
  have hlog : (s.threadAllocForProcess p).log =
    [Event.alloc s.nextTid .kernelStack, Event.alloc s.nextTid .object] ++ s.log := rfl
  have hfrees : ∀ u pg, (s.threadAllocForProcess p).frees u pg = s.frees u pg := fun u pg =>
    frees_append hlog (by simp)
  have hallocs := threadAlloc_allocs s p
  have hmapped : (s.threadAllocForProcess p).mapped = s.mapped := rfl
  have hold : ∀ u pg, u ≠ s.nextTid → (s.threadAllocForProcess p).held u pg = s.held u pg := by
    intro u pg hu
    rw [held, hmapped, hother u hu, held]
  have hzero : s.process s.nextTid = none := by
    by_contra hne
    exact Nat.lt_irrefl _ (hfresh s.nextTid hne)
  have hcr3 : ∀ q, ((s.threadAllocForProcess p).proc q).cr3 = (s.proc q).cr3 := by
    intro q
    show ((s.modifyProc p (linkThread s.nextTid)).proc q).cr3 = _
    rw [modifyProc_proc]
    split
    next heq => rw [heq]; rfl
    · rfl
  constructor
  case balanced =>
    intro u pg
    rw [hfrees, hallocs]
    rcases eq_or_ne u s.nextTid with rfl | hu
    · rw [h.frees_eq_zero (Nat.le_refl _), h.unused _ _ (Nat.le_refl _), held, hmapped, hnew]
      have hheld := h.gone s.nextTid pg hzero
      rw [held] at hheld
      cases pg <;> simp_all [Page.user, Thread.has, newThread]
    · rw [hold u pg hu, if_neg fun hcond => hu hcond.1]
      exact h.balanced u pg
  case once =>
    intro u pg
    rw [hallocs]
    rcases eq_or_ne u s.nextTid with rfl | hu
    · rw [h.unused _ _ (Nat.le_refl _)]
      split <;> omega
    · rw [if_neg fun hcond => hu hcond.1]
      exact h.once u pg
  case unused =>
    intro u pg hu
    have hlt : s.nextTid < u := hu
    rw [hallocs, h.unused u pg (Nat.le_of_lt hlt), if_neg fun hcond => Nat.ne_of_gt hlt hcond.1]
  case gone =>
    intro u pg hu
    rcases eq_or_ne u s.nextTid with rfl | hne
    · rw [process, hnew] at hu
      cases hu
    · rw [process, hother u hne] at hu
      rw [hold u pg hne]
      exact h.gone u pg hu
  case mapping =>
    intro m hm
    rw [hmapped] at hm
    have hm' := h.mapping m hm
    have hne : m.thread ≠ s.nextTid := Nat.ne_of_lt (hfresh m.thread (by simp [hm'.1]))
    rw [process, hother _ hne, hcr3]
    exact hm'
  case whole =>
    intro u q pg hu hcond
    rw [hfrees]
    rcases eq_or_ne u s.nextTid with rfl | hne
    · exact h.frees_eq_zero (Nat.le_refl _)
    · rw [process, hother u hne] at hu
      rw [hcr3] at hcond
      exact h.whole u q pg hu hcond
  case apart => exact h.apart_append hlog (by simp)

theorem mapPage_allocs (s : System) (p : ProcId) (t : Tid) (page : Page) (f : Thread → Thread)
    (u : Tid) (pg : Page) : ((s.mapUserPage p t page).modify t f).allocs u pg =
      s.allocs u pg + if u = t ∧ pg = page then 1 else 0 := by
  have hswap : (t = u ∧ page = pg) ↔ (u = t ∧ pg = page) := and_congr eq_comm eq_comm
  show count _ (Event.alloc t page :: s.log) = _
  rw [count_cons, allocs]
  simp [hswap]

theorem Pages.mapPage (h : Pages s) {f : Thread → Thread} (hpage : page.user = true)
    (hprocess : s.process t = some p) (hcr3 : (s.proc p).cr3 = true) (hp : p ≠ kernelProcess)
    (hnone : s.allocs t page = 0) (ht : t < s.nextTid)
    (hsame : (f (s.thread t)).process = (s.thread t).process)
    (hhas : ∀ pg, (f (s.thread t)).has pg = (decide (pg = page) || (s.thread t).has pg)) :
    Pages ((s.mapUserPage p t page).modify t f) := by
  have hthread : ∀ u, ((s.mapUserPage p t page).modify t f).thread u =
      if u = t then f (s.thread t) else s.thread u := fun u => modify_thread ..
  have hmapped : ((s.mapUserPage p t page).modify t f).mapped = ⟨p, t, page⟩ :: s.mapped := rfl
  have hproc : ((s.mapUserPage p t page).modify t f).proc = s.proc := rfl
  have hlog : ((s.mapUserPage p t page).modify t f).log = [.alloc t page] ++ s.log := rfl
  have hprocess' : ∀ u, ((s.mapUserPage p t page).modify t f).process u = s.process u := by
    intro u
    rw [process, hthread]
    split
    next heq => rw [heq, hsame, process]
    · rfl
  have hhas' : ∀ u pg, (((s.mapUserPage p t page).modify t f).thread u).has pg =
      (decide (u = t ∧ pg = page) || (s.thread u).has pg) := by
    intro u pg
    rw [hthread]
    split
    next heq => rw [heq, hhas]; simp
    next hne => simp [hne]
  have hfrees : ∀ u pg, ((s.mapUserPage p t page).modify t f).frees u pg = s.frees u pg :=
    fun u pg => frees_append hlog (by simp)
  have hswap : ∀ u pg, (t = u ∧ page = pg) ↔ (u = t ∧ pg = page) := fun u pg =>
    and_congr eq_comm eq_comm
  have hallocs := mapPage_allocs s p t page f
  have hheld : ∀ u pg, ((s.mapUserPage p t page).modify t f).held u pg =
      s.held u pg + if u = t ∧ pg = page then 1 else 0 := by
    intro u pg
    rw [held, held, hmapped, hhas']
    cases hpg : pg.user with
    | true =>
      simp only [if_true]
      rw [countP_cons]
      simp [Mapping.isOf, hswap u pg]
    | false =>
      have hne : ¬ (u = t ∧ pg = page) := fun heq => by
        rw [heq.2, hpage] at hpg
        cases hpg
      simp [hne]
  constructor
  case balanced =>
    intro u pg
    have hold := h.balanced u pg
    rw [hfrees, hallocs, hheld]
    omega
  case once =>
    intro u pg
    rw [hallocs]
    split
    next heq => rw [heq.1, heq.2, hnone]
    · exact h.once u pg
  case unused =>
    intro u pg hu
    have hle : s.nextTid ≤ u := hu
    rw [hallocs, h.unused u pg hle, if_neg fun heq => ?_]
    rw [heq.1] at hle
    exact Nat.not_le.mpr ht hle
  case gone =>
    intro u pg hu
    rw [hprocess'] at hu
    rw [hheld, h.gone u pg hu, if_neg fun heq => ?_]
    rw [heq.1, hprocess] at hu
    cases hu
  case mapping =>
    intro m hm
    rw [hmapped] at hm
    rw [hprocess', hproc, hhas']
    rcases mem_cons.mp hm with rfl | hmem
    · exact ⟨hprocess, hcr3, hp, hpage, by simp⟩
    · obtain ⟨h1, h2, h3, h4, h5⟩ := h.mapping m hmem
      exact ⟨h1, h2, h3, h4, by rw [h5, Bool.or_true]⟩
  case whole =>
    intro u q pg hu hcond
    rw [hprocess'] at hu
    rw [hfrees]
    exact h.whole u q pg hu hcond
  case apart => exact h.apart_append hlog (by simp)

end System

end OrangeOs.Sched
