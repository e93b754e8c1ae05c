import Mathlib.Data.List.Nodup
import OrangeOs.Elf.Image

/-! # What the loader touches

Which accesses `elf_load_image_args` makes for a file, and which files keep them inside the block
and the pages mapped for them. `Reaches f i` says that the segments before program header `i` can
be mapped, so that the loader gets to it when no allocation fails.
-/

namespace OrangeOs.Elf

open Bytes List
open Memory (pageSize)

/-- Inside the block of `size` bytes, or in the pages of the lower half mapped for it. -/
def Access.Safe (size : Nat) : Access → Prop
  | .fill n => n ≤ size
  | .read offset n => ∀ k < n, (offset + k) % 2 ^ 64 < size
  | .write vaddr n pages =>
    ∀ k < n, (vaddr + k) % 2 ^ 64 < 2 ^ 47 ∧ (vaddr + k) % 2 ^ 64 / pageSize ∈ pages
  | .table _ => False

/-! ## The pages of the segments -/

/-- `n` pages from `start` on, by the entries `map_page` uses. -/
def pagesFrom (start n : Nat) : List Nat :=
  (List.range n).map fun p => pageIndex ((start + p * pageSize) % 2 ^ 64)

def headerPages (f : File) (i : Nat) : List Nat :=
  if (phdr f.buf i).type = ptLoad then
    pagesFrom (phdr f.buf i).startPage (phdr f.buf i).pages
  else []

def pagesBefore (f : File) (n : Nat) : List Nat := (List.range n).flatMap (headerPages f)

structure Mappable (f : File) (pages : List Nat) : Prop where
  distinct : pages.Nodup
  unoccupied : ∀ page ∈ pages, occupied f page = false

/-- The segments before header `n` have pages of their own. -/
def Reaches (f : File) (n : Nat) : Prop := Mappable f (pagesBefore f n)

/-- The loader asks for the page: those before it can be mapped. -/
def Tried (f : File) (n page : Nat) : Prop :=
  ∃ p, (headerPages f n)[p]? = some page ∧
    Mappable f (pagesBefore f n ++ (headerPages f n).take p)

/-- The bytes copied for a segment end inside the block, the lower half and its pages. -/
structure Phdr.Contained (ph : Phdr) (size : Nat) : Prop where
  source : ph.offset + ph.filesz ≤ size
  lower : ph.vaddr + ph.filesz ≤ 2 ^ 47
  covered : ph.vaddr + ph.filesz ≤ ph.startPage + ph.pages * pageSize

/-- The headers the loader gets to lie in the block, the pages it asks for are not reached through
tables of the kernel, and what it copies is contained. -/
def HeadersBounded (f : File) (size : Nat) : Prop :=
  ∀ i < phnum f.buf, Reaches f i →
    phdrBase f.buf i + 4 ≤ size ∧ (∀ page, Tried f i page → shared f page = false) ∧
    ((phdr f.buf i).type = ptLoad → phdrBase f.buf i + 48 ≤ size ∧
      (Reaches f (i + 1) → (phdr f.buf i).filesz ≠ 0 → (phdr f.buf i).Contained size))

/-- The block asked for is as large as the file, and the headers are bounded by it. -/
def Bounded (f : File) : Prop :=
  ∀ size, acceptedSize f = some size → blockSize size ≠ 0 →
    size + 512 < 2 ^ 32 ∧ (isElf f.buf = true → HeadersBounded f (blockSize size))

theorem pagesFrom_succ (start n : Nat) : pagesFrom start (n + 1) =
    pagesFrom start n ++ [pageIndex ((start + n * pageSize) % 2 ^ 64)] := by
  simp [pagesFrom, range_succ]

theorem take_pagesFrom {start m n : Nat} (h : m ≤ n) :
    (pagesFrom start n).take m = pagesFrom start m := by
  rw [pagesFrom, ← map_take, take_range, Nat.min_eq_left h, ← pagesFrom]

theorem pagesBefore_succ (f : File) (n : Nat) :
    pagesBefore f (n + 1) = pagesBefore f n ++ headerPages f n := by
  simp [pagesBefore, range_succ]

variable {f : File} {ans : Answers} {s s' : Loader} {size i n page : Nat} {ps qs : List Nat}

theorem mem_pagesFrom {start : Nat} : page ∈ pagesFrom start n ↔
    ∃ p < n, pageIndex ((start + p * pageSize) % 2 ^ 64) = page := by
  simp [pagesFrom]

theorem Mappable.sublist (h : Mappable f qs) (hsub : ps <+ qs) : Mappable f ps :=
  ⟨h.distinct.sublist hsub, fun p hp => h.unoccupied p (hsub.subset hp)⟩

theorem mappable_cons : Mappable f (page :: ps) ↔
    occupied f page = false ∧ page ∉ ps ∧ Mappable f ps := by
  constructor
  · intro h
    obtain ⟨hnew, hdistinct⟩ := nodup_cons.mp h.distinct
    obtain ⟨hocc, hrest⟩ := forall_mem_cons.mp h.unoccupied
    exact ⟨hocc, hnew, hdistinct, hrest⟩
  · rintro ⟨hocc, hnew, h⟩
    exact ⟨nodup_cons.mpr ⟨hnew, h.distinct⟩, forall_mem_cons.mpr ⟨hocc, h.unoccupied⟩⟩

theorem mappable_reverse : Mappable f ps.reverse ↔ Mappable f ps :=
  ⟨fun h => ⟨nodup_reverse.mp h.distinct, fun p hp => h.unoccupied p (mem_reverse.mpr hp)⟩,
    fun h => ⟨nodup_reverse.mpr h.distinct, fun p hp => h.unoccupied p (mem_reverse.mp hp)⟩⟩

theorem Reaches.mono (hin : i ≤ n) (h : Reaches f n) : Reaches f i := by
  induction hin with
  | refl => exact h
  | step _ ih =>
    rw [Reaches, pagesBefore_succ] at h
    exact ih (h.sublist (sublist_append_left _ _))

/-! ## Mapping -/

/-- The writes to tables of the kernel for pages that are asked for one after another. -/
def tableWrites (f : File) (pages : List Nat) : List Access :=
  ((pages.filter (shared f)).map .table).reverse

theorem tableWrites_append (f : File) (ps qs : List Nat) :
    tableWrites f (ps ++ qs) = tableWrites f qs ++ tableWrites f ps := by
  simp [tableWrites]

theorem mem_tableWrites {a : Access} : a ∈ tableWrites f ps ↔
    ∃ page ∈ ps, shared f page = true ∧ a = .table page := by
  simp only [tableWrites, mem_reverse, mem_map, mem_filter]
  constructor
  · rintro ⟨page, ⟨hp, hs⟩, rfl⟩
    exact ⟨page, hp, hs, rfl⟩
  · rintro ⟨page, hp, hs, rfl⟩
    exact ⟨page, ⟨hp, hs⟩, rfl⟩

theorem openTables_log (s : Loader) (f : File) (page : Nat) :
    (s.openTables f page).log = tableWrites f [page] ++ s.log := by
  unfold Loader.openTables
  split <;> simp [tableWrites, Loader.note, *]

/-- `pages` were mapped after one another, the last one first in the lists. -/
structure MappedPages (f : File) (s s' : Loader) (pages : List Nat) : Prop where
  mapped : s'.mapped = pages.reverse ++ s.mapped
  segment : s'.segment = pages.reverse ++ s.segment
  log : s'.log = tableWrites f pages ++ s.log

theorem mapNew_cases (f : File) (ans : Answers) (s : Loader) (page : Nat) :
    (mapNew f ans s page = .error s.log ∧ ans ≠ .all) ∨
    (mapNew f ans s page = .error (tableWrites f [page] ++ s.log) ∧
      (ans = .all → occupied f page = true ∨ page ∈ s.mapped)) ∨
    ∃ s', mapNew f ans s page = .ok s' ∧ occupied f page = false ∧ page ∉ s.mapped ∧
      MappedPages f s s' [page] := by
  have hlog := openTables_log s f page
  unfold mapNew
  split
  next hcond =>
    refine Or.inl ⟨rfl, ?_⟩
    rintro rfl
    cases hcond
  · split
    next hcond =>
      refine Or.inr (Or.inl ⟨by rw [hlog], fun hall => hcond.resolve_left ?_⟩)
      rw [hall]
      exact nofun
    next hcond =>
      simp only [not_or] at hcond
      refine Or.inr (Or.inr ⟨_, rfl, Bool.eq_false_iff.mpr hcond.2.1, hcond.2.2, ?_, ?_, hlog⟩)
      all_goals
        unfold Loader.openTables
        split <;> rfl

theorem MappedPages.trans {s'' : Loader} (h : MappedPages f s s' ps) (h' : MappedPages f s' s'' qs) :
    MappedPages f s s'' (ps ++ qs) := by
  refine ⟨?_, ?_, ?_⟩
  · rw [h'.mapped, h.mapped, reverse_append, append_assoc]
  · rw [h'.segment, h.segment, reverse_append, append_assoc]
  · rw [h'.log, h.log, tableWrites_append, append_assoc]

/-- `m` pages were mapped, and the next one has been asked for or was refused before. -/
structure StoppedAt (f : File) (ans : Answers) (s : Loader) (start m : Nat) (log : List Access) :
    Prop where
  mappable : Mappable f s.mapped → Mappable f ((pagesFrom start m).reverse ++ s.mapped)
  writes : log = tableWrites f (pagesFrom start m) ++ s.log ∨
    log = tableWrites f (pagesFrom start (m + 1)) ++ s.log
  taken : ans = .all → log = tableWrites f (pagesFrom start (m + 1)) ++ s.log ∧
    ¬Mappable f ((pagesFrom start (m + 1)).reverse ++ s.mapped)

theorem mapSegment_cases (f : File) (ans : Answers) (s : Loader) (start n : Nat) :
    (∃ m < n, ∃ log, mapSegment f ans start n s = .error log ∧ StoppedAt f ans s start m log) ∨
    ∃ s', mapSegment f ans start n s = .ok s' ∧ MappedPages f s s' (pagesFrom start n) ∧
      (Mappable f s.mapped → Mappable f s'.mapped) := by
  induction n with
  | zero => exact Or.inr ⟨s, rfl, ⟨rfl, rfl, rfl⟩, id⟩
  | succ n ih =>
    rw [mapSegment]
    rcases ih with ⟨m, hm, log, herr, hstop⟩ | ⟨s1, hok, hmapped, hkeep⟩
    · rw [herr]
      exact Or.inl ⟨m, Nat.lt_succ_of_lt hm, log, rfl, hstop⟩
    · rw [hok]
      have hmore : ∀ page log, tableWrites f [page] ++ (tableWrites f log ++ s.log) =
          tableWrites f (log ++ [page]) ++ s.log := fun page log => by
        rw [tableWrites_append, append_assoc]
      rw [hmapped.mapped] at hkeep
      rcases mapNew_cases f ans s1 (pageIndex ((start + n * pageSize) % 2 ^ 64)) with
        ⟨herr, hall⟩ | ⟨herr, hstuck⟩ | ⟨s2, hok', hocc, hnew, hone⟩
      · refine Or.inl ⟨n, Nat.lt_succ_self n, _, herr, hkeep, Or.inl hmapped.log, fun h => ?_⟩
        exact absurd h hall
      · rw [hmapped.log, hmore, ← pagesFrom_succ] at herr
        refine Or.inl ⟨n, Nat.lt_succ_self n, _, herr, hkeep, Or.inr rfl, fun h => ⟨rfl, ?_⟩⟩
        rw [pagesFrom_succ, reverse_concat, cons_append, mappable_cons, ← hmapped.mapped]
        rintro ⟨hocc, hnew, -⟩
        exact (hstuck h).elim (fun h' => Bool.false_ne_true (hocc.symm.trans h')) hnew
      · refine Or.inr ⟨s2, hok', pagesFrom_succ start n ▸ hmapped.trans hone, fun hs => ?_⟩
        rw [hone.mapped]
        exact mappable_cons.mpr ⟨hocc, hnew, hmapped.mapped ▸ hkeep hs⟩

/-! ## One header -/

/-- What is read of header `i`. -/
def headerReads (f : File) (i : Nat) : List Access :=
  let base := phdrBase f.buf i
  if (phdr f.buf i).type = ptLoad then [.read (base + 32) 16, .read (base + 4) 20, .read base 4]
  else [.read base 4]

/-- The copy that header `i` asks for. -/
def copies (f : File) (i : Nat) : List Access :=
  if (phdr f.buf i).type = ptLoad then
    [.write (phdr f.buf i).vaddr (phdr f.buf i).filesz (headerPages f i).reverse,
      .read (phdr f.buf i).offset (phdr f.buf i).filesz]
  else []

def logOf : Load → List Access
  | .error log => log
  | .ok s => s.log

/-- The state of the loop before header `n`. -/
structure AtHeader (f : File) (n : Nat) (s : Loader) : Prop where
  mapped : s.mapped = (pagesBefore f n).reverse
  reaches : Reaches f n

theorem recordVma_mapped (s : Loader) (ph : Phdr) : (recordVma s ph).mapped = s.mapped := by
  unfold recordVma
  split <;> rfl

theorem recordVma_log (s : Loader) (ph : Phdr) : (recordVma s ph).log = s.log := by
  unfold recordVma
  split <;> rfl

/-- A write to a table of the kernel for a page of header `n`. -/
def Opens (f : File) (n : Nat) (a : Access) : Prop :=
  ∃ page, Tried f n page ∧ shared f page = true ∧ a = .table page

theorem opens_iff (h : Reaches f (n + 1)) {a : Access} :
    a ∈ tableWrites f (headerPages f n) ↔ Opens f n a := by
  rw [mem_tableWrites]
  constructor
  · rintro ⟨page, hp, hs⟩
    obtain ⟨p, hp⟩ := getElem?_of_mem hp
    refine ⟨page, ⟨p, hp, ?_⟩, hs⟩
    rw [Reaches, pagesBefore_succ] at h
    exact h.sublist ((take_sublist p _).append_left _)
  · rintro ⟨page, ⟨p, hp, -⟩, hs⟩
    exact ⟨page, mem_of_getElem? hp, hs⟩

/-- What a header whose pages cannot all be mapped has written. -/
structure StoppedIn (f : File) (ans : Answers) (n : Nat) (writes : List Access) : Prop where
  opens : ∀ a ∈ writes, Opens f n a
  taken : ans = .all → ¬Reaches f (n + 1) ∧ ∀ a, Opens f n a → a ∈ writes

theorem StoppedAt.stoppedIn {start m N : Nat} {log : List Access}
    (h : StoppedAt f ans s start m log) (hm : m < N) (hat : AtHeader f n s)
    (hpages : headerPages f n = pagesFrom start N) :
    ∃ ws, log = ws ++ s.log ∧ StoppedIn f ans n ws := by
  have htake : ∀ {p}, p ≤ N → (headerPages f n).take p = pagesFrom start p := fun hp => by
    rw [hpages, take_pagesFrom hp]
  have hfront : Mappable f (pagesBefore f n ++ pagesFrom start m) := by
    have hall := h.mappable (by rw [hat.mapped]; exact mappable_reverse.mpr hat.reaches)
    rwa [hat.mapped, ← reverse_append, mappable_reverse] at hall
  have hopens : ∀ a ∈ tableWrites f (pagesFrom start (m + 1)), Opens f n a := by
    intro a ha
    obtain ⟨page, hp, hs⟩ := mem_tableWrites.mp ha
    obtain ⟨p, hp⟩ := getElem?_of_mem hp
    have hpm : p < m + 1 := by
      have := (List.getElem?_eq_some_iff.mp hp).1
      simpa [pagesFrom] using this
    rw [← htake hm, getElem?_take_of_lt hpm] at hp
    refine ⟨page, ⟨p, hp, hfront.sublist ?_⟩, hs⟩
    rw [htake (by omega), ← take_pagesFrom (Nat.le_of_lt_succ hpm)]
    exact (take_sublist p _).append_left _
  have hstop : ∀ {p}, m < p → ¬Mappable f ((pagesFrom start (m + 1)).reverse ++ s.mapped) →
      ¬Mappable f (pagesBefore f n ++ (headerPages f n).take p) := by
    intro p hp hno hall
    rw [hat.mapped, ← reverse_append, mappable_reverse, ← htake hm] at hno
    exact hno (hall.sublist ((take_sublist_take_left hp).append_left _))
  have hsub : ∀ a ∈ tableWrites f (pagesFrom start m), a ∈ tableWrites f (pagesFrom start (m + 1)) :=
    fun a ha => by
      rw [pagesFrom_succ, tableWrites_append]
      exact mem_append_right _ ha
  have htaken : ans = .all → log = tableWrites f (pagesFrom start (m + 1)) ++ s.log ∧
      ¬Reaches f (n + 1) ∧ ∀ a, Opens f n a → a ∈ tableWrites f (pagesFrom start (m + 1)) := by
    intro hall
    obtain ⟨hlog, hno⟩ := h.taken hall
    refine ⟨hlog, fun hnext => ?_, ?_⟩
    · rw [Reaches, pagesBefore_succ, ← take_length (l := headerPages f n)] at hnext
      exact hstop (by rw [hpages]; simpa [pagesFrom] using hm) hno hnext
    · rintro a ⟨page, ⟨p, hp, hok⟩, hs⟩
      have hpm : p < m + 1 := Nat.lt_succ_of_le (Nat.le_of_not_lt fun hmp => hstop hmp hno hok)
      rw [← getElem?_take_of_lt hpm, htake hm] at hp
      exact mem_tableWrites.mpr ⟨page, mem_of_getElem? hp, hs⟩
  rcases h.writes with hlog | hlog
  · refine ⟨_, hlog, fun a ha => hopens a (hsub a ha), fun hall => ?_⟩
    obtain ⟨hlog', hnext, hin⟩ := htaken hall
    exact ⟨hnext, append_cancel_right (hlog.symm.trans hlog') ▸ hin⟩
  · exact ⟨_, hlog, hopens, fun hall => (htaken hall).2⟩

theorem loadHeader_cases (ans : Answers) (h : AtHeader f n s) :
    (∃ ws, loadHeader f ans s n = .error (ws ++ headerReads f n ++ s.log) ∧
      StoppedIn f ans n ws) ∨
    ∃ s', loadHeader f ans s n = .ok s' ∧ AtHeader f (n + 1) s' ∧
      s'.log = copies f n ++ tableWrites f (headerPages f n) ++ headerReads f n ++ s.log := by
  by_cases htype : (phdr f.buf n).type = ptLoad
  · have hpages : headerPages f n = pagesFrom (phdr f.buf n).startPage (phdr f.buf n).pages :=
      if_pos htype
    have hreads : headerReads f n = [.read (phdrBase f.buf n + 32) 16,
        .read (phdrBase f.buf n + 4) 20, .read (phdrBase f.buf n) 4] := if_pos htype
    have hcopies : copies f n = [.write (phdr f.buf n).vaddr (phdr f.buf n).filesz
        (headerPages f n).reverse, .read (phdr f.buf n).offset (phdr f.buf n).filesz] := if_pos htype
    simp only [loadHeader, if_pos htype, loadSegment]
    generalize hs1 : ({ recordVma _ (phdr f.buf n) with segment := [] } : Loader) = s1
    have hlog : s1.log = headerReads f n ++ s.log := by
      rw [← hs1, hreads]
      exact recordVma_log _ _
    have hmapped : s1.mapped = (pagesBefore f n).reverse := by
      rw [← hs1, ← h.mapped]
      exact recordVma_mapped _ _
    have hsegment : s1.segment = [] := by rw [← hs1]
    rcases mapSegment_cases f ans s1 (phdr f.buf n).startPage (phdr f.buf n).pages with
      ⟨m, hm, log, herr, hstop⟩ | ⟨s2, hok, hnew, hkeep⟩
    · rw [herr]
      obtain ⟨ws, rfl, hin⟩ := hstop.stoppedIn hm ⟨hmapped, h.reaches⟩ hpages
      rw [hlog, ← append_assoc]
      exact Or.inl ⟨ws, rfl, hin⟩
    · rw [hok]
      have hmapped' : s2.mapped = (pagesBefore f (n + 1)).reverse := by
        rw [hnew.mapped, hmapped, pagesBefore_succ, hpages, reverse_append]
      rw [hmapped, hmapped', mappable_reverse, mappable_reverse] at hkeep
      refine Or.inr ⟨_, rfl, ⟨hmapped', hkeep h.reaches⟩, ?_⟩
      · show Access.write _ _ s2.segment :: Access.read _ _ :: s2.log = _
        rw [hnew.segment, hsegment, hnew.log, hlog, hcopies, hpages, append_nil, append_assoc,
          append_assoc]
        rfl
  · have hnone : headerPages f n = [] := if_neg htype
    refine Or.inr ⟨s.note (.read (phdrBase f.buf n) 4), ?_, ⟨?_, ?_⟩, ?_⟩
    · simp only [loadHeader, if_neg htype]
    · rw [pagesBefore_succ, hnone, append_nil]
      exact h.mapped
    · rw [Reaches, pagesBefore_succ, hnone, append_nil]
      exact h.reaches
    · rw [copies, headerReads, if_neg htype, if_neg htype, hnone]
      rfl

theorem AtHeader.unread (size : Nat) (f : File) : AtHeader f 0 (opened size) :=
  ⟨rfl, nodup_nil, fun _ hp => absurd hp not_mem_nil⟩

/-! ## All headers -/

theorem loadHeaders_succ (f : File) (ans : Answers) (n : Nat) (s : Loader) :
    loadHeaders f ans (n + 1) s = (loadHeaders f ans n s).bind fun s => loadHeader f ans s n := by
  rw [loadHeaders, range_succ, foldlM_append]
  show Except.bind _ _ = Except.bind _ _
  congr 1
  funext s
  rw [foldlM_cons, bind_congr fun _ => foldlM_nil, bind_pure]

/-- An access for a header that the loader gets to. -/
def MadeFor (f : File) (i : Nat) (a : Access) : Prop :=
  Reaches f i ∧ (a ∈ headerReads f i ∨ Opens f i a ∨ (Reaches f (i + 1) ∧ a ∈ copies f i))

/-- The log before header `n`. -/
def headersLog (f : File) (size : Nat) : Nat → List Access
  | 0 => (opened size).log
  | n + 1 => copies f n ++ tableWrites f (headerPages f n) ++ headerReads f n ++ headersLog f size n

variable {a : Access}

theorem mem_headersLog (h : Reaches f n) : a ∈ headersLog f size n ↔
    a ∈ (opened size).log ∨ ∃ i < n, a ∈ headerReads f i ∨ Opens f i a ∨ a ∈ copies f i := by
  induction n with
  | zero => simp [headersLog]
  | succ n ih =>
    rw [headersLog, mem_append, mem_append, mem_append, ih (h.mono (Nat.le_succ n)), opens_iff h,
      Nat.exists_lt_succ_right]
    simp only [or_assoc, or_comm, or_left_comm]

theorem loadHeaders_cases (f : File) (ans : Answers) (size n : Nat) :
    (∃ s, loadHeaders f ans n (opened size) = .ok s ∧ AtHeader f n s ∧
      s.log = headersLog f size n) ∨
    ∃ m < n, ∃ ws, loadHeaders f ans n (opened size) =
        .error (ws ++ headerReads f m ++ headersLog f size m) ∧
      Reaches f m ∧ StoppedIn f ans m ws := by
  induction n with
  | zero => exact Or.inl ⟨opened size, rfl, .unread size f, rfl⟩
  | succ n ih =>
    rw [loadHeaders_succ]
    rcases ih with ⟨s, hok, hat, hlog⟩ | ⟨m, hm, ws, herr, hstuck⟩
    · rw [hok]
      rcases loadHeader_cases ans hat with ⟨ws, herr, hstuck⟩ | ⟨s', hok', hat', hlog'⟩
      · refine Or.inr ⟨n, Nat.lt_succ_self n, ws, ?_, hat.reaches, hstuck⟩
        rw [← hlog]
        exact herr
      · refine Or.inl ⟨s', hok', hat', ?_⟩
        rw [hlog', hlog, headersLog]
    · rw [herr]
      exact Or.inr ⟨m, Nat.lt_succ_of_lt hm, ws, rfl, hstuck⟩

theorem loadHeaders_log (ha : a ∈ logOf (loadHeaders f ans n (opened size))) :
    a ∈ (opened size).log ∨ ∃ i < n, MadeFor f i a := by
  have hmade : ∀ m ≤ n, Reaches f m → a ∈ headersLog f size m →
      a ∈ (opened size).log ∨ ∃ i < n, MadeFor f i a := by
    intro m hm hreach hmem
    refine ((mem_headersLog hreach).mp hmem).imp_right fun ⟨i, hi, hin⟩ => ?_
    exact ⟨i, Nat.lt_of_lt_of_le hi hm, hreach.mono (Nat.le_of_lt hi),
      hin.imp_right fun hrest => hrest.imp_right fun hcopy => ⟨hreach.mono hi, hcopy⟩⟩
  rcases loadHeaders_cases f ans size n with ⟨s, hok, hat, hlog⟩ | ⟨m, hm, ws, herr, hreach, hstop⟩
  · rw [hok] at ha
    exact hmade n (Nat.le_refl n) hat.reaches (hlog ▸ ha)
  · rw [herr] at ha
    rcases mem_append.mp ha with hhere | hold
    · refine Or.inr ⟨m, hm, hreach, ?_⟩
      exact (mem_append.mp hhere).elim (fun hw => Or.inr (Or.inl (hstop.opens a hw))) Or.inl
    · exact hmade m (Nat.le_of_lt hm) hreach hold

theorem loadHeaders_made (size : Nat) (hin : i < n) (h : MadeFor f i a) :
    a ∈ logOf (loadHeaders f .all n (opened size)) := by
  have hmade : a ∈ headerReads f i ∨ Opens f i a ∨ a ∈ copies f i :=
    h.2.imp_right fun hrest => hrest.imp_right And.right
  rcases loadHeaders_cases f .all size n with
    ⟨s, hok, hat, hlog⟩ | ⟨m, hm, ws, herr, hreach, hstop⟩
  · rw [hok]
    show a ∈ s.log
    rw [hlog]
    exact (mem_headersLog hat.reaches).mpr (Or.inr ⟨i, hin, hmade⟩)
  · rw [herr]
    obtain ⟨hnext, hall⟩ := hstop.taken rfl
    have him : i ≤ m := Nat.le_of_not_lt fun hmi => hnext (h.1.mono hmi)
    rcases Nat.eq_or_lt_of_le him with rfl | hlt
    · refine mem_append_left _ (mem_append.mpr ?_)
      rcases h.2 with hread | hopen | hcopy
      · exact Or.inr hread
      · exact Or.inl (hall a hopen)
      · exact absurd hcopy.1 hnext
    · exact mem_append_right _ ((mem_headersLog hreach).mpr (Or.inr ⟨i, hlt, hmade⟩))

/-! ## The stack -/

theorem push_safe (size : Nat) {cursor : Nat} {bytes : List UInt8}
    (hlow : stackBottom + bytes.length ≤ cursor) (htop : cursor ≤ stackTop) :
    (Access.write (cursor - bytes.length) bytes.length [stackPage]).Safe size := by
  intro k hk
  simp only [stackBottom, stackTop, stackPage, pageIndex, pageSize, mem_singleton] at *
  omega

/-- The log has been extended by safe accesses. -/
structure Extends (size : Nat) (log log' : List Access) : Prop where
  safe : ∀ a ∈ log', a ∈ log ∨ a.Safe size
  kept : ∀ a ∈ log, a ∈ log'

theorem Extends.refl (size : Nat) (log : List Access) : Extends size log log :=
  ⟨fun _ => Or.inl, fun _ => id⟩

theorem Extends.trans {log1 log2 log3 : List Access} (h : Extends size log1 log2)
    (h' : Extends size log2 log3) : Extends size log1 log3 :=
  ⟨fun a ha => (h'.safe a ha).elim (h.safe a) Or.inr, fun a ha => h'.kept a (h.kept a ha)⟩

theorem Extends.push {cursor : Nat} {bytes : List UInt8}
    (hlow : stackBottom + bytes.length ≤ cursor) (htop : cursor ≤ stackTop) :
    Extends size s.log (push s cursor bytes).log := by
  refine ⟨fun a ha => ?_, fun a ha => mem_cons_of_mem _ ha⟩
  rcases mem_cons.mp ha with rfl | hold
  · exact Or.inr (push_safe size hlow htop)
  · exact Or.inl hold

/-- The strings stay inside the stack page. -/
def StringsSafe (size : Nat) (log : List Access) (count : Nat) :
    Except (List Access) (Loader × Nat × List Nat) → Prop
  | .error log' => Extends size log log'
  | .ok (s, cursor, pointers) => Extends size log s.log ∧ stackBottom ≤ cursor ∧
      cursor ≤ stackTop ∧ pointers.length = count

theorem pushStrings_safe (size : Nat) (args : List (List UInt8)) (cursor : Nat) (ps : List Nat)
    (hlow : stackBottom ≤ cursor) (htop : cursor ≤ stackTop) :
    StringsSafe size s.log (args.length + ps.length) (pushStrings args s cursor ps) := by
  induction args generalizing s cursor ps with
  | nil => exact ⟨.refl size s.log, hlow, htop, (Nat.zero_add _).symm⟩
  | cons arg args ih =>
    rw [pushStrings]
    generalize hroom : cursor - stackBottom = room
    split
    · exact .refl size s.log
    · have hlen : (arg ++ [0]).length = arg.length + 1 := by simp
      have hpush : Extends size s.log (push s cursor (arg ++ [0])).log := .push (by omega) htop
      have hrest := ih (s := push s cursor (arg ++ [0])) (cursor - (arg.length + 1))
        ((cursor - (arg.length + 1)) :: ps) (by omega) (by omega)
      cases hend : pushStrings args (push s cursor (arg ++ [0])) (cursor - (arg.length + 1))
          ((cursor - (arg.length + 1)) :: ps) with
      | error log =>
        rw [hend] at hrest
        exact hpush.trans hrest
      | ok r =>
        rw [hend] at hrest
        obtain ⟨h, hlow', htop', hcount⟩ := hrest
        refine ⟨hpush.trans h, hlow', htop', ?_⟩
        rw [hcount, length_cons, length_cons]
        omega

theorem wordBytes_length (w : Nat) : (wordBytes w).length = 8 := slice_length _ _ _

theorem pushWords_safe (size : Nat) (ws : List Nat) (cursor : Nat)
    (hlow : stackBottom + 8 * ws.length ≤ cursor) (htop : cursor ≤ stackTop) :
    Extends size s.log (pushWords ws s cursor).1.log := by
  induction ws generalizing s cursor with
  | nil => exact .refl size s.log
  | cons w ws ih =>
    rw [length_cons] at hlow
    have hpush : Extends size s.log (push s cursor (wordBytes w)).log := by
      refine .push ?_ htop
      rw [wordBytes_length]
      omega
    exact hpush.trans (ih (cursor - 8) (by omega) (by omega))

/-- The log of a call that may fail, with whatever it returns beside the state. -/
def finalLog : Except (List Access) (Loader × Nat) → List Access
  | .error log => log
  | .ok (s, _) => s.log

theorem loadStack_safe (f : File) (ans : Answers) (argv : List (List UInt8)) (size : Nat) :
    Extends size s.log (finalLog (loadStack f ans argv s)) := by
  unfold loadStack
  have hown : tableWrites f [stackPage] = [] := by
    have hlow : shared f stackPage = false := Bool.and_eq_false_imp.mpr fun h => absurd h (by decide)
    simp [tableWrites, hlow]
  rcases mapNew_cases f ans s stackPage with ⟨herr, -⟩ | ⟨herr, -⟩ | ⟨s1, hok, -, -, hone⟩
  · rw [herr]
    exact .refl size s.log
  · rw [herr, hown]
    exact .refl size s.log
  · have hlog := hone.log
    rw [hown, nil_append] at hlog
    rw [hok, ← hlog]
    show Extends size s1.log (finalLog (pushArguments argv s1))
    unfold pushArguments
    split
    · exact .refl size s1.log
    · have hstrings := pushStrings_safe (s := s1) size argv.reverse stackTop [] (by decide)
        (Nat.le_refl _)
      cases hend : pushStrings argv.reverse s1 stackTop [] with
      | error log =>
        rw [hend] at hstrings
        exact hstrings
      | ok r =>
        obtain ⟨s', cursor, ps⟩ := r
        rw [hend] at hstrings
        obtain ⟨hsafe, hlow, htop, hcount⟩ := hstrings
        show Extends size s1.log (finalLog (if _ then _ else _))
        split
        · exact hsafe
        next hroom =>
          have hlen : (0 :: ps.reverse ++ [argv.length]).length = argv.length + 2 := by
            simp [hcount]
          have hwords := pushWords_safe (s := s') size (0 :: ps.reverse ++ [argv.length])
            (cursor / 8 * 8) (by rw [hlen]; omega) (by omega)
          exact Extends.trans hsafe hwords

/-! ## Safe reads and writes -/

theorem read_safe_iff {offset : Nat} (hoffset : offset < 2 ^ 64) (hsize : size ≤ 2 ^ 32)
    (hn : n ≠ 0) : (Access.read offset n).Safe size ↔ offset + n ≤ size := by
  constructor
  · intro h
    by_contra hout
    have hpast := h (size - offset) (by omega)
    omega
  · intro h k hk
    omega

theorem write_safe_iff (size : Nat) {vaddr len : Nat} (hlen : len ≠ 0) (hvaddr : vaddr < 2 ^ 64) :
    (Access.write vaddr len (pagesFrom (vaddr / pageSize * pageSize) n).reverse).Safe size ↔
      vaddr + len ≤ 2 ^ 47 ∧ vaddr + len ≤ vaddr / pageSize * pageSize + n * pageSize := by
  constructor
  · intro h
    have hlower : vaddr + len ≤ 2 ^ 47 := by
      by_contra hout
      have hpast := (h (2 ^ 47 - vaddr) (by omega)).1
      omega
    refine ⟨hlower, ?_⟩
    have hlast := (h (len - 1) (by omega)).2
    rw [mem_reverse, mem_pagesFrom] at hlast
    obtain ⟨p, hp, hpage⟩ := hlast
    simp only [pageIndex, pageSize] at *
    omega
  · rintro ⟨hlower, hcovered⟩ k hk
    have hsame : (vaddr + k) % 2 ^ 64 = vaddr + k := Nat.mod_eq_of_lt (by omega)
    rw [hsame, mem_reverse, mem_pagesFrom]
    refine ⟨by omega, (vaddr + k) / pageSize - vaddr / pageSize, ?_, ?_⟩
    · simp only [pageSize] at *
      omega
    · simp only [pageIndex, pageSize] at *
      omega

theorem phdr_lt (buf : Block) (i : Nat) : (phdr buf i).offset < 2 ^ 64 ∧
    (phdr buf i).vaddr < 2 ^ 64 ∧ phdrBase buf i < 2 ^ 64 :=
  ⟨readLE_lt 8 _ _, readLE_lt 8 _ _, Nat.mod_lt _ (by decide)⟩

theorem headerReads_safe_iff (hsize : size ≤ 2 ^ 32) (i : Nat) :
    (∀ a ∈ headerReads f i, a.Safe size) ↔ phdrBase f.buf i + 4 ≤ size ∧
      ((phdr f.buf i).type = ptLoad → phdrBase f.buf i + 48 ≤ size) := by
  have hbase := (phdr_lt f.buf i).2.2
  have htype : (Access.read (phdrBase f.buf i) 4).Safe size ↔ phdrBase f.buf i + 4 ≤ size :=
    read_safe_iff hbase hsize (by decide)
  by_cases hload : (phdr f.buf i).type = ptLoad
  · have hreads : headerReads f i = [.read (phdrBase f.buf i + 32) 16,
        .read (phdrBase f.buf i + 4) 20, .read (phdrBase f.buf i) 4] := if_pos hload
    rw [hreads, forall_mem_cons, forall_mem_cons, forall_mem_cons, htype]
    constructor
    · rintro ⟨hrest, -, hfirst, -⟩
      have hlast := (read_safe_iff (by omega) hsize (by decide)).mp hrest
      exact ⟨hfirst, fun _ => by omega⟩
    · rintro ⟨hfirst, hall⟩
      have hall := hall hload
      exact ⟨(read_safe_iff (by omega) hsize (by decide)).mpr hall,
        (read_safe_iff (by omega) hsize (by decide)).mpr (by omega), hfirst,
        fun _ ha => absurd ha not_mem_nil⟩
  · have hreads : headerReads f i = [.read (phdrBase f.buf i) 4] := if_neg hload
    rw [hreads, forall_mem_cons, htype]
    exact ⟨fun h => ⟨h.1, fun hl => absurd hl hload⟩,
      fun h => ⟨h.1, fun _ ha => absurd ha not_mem_nil⟩⟩

theorem copies_safe_iff (hsize : size ≤ 2 ^ 32) (hload : (phdr f.buf i).type = ptLoad) :
    (∀ a ∈ copies f i, a.Safe size) ↔
      ((phdr f.buf i).filesz ≠ 0 → (phdr f.buf i).Contained size) := by
  obtain ⟨hoffset, hvaddr, -⟩ := phdr_lt f.buf i
  have heq : headerPages f i = pagesFrom (phdr f.buf i).startPage (phdr f.buf i).pages :=
    if_pos hload
  simp only [copies, if_pos hload, forall_mem_cons]
  by_cases hzero : (phdr f.buf i).filesz = 0
  · simp [hzero, Access.Safe]
  · rw [heq]
    have hwrite := write_safe_iff (n := (phdr f.buf i).pages) size hzero hvaddr
    have hread := read_safe_iff hoffset hsize hzero
    constructor
    · rintro ⟨hw, hr, -⟩ -
      exact ⟨hread.mp hr, (hwrite.mp hw).1, (hwrite.mp hw).2⟩
    · intro h
      obtain ⟨hsource, hlower, hcovered⟩ := h hzero
      exact ⟨hwrite.mpr ⟨hlower, hcovered⟩, hread.mpr hsource,
        fun _ ha => absurd ha not_mem_nil⟩

/-! ## Whole loads -/

/-- The size of the block that is asked for. -/
def fileBlock (f : File) : Nat :=
  match acceptedSize f with
  | none => 0
  | some size => blockSize size

theorem blockSize_le (size : Nat) : blockSize size ≤ 2 ^ 32 :=
  Nat.le_of_lt (Nat.mod_lt _ (by decide))

theorem le_blockSize_iff : size ≤ blockSize size ↔ size + 512 < 2 ^ 32 := by
  unfold blockSize at *
  omega

theorem elfLoadImageArgs_of_open (argv : List (List UInt8)) (hsize : acceptedSize f = some size)
    (hblock : ¬(ans.block = false ∨ blockSize size = 0)) (hread : ans.read ≠ false)
    (helf : isElf f.buf ≠ false) (hdir : ans.directory ≠ false) : (elfLoadImageArgs f ans argv).2 =
      finalLog ((loadHeaders f ans (phnum f.buf) (opened size)).bind (loadStack f ans argv)) := by
  simp only [elfLoadImageArgs, hsize, if_neg hblock, if_neg hread, if_neg helf, if_neg hdir]
  cases (loadHeaders f ans (phnum f.buf) (opened size)).bind (loadStack f ans argv) with
  | error log => rfl
  | ok r => rfl

theorem finalLog_extends (f : File) (ans : Answers) (argv : List (List UInt8)) (e : Load)
    (size : Nat) :
    Extends size (logOf e) (finalLog (e.bind (loadStack f ans argv))) := by
  cases e with
  | error log => exact .refl size log
  | ok s => exact loadStack_safe f ans argv size

theorem opened_safe (h : size + 512 < 2 ^ 32) (a : Access) (ha : a ∈ (opened size).log) :
    a.Safe (blockSize size) := by
  have hblock : blockSize size = size + 512 := Nat.mod_eq_of_lt h
  have hread : ∀ offset n : Nat, offset + n ≤ 512 → (Access.read offset n).Safe (blockSize size) := by
    intro offset n hn k hk
    omega
  simp only [opened, mem_cons, not_mem_nil, or_false] at ha
  rcases ha with rfl | rfl | rfl | rfl | rfl
  · exact hread 56 2 (by decide)
  · exact hread 32 8 (by decide)
  · exact hread 24 8 (by decide)
  · exact hread 0 4 (by decide)
  · show size ≤ blockSize size
    omega

theorem headersBounded_iff (hsize : size ≤ 2 ^ 32) : HeadersBounded f size ↔
    ∀ i < phnum f.buf, ∀ a, MadeFor f i a → a.Safe size := by
  constructor
  · rintro h i hi a ⟨hreach, hread | ⟨page, htried, hshared, -⟩ | ⟨hnext, hcopy⟩⟩
    · obtain ⟨hfirst, -, hload⟩ := h i hi hreach
      exact (headerReads_safe_iff hsize i).mpr ⟨hfirst, fun hl => (hload hl).1⟩ a hread
    · have hown := (h i hi hreach).2.1 page htried
      exact absurd (hown.symm.trans hshared) Bool.false_ne_true
    · by_cases hl : (phdr f.buf i).type = ptLoad
      · have hcontained := ((h i hi hreach).2.2 hl).2 hnext
        exact (copies_safe_iff hsize hl).mpr hcontained a hcopy
      · rw [copies, if_neg hl] at hcopy
        exact absurd hcopy not_mem_nil
  · intro h i hi hreach
    obtain ⟨hfirst, hload⟩ := (headerReads_safe_iff hsize i).mp fun a ha =>
      h i hi a ⟨hreach, Or.inl ha⟩
    refine ⟨hfirst, fun page htried => ?_, fun hl => ⟨hload hl, fun hnext => ?_⟩⟩
    · by_contra hshared
      exact h i hi (.table page)
        ⟨hreach, Or.inr (Or.inl ⟨page, htried, Bool.not_eq_false _ ▸ hshared, rfl⟩)⟩
    · exact (copies_safe_iff hsize hl).mp fun a ha =>
        h i hi a ⟨hreach, Or.inr (Or.inr ⟨hnext, ha⟩)⟩

theorem Bounded.safe (h : Bounded f) (ans : Answers) (argv : List (List UInt8)) :
    ∀ a ∈ (elfLoadImageArgs f ans argv).2, a.Safe (fileBlock f) := by
  cases hsize : acceptedSize f with
  | none =>
    intro a ha
    simp only [elfLoadImageArgs, hsize] at ha
    exact absurd ha not_mem_nil
  | some size =>
    have hfile : fileBlock f = blockSize size := by simp only [fileBlock, hsize]
    rw [hfile]
    by_cases hblock : ans.block = false ∨ blockSize size = 0
    · intro a ha
      simp only [elfLoadImageArgs, hsize, if_pos hblock] at ha
      exact absurd ha not_mem_nil
    · obtain ⟨hroom, hheaders⟩ := h size hsize (not_or.mp hblock).2
      have hopened := opened_safe hroom
      by_cases hread : ans.read = false
      · intro a ha
        simp only [elfLoadImageArgs, hsize, if_neg hblock, if_pos hread] at ha
        exact hopened a (mem_of_mem_drop (i := 4) ha)
      by_cases helf : isElf f.buf = false
      · intro a ha
        simp only [elfLoadImageArgs, hsize, if_neg hblock, if_neg hread, if_pos helf] at ha
        exact hopened a (mem_of_mem_drop (i := 3) ha)
      by_cases hdir : ans.directory = false
      · intro a ha
        simp only [elfLoadImageArgs, hsize, if_neg hblock, if_neg hread, if_neg helf,
          if_pos hdir] at ha
        exact hopened a (mem_of_mem_drop (i := 2) ha)
      intro a ha
      rw [elfLoadImageArgs_of_open argv hsize hblock hread helf hdir] at ha
      rcases (finalLog_extends f ans argv _ (blockSize size)).safe a ha with hloop | hsafe
      · rcases loadHeaders_log hloop with hstart | ⟨i, hi, hmade⟩
        · exact hopened a hstart
        · have hbounded := hheaders (Bool.not_eq_false _ ▸ helf)
          exact (headersBounded_iff (blockSize_le size)).mp hbounded i hi a hmade
      · exact hsafe

/-- The loader stays inside the block and the pages it maps for a segment, whatever the allocators
and the file system answer, for exactly the bounded files. -/
theorem loads_inside_iff (f : File) :
    (∀ ans argv, ∀ a ∈ (elfLoadImageArgs f ans argv).2, a.Safe (fileBlock f)) ↔ Bounded f := by
  constructor
  · intro h size hsize hne
    have hblock : ¬(Answers.all.block = false ∨ blockSize size = 0) := by simp [Answers.all, hne]
    have hfile : fileBlock f = blockSize size := by simp only [fileBlock, hsize]
    rw [hfile] at h
    have hfill : (.fill size : Access) ∈
        (elfLoadImageArgs f { Answers.all with read := false } []).2 := by
      simp only [elfLoadImageArgs, hsize]
      rw [if_neg hblock, if_pos trivial]
      exact mem_cons_self
    have hroom := le_blockSize_iff.mp (h _ [] _ hfill)
    refine ⟨hroom, fun helf => (headersBounded_iff (blockSize_le size)).mpr fun i hi a hmade => ?_⟩
    apply h .all [] a
    rw [elfLoadImageArgs_of_open [] hsize hblock nofun (by rw [helf]; exact nofun) nofun]
    exact (finalLog_extends f .all [] _ (blockSize size)).kept a (loadHeaders_made size hi hmade)
  · exact fun h => h.safe

/-- One segment of a page in memory, for which two pages of the file are to be copied. -/
def overlongFile : File where
  size := some 0x3000
  buf := fun k =>
    [(0, 0x7F), (1, 0x45), (2, 0x4C), (3, 0x46),  -- e_ident
      (32, 64), (56, 1),  -- e_phoff, e_phnum
      (64, 1), (82, 0x40), (97, 0x20), (105, 0x10)].lookup k |>.getD 0
  kernelPml4 := fun _ => false
  kernelHalf := fun _ => false

theorem overlong_segment_escapes : ∃ a ∈ (elfLoadImageArgs overlongFile .all []).2,
    ¬a.Safe (fileBlock overlongFile) := by
  refine ⟨.write 0x400000 0x2000 [0x400], by decide +kernel, fun hsafe => ?_⟩
  have hbyte := (hsafe 0x1000 (by decide)).2
  revert hbyte
  decide

end OrangeOs.Elf
