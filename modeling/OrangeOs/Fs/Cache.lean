import OrangeOs.Lib.Bytes
import OrangeOs.Lib.Machine

/-! # The block cache

The sixteen entries of `cache`, with `cache_flush_entry`, `cache_get` and
`cache_sync`, over a disk whose transfers may fail in every way the driver allows.
The contents of a block are what its entry holds, or what is on disk if it has
none; a cache is transparent if calls change no contents but through the caller's
own writes.
-/

namespace OrangeOs.Fs.Cache

open Bytes Machine Function List

/-! ## Transfers -/

/-- One `disk_read_sector_once`: it fills the buffer, or it fails after `sectors`
sectors, for which the device may have sent anything. -/
inductive ReadAttempt where
  | ok
  | failed (sectors : Nat) (sent : Block)

/-- One `disk_write_sector_once`; a failing one may leave anything in the block. -/
inductive WriteAttempt where
  | ok
  | failed (left : Block)

def diskReadSectorOnce (data buffer : Block) : ReadAttempt → Bool × Block
  | .ok => (true, data)
  | .failed sectors sent => (false, fun k => if k < 512 * sectors then sent k else buffer k)

/-- The first `n` rounds of the loop of `disk_read_sector_checked`. -/
def readRetries (data buffer : Block) (attempt : Nat → ReadAttempt) : Nat → Bool × Block
  | 0 => (false, buffer)
  | n + 1 =>
    match readRetries data buffer attempt n with
    | (true, buffer) => (true, buffer)
    | (false, buffer) => diskReadSectorOnce data buffer (attempt n)

/-- Whether the read succeeds, and the buffer as it leaves it. -/
def diskReadSectorChecked (data buffer : Block) (attempt : Nat → ReadAttempt) : Bool × Block :=
  readRetries data buffer attempt 3

def diskWriteSectorOnce (buffer : Block) : WriteAttempt → Bool × Block
  | .ok => (true, buffer)
  | .failed left => (false, left)

def writeRetries (buffer old : Block) (attempt : Nat → WriteAttempt) : Nat → Bool × Block
  | 0 => (false, old)
  | n + 1 =>
    match writeRetries buffer old attempt n with
    | (true, data) => (true, data)
    | (false, _) => diskWriteSectorOnce buffer (attempt n)

/-- Whether the write succeeds, and what is then in the block on disk. -/
def diskWriteSectorChecked (buffer old : Block) (attempt : Nat → WriteAttempt) : Bool × Block :=
  writeRetries buffer old attempt 3

/-! ## The cache -/

structure Entry where
  block : Nat
  age : UInt32
  valid : Bool
  dirty : Bool
  data : Block

abbrev Slot := Fin 16

structure State where
  cache : Slot → Entry
  cacheAge : UInt32
  disk : Nat → Block
  totalBlocks : Nat

def State.setEntry (s : State) (i : Slot) (e : Entry) : State :=
  { s with cache := update s.cache i e }

def State.setDisk (s : State) (b : Nat) (data : Block) : State :=
  { s with disk := update s.disk b data }

def State.holds (s : State) (i : Slot) (block : Nat) : Bool :=
  (s.cache i).valid && (s.cache i).block == block

/-- The outcomes of the transfers of one call, by retry. -/
structure Transfers where
  read : Nat → ReadAttempt
  write : Nat → WriteAttempt

def cacheFlushEntry (s : State) (i : Slot) (attempt : Nat → WriteAttempt) : Bool × State :=
  let e := s.cache i
  if e.valid = false ∨ e.dirty = false then (true, s)
  else
    match diskWriteSectorChecked e.data (s.disk e.block) attempt with
    | (false, left) => (false, s.setDisk e.block left)
    | (true, data) => (true, (s.setDisk e.block data).setEntry i { e with dirty := false })

inductive ScanResult where
  | hit (i : Slot)
  | miss (victim : Option Slot)

/-- The loop of `cache_get` over the remaining entries. -/
def scan (s : State) (block : Nat) : List Slot → Option Slot → UInt32 → ScanResult
  | [], victim, _ => .miss victim
  | i :: rest, victim, oldest =>
    if s.holds i block = true then .hit i
    else if (s.cache i).valid = false ∨ (s.cache i).age < oldest then
      scan s block rest (some i) (s.cache i).age
    else scan s block rest victim oldest

/-- `cache[i].age = ++cache_age`, with `dirty` set for a write. -/
def State.touch (s : State) (i : Slot) (write : Bool) : State :=
  { s with
    cacheAge := s.cacheAge + 1
    cache := update s.cache i { s.cache i with
      age := s.cacheAge + 1, dirty := (s.cache i).dirty || write } }

/-- The victim's buffer after the read of `block`, still under its old label. -/
def State.fill (s : State) (i : Slot) (data : Block) : State :=
  s.setEntry i { s.cache i with data := data }

/-- The victim relabelled for `block`. -/
def State.relabel (s : State) (i : Slot) (block : Nat) (write : Bool) : State :=
  { s with
    cacheAge := s.cacheAge + 1
    cache := update s.cache i { s.cache i with
      block := block, valid := true, dirty := write, age := s.cacheAge + 1 } }

/-- `cache_get` after the scan has missed and chosen a victim. -/
def loadVictim (s : State) (i : Slot) (block : Nat) (write : Bool) (io : Transfers) :
    Option Slot × State :=
  match cacheFlushEntry s i io.write with
  | (false, s) => (none, s)
  | (true, s) =>
    match diskReadSectorChecked (s.disk block) (s.cache i).data io.read with
    | (false, data) => (none, s.fill i data)
    | (true, data) => (some i, (s.fill i data).relabel i block write)

/-- `cache_get`: the entry whose data it returns, `none` for a null pointer. -/
def cacheGet (s : State) (block : Nat) (write : Bool) (io : Transfers) : Option Slot × State :=
  if s.totalBlocks ≤ block then (none, s)
  else
    match scan s block (List.finRange 16) none 0xFFFFFFFF with
    | .hit i => (some i, s.touch i write)
    | .miss none => (none, s)
    | .miss (some i) => loadVictim s i block write io

/-- The loop of `cache_sync`; `writes i` are the attempts on entry `i`. -/
def syncEntries (writes : Slot → Nat → WriteAttempt) : State → List Slot → Bool × State
  | s, [] => (true, s)
  | s, i :: rest =>
    match cacheFlushEntry s i (writes i) with
    | (false, s) => (false, s)
    | (true, s) => syncEntries writes s rest

def cacheSync (s : State) (writes : Slot → Nat → WriteAttempt) : Bool × State :=
  syncEntries writes s (List.finRange 16)

/-- `cache_drop`, the state the file system starts with. -/
def boot (disk : Nat → Block) (totalBlocks : Nat) : State where
  cache _ := ⟨0, 0, false, false, zero⟩
  cacheAge := 0
  disk := disk
  totalBlocks := totalBlocks

/-! ## Calls and contents -/

/-- A call, or a write of `data` through the pointer to entry `slot` that the
caller got for `block`. -/
inductive Action where
  | get (block : Nat) (write : Bool) (io : Transfers)
  | modify (slot : Slot) (block : Nat) (data : Block)
  | sync (writes : Slot → Nat → WriteAttempt)

def Action.apply (s : State) : Action → State
  | .get block write io => (cacheGet s block write io).2
  | .modify slot _ data => s.fill slot data
  | .sync writes => (cacheSync s writes).2

/-- The contents of a block: its entry's data, else the disk's. -/
def contents (s : State) (b : Nat) : Block :=
  match (List.finRange 16).find? (fun i => s.holds i b) with
  | some i => (s.cache i).data
  | none => s.disk b

/-- What an action may do to the contents. -/
def Action.effect (f : Nat → Block) : Action → Nat → Block
  | .modify _ block data => update f block data
  | _ => f

/-- The read of one call succeeds at last, or transfers nothing. -/
def readIntact (attempt : Nat → ReadAttempt) : Prop :=
  (∃ k < 3, attempt k = .ok) ∨ ∀ k < 3, ∃ sent, attempt k = .failed 0 sent

/-- A modification is made while the entry is still the one obtained for writing. A
call that needs a new entry when all sixteen are in use does not fail in the
middle of its read. -/
def Allowed (s : State) : Action → Prop
  | .get block _ io => (∃ i, s.holds i block = true) ∨ (∃ i, (s.cache i).valid = false) ∨
      readIntact io.read
  | .modify slot block _ => s.holds slot block = true ∧ (s.cache slot).dirty = true
  | .sync _ => True

/-! ## The invariant -/

structure Consistent (s : State) : Prop where
  once : ∀ {i j b}, s.holds i b = true → s.holds j b = true → i = j
  clean : ∀ {i b}, s.holds i b = true → (s.cache i).dirty = false → (s.cache i).data = s.disk b
  blank : ∀ {i}, (s.cache i).valid = false → (s.cache i).age = 0

variable {s t : State} {i : Slot} {b block n : Nat} {data buffer : Block}
  {attempt : Nat → ReadAttempt} {slots : List Slot} {victim out : Option Slot} {oldest : UInt32}

theorem State.holds_iff :
    s.holds i b = true ↔ (s.cache i).valid = true ∧ (s.cache i).block = b := by
  simp [State.holds]

theorem State.holds_congr (b : Nat) (hvalid : (t.cache i).valid = (s.cache i).valid)
    (hblock : (t.cache i).block = (s.cache i).block) : t.holds i b = s.holds i b := by
  rw [State.holds, State.holds, hvalid, hblock]

theorem contents_ext {f : Nat → Block} (held : ∀ i b, s.holds i b = true → (s.cache i).data = f b)
    (absent : ∀ b, (∀ i, s.holds i b ≠ true) → s.disk b = f b) : contents s = f := by
  funext b
  unfold contents
  cases hfind : (finRange 16).find? (fun i => s.holds i b) with
  | none => exact absent b fun i => find?_eq_none.mp hfind i (mem_finRange i)
  | some i =>
    have hi : s.holds i b = true := by simpa using find?_some hfind
    exact held i b hi

theorem Consistent.contents_held (h : Consistent s) (hi : s.holds i b = true) :
    contents s b = (s.cache i).data := by
  unfold contents
  cases hfind : (finRange 16).find? (fun i => s.holds i b) with
  | none => exact absurd hi (find?_eq_none.mp hfind i (mem_finRange i))
  | some j =>
    have hj : s.holds j b = true := by simpa using find?_some hfind
    rw [h.once hj hi]

theorem contents_absent (h : ∀ i, s.holds i b ≠ true) : contents s b = s.disk b := by
  unfold contents
  rw [find?_eq_none.mpr fun i _ => h i]

/-! ## Flushing -/

theorem writeRetries_ok {old : Block} {attempt : Nat → WriteAttempt}
    (h : writeRetries buffer old attempt n = (true, data)) : data = buffer := by
  induction n with
  | zero => cases h
  | succ n ih =>
    unfold writeRetries at h
    split at h
    · next heq =>
      cases h
      exact ih heq
    · cases hat : attempt n with
      | ok =>
        rw [hat] at h
        cases h
        rfl
      | failed left =>
        rw [hat] at h
        cases h

/-- A flush relabels nothing, and what it changes on disk the entry hides. -/
structure Flushed (s t : State) (i : Slot) (ok : Bool) : Prop where
  consistent : Consistent t
  contents : contents t = contents s
  holds : ∀ j b, t.holds j b = s.holds j b
  valid : ∀ j, (t.cache j).valid = (s.cache j).valid
  clean : ok = true → (t.cache i).valid = true → (t.cache i).dirty = false
  totalBlocks : t.totalBlocks = s.totalBlocks

theorem Flushed.of_hidden {ok : Bool} (h : Consistent s) (hi : (s.cache i).valid = true)
    (hentry : ∀ j, t.cache j = { s.cache j with dirty := (t.cache j).dirty })
    (hdirty : ∀ j, j ≠ i → (t.cache j).dirty = (s.cache j).dirty)
    (hdisk : ∀ b, b ≠ (s.cache i).block → t.disk b = s.disk b)
    (hself : (t.cache i).dirty = false → t.disk (s.cache i).block = (s.cache i).data)
    (hclean : ok = true → (t.cache i).dirty = false) (htotal : t.totalBlocks = s.totalBlocks) :
    Flushed s t i ok := by
  have hheld : s.holds i (s.cache i).block = true := State.holds_iff.mpr ⟨hi, rfl⟩
  have hvalid : ∀ j, (t.cache j).valid = (s.cache j).valid := fun j => by rw [hentry]
  have hdata : ∀ j, (t.cache j).data = (s.cache j).data := fun j => by rw [hentry]
  have hholds : ∀ j b, t.holds j b = s.holds j b := fun j b =>
    State.holds_congr b (hvalid j) (by rw [hentry])
  refine ⟨⟨?_, ?_, ?_⟩, contents_ext ?_ ?_, hholds, hvalid, fun hok _ => hclean hok, htotal⟩
  · intro j k b hj hk
    rw [hholds] at hj hk
    exact h.once hj hk
  · intro j b hj hjd
    rw [hholds] at hj
    rw [hdata]
    by_cases hji : j = i
    · subst hji
      rw [← (State.holds_iff.mp hj).2]
      exact (hself hjd).symm
    · -- only entry `i` is for the block whose disk data may differ
      have hb : b ≠ (s.cache i).block := by
        rintro rfl
        exact hji (h.once hj hheld)
      rw [hdisk b hb]
      exact h.clean hj (by rw [← hdirty j hji]; exact hjd)
  · intro j hj
    rw [hvalid] at hj
    rw [hentry]
    exact h.blank hj
  · intro j b hj
    rw [hholds] at hj
    rw [hdata, h.contents_held hj]
  · intro b hb
    have hb : ∀ j, s.holds j b ≠ true := fun j => by rw [← hholds]; exact hb j
    rw [contents_absent hb]
    refine hdisk b ?_
    rintro rfl
    exact hb i hheld

theorem cacheFlushEntry_spec (h : Consistent s) (i : Slot) (attempt : Nat → WriteAttempt) :
    Flushed s (cacheFlushEntry s i attempt).2 i (cacheFlushEntry s i attempt).1 := by
  unfold cacheFlushEntry
  dsimp only
  split
  · next hskip =>
    refine ⟨h, rfl, fun _ _ => rfl, fun _ => rfl, fun _ hv => ?_, rfl⟩
    exact hskip.resolve_left (by rw [hv]; decide)
  · next hno =>
    simp only [not_or, Bool.not_eq_false] at hno
    split
    · refine Flushed.of_hidden h hno.1 (fun _ => rfl) (fun _ _ => rfl)
        (fun b hb => update_of_ne hb _ _) (fun hd => ?_) (by simp) rfl
      exact absurd (hno.2.symm.trans hd) (by decide)
    · next data hw =>
      obtain rfl := writeRetries_ok hw
      refine Flushed.of_hidden h hno.1 (fun j => ?_) (fun j hj => ?_)
        (fun b hb => update_of_ne hb _ _) (fun _ => update_self _ _ _)
        (fun _ => ?_) rfl
      · by_cases hj : j = i
        · subst hj
          simp [State.setEntry, State.setDisk]
        · simp [State.setEntry, State.setDisk, hj]
      · simp [State.setEntry, State.setDisk, hj]
      · simp [State.setEntry]

/-! ## Getting a block -/

theorem readRetries_ok {out : Block} (h : readRetries data buffer attempt n = (true, out)) :
    out = data := by
  induction n with
  | zero => cases h
  | succ n ih =>
    unfold readRetries at h
    split at h
    · next heq =>
      cases h
      exact ih heq
    · cases hat : attempt n with
      | ok =>
        rw [hat] at h
        cases h
        rfl
      | failed sectors sent =>
        rw [hat] at h
        cases h

theorem readRetries_some_ok (data buffer : Block) {k : Nat} (hk : k < n) (hat : attempt k = .ok) :
    (readRetries data buffer attempt n).1 = true := by
  induction n with
  | zero => omega
  | succ n ih =>
    unfold readRetries
    split
    · rfl
    · next heq =>
      have hkn : k = n := by
        by_contra hne
        rw [heq] at ih
        cases ih (by omega)
      rw [← hkn, hat]
      rfl

theorem readRetries_untouched (h : ∀ k < n, ∃ sent, attempt k = .failed 0 sent) :
    readRetries data buffer attempt n = (false, buffer) := by
  induction n with
  | zero => rfl
  | succ n ih =>
    obtain ⟨sent, hat⟩ := h n (by omega)
    rw [readRetries, ih fun k hk => h k (by omega), hat]
    simp [diskReadSectorOnce]

theorem diskReadSectorChecked_failed {out : Block} (hintact : readIntact attempt)
    (h : diskReadSectorChecked data buffer attempt = (false, out)) : out = buffer := by
  rcases hintact with ⟨k, hk, hat⟩ | hnone
  · have := readRetries_some_ok data buffer hk hat
    rw [diskReadSectorChecked] at h
    rw [h] at this
    cases this
  · rw [diskReadSectorChecked, readRetries_untouched hnone] at h
    cases h
    rfl

theorem scan_hit (hscan : scan s block slots victim oldest = .hit i) : s.holds i block = true := by
  induction slots generalizing victim oldest with
  | nil => cases hscan
  | cons j rest ih =>
    unfold scan at hscan
    split at hscan
    · next hj =>
      cases hscan
      exact hj
    · split at hscan <;> exact ih hscan

theorem scan_miss (hscan : scan s block slots victim oldest = .miss out) :
    ∀ i ∈ slots, s.holds i block ≠ true := by
  induction slots generalizing victim oldest with
  | nil => simp
  | cons j rest ih =>
    unfold scan at hscan
    split at hscan
    · cases hscan
    · next hj =>
      refine forall_mem_cons.mpr ⟨hj, ?_⟩
      split at hscan <;> exact ih hscan

section

variable (h : Consistent s)
include h

/-- Once an entry not in use is the victim, only another such entry replaces it:
their age is 0. -/
theorem scan_keeps_unused {v : Slot} (hv : (s.cache v).valid = false)
    (hscan : scan s block slots (some v) 0 = .miss out) :
    ∃ w, out = some w ∧ (s.cache w).valid = false := by
  induction slots generalizing v with
  | nil =>
    cases hscan
    exact ⟨v, rfl, hv⟩
  | cons i rest ih =>
    unfold scan at hscan
    split at hscan
    · cases hscan
    · split at hscan
      · next hyoung =>
        have hi : (s.cache i).valid = false := hyoung.resolve_right (by simp)
        rw [h.blank hi] at hscan
        exact ih hi hscan
      · exact ih hv hscan

theorem scan_unused {j : Slot} (hj : j ∈ slots)
    (hunused : (s.cache j).valid = false) (hscan : scan s block slots victim oldest = .miss out) :
    ∃ w, out = some w ∧ (s.cache w).valid = false := by
  induction slots generalizing victim oldest with
  | nil => cases hj
  | cons i rest ih =>
    unfold scan at hscan
    split at hscan
    · cases hscan
    · by_cases hi : (s.cache i).valid = false
      · rw [if_pos (Or.inl hi), h.blank hi] at hscan
        exact scan_keeps_unused h hi hscan
      · have hmem : j ∈ rest := (mem_cons.mp hj).resolve_left (by
          rintro rfl
          exact hi hunused)
        split at hscan <;> exact ih hmem hscan

/-- Entry `i` becomes `e`: what has to be known of `e` for the contents to become
`f`. -/
theorem Consistent.replace {e : Entry} {f : Nat → Block}
    (hcache : t.cache = update s.cache i e) (hdisk : t.disk = s.disk)
    (hblank : e.valid = false → e.age = 0)
    (hfree : e.valid = true → ∀ j, j ≠ i → s.holds j e.block ≠ true)
    (hclean : e.valid = true → e.dirty = false → e.data = s.disk e.block)
    (hself : e.valid = true → e.data = f e.block)
    (hother : ∀ b, ¬(e.valid = true ∧ e.block = b) → f b = contents s b)
    (hdrop : ∀ b, s.holds i b = true → ¬(e.valid = true ∧ e.block = b) →
      (s.cache i).data = s.disk b) : Consistent t ∧ contents t = f := by
  have hi : t.cache i = e := by rw [hcache, update_self]
  have hj : ∀ {j}, j ≠ i → t.cache j = s.cache j := fun hne => by
    rw [hcache, update_of_ne hne]
  have hti : ∀ b, t.holds i b = true ↔ e.valid = true ∧ e.block = b := by
    intro b
    rw [State.holds_iff, hi]
  have htj : ∀ {j} b, j ≠ i → t.holds j b = s.holds j b := fun b hne =>
    State.holds_congr b (by rw [hj hne]) (by rw [hj hne])
  have hapart : ∀ {j b}, j ≠ i → s.holds j b = true → ¬(e.valid = true ∧ e.block = b) := by
    rintro j b hne hjb ⟨hv, rfl⟩
    exact hfree hv j hne hjb
  refine ⟨⟨?_, ?_, ?_⟩, contents_ext ?_ ?_⟩
  · intro j k b hjb hkb
    by_cases hji : j = i
    · by_cases hki : k = i
      · rw [hji, hki]
      · rw [htj b hki] at hkb
        rw [hji] at hjb
        exact absurd ((hti b).mp hjb) (hapart hki hkb)
    · rw [htj b hji] at hjb
      by_cases hki : k = i
      · rw [hki] at hkb
        exact absurd ((hti b).mp hkb) (hapart hji hjb)
      · rw [htj b hki] at hkb
        exact h.once hjb hkb
  · intro j b hjb hjd
    rw [hdisk]
    by_cases hji : j = i
    · subst hji
      obtain ⟨hv, rfl⟩ := (hti b).mp hjb
      rw [hi] at hjd ⊢
      exact hclean hv hjd
    · rw [htj b hji] at hjb
      rw [hj hji] at hjd ⊢
      exact h.clean hjb hjd
  · intro j hv
    by_cases hji : j = i
    · rw [hji, hi] at hv ⊢
      exact hblank hv
    · rw [hj hji] at hv ⊢
      exact h.blank hv
  · intro j b hjb
    by_cases hji : j = i
    · subst hji
      obtain ⟨hv, rfl⟩ := (hti b).mp hjb
      rw [hi, hself hv]
    · rw [htj b hji] at hjb
      rw [hj hji, hother b (hapart hji hjb), h.contents_held hjb]
  · intro b hb
    have hne : ¬(e.valid = true ∧ e.block = b) := fun hc => hb i ((hti b).mpr hc)
    rw [hdisk, hother b hne]
    by_cases hold : s.holds i b = true
    · rw [h.contents_held hold, hdrop b hold hne]
    · refine (contents_absent fun j => ?_).symm
      by_cases hji : j = i
      · rwa [hji]
      · rw [← htj b hji]
        exact hb j

/-- What a call does: the contents stay, and an entry it returns is for the block
and holds its contents. -/
structure Served (s t : State) (block : Nat) (out : Option Slot) : Prop where
  consistent : Consistent t
  contents : contents t = contents s
  yields : ∀ i, out = some i → (t.cache i).data = Cache.contents s block

theorem touch_served (hi : s.holds i block = true) (write : Bool) :
    Served s (s.touch i write) block (some i) := by
  obtain ⟨hv, rfl⟩ := State.holds_iff.mp hi
  have hcontents := h.contents_held hi
  obtain ⟨hc, hf⟩ := h.replace (t := s.touch i write) (f := contents s) rfl rfl
    (fun hn => absurd (hv.symm.trans hn) (by decide))
    (fun _ j hne hj => hne (h.once hj hi))
    (fun _ hd => h.clean hi (by simpa using (Bool.or_eq_false_iff.mp hd).1))
    (fun _ => hcontents.symm) (fun _ _ => rfl)
    (fun b hb hne => absurd ⟨hv, (State.holds_iff.mp hb).2⟩ hne)
  refine ⟨hc, hf, ?_⟩
  rintro j ⟨⟩
  rw [hcontents, State.touch]
  simp

theorem fill_served (hdata : (s.cache i).valid = false ∨ data = (s.cache i).data)
    (block : Nat) : Served s (s.fill i data) block none := by
  have hsame : (s.cache i).valid = true → data = (s.cache i).data := fun hv =>
    hdata.resolve_left (by rw [hv]; decide)
  have hheld : (s.cache i).valid = true → s.holds i (s.cache i).block = true := fun hv =>
    State.holds_iff.mpr ⟨hv, rfl⟩
  obtain ⟨hc, hf⟩ := h.replace (t := s.fill i data) (f := contents s) rfl rfl h.blank
    (fun hv j hne hj => hne (h.once hj (hheld hv)))
    (fun hv hd => (hsame hv).trans (h.clean (hheld hv) hd))
    (fun hv => (hsame hv).trans (h.contents_held (hheld hv)).symm) (fun _ _ => rfl)
    (fun b hb hne => absurd (State.holds_iff.mp hb) hne)
  exact ⟨hc, hf, by simp⟩

theorem relabel_served (hclean : (s.cache i).valid = true → (s.cache i).dirty = false)
    (habsent : ∀ j, s.holds j block ≠ true) (write : Bool) :
    Served s ((s.fill i (s.disk block)).relabel i block write) block (some i) := by
  have hcontents := contents_absent habsent
  have hcache : ((s.fill i (s.disk block)).relabel i block write).cache =
      update s.cache i ⟨block, s.cacheAge + 1, true, write, s.disk block⟩ := by
    simp [State.relabel, State.fill, State.setEntry]
  obtain ⟨hc, hf⟩ := h.replace (f := contents s) hcache rfl (by simp)
    (fun _ j _ => habsent j) (fun _ _ => rfl) (fun _ => hcontents.symm) (fun _ _ => rfl)
    (fun b hb _ => h.clean hb (hclean (State.holds_iff.mp hb).1))
  refine ⟨hc, hf, ?_⟩
  rintro j ⟨⟩
  rw [hcache, update_self, hcontents]

theorem loadVictim_served (habsent : ∀ j, s.holds j block ≠ true) (write : Bool)
    {io : Transfers} (hread : (s.cache i).valid = false ∨ readIntact io.read) :
    Served s (loadVictim s i block write io).2 block (loadVictim s i block write io).1 := by
  have hflush := cacheFlushEntry_spec h i io.write
  unfold loadVictim
  split
  · next t heq =>
    rw [heq] at hflush
    exact ⟨hflush.consistent, hflush.contents, by simp⟩
  · next t heq =>
    rw [heq] at hflush
    have hgone : ∀ j, t.holds j block ≠ true := fun j => by
      rw [hflush.holds]
      exact habsent j
    have hserved : ∀ {out u}, Served t u block out → Served s u block out := fun hu =>
      ⟨hu.consistent, hu.contents.trans hflush.contents, fun j hj => by
        rw [hu.yields j hj, hflush.contents]⟩
    split
    · next data hfail =>
      refine hserved (fill_served hflush.consistent ?_ block)
      refine hread.imp (fun hv => ?_) (fun hin => diskReadSectorChecked_failed hin hfail)
      rwa [hflush.valid]
    · next data hok =>
      obtain rfl := readRetries_ok hok
      exact hserved (relabel_served hflush.consistent (hflush.clean rfl) hgone write)

theorem cacheGet_served {write : Bool} {io : Transfers} (hok : Allowed s (.get block write io)) :
    Served s (cacheGet s block write io).2 block (cacheGet s block write io).1 := by
  unfold cacheGet
  split
  · exact ⟨h, rfl, by simp⟩
  · split
    · next i hscan => exact touch_served h (scan_hit hscan) write
    · exact ⟨h, rfl, by simp⟩
    · next i hscan =>
      have habsent : ∀ j, s.holds j block ≠ true := fun j =>
        scan_miss hscan j (mem_finRange j)
      refine loadVictim_served h habsent write ?_
      rcases hok with ⟨j, hj⟩ | ⟨j, hj⟩ | hin
      · exact absurd hj (habsent j)
      · obtain ⟨w, hw, hunused⟩ := scan_unused h (mem_finRange j) hj hscan
        cases hw
        exact Or.inl hunused
      · exact Or.inr hin

theorem syncEntries_spec {writes : Slot → Nat → WriteAttempt} (slots : List Slot) :
    Consistent (syncEntries writes s slots).2 ∧
      contents (syncEntries writes s slots).2 = contents s := by
  induction slots generalizing s with
  | nil => exact ⟨h, rfl⟩
  | cons i rest ih =>
    have hflush := cacheFlushEntry_spec h i (writes i)
    unfold syncEntries
    split
    · next t heq =>
      rw [heq] at hflush
      exact ⟨hflush.consistent, hflush.contents⟩
    · next t heq =>
      rw [heq] at hflush
      obtain ⟨hc, hsame⟩ := ih hflush.consistent
      exact ⟨hc, hsame.trans hflush.contents⟩

theorem modify_spec (hok : Allowed s (.modify i block data)) :
    Consistent (s.fill i data) ∧
      contents (s.fill i data) = update (contents s) block data := by
  obtain ⟨hi, hdirty⟩ := hok
  obtain ⟨hv, rfl⟩ := State.holds_iff.mp hi
  refine h.replace rfl rfl h.blank (fun _ j hne hj => hne (h.once hj hi)) (fun _ hd => ?_)
    (fun _ => ?_) (fun b hb => ?_) (fun b hb hne => absurd (State.holds_iff.mp hb) hne)
  · exact absurd (hdirty.symm.trans hd) (by decide)
  · exact (update_self (s.cache i).block data (contents s)).symm
  · refine update_of_ne ?_ _ _
    rintro rfl
    exact hb ⟨hv, rfl⟩

/-! ## Runs -/

theorem Action.step {a : Action} (hok : Allowed s a) :
    Consistent (a.apply s) ∧ contents (a.apply s) = a.effect (contents s) := by
  cases a with
  | get block write io => exact ⟨(cacheGet_served h hok).consistent, (cacheGet_served h hok).contents⟩
  | modify slot block data => exact modify_spec h hok
  | sync writes => exact syncEntries_spec h _

end

theorem boot_consistent (disk : Nat → Block) (totalBlocks : Nat) :
    Consistent (boot disk totalBlocks) := by
  have hempty : ∀ {i b}, (boot disk totalBlocks).holds i b ≠ true := by simp [boot, State.holds]
  exact ⟨fun hi => absurd hi hempty, fun hi => absurd hi hempty, fun _ => rfl⟩

/-- Along a run of allowed actions no block has two entries, every call leaves the
contents as they are, a modification changes those of its own block, and the data
`cache_get` returns are the contents. -/
theorem cache_transparent {disk : Nat → Block} {totalBlocks : Nat} {run : List Action}
    (hrun : Throughout Allowed Action.apply (boot disk totalBlocks) run) :
    ∀ s, s = run.foldl Action.apply (boot disk totalBlocks) →
      (∀ i j b, s.holds i b = true → s.holds j b = true → i = j) ∧
      ∀ a, Allowed s a →
        contents (a.apply s) = a.effect (contents s) ∧
        ∀ block write io i t, a = .get block write io →
          cacheGet s block write io = (some i, t) → (t.cache i).data = contents s block := by
  rintro s rfl
  have hs := hrun.invariant Consistent (fun s a hs ha => (Action.step hs ha).1)
    (boot_consistent disk totalBlocks)
  refine ⟨fun i j b => hs.once, fun a ha => ⟨(Action.step hs ha).2, ?_⟩⟩
  rintro block write io i t rfl hget
  have hserved := cacheGet_served hs ha
  rw [hget] at hserved
  exact hserved.yields i rfl

/-- A disk whose block `b` is filled with the byte `b`. -/
def sampleDisk (b : Nat) : Block := fun _ => UInt8.ofNat b

def goodTransfers : Transfers := ⟨fun _ => .ok, fun _ => .ok⟩

/-- Block 3 is read for writing, changed in the entry it got, and written back. -/
def sampleRun : List Action :=
  [.get 3 true goodTransfers, .modify 15 3 zero, .sync fun _ _ => .ok]

theorem sampleRun_allowed : Throughout Allowed Action.apply (boot sampleDisk 32) sampleRun :=
  ⟨Or.inr (Or.inl ⟨0, rfl⟩), ⟨by decide, by decide⟩, trivial, trivial⟩

theorem cache_transparent_sample :
    contents ((sampleRun ++ [Action.get 4 false goodTransfers]).foldl Action.apply
      (boot sampleDisk 32)) = contents (sampleRun.foldl Action.apply (boot sampleDisk 32)) := by
  have h := (cache_transparent sampleRun_allowed _ rfl).2 (.get 4 false goodTransfers)
    (Or.inr (Or.inl ⟨0, by decide⟩))
  rw [foldl_append]
  exact h.1

/-- All sixteen entries in use, block 0 the least recently used. -/
def filled : State :=
  ((List.range 16).map fun b => Action.get b false goodTransfers).foldl Action.apply
    (boot sampleDisk 32)

/-- Every attempt to read fails after the first sector. -/
def brokenRead : Transfers := ⟨fun _ => .failed 1 (sampleDisk 16), fun _ => .ok⟩

/-- A failing `cache_get` of block 16 changes the contents of block 0: the first
sector that was transferred stands in the victim's buffer under its old label. -/
theorem failed_read_changes_other_block :
    contents filled 0 0 = 0 ∧ (cacheGet filled 16 false brokenRead).1 = none ∧
      contents (Action.apply filled (.get 16 false brokenRead)) 0 0 = 16 := by
  decide +kernel

end OrangeOs.Fs.Cache
