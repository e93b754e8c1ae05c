import OrangeOs.File.Objects
import OrangeOs.Lib.Machine
import Mathlib.Data.List.ProdSigma

/-! # Balance of the references

Every reference to a file object has one holder: a descriptor, the call of a thread, or the code
of the system call that runs. `Balanced held s` counts them, with the references that the running
code holds in `held`; each function takes references from one list and leaves another.
-/

namespace OrangeOs.File

open Function List State

open Pipe (End)
open Ipc (Tid)

/-! ## Objects -/

theorem PipeObject.refs_setRefs (p : PipeObject) (e e' : End) (n : Nat) :
    (p.setRefs e n).refs e' = if e' = e then n else p.refs e' := by
  cases e <;> cases e' <;> rfl

/-- A pipe is freed when nobody refers to its ends. -/
def PipeObject.kept (p : PipeObject) : Option PipeObject :=
  if p.readers = 0 ∧ p.writers = 0 then none else some p

variable {e : End} {i : PipeId} {n : Nat}

theorem PipeObject.kept_of_ne {p : PipeObject} (h : p.refs e ≠ 0) : p.kept = some p := by
  refine if_neg fun ⟨hr, hw⟩ => ?_
  cases e with
  | read => exact h hr
  | write => exact h hw

theorem PipeObject.eq_of_kept {p q : PipeObject} (h : p.kept = some q) :
    q = p ∧ ∃ e, p.refs e ≠ 0 := by
  unfold kept at h
  split at h
  · cases h
  next hne =>
    cases h
    refine ⟨rfl, ?_⟩
    by_cases hr : p.readers = 0
    · exact ⟨.write, fun hw => hne ⟨hr, hw⟩⟩
    · exact ⟨.read, hr⟩

/-- The file objects and the pipes agree. -/
structure Objects (s : State) : Prop where
  live : ∀ f o, s.file f = some o → o.refs ≠ 0
  files : ∀ f, s.nextFile ≤ f → s.file f = none
  pipes : ∀ i, s.nextPipe ≤ i → s.pipe i = none
  ends : ∀ i p, s.pipe i = some p → ∀ e, s.EndRefs i e (p.refs e)
  shared : ∀ i p, s.pipe i = some p → ∃ e, p.refs e ≠ 0
  pipe : ∀ f o e i, s.file f = some o → o.kind = .pipe e i → s.pipe i ≠ none
  one : ∀ f g o o' e i, s.file f = some o → s.file g = some o' → o.kind = .pipe e i →
    o'.kind = .pipe e i → f = g

variable {s : State} {f : FileId} {o : FileObject}

theorem Objects.end_refs (h : Objects s) (hf : s.file f = some o) (hk : o.kind = .pipe e i) :
    ∃ p, s.pipe i = some p ∧ p.refs e = o.refs := by
  obtain ⟨p, hp⟩ := Option.ne_none_iff_exists'.mp (h.pipe f o e i hf hk)
  refine ⟨p, hp, ?_⟩
  rcases h.ends i p hp e with ⟨g, hg⟩ | ⟨-, hnone⟩
  · cases h.one f g o _ e i hf hg hk rfl
    cases hf.symm.trans hg
    rfl
  · exact absurd hk (hnone f o hf)

/-- What `file_retain` and `file_release` come to: a new number of references to an object. -/
def State.setRefs (s : State) (f : FileId) (o : FileObject) (n : Nat) : State :=
  { s with
    file := update s.file f (if n = 0 then none else some { o with refs := n })
    pipe := match o.kind with
      | .regular => s.pipe
      | .pipe e i =>
        update s.pipe i ((s.pipe i).bind fun p => (p.setRefs e n).kept) }

theorem Objects.fileRetain_eq (h : Objects s) (hf : s.file f = some o) :
    s.fileRetain f = s.setRefs f o (o.refs + 1) := by
  unfold fileRetain setRefs
  rw [hf]
  dsimp only
  rw [if_neg (Nat.succ_ne_zero _)]
  cases hk : o.kind with
  | regular => rfl
  | pipe e i =>
    obtain ⟨p, hp, hrefs⟩ := h.end_refs hf hk
    have hne : (p.setRefs e (o.refs + 1)).refs e ≠ 0 := by
      rw [PipeObject.refs_setRefs, if_pos rfl]
      exact Nat.succ_ne_zero _
    dsimp only
    rw [hp, Option.map_some, Option.bind_some, PipeObject.kept_of_ne hne, hrefs]

theorem Objects.fileRelease_eq (h : Objects s) (hf : s.file f = some o) :
    s.fileRelease f = s.setRefs f o (o.refs - 1) := by
  have hne := h.live f o hf
  unfold fileRelease setRefs
  rw [hf]
  dsimp only
  rw [if_neg hne]
  cases hk : o.kind with
  | regular => rfl
  | pipe e i =>
    obtain ⟨p, hp, hrefs⟩ := h.end_refs hf hk
    unfold dropEnd
    dsimp only
    rw [hp]
    dsimp only
    rw [hrefs, if_pos hne, Option.bind_some]
    rfl

theorem State.setRefs_file (s : State) (f g : FileId) (o : FileObject) (n : Nat) :
    (s.setRefs f o n).file g =
      if g = f then (if n = 0 then none else some { o with refs := n }) else s.file g :=
  update_apply _ _ _ _

theorem State.setRefs_back (hf : s.file f = some o) {g : FileId} {q : FileObject}
    (hg : (s.setRefs f o n).file g = some q) :
    ∃ q', s.file g = some q' ∧ q.kind = q'.kind ∧ (g ≠ f → q = q') ∧
      (g = f → q.refs = n ∧ n ≠ 0) := by
  rw [setRefs_file] at hg
  by_cases hgf : g = f
  · subst hgf
    rw [if_pos rfl] at hg
    split at hg
    · cases hg
    next hn =>
      cases hg
      exact ⟨o, hf, rfl, fun hne => absurd rfl hne, fun _ => ⟨rfl, hn⟩⟩
  · rw [if_neg hgf] at hg
    exact ⟨q, hg, rfl, fun _ => rfl, fun heq => absurd heq hgf⟩

theorem State.setRefs_endRefs_other (hf : s.file f = some o) (hk : o.kind ≠ .pipe e i) {m : Nat}
    (n : Nat) (h : s.EndRefs i e m) : (s.setRefs f o n).EndRefs i e m := by
  rcases h with ⟨g, hg⟩ | ⟨hm, hnone⟩
  · have hgf : g ≠ f := by
      rintro rfl
      cases hf.symm.trans hg
      exact hk rfl
    exact Or.inl ⟨g, by rw [setRefs_file, if_neg hgf, hg]⟩
  · refine Or.inr ⟨hm, fun g q hg hq => ?_⟩
    obtain ⟨q', hg', hkind, -⟩ := setRefs_back hf hg
    exact hnone g q' hg' (hkind ▸ hq)

theorem Objects.setRefs_endRefs_self (h : Objects s) (hf : s.file f = some o)
    (hk : o.kind = .pipe e i) (n : Nat) : (s.setRefs f o n).EndRefs i e n := by
  by_cases hn : n = 0
  · refine Or.inr ⟨hn, fun g q hg hq => ?_⟩
    obtain ⟨q', hg', hkind, -, hself⟩ := setRefs_back hf hg
    exact (hself (h.one g f q' o e i hg' hf (hkind ▸ hq) hk)).2 hn
  · refine Or.inl ⟨f, ?_⟩
    rw [setRefs_file, if_pos rfl, if_neg hn, ← hk]

theorem Objects.setRefs_pipes (h : Objects s) (hf : s.file f = some o) (n : Nat) {q : PipeObject}
    (hq : (s.setRefs f o n).pipe i = some q) :
    (∃ e p, o.kind = .pipe e i ∧ s.pipe i = some p ∧ q = p.setRefs e n ∧ ∃ e', q.refs e' ≠ 0) ∨
      (∀ e, o.kind ≠ .pipe e i) ∧ s.pipe i = some q := by
  unfold setRefs at hq
  cases hk : o.kind with
  | regular =>
    rw [hk] at hq
    exact Or.inr ⟨nofun, hq⟩
  | pipe e j =>
    rw [hk] at hq
    dsimp only at hq
    by_cases hij : i = j
    · subst hij
      obtain ⟨p, hp, -⟩ := h.end_refs hf hk
      rw [update_self, hp, Option.bind_some] at hq
      obtain ⟨rfl, hsome⟩ := PipeObject.eq_of_kept hq
      exact Or.inl ⟨e, p, rfl, hp, rfl, hsome⟩
    · rw [update_of_ne hij] at hq
      refine Or.inr ⟨fun e' he' => hij ?_, hq⟩
      cases he'
      rfl

theorem Objects.setRefs_pipe_ne (h : Objects s) (hf : s.file f = some o) {g : FileId}
    {q : FileObject} (hg : (s.setRefs f o n).file g = some q) (hk : q.kind = .pipe e i) :
    (s.setRefs f o n).pipe i ≠ none := by
  obtain ⟨q', hg', hkind, hsame, hself⟩ := setRefs_back hf hg
  have hold := h.pipe g q' e i hg' (hkind ▸ hk)
  unfold setRefs
  cases hko : o.kind with
  | regular => exact hold
  | pipe e' j =>
    dsimp only
    by_cases hij : i = j
    · subst hij
      obtain ⟨p, hp, -⟩ := h.end_refs hf hko
      obtain ⟨p', hp', hrefs'⟩ := h.end_refs hg' (hkind ▸ hk)
      cases hp.symm.trans hp'
      have hne : (p.setRefs e' n).refs e ≠ 0 := by
        rw [PipeObject.refs_setRefs]
        split
        next heq =>
          subst heq
          exact (hself (h.one g f q' o e i hg' hf (hkind ▸ hk) hko)).2
        · exact hrefs' ▸ h.live g q' hg'
      rw [update_self, hp, Option.bind_some, PipeObject.kept_of_ne hne]
      exact Option.some_ne_none _
    · rw [update_of_ne hij]
      exact hold

theorem Objects.setRefs (h : Objects s) (hf : s.file f = some o) (n : Nat) :
    Objects (s.setRefs f o n) := by
  constructor
  case live =>
    intro g q hg
    obtain ⟨q', hg', -, hsame, hself⟩ := setRefs_back hf hg
    by_cases hgf : g = f
    · obtain ⟨hn, hne⟩ := hself hgf
      exact hn ▸ hne
    · exact hsame hgf ▸ h.live g q' hg'
  case files =>
    intro g hg
    have hnone := h.files g hg
    have hgf : g ≠ f := by
      rintro rfl
      cases hnone.symm.trans hf
    rw [setRefs_file, if_neg hgf, hnone]
  case pipes =>
    intro i hi
    have hnone := h.pipes i hi
    cases hq : (s.setRefs f o n).pipe i with
    | none => rfl
    | some q =>
      rcases h.setRefs_pipes hf n hq with ⟨e, p, -, hp, -⟩ | ⟨-, hp⟩
      · cases hnone.symm.trans hp
      · cases hnone.symm.trans hp
  case ends =>
    intro i q hq e
    rcases h.setRefs_pipes hf n hq with ⟨e', p, hk, hp, rfl, -⟩ | ⟨hk, hp⟩
    · rw [PipeObject.refs_setRefs]
      split
      next heq => exact heq ▸ h.setRefs_endRefs_self hf hk n
      next hne =>
        refine setRefs_endRefs_other hf (fun hk' => hne ?_) n (h.ends i p hp e)
        cases hk.symm.trans hk'
        rfl
    · exact setRefs_endRefs_other hf (hk e) n (h.ends i q hp e)
  case shared =>
    intro i q hq
    rcases h.setRefs_pipes hf n hq with ⟨-, -, -, -, -, hsome⟩ | ⟨-, hp⟩
    · exact hsome
    · exact h.shared i q hp
  case pipe => exact fun g q e i hg hk => h.setRefs_pipe_ne hf hg hk
  case one =>
    intro g g' q q' e i hg hg' hk hk'
    obtain ⟨p, hp, hkp, -⟩ := setRefs_back hf hg
    obtain ⟨p', hp', hkp', -⟩ := setRefs_back hf hg'
    exact h.one g g' p p' e i hp hp' (hkp ▸ hk) (hkp' ▸ hk')

/-! ## The balance -/

/-- Ids that have not been given out are not in the tables. -/
structure Tables (s : State) : Prop where
  slots : ∀ p fd, s.nextProc ≤ p → s.slot p fd = none
  threads : ∀ t, s.nextTid ≤ t → s.process t = none
  owners : ∀ t p, s.process t = some p → p < s.nextProc
  calls : ∀ t c, s.call t = some c → s.process t ≠ none

/-- The reference count of an object, 0 for one that does not exist. -/
def State.refs (s : State) (f : FileId) : Nat :=
  match s.file f with
  | some o => o.refs
  | none => 0

structure Balanced (held : List FileId) (s : State) : Prop where
  objects : Objects s
  tables : Tables s
  refs : ∀ f, s.refs f = s.slotUses f + s.callUses f + held.count f

theorem State.refs_setRefs (s : State) (f g : FileId) (o : FileObject) (n : Nat) :
    (s.setRefs f o n).refs g = if g = f then n else s.refs g := by
  unfold refs
  rw [setRefs_file]
  by_cases hgf : g = f
  · rw [if_pos hgf, if_pos hgf]
    by_cases hn : n = 0
    · rw [if_pos hn, hn]
    · rw [if_neg hn]
  · rw [if_neg hgf, if_neg hgf]

theorem State.file_of_refs (h : s.refs f ≠ 0) : ∃ o, s.file f = some o ∧ o.refs = s.refs f := by
  unfold refs at h ⊢
  cases hf : s.file f with
  | none =>
    rw [hf] at h
    exact absurd rfl h
  | some o => exact ⟨o, rfl, rfl⟩

variable {held : List FileId}

theorem Balanced.frame (h : Balanced held s) {s' : State} (hobjects : Objects s')
    (htables : Tables s') (hrefs : s'.refs = s.refs) (hslots : s'.slotUses = s.slotUses)
    (hcalls : ∀ f, s'.callUses f = s.callUses f) : Balanced held s' := by
  refine ⟨hobjects, htables, fun f => ?_⟩
  rw [hrefs, hslots, hcalls]
  exact h.refs f

theorem Balanced.setRefs (h : Balanced held s) (hf : s.file f = some o) {held' : List FileId}
    (hn : n + held.count f = o.refs + held'.count f)
    (hother : ∀ g, g ≠ f → held'.count g = held.count g) : Balanced held' (s.setRefs f o n) := by
  have htables : Tables (s.setRefs f o n) := { h.tables with }
  refine ⟨h.objects.setRefs hf n, htables, fun g => ?_⟩
  have hslot : (s.setRefs f o n).slotUses g = s.slotUses g := rfl
  have hcall : (s.setRefs f o n).callUses g = s.callUses g := rfl
  rw [refs_setRefs, hslot, hcall]
  have hg := h.refs g
  by_cases hgf : g = f
  · subst hgf
    have ho : s.refs g = o.refs := by
      unfold State.refs
      rw [hf]
    rw [if_pos rfl]
    omega
  · rw [if_neg hgf, hother g hgf]
    exact hg

theorem Balanced.fileRetain (h : Balanced held s) (hf : s.refs f ≠ 0) :
    Balanced (f :: held) (s.fileRetain f) := by
  obtain ⟨o, ho, -⟩ := file_of_refs hf
  rw [h.objects.fileRetain_eq ho]
  refine h.setRefs ho ?_ fun g hg => count_cons_of_ne (Ne.symm hg)
  rw [count_cons_self]
  omega

theorem Balanced.fileRelease (h : Balanced (f :: held) s) : Balanced held (s.fileRelease f) := by
  have hrefs := h.refs f
  rw [count_cons_self] at hrefs
  obtain ⟨o, ho, hn⟩ := file_of_refs (s := s) (f := f) (by omega)
  rw [h.objects.fileRelease_eq ho]
  refine h.setRefs ho ?_ fun g hg => (count_cons_of_ne (Ne.symm hg)).symm
  rw [count_cons_self]
  omega

variable {t : Tid} {p : ProcId} {fd : Nat}

theorem State.setSlot_self (s : State) (p : ProcId) (fd : Nat) (o : Option FileId) :
    (s.setSlot p fd o).slot p fd = o := by
  dsimp only [setSlot]
  rw [update_self, update_self]

theorem State.setSlot_of_ne (s : State) {p q : ProcId} {fd d : Nat} (o : Option FileId)
    (h : (q, d) ≠ (p, fd)) : (s.setSlot p fd o).slot q d = s.slot q d := by
  dsimp only [setSlot]
  by_cases hq : q = p
  · subst hq
    have hd : d ≠ fd := fun heq => h (by rw [heq])
    rw [update_self, update_of_ne hd]
  · rw [update_of_ne hq]

theorem Balanced.setSlot {o : Option FileId} (h : Balanced (o.toList ++ held) s)
    (hp : p < s.nextProc) (hfd : fd < fdCount) :
    Balanced ((s.slot p fd).toList ++ held) (s.setSlot p fd o) := by
  have hobjects : Objects (s.setSlot p fd o) := { h.objects with }
  refine ⟨hobjects, { h.tables with slots := fun q d hq => ?_ }, fun f => ?_⟩
  · have hqp : (q, d) ≠ (p, fd) := by
      rintro ⟨⟩
      exact absurd hp (Nat.not_lt.mpr hq)
    exact (s.setSlot_of_ne o hqp).trans (h.tables.slots q d hq)
  · have hkeys : s.slots.Nodup := nodup_range.product nodup_range
    have hmem : (p, fd) ∈ s.slots :=
      mem_product.mpr ⟨mem_range.mpr hp, mem_range.mpr hfd⟩
    have hcount : (s.setSlot p fd o).slotUses f + (s.slot p fd).toList.count f =
        s.slotUses f + ((s.setSlot p fd o).slot p fd).toList.count f :=
      pointing_update hkeys hmem _ _ (fun k _ hk => s.setSlot_of_ne o hk) f
    have hrefs := h.refs f
    have hcalls : (s.setSlot p fd o).callUses f = s.callUses f := rfl
    have hsame : (s.setSlot p fd o).refs f = s.refs f := rfl
    rw [setSlot_self] at hcount
    rw [count_append] at hrefs ⊢
    omega

theorem Balanced.setCall {c : Option Call} (h : Balanced ((c.map Call.file).toList ++ held) s)
    (ht : s.process t = some p) :
    Balanced ((s.objectInUse t).toList ++ held) { s with call := update s.call t c } := by
  generalize hs' : ({ s with call := update s.call t c } : State) = s'
  have hprocess : s'.process = s.process := by rw [← hs']
  have hcall : s'.call = update s.call t c := by rw [← hs']
  have hobjects : Objects s' := by rw [← hs']; exact { h.objects with }
  have htables : Tables s' := by
    rw [← hs']
    refine { h.tables with calls := fun u d hd => ?_ }
    by_cases hut : u = t
    · rw [hut, ht]
      exact Option.some_ne_none _
    · exact h.tables.calls u d ((update_of_ne hut _ _).symm.trans hd)
  have htid : t < s.nextTid := by
    by_contra hge
    cases (h.tables.threads t (Nat.not_lt.mp hge)).symm.trans ht
  refine ⟨hobjects, htables, fun f => ?_⟩
  have hself : s'.objectInUse t = c.map Call.file := by
    unfold objectInUse
    rw [hprocess, ht, hcall, update_self]
    rfl
  have hother : ∀ u, u ≠ t → s'.objectInUse u = s.objectInUse u := by
    intro u hu
    unfold objectInUse
    rw [hprocess, hcall, update_of_ne hu]
  have hnext : s'.nextTid = s.nextTid := by rw [← hs']
  have hcount : s'.callUses f + (s.objectInUse t).toList.count f =
      s.callUses f + (s'.objectInUse t).toList.count f := by
    unfold callUses
    rw [hnext]
    exact pointing_update nodup_range (mem_range.mpr htid) _ _
      (fun u _ hu => hother u hu) f
  have hrefs := h.refs f
  have hslots : s'.slotUses f = s.slotUses f := by rw [← hs']; rfl
  have hsame : s'.refs f = s.refs f := by rw [← hs']; rfl
  rw [hself] at hcount
  rw [count_append] at hrefs ⊢
  omega

theorem Balanced.perm {held' : List FileId} (h : Balanced held s) (hp : held.Perm held') :
    Balanced held' s :=
  ⟨h.objects, h.tables, fun f => hp.count_eq f ▸ h.refs f⟩

theorem State.fileRetain_rest (s : State) (f : FileId) :
    ∃ file pipe, s.fileRetain f = { s with file, pipe } := by
  unfold fileRetain
  cases s.file f with
  | none => exact ⟨s.file, s.pipe, rfl⟩
  | some o =>
    dsimp only
    cases o.kind with
    | regular => exact ⟨_, s.pipe, rfl⟩
    | pipe e i => exact ⟨_, _, rfl⟩

theorem State.fileRelease_rest (s : State) (f : FileId) :
    ∃ file pipe, s.fileRelease f = { s with file, pipe } := by
  unfold fileRelease
  cases s.file f with
  | none => exact ⟨s.file, s.pipe, rfl⟩
  | some o =>
    dsimp only
    split
    · exact ⟨s.file, s.pipe, rfl⟩
    next =>
      cases o.kind with
      | regular => exact ⟨_, s.pipe, rfl⟩
      | pipe e i =>
        dsimp only [dropEnd]
        cases s.pipe i with
        | none => exact ⟨_, s.pipe, rfl⟩
        | some p => exact ⟨_, _, rfl⟩

theorem State.fileRetain_tables (s : State) (f : FileId) :
    (s.fileRetain f).slot = s.slot ∧ (s.fileRetain f).process = s.process ∧
      (s.fileRetain f).call = s.call ∧ (s.fileRetain f).nextProc = s.nextProc := by
  obtain ⟨file, pipe, heq⟩ := s.fileRetain_rest f
  rw [heq]
  exact ⟨rfl, rfl, rfl, rfl⟩

theorem State.fileRelease_tables (s : State) (f : FileId) :
    (s.fileRelease f).slot = s.slot ∧ (s.fileRelease f).process = s.process ∧
      (s.fileRelease f).call = s.call ∧ (s.fileRelease f).nextProc = s.nextProc := by
  obtain ⟨file, pipe, heq⟩ := s.fileRelease_rest f
  rw [heq]
  exact ⟨rfl, rfl, rfl, rfl⟩

theorem State.fileRetain_setSlot (s : State) (f : FileId) (p : ProcId) (fd : Nat)
    (o : Option FileId) : (s.setSlot p fd o).fileRetain f = (s.fileRetain f).setSlot p fd o := by
  unfold fileRetain setSlot
  cases s.file f with
  | none => rfl
  | some o =>
    dsimp only
    cases o.kind <;> rfl

theorem State.fileRelease_setSlot (s : State) (f : FileId) (p : ProcId) (fd : Nat)
    (o : Option FileId) : (s.setSlot p fd o).fileRelease f = (s.fileRelease f).setSlot p fd o := by
  unfold fileRelease setSlot
  cases s.file f with
  | none => rfl
  | some o =>
    dsimp only
    split
    · rfl
    next =>
      cases o.kind with
      | regular => rfl
      | pipe e i =>
        dsimp only [dropEnd]
        cases s.pipe i <;> rfl

/-! ## Descriptors -/

theorem Balanced.refs_of_slot (h : Balanced held s) (hp : p < s.nextProc) (hfd : fd < fdCount)
    (hf : s.slot p fd = some f) : s.refs f ≠ 0 := by
  have hmem : (p, fd) ∈ s.slots :=
    mem_product.mpr ⟨mem_range.mpr hp, mem_range.mpr hfd⟩
  have huses : s.slotUses f ≠ 0 := pointing_ne_zero hmem hf
  have hrefs := h.refs f
  omega

theorem Balanced.getFileObject (h : Balanced held s) (hp : p < s.nextProc) (fd : Nat) :
    s.getFileObject p fd = (s, none) ∨
      ∃ f, fd < fdCount ∧ s.slot p fd = some f ∧
        s.getFileObject p fd = (s.fileRetain f, some f) ∧
        Balanced (f :: held) (s.fileRetain f) := by
  unfold State.getFileObject
  split
  · exact Or.inl rfl
  next hfd =>
    cases hf : s.slot p fd with
    | none => exact Or.inl rfl
    | some f =>
      have hlt := Nat.not_le.mp hfd
      exact Or.inr ⟨f, hlt, rfl, rfl, h.fileRetain (h.refs_of_slot hp hlt hf)⟩

theorem Balanced.installFileObject (h : Balanced (f :: held) s) (hp : p < s.nextProc) :
    s.installFileObject p f = (s, none) ∨
      ∃ fd, fd < fdCount ∧ s.slot p fd = none ∧
        s.installFileObject p f = (s.setSlot p fd (some f), some fd) ∧
        Balanced held (s.setSlot p fd (some f)) := by
  unfold State.installFileObject
  cases hfind : (range maxOpenFiles).find?
      fun i => (s.slot p (firstFileFd + i)).isNone with
  | none => exact Or.inl rfl
  | some i =>
    have hi : i < maxOpenFiles := mem_range.mp (mem_of_find?_eq_some hfind)
    have hfree : s.slot p (firstFileFd + i) = none :=
      Option.isNone_iff_eq_none.mp (by simpa using find?_some hfind)
    have hfd : firstFileFd + i < fdCount := Nat.add_lt_add_left hi _
    have hset := h.setSlot (o := some f) hp hfd
    rw [hfree] at hset
    exact Or.inr ⟨firstFileFd + i, hfd, hfree, rfl, hset⟩

/-- The end of OPEN and DUP: the object gets a descriptor, or its reference is dropped. -/
theorem Balanced.installOrRelease (h : Balanced (f :: held) s) (hp : p < s.nextProc) :
    Balanced held (match s.installFileObject p f with
      | (s, some _) => s
      | (s, none) => s.fileRelease f) := by
  rcases h.installFileObject hp with heq | ⟨fd, -, -, heq, hset⟩
  · rw [heq]
    exact h.fileRelease
  · rw [heq]
    exact hset

theorem Balanced.detachFileObject (h : Balanced held s) (hp : p < s.nextProc) (hfd : fd < fdCount) :
    Balanced ((s.slot p fd).toList ++ held) (s.detachFileObject p fd).1 := by
  unfold State.detachFileObject
  rw [if_neg (Nat.not_le.mpr hfd)]
  exact Balanced.setSlot (o := none) h hp hfd

theorem Balanced.takeFiles {fds : List Nat} (h : Balanced held s) (hp : p < s.nextProc)
    (hfds : ∀ fd ∈ fds, fd < fdCount) :
    Balanced ((takeFiles p fds s).2 ++ held) (takeFiles p fds s).1 := by
  induction fds generalizing s held with
  | nil => exact h
  | cons fd fds ih =>
    have hone := Balanced.setSlot (o := none) h hp (hfds fd mem_cons_self)
    have hrest := ih hone hp fun d hd => hfds d (mem_cons_of_mem fd hd)
    refine hrest.perm ?_
    rw [← append_assoc, append_assoc _ _ held, ← append_assoc]
    exact perm_append_comm.append_right held

theorem Balanced.releaseAll {fs : List FileId} (h : Balanced (fs ++ held) s) :
    Balanced held (fs.foldl State.fileRelease s) := by
  induction fs generalizing s with
  | nil => exact h
  | cons f fs ih => exact ih (Balanced.fileRelease h)

theorem Balanced.processCloseFiles (h : Balanced held s) (hp : p < s.nextProc) :
    Balanced held (s.processCloseFiles p) :=
  (h.takeFiles hp fun _ hfd => mem_range.mp hfd).releaseAll

end OrangeOs.File
