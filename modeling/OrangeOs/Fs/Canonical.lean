import OrangeOs.Fs.Directory
import OrangeOs.Lib.Separated

/-! # Canonical paths of requests

`canonicalize` keeps the components of the working directory and of the path on a stack of 32
and joins them. It stops reading a string at a component that `next_component` refuses.
-/

namespace OrangeOs.Fs

open List

def maxParts : Nat := 32

/-- The loop over one string; `none` stands for the return of 0. -/
def partsFrom (parts : List Str) (cursor : Str) : Option (List Str) :=
  match _h : nextComponent cursor with
  | .tooLong | .finished => some parts
  | .next name rest =>
    if name = dot then partsFrom parts rest
    else if name = dotdot then partsFrom parts.dropLast rest
    else if maxParts ≤ parts.length then none
    else partsFrom (parts ++ [name]) rest
termination_by cursor.length
decreasing_by all_goals exact nextComponent_lt _h

def joinParts (out : Str) : List Str → Option Str
  | [] => some out
  | part :: rest =>
    if fsPathMax ≤ out.length + part.length + 1 then none
    else joinParts (if rest = [] then out ++ part else out ++ part ++ [slash]) rest

def canonicalize (path cwd : Str) : Option Str :=
  (if path.head? = some slash then some [] else partsFrom [] cwd).bind fun parts =>
    (partsFrom parts path).bind fun parts =>
      if parts = [] then some [slash] else joinParts [slash] parts

/-! ## What it is for -/

/-- The maximal runs of bytes other than slashes. -/
def components (s : Str) : List Str := (s.splitOn slash).filter (· ≠ [])

def keep (parts : List Str) (name : Str) : List Str :=
  if name = dot then parts else if name = dotdot then parts.dropLast else parts ++ [name]

def resolve (parts names : List Str) : List Str := names.foldl keep parts

/-- At some point more than 32 components are kept. -/
def TooMany (parts names : List Str) : Prop :=
  ∃ k ≤ names.length, maxParts < (resolve parts (names.take k)).length

def pathText (parts : List Str) : Str := slash :: [slash].intercalate parts

def named (path cwd : Str) : List Str :=
  (if path.head? = some slash then [] else components cwd) ++ components path

/-- The components up to the first one that is too long. -/
def shortOnes (names : List Str) : List Str := names.takeWhile (·.length < 60)

def readNames (path cwd : Str) : List Str :=
  (if path.head? = some slash then [] else shortOnes (components cwd)) ++ shortOnes (components path)

structure CanonicalExact (path cwd : Str) : Prop where
  output : ∀ out, canonicalize path cwd = some out →
    out = pathText (resolve [] (named path cwd)) ∧ out.length < fsPathMax ∧
      ∀ cwd', canonicalize out cwd' = some out
  refused : ((∃ name ∈ named path cwd, 59 < name.length) ∨ TooMany [] (named path cwd) ∨
    fsPathMax ≤ (pathText (resolve [] (named path cwd))).length) → canonicalize path cwd = none

/-! ## Components -/

theorem components_slash (s : Str) : components (slash :: s) = components s :=
  Separated.pieces_cons s

theorem nextComponent_cases (s : Str) : (nextComponent s = .finished ∧ components s = []) ∨
    (nextComponent s = .tooLong ∧ ∃ name rest, components s = name :: rest ∧ 60 ≤ name.length) ∨
    ∃ name rest, nextComponent s = .next name rest ∧ components s = name :: components rest ∧
      name.length < 60 := by
  unfold nextComponent
  cases hp : s.dropWhile (· = slash) with
  | nil => exact Or.inl ⟨if_pos rfl, Separated.pieces_eq_nil hp⟩
  | cons x p =>
    have hsplit : components s = _ := Separated.pieces_first hp
    rw [if_neg (cons_ne_nil x p)]
    by_cases hlen : 60 ≤ ((x :: p).takeWhile (· ≠ slash)).length
    · exact Or.inr (Or.inl ⟨if_pos hlen, _, _, hsplit, hlen⟩)
    · exact Or.inr (Or.inr ⟨_, _, if_neg hlen, hsplit, Nat.not_le.mp hlen⟩)

/-! ## The stack of components -/

/-- The stack after the components, unless it overflows. -/
def process : List Str → List Str → Option (List Str)
  | parts, [] => some parts
  | parts, name :: names =>
    if maxParts < (keep parts name).length then none else process (keep parts name) names

theorem process_append (parts names names' : List Str) :
    process parts (names ++ names') =
      (process parts names).bind fun parts => process parts names' := by
  induction names generalizing parts with
  | nil => rfl
  | cons name names ih =>
    rw [cons_append, process, process]
    split
    · rfl
    · exact ih _

theorem partsFrom_eq (parts : List Str) (s : Str) (hparts : parts.length ≤ maxParts) :
    partsFrom parts s = process parts (shortOnes (components s)) := by
  induction hn : s.length using Nat.strong_induction_on generalizing parts s with
  | _ n ih =>
    subst hn
    rw [partsFrom]
    rcases nextComponent_cases s with ⟨h, hnil⟩ | ⟨h, name, rest, hcons, hlong⟩ |
      ⟨name, rest, h, hcons, hshort⟩
    · rw [hnil]
      split <;> simp_all [shortOnes, process]
    · have hshort : shortOnes (components s) = [] := by
        rw [hcons, shortOnes, takeWhile_cons_of_neg (by simpa using hlong)]
      rw [hshort]
      split <;> simp_all [process]
    · have hrest := ih rest.length (nextComponent_lt h)
      have hnames : shortOnes (components s) = name :: shortOnes (components rest) := by
        rw [hcons, shortOnes, takeWhile_cons_of_pos (by simpa using hshort)]
        rfl
      rw [hnames, process]
      split
      case h_1 heq => cases h.symm.trans heq
      case h_2 heq => cases h.symm.trans heq
      case h_3 name' rest' heq =>
        obtain ⟨rfl, rfl⟩ := Component.next.inj (h.symm.trans heq)
        unfold keep
        split
        · rw [if_neg (by omega), hrest _ _ hparts rfl]
        · split
          · have hless : parts.dropLast.length ≤ maxParts := by
              rw [length_dropLast]
              omega
            rw [if_neg (by omega), hrest _ _ hless rfl]
          · rw [length_append, length_singleton]
            split
            · rw [if_pos (by omega)]
            · rw [if_neg (by omega), hrest _ _ (by simp; omega) rfl]

/-- The stack overflows exactly if too many components are kept at some point. -/
theorem process_eq (parts names : List Str) (hparts : parts.length ≤ maxParts) :
    (process parts names = none ∧ TooMany parts names) ∨
    (process parts names = some (resolve parts names) ∧ ¬TooMany parts names ∧
      (resolve parts names).length ≤ maxParts) := by
  induction names generalizing parts with
  | nil =>
    refine Or.inr ⟨rfl, ?_, hparts⟩
    rintro ⟨k, -, hk⟩
    rw [take_nil] at hk
    exact Nat.not_lt.mpr hparts hk
  | cons name names ih =>
    have hmany : TooMany parts (name :: names) ↔ TooMany (keep parts name) names := by
      constructor
      · rintro ⟨k, hk, hlong⟩
        cases k with
        | zero => exact absurd hlong (Nat.not_lt.mpr hparts)
        | succ k => exact ⟨k, Nat.le_of_succ_le_succ hk, hlong⟩
      · rintro ⟨k, hk, hlong⟩
        exact ⟨k + 1, Nat.succ_le_succ hk, hlong⟩
    rw [process, hmany]
    split
    next hfull => exact Or.inl ⟨rfl, 0, Nat.zero_le _, hfull⟩
    next hfull => exact ih _ (Nat.not_lt.mp hfull)

theorem joinParts_eq (out : Str) (parts : List Str) (hne : parts ≠ []) : joinParts out parts =
    if (out ++ [slash].intercalate parts).length + 1 < fsPathMax then
      some (out ++ [slash].intercalate parts) else none := by
  induction parts generalizing out with
  | nil => exact absurd rfl hne
  | cons part rest ih =>
    rw [joinParts]
    cases rest with
    | nil =>
      simp only [if_true, joinParts, intercalate_singleton, length_append]
      split <;> split <;> first | rfl | omega
    | cons next rest =>
      rw [if_neg (cons_ne_nil next rest), ih _ (cons_ne_nil next rest),
        intercalate_cons_cons]
      simp only [append_assoc, length_append]
      split
      next hfull => rw [if_neg (by omega)]
      · rfl

variable {parts names : List Str} {s path cwd name : Str}

theorem process_length {parts' : List Str} (hparts : parts.length ≤ maxParts)
    (h : process parts names = some parts') : parts'.length ≤ maxParts := by
  rcases process_eq parts names hparts with ⟨hnone, -⟩ | ⟨hsome, -, hlen⟩
  · cases hnone.symm.trans h
  · cases hsome.symm.trans h
    exact hlen

theorem canonicalize_eq (path cwd : Str) : canonicalize path cwd =
    (process [] (readNames path cwd)).bind fun parts =>
      if (pathText parts).length + 1 < fsPathMax then some (pathText parts) else none := by
  have hnil : ([] : List Str).length ≤ maxParts := Nat.zero_le _
  have hparts : canonicalize path cwd = (process [] (readNames path cwd)).bind fun parts =>
      if parts = [] then some [slash] else joinParts [slash] parts := by
    unfold canonicalize readNames
    split
    · rw [Option.bind_some, partsFrom_eq _ _ hnil, nil_append]
    · rw [partsFrom_eq _ _ hnil, process_append, Option.bind_assoc]
      refine Option.bind_congr fun parts hsome => ?_
      rw [partsFrom_eq _ _ (process_length hnil hsome)]
  rw [hparts]
  refine Option.bind_congr fun parts _ => ?_
  by_cases hne : parts = []
  · subst hne
    rfl
  · rw [if_neg hne, joinParts_eq _ _ hne]
    rfl

/-! ## Canonical again -/

theorem resolve_mem {x : Str} (h : x ∈ resolve parts names) :
    x ∈ parts ∨ (x ∈ names ∧ x ≠ dot ∧ x ≠ dotdot) := by
  induction names generalizing parts with
  | nil => exact Or.inl h
  | cons name names ih =>
    rcases ih h with hkept | ⟨hmem, hdots⟩
    · unfold keep at hkept
      split at hkept
      · exact Or.inl hkept
      · split at hkept
        · exact Or.inl (dropLast_subset _ hkept)
        · rcases mem_append.mp hkept with hold | hnew
          · exact Or.inl hold
          · obtain rfl := mem_singleton.mp hnew
            exact Or.inr ⟨mem_cons_self, ‹_›, ‹_›⟩
    · exact Or.inr ⟨mem_cons_of_mem _ hmem, hdots⟩

theorem resolve_plain (parts : List Str) (h : ∀ x ∈ names, x ≠ dot ∧ x ≠ dotdot) :
    resolve parts names = parts ++ names := by
  induction names generalizing parts with
  | nil => exact (append_nil parts).symm
  | cons name names ih =>
    obtain ⟨hdot, hdotdot⟩ := h name mem_cons_self
    rw [resolve, foldl_cons, keep, if_neg hdot, if_neg hdotdot]
    show resolve _ names = _
    rw [ih _ fun x hx => h x (mem_cons_of_mem name hx), append_assoc]
    rfl

theorem slash_notMem_splitOn {part : Str} (h : part ∈ s.splitOn slash) : slash ∉ part := by
  induction s generalizing part with
  | nil =>
    rw [splitOn_nil, mem_singleton] at h
    exact h ▸ not_mem_nil
  | cons x s ih =>
    rw [splitOn, splitOnP_cons_eq_if_modifyHead] at h
    split at h
    · exact (mem_cons.mp h).elim (fun hnil => hnil ▸ not_mem_nil) ih
    next hx =>
      change part ∈ (s.splitOn slash).modifyHead (cons x) at h
      cases hs : s.splitOn slash with
      | nil =>
        rw [hs] at h
        cases h
      | cons first rest =>
        have hfirst : first ∈ s.splitOn slash := hs ▸ mem_cons_self
        rw [hs] at h
        rcases mem_cons.mp h with rfl | hrest
        · intro hmem
          rcases mem_cons.mp hmem with rfl | hmem
          · exact hx (beq_self_eq_true _)
          · exact ih hfirst hmem
        · exact ih (hs ▸ mem_cons_of_mem first hrest)

theorem mem_components (h : name ∈ components s) : name ≠ [] ∧ slash ∉ name := by
  obtain ⟨hmem, hne⟩ := mem_filter.mp h
  exact ⟨of_decide_eq_true hne, slash_notMem_splitOn hmem⟩

/-- A component that is read. -/
structure ShortName (name : Str) : Prop where
  ne_nil : name ≠ []
  no_slash : slash ∉ name
  short : name.length < 60

theorem mem_shortOnes (h : name ∈ shortOnes (components s)) : ShortName name := by
  obtain ⟨hne, hslash⟩ := mem_components ((takeWhile_sublist _).mem h)
  have hshort := mem_takeWhile_imp h
  exact ⟨hne, hslash, of_decide_eq_true hshort⟩

theorem mem_readNames (h : name ∈ readNames path cwd) : ShortName name := by
  rcases mem_append.mp h with hcwd | hpath
  · split at hcwd
    · cases hcwd
    · exact mem_shortOnes hcwd
  · exact mem_shortOnes hpath

theorem components_pathText (h : ∀ x ∈ parts, x ≠ [] ∧ slash ∉ x) :
    components (pathText parts) = parts := by
  rw [pathText, components_slash]
  cases parts with
  | nil => rfl
  | cons part parts =>
    rw [components, splitOn_intercalate slash (fun x hx => (h x hx).2)
      (cons_ne_nil part parts)]
    exact filter_eq_self.mpr fun x hx => decide_eq_true (h x hx).1

theorem shortOnes_eq_self (h : ∀ x ∈ names, x.length < 60) : shortOnes names = names :=
  takeWhile_eq_self_iff.mpr fun x hx => decide_eq_true (h x hx)

theorem canonicalize_pathText (hlen : parts.length ≤ maxParts)
    (hnames : ∀ x ∈ parts, ShortName x ∧ x ≠ dot ∧ x ≠ dotdot)
    (hfits : (pathText parts).length + 1 < fsPathMax) (cwd : Str) :
    canonicalize (pathText parts) cwd = some (pathText parts) := by
  have hread : readNames (pathText parts) cwd = parts := by
    have habs : (pathText parts).head? = some slash := rfl
    rw [readNames, if_pos habs, nil_append,
      components_pathText fun x hx => ⟨(hnames x hx).1.ne_nil, (hnames x hx).1.no_slash⟩]
    exact shortOnes_eq_self fun x hx => (hnames x hx).1.short
  have hplain : resolve [] parts = parts := resolve_plain [] fun x hx => (hnames x hx).2
  rw [canonicalize_eq, hread]
  rcases process_eq [] parts (Nat.zero_le _) with ⟨-, k, -, hk⟩ | ⟨hsome, -⟩
  · rw [resolve_plain [] fun x hx => (hnames x (mem_of_mem_take hx)).2] at hk
    have hshort : (parts.take k).length ≤ parts.length := (take_sublist k parts).length_le
    exact absurd hk (Nat.not_lt.mpr (Nat.le_trans hshort hlen))
  · rw [hsome, hplain, Option.bind_some, if_pos hfits]

/-- Whenever it succeeds, the output is the text of the components that were read, and stable. -/
theorem canonicalize_some {out : Str} (h : canonicalize path cwd = some out) :
    out = pathText (resolve [] (readNames path cwd)) ∧ out.length < fsPathMax ∧
      ¬TooMany [] (readNames path cwd) ∧ ∀ cwd', canonicalize out cwd' = some out := by
  rw [canonicalize_eq] at h
  rcases process_eq [] (readNames path cwd) (Nat.zero_le _) with ⟨hnone, -⟩ | ⟨hsome, hfew, hlen⟩
  · rw [hnone] at h
    cases h
  · rw [hsome, Option.bind_some] at h
    split at h
    next hfits =>
      obtain rfl := Option.some.inj h
      refine ⟨rfl, Nat.lt_of_succ_lt hfits, hfew, canonicalize_pathText hlen (fun x hx => ?_) hfits⟩
      obtain ⟨hmem, hdots⟩ := (resolve_mem hx).resolve_left not_mem_nil
      exact ⟨mem_readNames hmem, hdots⟩
    · cases h

theorem canonicalize_none_iff (path cwd : Str) : canonicalize path cwd = none ↔
    TooMany [] (readNames path cwd) ∨
      fsPathMax ≤ (pathText (resolve [] (readNames path cwd))).length + 1 := by
  rw [canonicalize_eq]
  rcases process_eq [] (readNames path cwd) (Nat.zero_le _) with ⟨hnone, hmany⟩ | ⟨hsome, hfew, -⟩
  · rw [hnone]
    exact ⟨fun _ => Or.inl hmany, fun _ => rfl⟩
  · rw [hsome, Option.bind_some]
    split
    next hfits =>
      exact ⟨nofun, fun h => h.elim (fun hm => absurd hm hfew) fun hlong =>
        absurd hfits (Nat.not_lt.mpr hlong)⟩
    next hfits => exact ⟨fun _ => Or.inr (Nat.not_lt.mp hfits), fun _ => rfl⟩

theorem readNames_eq (h : ∀ name ∈ named path cwd, name.length ≤ 59) :
    readNames path cwd = named path cwd := by
  have hshort : ∀ name ∈ named path cwd, name.length < 60 := fun name hn =>
    Nat.lt_succ_of_le (h name hn)
  unfold named at *
  unfold readNames
  rw [shortOnes_eq_self fun x hx => hshort x (mem_append_right _ hx)]
  congr 1
  split
  · rfl
  next hrel =>
    rw [if_neg hrel] at hshort
    exact shortOnes_eq_self fun x hx => hshort x (mem_append_left _ hx)

/-- `canonicalize` is exact for paths without overlong components, and for the others that it
refuses for what comes before them. -/
theorem canonicalize_exact_iff (path cwd : Str) : CanonicalExact path cwd ↔
    (∀ name ∈ named path cwd, name.length ≤ 59) ∨ TooMany [] (readNames path cwd) ∨
      fsPathMax ≤ (pathText (resolve [] (readNames path cwd))).length + 1 := by
  constructor
  · intro h
    by_cases hlong : ∃ name ∈ named path cwd, 59 < name.length
    · exact Or.inr ((canonicalize_none_iff path cwd).mp (h.refused (Or.inl hlong)))
    · refine Or.inl fun name hn => ?_
      by_contra hlen
      exact hlong ⟨name, hn, Nat.not_le.mp hlen⟩
  · rintro (hshort | hnone)
    · have hread := readNames_eq hshort
      constructor
      case output =>
        intro out hout
        obtain ⟨heq, hlen, -, hagain⟩ := canonicalize_some hout
        exact ⟨hread ▸ heq, hlen, hagain⟩
      case refused =>
        rintro (⟨name, hn, hlong⟩ | hmany | hlen)
        · exact absurd (hshort name hn) (Nat.not_le.mpr hlong)
        · exact (canonicalize_none_iff path cwd).mpr (Or.inl (hread ▸ hmany))
        · exact (canonicalize_none_iff path cwd).mpr (Or.inr (hread ▸ Nat.le_succ_of_le hlen))
    · have hnone := (canonicalize_none_iff path cwd).mpr hnone
      refine ⟨fun out hout => ?_, fun _ => hnone⟩
      cases hnone.symm.trans hout

/-- A component of 60 bytes is dropped with everything after it. -/
theorem canonicalize_drops_long_component :
    canonicalize (slash :: 97 :: slash :: List.replicate 60 98) [] = some [slash, 97] := by
  decide +kernel

end OrangeOs.Fs
