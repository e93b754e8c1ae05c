import Mathlib.Data.List.Forall2
import OrangeOs.Elf.Image

/-! # The argument block

The strings are stored downwards from the top of the stack page, then a null pointer, the pointers
to the strings and their number. What `_start` reads from the stack pointer on are the arguments.
-/

namespace OrangeOs.Elf

open Bytes List
open Memory (pageSize)

def stringBytes (args : List (List UInt8)) : Nat := (args.map (·.length + 1)).sum

/-- What the block takes of the page: the strings up to a multiple of 8, and the words. -/
def argumentRoom (argv : List (List UInt8)) : Nat :=
  (stringBytes argv + 7) / 8 * 8 + (argv.length + 2) * 8

/-- A copy of the string, with its NUL, at `p` and above `low`. -/
structure Copied (memory : Block) (low p : Nat) (arg : List UInt8) : Prop where
  low : low ≤ p
  top : p + (arg.length + 1) ≤ stackTop
  bytes : slice memory p (arg.length + 1) = arg ++ [0]

/-- The memory as `_start` reads it: `argc`, the pointers, each to its string above the words, and
a null pointer. Outside the page nothing has changed. -/
structure ArgumentBlock (argv : List (List UInt8)) (before memory : Block) (stack : Nat) : Prop where
  inside : stackBottom ≤ stack ∧ stack + 8 * (argv.length + 2) ≤ stackTop
  argc : readLE 8 memory stack = argv.length
  strings : ∀ i arg, argv[i]? = some arg → Copied memory (stack + 8 * (argv.length + 2))
    (readLE 8 memory (stack + 8 * (i + 1))) arg
  null : readLE 8 memory (stack + 8 * (argv.length + 1)) = 0
  outside : ∀ x, x < stackBottom ∨ stackTop ≤ x → memory x = before x

theorem stringBytes_cons (arg : List UInt8) (args : List (List UInt8)) :
    stringBytes (arg :: args) = arg.length + 1 + stringBytes args := sum_cons

theorem stringBytes_reverse (args : List (List UInt8)) :
    stringBytes args.reverse = stringBytes args := by
  rw [stringBytes, map_reverse, sum_reverse, stringBytes]

theorem Copied.congr {memory memory' : Block} {low low' p : Nat} {arg : List UInt8}
    (h : Copied memory low p arg) (hlow : low' ≤ low)
    (hsame : ∀ x, low ≤ x → memory' x = memory x) : Copied memory' low' p arg := by
  refine ⟨hlow.trans h.low, h.top, Eq.trans (slice_congr fun x hx _ => ?_) h.bytes⟩
  exact hsame x (h.low.trans hx)

/-! ## Strings -/

theorem pushStrings_spec (args : List (List UInt8)) (s : Loader) (cursor : Nat) (ps : List Nat)
    (hlow : stackBottom ≤ cursor) (htop : cursor ≤ stackTop) :
    (cursor < stackBottom + stringBytes args ∧ ∃ log, pushStrings args s cursor ps = .error log) ∨
    (stackBottom + stringBytes args ≤ cursor ∧ ∃ s' ptrs,
      pushStrings args s cursor ps = .ok (s', cursor - stringBytes args, ptrs ++ ps) ∧
      List.Forall₂ (Copied s'.memory (cursor - stringBytes args)) ptrs args.reverse ∧
      ∀ x, x < cursor - stringBytes args ∨ cursor ≤ x → s'.memory x = s.memory x) := by
  induction args generalizing s cursor ps with
  | nil => exact Or.inr ⟨hlow, s, [], rfl, .nil, fun _ _ => rfl⟩
  | cons arg args ih =>
      rw [pushStrings, stringBytes_cons]
      generalize hroom : cursor - stackBottom = room
      by_cases hfull : room < arg.length + 1
      · rw [if_pos hfull]
        exact Or.inl ⟨by omega, _, rfl⟩
      rw [if_neg hfull]
      have hlen : (arg ++ [0]).length = arg.length + 1 := by simp
      generalize hnext : cursor - (arg.length + 1) = next
      have hbytes : (push s cursor (arg ++ [0])).memory = splice s.memory next (arg ++ [0]) := by
        rw [← hnext, ← hlen]
        rfl
      have hend : cursor - (arg.length + 1 + stringBytes args) = next - stringBytes args := by omega
      rw [hend]
      rcases ih (push s cursor (arg ++ [0])) next (next :: ps) (by omega) (by omega) with
        ⟨hshort, herr⟩ | ⟨hfits, s', ptrs, hok, hcopies, hsame⟩
      · exact Or.inl ⟨by omega, herr⟩
      · refine Or.inr ⟨by omega, s', ptrs ++ [next], ?_, ?_, fun x hx => ?_⟩
        · rw [append_assoc]
          exact hok
        · rw [reverse_cons]
          refine rel_append hcopies (.cons ⟨Nat.sub_le _ _, by omega, ?_⟩ .nil)
          rw [slice_congr fun x hx _ => hsame x (Or.inr hx), hbytes, ← hlen, slice_splice]
        · rw [hsame x (by omega), hbytes, splice_of_outside _ _ (by omega)]

/-! ## Words -/

theorem wordBytes_getElem (w : Nat) {j : Nat} (h : j < (wordBytes w).length) :
    (wordBytes w)[j] = writeLE 8 zero 0 w j := by
  simp [wordBytes, slice]

theorem readLE_push (s : Loader) (cursor : Nat) {w : Nat} (hw : w < 2 ^ 64) :
    readLE 8 (push s cursor (wordBytes w)).memory (cursor - 8) = w := by
  have hlen : (wordBytes w).length = 8 := slice_length _ _ _
  have hsame : readLE 8 (push s cursor (wordBytes w)).memory (cursor - 8) =
      readLE 8 (writeLE 8 zero (cursor - 8) w) (cursor - 8) := by
    refine readLE_congr fun x hx hx' => ?_
    obtain ⟨j, rfl⟩ := Nat.exists_eq_add_of_le hx
    show splice s.memory (cursor - (wordBytes w).length) (wordBytes w) _ = _
    rw [hlen, splice_inside _ _ _ (by omega), wordBytes_getElem]
    simp [writeLE, show j < 8 by omega]
  rw [hsame, readLE_writeLE_of_lt _ _ hw]

theorem pushWords_spec (ws : List Nat) (s : Loader) (cursor : Nat) (hroom : 8 * ws.length ≤ cursor)
    (hws : ∀ w ∈ ws, w < 2 ^ 64) : (pushWords ws s cursor).2 = cursor - 8 * ws.length ∧
    (∀ i w, ws[i]? = some w → readLE 8 (pushWords ws s cursor).1.memory (cursor - 8 * (i + 1)) = w) ∧
    ∀ x, x < cursor - 8 * ws.length ∨ cursor ≤ x →
      (pushWords ws s cursor).1.memory x = s.memory x := by
  induction ws generalizing s cursor with
  | nil => exact ⟨rfl, nofun, fun _ _ => rfl⟩
  | cons w ws ih =>
      rw [length_cons] at hroom ⊢
      obtain ⟨hw, hrest⟩ := forall_mem_cons.mp hws
      obtain ⟨hend, hwords, hsame⟩ := ih (push s cursor (wordBytes w)) (cursor - 8) (by omega) hrest
      have hlen : (wordBytes w).length = 8 := slice_length _ _ _
      rw [pushWords]
      refine ⟨by rw [hend]; omega, fun i v hv => ?_, fun x hx => ?_⟩
      · cases i with
        | zero =>
            obtain rfl := Option.some.inj hv
            rw [readLE_congr fun x hx _ => hsame x (Or.inr hx)]
            exact readLE_push s cursor hw
        | succ i =>
            rw [show cursor - 8 * (i + 1 + 1) = cursor - 8 - 8 * (i + 1) by omega]
            exact hwords i v hv
      · rw [hsame x (by omega)]
        exact splice_of_outside _ _ (by rw [hlen]; omega)

/-! ## The block -/

theorem pushArguments_spec {argv : List (List UInt8)} (hargc : argv.length ≤ elfMaxArgs)
    (s : Loader) : (pageSize < argumentRoom argv ∧ ∃ log, pushArguments argv s = .error log) ∨
    (argumentRoom argv ≤ pageSize ∧ ∃ s' stack, pushArguments argv s = .ok (s', stack) ∧
      ArgumentBlock argv s.memory s'.memory stack) := by
  have htop : stackTop = 8 * 0xFFFFFFFFE00 := rfl
  have hbottom : stackBottom + pageSize = stackTop := rfl
  unfold pushArguments
  rw [if_neg (Nat.not_lt.mpr hargc)]
  rcases pushStrings_spec argv.reverse s stackTop [] (by omega) (Nat.le_refl _) with
    ⟨hshort, log, herr⟩ | ⟨hfits, s', ptrs, hok, hcopies, hsame⟩
  · rw [stringBytes_reverse] at hshort
    rw [herr]
    exact Or.inl ⟨by rw [argumentRoom]; omega, log, rfl⟩
  rw [stringBytes_reverse] at hfits hok hcopies hsame
  rw [append_nil] at hok
  rw [reverse_reverse] at hcopies
  have hcount := hcopies.length_eq
  rw [hok]
  generalize htext : stackTop - stringBytes argv = text at *
  -- the strings end at `text`, the words at `words` below them
  generalize hwords : text / 8 * 8 = words
  dsimp only [Except.bind]
  rw [hwords]
  split
  next hfull =>
      exact Or.inl ⟨by rw [argumentRoom]; omega, s'.log, rfl⟩
  next hroom =>
      have hlen : (0 :: ptrs.reverse ++ [argv.length]).length = argv.length + 2 := by simp [hcount]
      have hsmall : ∀ w ∈ 0 :: ptrs.reverse ++ [argv.length], w < 2 ^ 64 := by
        intro w hw
        simp only [cons_append, mem_cons, mem_append, mem_reverse,
          not_mem_nil, or_false] at hw
        rcases hw with rfl | hp | rfl
        · decide
        · obtain ⟨i, hi, rfl⟩ := getElem_of_mem hp
          have hin : ptrs[i] + _ ≤ stackTop := (hcopies.get hi (hcount ▸ hi)).top
          omega
        · have : elfMaxArgs = 16 := rfl
          omega
      obtain ⟨hend, hread, hrest⟩ := pushWords_spec _ s' words (by rw [hlen]; omega) hsmall
      rw [hlen] at hend hrest
      generalize pushWords (0 :: ptrs.reverse ++ [argv.length]) s' words = out at *
      obtain ⟨t, stack⟩ := out
      have hword : ∀ i w, i ≤ argv.length + 1 →
          (0 :: ptrs.reverse ++ [argv.length])[argv.length + 1 - i]? = some w →
          readLE 8 t.memory (stack + 8 * i) = w := by
        intro i w hi hw
        rw [← hread _ w hw]
        congr 1
        omega
      refine Or.inr ⟨by rw [argumentRoom]; omega, t, stack, rfl, by omega, ?_, fun i arg harg => ?_,
        hword _ 0 (Nat.le_refl _) (by simp), fun x hx => ?_⟩
      · exact hword 0 argv.length (Nat.zero_le _) (by simp [hcount])
      · obtain ⟨hi, rfl⟩ := List.getElem?_eq_some_iff.mp harg
        have hptr := hword (i + 1) ptrs[i] (by omega) (by
          rw [show argv.length + 1 - (i + 1) = (argv.length - 1 - i) + 1 by omega]
          simp [getElem?_append, hcount, show argv.length - 1 - i < argv.length by omega,
            show argv.length - 1 - (argv.length - 1 - i) = i by omega])
        rw [hptr]
        exact (hcopies.get (hcount ▸ hi) hi).congr (by omega) fun x hx => hrest x (by omega)
      · rw [hrest x (by omega), hsame x (by omega)]

/-- The state in which the arguments are stored, unless the load fails before. -/
def ready (f : File) (ans : Answers) : Option Loader :=
  (acceptedSize f).bind fun size =>
    if ans.block = false ∨ blockSize size = 0 ∨ ans.read = false ∨ isElf f.buf = false ∨
        ans.directory = false then none
    else
      match (loadHeaders f ans (phnum f.buf) (opened size)).bind (mapNew f ans · stackPage) with
      | .error _ => none
      | .ok s => some s

theorem elfLoadImageArgs_ready (f : File) (ans : Answers) (argv : List (List UInt8)) :
    (elfLoadImageArgs f ans argv).1 = (ready f ans).bind fun s =>
      match pushArguments argv s with
      | .error _ => none
      | .ok (s, stack) => some ⟨entry f.buf, stack, s.vmas, s.mapped, s.memory⟩ := by
  unfold elfLoadImageArgs ready
  cases acceptedSize f with
  | none => rfl
  | some size =>
      rw [Option.bind_some]
      dsimp only
      by_cases hblock : ans.block = false ∨ blockSize size = 0
      · rw [if_pos hblock, if_pos (hblock.imp id Or.inl)]
        rfl
      by_cases hread : ans.read = false
      · rw [if_neg hblock, if_pos hread, if_pos (Or.inr (Or.inr (Or.inl hread)))]
        rfl
      by_cases helf : isElf f.buf = false
      · rw [if_neg hblock, if_neg hread, if_pos helf,
          if_pos (Or.inr (Or.inr (Or.inr (Or.inl helf))))]
        rfl
      by_cases hdir : ans.directory = false
      · rw [if_neg hblock, if_neg hread, if_neg helf, if_pos hdir,
          if_pos (Or.inr (Or.inr (Or.inr (Or.inr hdir))))]
        rfl
      rw [if_neg hblock, if_neg hread, if_neg helf, if_neg hdir, if_neg]
      · cases loadHeaders f ans (phnum f.buf) (opened size) with
        | error log => rfl
        | ok s =>
            simp only [loadStack, Except.bind]
            cases mapNew f ans s stackPage with
            | error log => rfl
            | ok s =>
                dsimp only [Option.bind_some]
                cases pushArguments argv s <;> rfl
      · rintro (h | h | h | h | h)
        · exact hblock (Or.inl h)
        · exact hblock (Or.inr h)
        · exact hread h
        · exact helf h
        · exact hdir h

/-- A load that gets to the arguments fails exactly if they do not fit on the page. Otherwise the
new image finds them there. -/
theorem argument_block_round_trips (f : File) (ans : Answers) (argv : List (List UInt8))
    (hargc : argv.length ≤ elfMaxArgs) :
    ((elfLoadImageArgs f ans argv).1 = none ↔
      ready f ans = none ∨ pageSize < argumentRoom argv) ∧
    ∀ image, (elfLoadImageArgs f ans argv).1 = some image →
      ∃ s, ready f ans = some s ∧ ArgumentBlock argv s.memory image.memory image.stack := by
  rw [elfLoadImageArgs_ready]
  cases ready f ans with
  | none => exact ⟨⟨fun _ => Or.inl rfl, fun _ => rfl⟩, nofun⟩
  | some s =>
      rw [Option.bind_some]
      rcases pushArguments_spec hargc s with ⟨hlong, log, herr⟩ | ⟨hfits, s', stack, hok, hblock⟩
      · rw [herr]
        exact ⟨⟨fun _ => Or.inr hlong, fun _ => rfl⟩, nofun⟩
      · rw [hok]
        refine ⟨⟨nofun, fun h => ?_⟩, fun image himage => ⟨s, rfl, ?_⟩⟩
        · exact absurd (h.resolve_left nofun) (Nat.not_lt.mpr hfits)
        · obtain rfl := Option.some.inj himage
          exact hblock

def bareFile : File where
  size := some 64
  buf := fun k => [(0, 0x7F), (1, 0x45), (2, 0x4C), (3, 0x46)].lookup k |>.getD 0
  kernelPml4 := fun _ => false
  kernelHalf := fun _ => false

theorem argument_block_round_trips_bare :
    ∃ image before, (elfLoadImageArgs bareFile .all [[97], [98, 99]]).1 = some image ∧
      ArgumentBlock [[97], [98, 99]] before image.memory image.stack := by
  have hround := argument_block_round_trips bareFile .all [[97], [98, 99]] (by decide)
  cases himage : (elfLoadImageArgs bareFile .all [[97], [98, 99]]).1 with
  | none =>
      have hready : (ready bareFile .all).isSome := by decide +kernel
      rcases hround.1.mp himage with hnone | hlong
      · rw [hnone] at hready
        cases hready
      · exact absurd hlong (by decide)
  | some image =>
      obtain ⟨s, -, hblock⟩ := hround.2 image himage
      exact ⟨image, s.memory, rfl, hblock⟩

end OrangeOs.Elf
