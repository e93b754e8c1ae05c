import OrangeOs.Lib.Machine

/-! # Escape sequences on the console

`console_put_user_char` with the fields of `struct tty_console` it works on. The reference is a
terminal that keeps all bytes of a sequence and starts a new one at every ESC. The console keeps
32 of them and throws the rest of a bad sequence away.
-/

namespace OrangeOs.Tty.Ansi

open List

/-- `enum tty_ansi_state`. -/
inductive AnsiState where
  | normal
  | esc
  | csi
  | discard
deriving DecidableEq

/-- `ansi_fg`, `ansi_bg` and `ansi_bold`. -/
structure Colors where
  fg : UInt8
  bg : UInt8
  bold : Bool
deriving DecidableEq

/-- `sequence` is `ansi_sequence` up to `ansi_length`; `shown` are the bytes that were given to
`console_put_char`, with their colours. -/
structure Console where
  state : AnsiState
  sequence : List UInt8
  colors : Colors
  shown : List (UInt8 × UInt8)

def escape : UInt8 := 0x1B

def isFinal (b : UInt8) : Bool := 0x40 ≤ b && b ≤ 0x7E

def isDigit (b : UInt8) : Bool := 0x30 ≤ b && b ≤ 0x39

def isParameter (b : UInt8) : Bool := isDigit b || b == 0x3B

/-- `TTY_ANSI_MAX_SEQUENCE`. -/
def maxSequence : Nat := 32

def consoleAnsiColor (c : Colors) : UInt8 :=
  let foreground := c.fg &&& 0x07
  let foreground := if 8 ≤ c.fg || c.bold then foreground ||| 0x08 else foreground
  ((c.bg &&& 0x07) <<< 4) ||| foreground

def Colors.select (c : Colors) (value : Nat) : Colors :=
  if value = 0 then ⟨0x0F, 0, false⟩
  else if value = 1 then { c with bold := true }
  else if 30 ≤ value ∧ value ≤ 37 then { c with fg := .ofNat (value - 30) }
  else if 90 ≤ value ∧ value ≤ 97 then { c with fg := .ofNat (value - 90 + 8) }
  else if 40 ≤ value ∧ value ≤ 47 then { c with bg := .ofNat (value - 40) }
  else c

/-- The loop of `console_ansi_apply_sgr`. -/
def applySgr (value : Nat) (haveValue : Bool) (c : Colors) : List UInt8 → Colors
  | [] => c
  | b :: bs =>
    if isDigit b then
      if 999 < value then c else applySgr (value * 10 + (b.toNat - 0x30)) true c bs
    else if b ≠ 0x3B then c
    else applySgr 0 false (c.select (if haveValue then value else 0)) bs

def consoleAnsiApplySgr (c : Console) : Console :=
  { c with colors := applySgr 0 false c.colors (c.sequence ++ [0x3B]) }

def consoleAnsiFinish (c : Console) (b : UInt8) : Console :=
  match c.state with
  | .esc =>
    if b = 0x5B then { c with state := .csi, sequence := [] }
    else if b ≠ escape then { c with state := .normal, sequence := [] }
    else c
  | .discard =>
    if b = escape then { c with state := .esc }
    else if isFinal b then { c with state := .normal }
    else c
  | _ =>
    if b = 0x6D then { consoleAnsiApplySgr c with state := .normal, sequence := [] }
    else if isFinal b then { c with state := .normal, sequence := [] }
    else if isParameter b ∧ c.sequence.length < maxSequence then
      { c with sequence := c.sequence ++ [b] }
    else { c with state := .discard }

def consolePutUserChar (c : Console) (b : UInt8) : Console :=
  if c.state = .normal then
    if b = escape then { c with state := .esc, sequence := [] }
    else { c with shown := c.shown ++ [(b, consoleAnsiColor c.colors)] }
  else consoleAnsiFinish c b

def ttyWriteUser (c : Console) (buffer : List UInt8) : Console := buffer.foldl consolePutUserChar c

/-- The console that `console_clear` leaves. -/
def cleared : Console := ⟨.normal, [], ⟨0x0F, 0, false⟩, []⟩

/-! ## The reference -/

/-- In the text, behind ESC, or behind ESC [ with the bytes since. -/
inductive Place where
  | text
  | escaped
  | control (bytes : List UInt8)
deriving DecidableEq

def Place.next (p : Place) (b : UInt8) : Place :=
  if b = escape then .escaped
  else match p with
    | .text => .text
    | .escaped => if b = 0x5B then .control [] else .text
    | .control bytes => if isFinal b then .text else .control (bytes ++ [b])

def place (bytes : List UInt8) : Place := bytes.foldl Place.next .text

/-- The bytes outside escape sequences. -/
def outside (p : Place) : List UInt8 → List UInt8
  | [] => []
  | b :: bytes => (if p = .text ∧ b ≠ escape then [b] else []) ++ outside (p.next b) bytes

/-- Digits and semicolons, as many as the console keeps. -/
def Plain (bytes : List UInt8) : Prop := bytes.length ≤ maxSequence ∧ ∀ b ∈ bytes, isParameter b

instance (bytes : List UInt8) : Decidable (Plain bytes) := inferInstanceAs (Decidable (_ ∧ _))

def number (value : Nat) (digits : List UInt8) : Nat :=
  digits.foldl (fun v b => v * 10 + (b.toNat - 0x30)) value

def parameters (bytes : List UInt8) : List Nat := (bytes.splitOn 0x3B).map (number 0)

/-- The console after `bytes`, and what the next byte does to its colours. -/
structure Follows (bytes : List UInt8) (c : Console) : Prop where
  shown : c.shown.map Prod.fst = outside .text bytes
  length : c.sequence.length ≤ maxSequence
  applied : ∀ bs, place bytes = .control bs → Plain bs → (∀ n ∈ parameters bs, n ≤ 9999) →
    (consolePutUserChar c 0x6D).colors = (parameters bs).foldl Colors.select c.colors
  unchanged : ∀ b, (∀ bs, place bytes = .control bs → b = 0x6D → ¬ Plain bs) →
    (consolePutUserChar c b).colors = c.colors

/-- No ESC cuts off a sequence that is good so far. -/
def Uncut : Place → UInt8 → Prop
  | .control bytes, b => b = escape → ¬ Plain bytes
  | _, _ => True

instance : ∀ p b, Decidable (Uncut p b)
  | .control bytes, b => inferInstanceAs (Decidable (b = escape → ¬ Plain bytes))
  | .text, _ | .escaped, _ => isTrue trivial

/-! ## Places and states -/

variable {c : Console} {p : Place} {b : UInt8} {bs : List UInt8}

/-- What the console remembers of the place. -/
structure Agrees (p : Place) (c : Console) : Prop where
  length : c.sequence.length ≤ maxSequence
  state : match p with
    | .text => c.state = .normal
    | .escaped => c.state = .esc
    | .control bs => if Plain bs then c.state = .csi ∧ c.sequence = bs else c.state = .discard

theorem Agrees.plain (h : Agrees (.control bs) c) (hbs : Plain bs) :
    c.state = .csi ∧ c.sequence = bs := by
  simpa [hbs] using h.state

theorem Agrees.of_csi (h : Agrees p c) (hstate : c.state = .csi) :
    ∃ bs, p = .control bs ∧ Plain bs := by
  have hs := h.state
  rw [hstate] at hs
  cases p with
  | text => cases hs
  | escaped => cases hs
  | control bs =>
    dsimp only at hs
    split at hs
    next hplain => exact ⟨bs, rfl, hplain⟩
    · cases hs

theorem plain_concat : Plain (bs ++ [b]) ↔ Plain bs ∧ isParameter b ∧ bs.length < maxSequence := by
  simp only [Plain, length_append, length_singleton, forall_mem_append,
    forall_mem_singleton]
  exact ⟨fun h => ⟨⟨by omega, h.2.1⟩, h.2.2, h.1⟩, fun h => ⟨h.2.2, h.1.2, h.2.1⟩⟩

theorem consolePutUserChar_of_ne (h : c.state ≠ .normal) (b : UInt8) :
    consolePutUserChar c b = consoleAnsiFinish c b := if_neg h

theorem Agrees.finish_plain (h : Agrees (.control bs) c) (hbs : Plain bs) (hb : b ≠ escape) :
    Agrees (Place.next (.control bs) b) (consoleAnsiFinish c b) := by
  obtain ⟨hstate, hsequence⟩ := h.plain hbs
  simp only [consoleAnsiFinish, hstate, Place.next, if_neg hb]
  by_cases hm : b = 0x6D
  · rw [if_pos hm, if_pos (by rw [hm]; rfl)]
    exact ⟨Nat.zero_le _, rfl⟩
  · rw [if_neg hm]
    split
    · exact ⟨Nat.zero_le _, rfl⟩
    · split
      next hroom =>
        rw [hsequence] at hroom ⊢
        have hplain : Plain (bs ++ [b]) := plain_concat.mpr ⟨hbs, hroom⟩
        exact ⟨hplain.1, by simp [hplain]⟩
      next hroom =>
        rw [hsequence] at hroom
        have hplain : ¬ Plain (bs ++ [b]) := fun hp => hroom (plain_concat.mp hp).2
        exact ⟨h.length, by simp [hplain]⟩

theorem Agrees.finish_bad (h : Agrees (.control bs) c) (hbs : ¬ Plain bs) (b : UInt8) :
    Agrees (Place.next (.control bs) b) (consoleAnsiFinish c b) := by
  have hstate : c.state = .discard := by simpa [hbs] using h.state
  simp only [consoleAnsiFinish, hstate, Place.next]
  split
  · exact ⟨h.length, rfl⟩
  · split
    · exact ⟨h.length, rfl⟩
    · have hplain : ¬ Plain (bs ++ [b]) := fun hp => hbs (plain_concat.mp hp).1
      exact ⟨h.length, by simp [hplain, hstate]⟩

theorem consoleAnsiFinish_shown (c : Console) (b : UInt8) :
    (consoleAnsiFinish c b).shown = c.shown := by
  unfold consoleAnsiFinish
  repeat' split
  all_goals rfl

theorem Agrees.step (h : Agrees p c) (hb : Uncut p b) : Agrees (p.next b) (consolePutUserChar c b) ∧
    (consolePutUserChar c b).shown.map Prod.fst =
      c.shown.map Prod.fst ++ (if p = .text ∧ b ≠ escape then [b] else []) := by
  cases p with
  | text =>
    have hstate : c.state = .normal := h.state
    simp only [consolePutUserChar, hstate, Place.next]
    by_cases hesc : b = escape
    · simp only [hesc, if_true]
      exact ⟨⟨Nat.zero_le _, rfl⟩, by simp⟩
    · simp only [hesc, if_false, if_true]
      exact ⟨⟨h.length, rfl⟩, by simp [hesc]⟩
  | escaped =>
    have hstate : c.state = .esc := h.state
    rw [consolePutUserChar_of_ne (by simp [hstate]), consoleAnsiFinish_shown]
    refine ⟨?_, by simp⟩
    simp only [consoleAnsiFinish, hstate, Place.next]
    by_cases hesc : b = escape
    · simp only [hesc]
      exact ⟨h.length, hstate⟩
    · simp only [hesc, if_false]
      split
      · exact ⟨Nat.zero_le _, by simp [Plain]⟩
      · exact ⟨Nat.zero_le _, by simp⟩
  | control bs =>
    have hstate : c.state ≠ .normal := by
      have hs := h.state
      dsimp only at hs
      split at hs
      · simp [hs.1]
      · simp [hs]
    rw [consolePutUserChar_of_ne hstate, consoleAnsiFinish_shown]
    refine ⟨?_, by simp⟩
    by_cases hbs : Plain bs
    · exact h.finish_plain hbs fun hesc => hb hesc hbs
    · exact h.finish_bad hbs b

/-! ## Colours -/

theorem le_number (value : Nat) (digits : List UInt8) : value ≤ number value digits := by
  induction digits generalizing value with
  | nil => exact Nat.le_refl _
  | cons b digits ih => exact Nat.le_trans (by omega) (ih (value * 10 + (b.toNat - 0x30)))

theorem applySgr_eq (hbs : ∀ b ∈ bs, isParameter b) {w : List UInt8} {ws : List (List UInt8)}
    (hsplit : bs.splitOn 0x3B = w :: ws) {value : Nat} {haveValue : Bool}
    (hvalue : haveValue = false → value = 0) (hw : number value w ≤ 9999)
    (hws : ∀ x ∈ ws, number 0 x ≤ 9999) (c : Colors) :
    applySgr value haveValue c (bs ++ [0x3B]) =
      (number value w :: ws.map (number 0)).foldl Colors.select c := by
  induction bs generalizing value haveValue c w ws with
  | nil =>
    cases hsplit
    cases haveValue <;> simp [applySgr, number, isDigit, hvalue]
  | cons b bs ih =>
    have hrest := fun x hx => hbs x (mem_cons_of_mem b hx)
    obtain ⟨w', ws', hnext⟩ := exists_cons_of_ne_nil (splitOnP_ne_nil (· == 0x3B) bs)
    rw [splitOn, splitOnP_cons_eq_if_modifyHead, hnext] at hsplit
    by_cases hsemi : b = 0x3B
    · subst hsemi
      cases hsplit
      have hcode : (if haveValue then value else 0) = value := by cases haveValue <;> simp [hvalue]
      have hstep : applySgr value haveValue c (0x3B :: bs ++ [0x3B]) =
          applySgr 0 false (c.select value) (bs ++ [0x3B]) := by simp [applySgr, isDigit, hcode]
      rw [hstep, ih hrest hnext (fun _ => rfl) (hws w' mem_cons_self)
        fun x hx => hws x (mem_cons_of_mem w' hx)]
      rfl
    · have hdigit : isDigit b = true := by simpa [isParameter, hsemi] using hbs b mem_cons_self
      simp only [beq_iff_eq, hsemi, if_false, modifyHead_cons, cons.injEq] at hsplit
      obtain ⟨rfl, rfl⟩ := hsplit
      have hnumber : number (value * 10 + (b.toNat - 0x30)) w' ≤ 9999 := hw
      have hle := le_number (value * 10 + (b.toNat - 0x30)) w'
      have hstep : applySgr value haveValue c (b :: bs ++ [0x3B]) =
          applySgr (value * 10 + (b.toNat - 0x30)) true c (bs ++ [0x3B]) := by
        simp [applySgr, hdigit, show ¬ 999 < value by omega]
      have hset : true = false → value * 10 + (b.toNat - 0x30) = 0 := nofun
      rw [hstep, ih hrest hnext hset hnumber hws]
      rfl

theorem consolePutUserChar_colors (h : c.state = .csi → b ≠ 0x6D) :
    (consolePutUserChar c b).colors = c.colors := by
  unfold consolePutUserChar
  split
  · split <;> rfl
  next hnormal =>
    unfold consoleAnsiFinish
    cases hstate : c.state with
    | normal => exact absurd hstate hnormal
    | esc =>
      repeat' split
      all_goals rfl
    | discard =>
      repeat' split
      all_goals rfl
    | csi =>
      simp only [h hstate, if_false]
      repeat' split
      all_goals rfl

theorem Agrees.run {bytes : List UInt8} (h : Agrees p c)
    (hok : Machine.Throughout Uncut Place.next p bytes) :
    Agrees (bytes.foldl Place.next p) (bytes.foldl consolePutUserChar c) ∧
      (bytes.foldl consolePutUserChar c).shown.map Prod.fst =
        c.shown.map Prod.fst ++ outside p bytes := by
  induction bytes generalizing p c with
  | nil => exact ⟨h, by simp [outside]⟩
  | cons b bytes ih =>
    obtain ⟨hnext, hshown⟩ := h.step hok.1
    obtain ⟨hagrees, hrest⟩ := ih hnext hok.2
    refine ⟨hagrees, ?_⟩
    rw [foldl_cons, hrest, hshown, append_assoc]
    rfl

/-- The console follows the terminal, whatever is written in whatever pieces, as long as no ESC
cuts off a sequence that is good so far. -/
theorem escape_sequences_hidden (pieces : List (List UInt8))
    (h : Machine.Throughout Uncut Place.next .text pieces.flatten) :
    Follows pieces.flatten (pieces.foldl ttyWriteUser cleared) := by
  have hflat : pieces.foldl ttyWriteUser cleared =
      pieces.flatten.foldl consolePutUserChar cleared := foldl_flatten.symm
  have hstart : Agrees .text cleared := ⟨Nat.zero_le _, rfl⟩
  obtain ⟨hagrees, hshown⟩ := hstart.run h
  rw [hflat]
  generalize pieces.flatten.foldl consolePutUserChar cleared = c at hagrees hshown ⊢
  constructor
  case shown => exact hshown
  case length => exact hagrees.length
  case applied =>
    intro bs hplace hplain hbound
    rw [place] at hplace
    rw [hplace] at hagrees
    obtain ⟨hstate, hsequence⟩ := hagrees.plain hplain
    obtain ⟨w, ws, hsplit⟩ := exists_cons_of_ne_nil (splitOnP_ne_nil (· == 0x3B) bs)
    have hparameters : parameters bs = number 0 w :: ws.map (number 0) := congrArg _ hsplit
    rw [hparameters, forall_mem_cons, forall_mem_map] at hbound
    have hloop : applySgr 0 false c.colors (bs ++ [0x3B]) = _ :=
      applySgr_eq hplain.2 hsplit (fun _ => rfl) hbound.1 hbound.2 c.colors
    rw [hparameters, ← hloop, ← hsequence]
    simp [consolePutUserChar, consoleAnsiFinish, consoleAnsiApplySgr, hstate]
  case unchanged =>
    intro b hb
    refine consolePutUserChar_colors fun hcsi hm => ?_
    obtain ⟨bs, hplace, hplain⟩ := hagrees.of_csi hcsi
    exact hb bs hplace hm hplain

theorem escape_sequences_hidden_red :
    Follows [0x1B, 0x5B, 0x33, 0x31, 0x6D, 0x58]
      ([[0x1B, 0x5B, 0x33], [0x31, 0x6D, 0x58]].foldl ttyWriteUser cleared) :=
  escape_sequences_hidden [[0x1B, 0x5B, 0x33], [0x31, 0x6D, 0x58]] (by decide)

/-- The digits behind the second ESC [ are shown. -/
theorem cut_sequence_shown :
    (ttyWriteUser cleared [0x1B, 0x5B, 0x33, 0x1B, 0x5B, 0x33, 0x31, 0x6D, 0x58]).shown.map Prod.fst =
      [0x33, 0x31, 0x6D, 0x58] ∧
    outside .text [0x1B, 0x5B, 0x33, 0x1B, 0x5B, 0x33, 0x31, 0x6D, 0x58] = [0x58] := by
  decide

end OrangeOs.Tty.Ansi
