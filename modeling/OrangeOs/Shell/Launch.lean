import OrangeOs.Lib.Separated
import Mathlib.Logic.Function.Basic

/-! # Starting programs from the shell

`command_run`, `command_exec` and `command_external` cut a command into words in place and hand
pointers to the words to the kernel, which reads them up to a null pointer.
-/

namespace OrangeOs.Shell

open Function List

/-- `LINE_SIZE`. -/
def lineSize : Nat := 256

/-- What `argv` can hold: a word by its offset in the text, `path`, or what was on the stack. -/
inductive Pointer where
  | null
  | word (offset : Nat)
  | path
  | stale (address : Nat)
deriving DecidableEq

/-- The bytes of the text after the cut, the words in `argv`, and `has_suffix`. -/
structure Cut where
  bytes : List UInt8
  words : List Nat
  hasSuffix : Bool

/-- The text at an offset, up to its NUL. -/
def textAt (bytes : List UInt8) (offset : Nat) : List UInt8 :=
  (bytes.drop offset).takeWhile (· ≠ 0)

/-- The copy of the first word to `path`, and its suffix. -/
def programPath (word : List UInt8) (hasSuffix : Bool) : List UInt8 :=
  let path := word.take (lineSize - 1)
  if hasSuffix = false ∧ path.length + 4 < lineSize then path ++ [46, 101, 108, 102] else path

def Cut.argv (c : Cut) : List (List UInt8) := c.words.map (textAt (c.bytes ++ [0]))

def Cut.path (c : Cut) : List UInt8 := programPath (c.argv.headD []) c.hasSuffix

/-- `argv`, over what was on the stack. -/
def Cut.slots (c : Cut) (stack : Nat → Pointer) (i : Nat) : Pointer :=
  (c.words[i]?.map .word).getD (stack i)

/-- The system call, with a vector if it is `sys_spawnv` or `sys_execv`. -/
structure Launch extends Cut where
  vector : Option (Nat → Pointer)

/-- What the kernel reads at an entry of the vector. -/
def Launch.read (r : Launch) : Pointer → Option (List UInt8)
  | .word offset => some (textAt (r.bytes ++ [0]) offset)
  | .path => some r.path
  | _ => none

/-! ## The words of a command -/

def words (text : List UInt8) : List (List UInt8) := (Separated.pieces 32 text).take 15

def program (word : List UInt8) : List UInt8 :=
  if 46 ∉ word ∧ word.length + 4 < lineSize then word ++ [46, 101, 108, 102] else word

/-- What the launchers have in common: the words, the path, and the arguments behind the first. -/
structure Launch.Agrees (r : Launch) (ws : List (List UInt8)) : Prop where
  argv : r.argv = ws
  path : r.path = program (ws.headD [])
  vector : ∀ v, r.vector = some v → ∀ i, 0 < i → i < ws.length → r.read (v i) = ws[i]?

end OrangeOs.Shell
