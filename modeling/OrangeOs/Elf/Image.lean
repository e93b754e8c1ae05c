import OrangeOs.Memory.Pmm

/-! # Loading an executable

`elf_load_image_args` reads the file into a heap block, maps and copies each `PT_LOAD` segment
into a new address space, and puts the arguments on its stack page. The address space is the list
of the pages mapped so far, with its contents by virtual address; the accesses to the block, to
the new pages and to the tables shared with the kernel are logged. The answers of the file system
and of the allocators are an input. What a write to a shared table does to other memory is not
followed up: the log shows that it happened.
-/

namespace OrangeOs.Elf

open Bytes
open Memory (pageSize)

/-! ## Headers -/

structure Phdr where
  type : Nat
  flags : Nat
  offset : Nat
  vaddr : Nat
  filesz : Nat
  memsz : Nat

def ptLoad : Nat := 1

/-- The fields of `Elf64_Ehdr` that are read. -/
def isElf (buf : Block) : Bool := buf 0 == 0x7F && buf 1 == 0x45 && buf 2 == 0x4C && buf 3 == 0x46

def entry (buf : Block) : Nat := readLE 8 buf 24

def phoff (buf : Block) : Nat := readLE 8 buf 32

def phnum (buf : Block) : Nat := readLE 2 buf 56

/-- Where `phdr[i]` lies, from `file_buf` on. -/
def phdrBase (buf : Block) (i : Nat) : Nat := (phoff buf + 56 * i) % 2 ^ 64

def phdr (buf : Block) (i : Nat) : Phdr :=
  let base := phdrBase buf i
  { type := readLE 4 buf base
    flags := readLE 4 buf (base + 4)
    offset := readLE 8 buf (base + 8)
    vaddr := readLE 8 buf (base + 16)
    filesz := readLE 8 buf (base + 32)
    memsz := readLE 8 buf (base + 40) }

namespace Phdr

def startPage (ph : Phdr) : Nat := ph.vaddr / pageSize * pageSize

def endPage (ph : Phdr) : Nat := (ph.vaddr + ph.memsz + 0xFFF) % 2 ^ 64 / pageSize * pageSize

/-- `(end_page - start_page) / 4096`. -/
def pages (ph : Phdr) : Nat := (ph.endPage + 2 ^ 64 - ph.startPage) % 2 ^ 64 / pageSize

end Phdr

/-! ## The loader's state -/

inductive Access where
  /-- The file system is asked for this many bytes from the start of the block on. -/
  | fill (length : Nat)
  | read (offset length : Nat)
  /-- Bytes for the user's half; `pages` were mapped for them. -/
  | write (vaddr length : Nat) (pages : List Nat)
  /-- `map_page` writes to a table of the kernel to map this page. -/
  | table (page : Nat)
deriving DecidableEq

/-- `struct elf_load_vma`. -/
structure LoadVma where
  start : Nat
  stop : Nat
  flags : Nat
  fileOffset : Nat
deriving DecidableEq

structure Loader where
  mapped : List Nat
  /-- The pages mapped for the segment being loaded. -/
  segment : List Nat
  requests : Nat
  memory : Block
  vmas : List LoadVma
  log : List Access

/-- What `load_fail` leaves of the state is the log. -/
abbrev Load := Except (List Access) Loader

structure File where
  /-- `stat_size`, or `none` if the call fails. -/
  size : Option Nat
  /-- The bytes from `file_buf` on once the file has been read. -/
  buf : Block
  /-- The present entries of the kernel's PML4, which `create_page_dir` copies. -/
  kernelPml4 : Nat → Bool
  /-- The pages below them where the walk of `map_page`, which does not look at `PTE_PS`, ends at
  a present entry. -/
  kernelHalf : Nat → Bool

/-- What the allocators and the file system answer; `page k` and `tables k` are the answers to the
request number `k` for a page and for the tables above it. -/
structure Answers where
  block : Bool
  read : Bool
  directory : Bool
  page : Nat → Bool
  tables : Nat → Bool

def Answers.all : Answers := ⟨true, true, true, fun _ => true, fun _ => true⟩

def Loader.note (s : Loader) (a : Access) : Loader := { s with log := a :: s.log }

/-! ## Mapping -/

/-- The entry that `map_page` uses for an address. -/
def pageIndex (vaddr : Nat) : Nat := vaddr / pageSize % 2 ^ 36

/-- The table below the PML4 on the way to the page is the kernel's. -/
def shared (f : File) (page : Nat) : Bool := decide (2 ^ 35 ≤ page) && f.kernelPml4 (page / 2 ^ 27)

def occupied (f : File) (page : Nat) : Bool := shared f page && f.kernelHalf page

/-- The tables on the way are made accessible to the user, or a new one is entered. -/
def Loader.openTables (s : Loader) (f : File) (page : Nat) : Loader :=
  if shared f page = true then s.note (.table page) else s

def Loader.addPage (s : Loader) (page : Nat) : Loader :=
  { s with mapped := page :: s.mapped, segment := page :: s.segment, requests := s.requests + 1 }

/-- `alloc_page_owned` and `map_page`, for a page that is cleared. -/
def mapNew (f : File) (ans : Answers) (s : Loader) (page : Nat) : Load :=
  if ans.page s.requests = false then .error s.log
  else if ans.tables s.requests = false ∨ occupied f page = true ∨ page ∈ s.mapped then
    .error (s.openTables f page).log
  else .ok ((s.openTables f page).addPage page)

/-- The first `n` pages from `start` on. -/
def mapSegment (f : File) (ans : Answers) (start : Nat) : Nat → Loader → Load
  | 0, s => .ok s
  | n + 1, s => (mapSegment f ans start n s).bind fun s =>
    mapNew f ans s (pageIndex ((start + n * pageSize) % 2 ^ 64))

def elfMaxLoadVmas : Nat := 32

def recordVma (s : Loader) (ph : Phdr) : Loader :=
  if s.vmas.length < elfMaxLoadVmas then
    { s with vmas := s.vmas ++ [⟨ph.startPage, ph.endPage, ph.flags, ph.offset⟩] }
  else s

/-- `memcpy((void*)vaddr, file_buf + offset, filesz)`. -/
def copyIn (buf memory : Block) (vaddr offset filesz : Nat) : Block := fun x =>
  let k := (x + 2 ^ 64 - vaddr) % 2 ^ 64
  if x < 2 ^ 64 ∧ k < filesz then buf ((offset + k) % 2 ^ 64) else memory x

def copySegment (f : File) (ph : Phdr) (s : Loader) : Loader :=
  { (s.note (.read ph.offset ph.filesz)).note (.write ph.vaddr ph.filesz s.segment) with
    memory := copyIn f.buf s.memory ph.vaddr ph.offset ph.filesz }

def loadSegment (f : File) (ans : Answers) (s : Loader) (ph : Phdr) : Load :=
  (mapSegment f ans ph.startPage ph.pages { recordVma s ph with segment := [] }).bind fun s =>
    .ok (copySegment f ph s)

/-- One round of the loop over the program headers. -/
def loadHeader (f : File) (ans : Answers) (s : Loader) (i : Nat) : Load :=
  let base := phdrBase f.buf i
  let s := s.note (.read base 4)
  if (phdr f.buf i).type = ptLoad then
    loadSegment f ans ((s.note (.read (base + 4) 20)).note (.read (base + 32) 16)) (phdr f.buf i)
  else .ok s

def loadHeaders (f : File) (ans : Answers) (n : Nat) (s : Loader) : Load :=
  (List.range n).foldlM (loadHeader f ans) s

/-! ## The stack -/

def stackTop : Nat := 0x00007FFFFFFFF000

def stackBottom : Nat := stackTop - pageSize

def stackPage : Nat := pageIndex stackBottom

/-- The bytes are stored below the cursor. -/
def push (s : Loader) (cursor : Nat) (bytes : List UInt8) : Loader :=
  { s.note (.write (cursor - bytes.length) bytes.length [stackPage]) with
    memory := splice s.memory (cursor - bytes.length) bytes }

/-- The strings from the last one on, with the addresses they are put at. -/
def pushStrings : List (List UInt8) → Loader → Nat → List Nat →
    Except (List Access) (Loader × Nat × List Nat)
  | [], s, cursor, pointers => .ok (s, cursor, pointers)
  | arg :: args, s, cursor, pointers =>
    if cursor - stackBottom < arg.length + 1 then .error s.log
    else
      let cursor' := cursor - (arg.length + 1)
      pushStrings args (push s cursor (arg ++ [0])) cursor' (cursor' :: pointers)

/-- The bytes of a `uint64_t`. -/
def wordBytes (w : Nat) : List UInt8 := slice (writeLE 8 zero 0 w) 0 8

def pushWords : List Nat → Loader → Nat → Loader × Nat
  | [], s, cursor => (s, cursor)
  | w :: ws, s, cursor => pushWords ws (push s cursor (wordBytes w)) (cursor - 8)

def elfMaxArgs : Nat := 16

/-- The arguments of the new image, with the stack pointer it starts with. -/
def pushArguments (argv : List (List UInt8)) (s : Loader) :
    Except (List Access) (Loader × Nat) :=
  if elfMaxArgs < argv.length then .error s.log
  else
    (pushStrings argv.reverse s stackTop []).bind fun (s, cursor, pointers) =>
      let cursor := cursor / 8 * 8
      if cursor < stackBottom + (argv.length + 2) * 8 then .error s.log
      else .ok (pushWords (0 :: pointers.reverse ++ [argv.length]) s cursor)

/-! ## The whole call -/

structure Image where
  entry : Nat
  stack : Nat
  vmas : List LoadVma
  mapped : List Nat
  memory : Block

def fsMaxFileSize : Nat := (11 + 1024 + 1024 ^ 2 + 1024 ^ 3) * 4096

def acceptedSize (f : File) : Option Nat :=
  f.size.filter fun n => n ≠ 0 ∧ n ≤ 2 ^ 32 - 1 ∧ n ≤ fsMaxFileSize

/-- The size passed to `kmalloc`, a sum of type `uint32_t`. -/
def blockSize (size : Nat) : Nat := (size + 512) % 2 ^ 32

/-- The state in which the loop over the program headers begins. -/
def opened (size : Nat) : Loader where
  mapped := []
  segment := []
  requests := 0
  memory := zero
  vmas := []
  log := [.read 56 2, .read 32 8, .read 24 8, .read 0 4, .fill size]

/-- Everything after the headers have been loaded. -/
def loadStack (f : File) (ans : Answers) (argv : List (List UInt8)) (s : Loader) :
    Except (List Access) (Loader × Nat) :=
  (mapNew f ans s stackPage).bind (pushArguments argv)

/-- `elf_load_image_args`, with the log of its accesses. -/
def elfLoadImageArgs (f : File) (ans : Answers) (argv : List (List UInt8)) :
    Option Image × List Access :=
  match acceptedSize f with
  | none => (none, [])
  | some size =>
    if ans.block = false ∨ blockSize size = 0 then (none, [])
    else if ans.read = false then (none, [.fill size])
    else if isElf f.buf = false then (none, [.read 0 4, .fill size])
    else if ans.directory = false then (none, [.read 24 8, .read 0 4, .fill size])
    else
      match (loadHeaders f ans (phnum f.buf) (opened size)).bind (loadStack f ans argv) with
      | .error log => (none, log)
      | .ok (s, stack) => (some ⟨entry f.buf, stack, s.vmas, s.mapped, s.memory⟩, s.log)

end OrangeOs.Elf
