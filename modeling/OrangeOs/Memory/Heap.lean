import OrangeOs.Lib.Links
import OrangeOs.Memory.Pmm

/-! # The kernel heap

`kmalloc` and `kfree` over arenas of pages from the page manager. An arena begins with its
own header, and its blocks with theirs; both are linked through pointers in the headers. The
headers are kept as records by address, apart from the page contents. A walk along a list
has the number of managed bytes as its bound.
-/

namespace OrangeOs.Memory

open Links Function

def heapArenaMagic : Nat := 0x4152454E41504D47
def heapBlockMagic : Nat := 0x424C4F434B504D47
def heapAlignment : Nat := 8

/-- `sizeof(struct HeapArena)` and `sizeof(struct HeapBlock)`. -/
def arenaHeader : Nat := 56
def blockHeader : Nat := 48

/-- `P2V`; physical addresses are below 2 ^ 47, so that it does not wrap around. -/
def p2v (paddr : Nat) : Nat := paddr + pageOffset

structure HeapBlock where
  magic : Nat
  size : Nat
  isFree : Bool
  arena : Nat
  prev : Option Nat
  next : Option Nat

structure HeapArena where
  magic : Nat
  paddr : Nat
  pageCount : Nat
  liveBlocks : Nat
  prev : Option Nat
  next : Option Nat
  first : Option Nat

structure Heap where
  pmm : Pmm
  arenas : Option Nat
  arena : Nat → HeapArena
  block : Nat → HeapBlock
  initialized : Bool

namespace Heap

def setArena (h : Heap) (a : Nat) (f : HeapArena → HeapArena) : Heap :=
  { h with arena := update h.arena a (f (h.arena a)) }

def setBlock (h : Heap) (b : Nat) (f : HeapBlock → HeapBlock) : Heap :=
  { h with block := update h.block b (f (h.block b)) }

/-- A write through a pointer that may be null, guarded by the test for it. -/
def setArena? (h : Heap) (a : Option Nat) (f : HeapArena → HeapArena) : Heap :=
  match a with
  | some a => h.setArena a f
  | none => h

def setBlock? (h : Heap) (b : Option Nat) (f : HeapBlock → HeapBlock) : Heap :=
  match b with
  | some b => h.setBlock b f
  | none => h

def fuel (h : Heap) : Nat := h.pmm.pageCount * pageSize

/-! ## Arenas -/

def alignSize (size : Nat) : Option Nat :=
  if 2 ^ 64 - 1 - size < heapAlignment - 1 then none
  else some ((size + (heapAlignment - 1)) / heapAlignment * heapAlignment)

def linkArena (h : Heap) (a : Nat) : Heap :=
  let h := h.setArena a fun x => { x with prev := none, next := h.arenas }
  let h := h.setArena? h.arenas fun x => { x with prev := some a }
  { h with arenas := some a }

def unlinkArena (h : Heap) (a : Nat) : Heap :=
  let next := (h.arena a).next
  let prev := (h.arena a).prev
  let h := match prev with
    | some p => h.setArena p fun x => { x with next := next }
    | none => { h with arenas := next }
  h.setArena? next fun x => { x with prev := prev }

/-- The page count of an arena for a block of `size` bytes; `none` if it overflows. -/
def arenaPages (size : Nat) : Option Nat :=
  match alignSize size with
  | none => none
  | some aligned =>
    let overhead := arenaHeader + blockHeader
    if 2 ^ 64 - 1 - overhead < aligned then none
    else
      let total := overhead + aligned
      if 2 ^ 64 - 1 - total < pageSize - 1 then none
      else
        let pages := (total + pageSize - 1) / pageSize
        if pages = 0 ∨ 2 ^ 32 - 1 < pages then none else some pages

/-- The headers of a new arena of `pages` pages. -/
def placeArena (h : Heap) (paddr pages : Nat) : Heap :=
  let a := p2v paddr
  let b := a + arenaHeader
  let h := h.setArena a fun x => { x with
    magic := heapArenaMagic, paddr := paddr, pageCount := pages, liveBlocks := 0, first := some b }
  let h := h.setBlock b fun _ => {
    magic := heapBlockMagic, size := pages * pageSize - (arenaHeader + blockHeader),
    isFree := true, arena := a, prev := none, next := none }
  h.linkArena a

def createArena (h : Heap) (ring : List ThreadPages) (size : Nat) : Option Nat × Heap :=
  match arenaPages size with
  | none => (none, h)
  | some pages =>
    match h.pmm.allocPagesOwned ring pages .heap with
    | (0, m) => (none, { h with pmm := m })
    | (paddr, m) =>
      let m := { m with memory := fun p =>
        if paddr / pageSize ≤ p ∧ p < paddr / pageSize + pages then Bytes.zero else m.memory p }
      (some (p2v paddr), Heap.placeArena { h with pmm := m } paddr pages)

def reclaimEmptyArena (h : Heap) (ring : List ThreadPages) (a : Nat) : Heap :=
  if (h.arena a).liveBlocks ≠ 0 then h
  else
    let h := h.unlinkArena a
    match h.pmm.freePagesOwned ring (h.arena a).paddr (h.arena a).pageCount .heap with
    | (true, m) => { h with pmm := m }
    | (false, m) => Heap.linkArena { h with pmm := m } a

/-! ## Blocks -/

def splitBlock (h : Heap) (b requested : Nat) : Heap :=
  let block := h.block b
  if block.size < requested then h
  else
    let remaining := block.size - requested
    if remaining < blockHeader + heapAlignment then h
    else
      let c := b + blockHeader + requested
      let h := h.setBlock c fun _ => {
        magic := heapBlockMagic, size := remaining - blockHeader, isFree := true,
        arena := block.arena, prev := some b, next := block.next }
      let h := h.setBlock? block.next fun x => { x with prev := some c }
      h.setBlock b fun x => { x with next := some c, size := requested }

def mergeWithNext (h : Heap) (b : Nat) : Heap :=
  match (h.block b).next with
  | none => h
  | some c =>
    if (h.block c).isFree = false ∨ b + blockHeader + (h.block b).size ≠ c then h
    else
      let next := (h.block c).next
      let h := h.setBlock b fun x => { x with
        size := x.size + (blockHeader + (h.block c).size), next := next }
      h.setBlock? next fun x => { x with prev := some b }

/-- The arenas in their order, and the blocks of one. -/
def arenaList (h : Heap) : List Nat := walk (fun a => (h.arena a).next) h.fuel h.arenas

def blockList (h : Heap) (a : Nat) : List Nat :=
  walk (fun b => (h.block b).next) h.fuel (h.arena a).first

/-- The first free block that is large enough, with its arena. -/
def findFit (h : Heap) (size : Nat) : Option (Nat × Nat) :=
  h.arenaList.findSome? fun a =>
    ((h.blockList a).find? fun b => (h.block b).isFree && size ≤ (h.block b).size).map (a, ·)

def findBlock (h : Heap) (ptr : Nat) : Option Nat :=
  h.arenaList.findSome? fun a =>
    if (h.arena a).magic ≠ heapArenaMagic then none
    else (h.blockList a).find? fun b =>
      (h.block b).magic == heapBlockMagic && b + blockHeader == ptr

/-! ## Allocation -/

def kmallocInit (m : Pmm) (arena : Nat → HeapArena) (block : Nat → HeapBlock) : Heap :=
  ⟨m, none, arena, block, true⟩

/-- The block is split, marked and counted; the result is the address behind its header. -/
def takeBlock (h : Heap) (a b size : Nat) : Nat × Heap :=
  let h := h.splitBlock b size
  let h := h.setBlock b fun x => { x with isFree := false }
  (b + blockHeader, h.setArena a fun x => { x with liveBlocks := x.liveBlocks + 1 })

/-- The loop of `kmalloc`, `n` rounds of it. -/
def kmallocLoop (ring : List ThreadPages) (size : Nat) : Nat → Heap → Option Nat × Heap
  | 0, h => (none, h)
  | n + 1, h =>
    match h.findFit size with
    | some (a, b) =>
      let (ptr, h) := h.takeBlock a b size
      (some ptr, h)
    | none =>
      match h.createArena ring size with
      | (none, h) => (none, h)
      | (some _, h) => kmallocLoop ring size n h

def kmalloc (h : Heap) (ring : List ThreadPages) (size : Nat) : Option Nat × Heap :=
  if h.initialized = false ∨ size = 0 then (none, h)
  else
    match alignSize size with
    | none => (none, h)
    | some aligned => kmallocLoop ring aligned 2 h

/-- The block is marked free and no longer counted. -/
def markFree (h : Heap) (a b : Nat) : Heap :=
  (h.setBlock b fun x => { x with isFree := true }).setArena a fun x =>
    { x with liveBlocks := x.liveBlocks - 1 }

/-- The block is marked and merged with its free neighbours. -/
def releaseBlock (h : Heap) (a b : Nat) : Heap :=
  let h := (h.markFree a b).mergeWithNext b
  match (h.block b).prev with
  | some p => if (h.block p).isFree = true then h.mergeWithNext p else h
  | none => h

/-- `true` stands for `0`; the null pointer is `0`. -/
def kfree (h : Heap) (ring : List ThreadPages) (ptr : Nat) : Bool × Heap :=
  if ptr = 0 then (true, h)
  else
    match h.findBlock ptr with
    | none => (false, h)
    | some b =>
      let a := (h.block b).arena
      if (h.block b).isFree = true ∨ (h.arena a).liveBlocks = 0 then (false, h)
      else (true, (h.releaseBlock a b).reclaimEmptyArena ring a)

end Heap

end OrangeOs.Memory
