import OrangeOs.Fs.Cache
import OrangeOs.Fs.Space

/-! # Block lookup through the cache

`bitmap_allocate`, `alloc_data_block` and `inode_data_block` over the sixteen cache entries,
with no disk error. The plain functions work on block contents; here a block is a pointer
into an entry, and the pointer to an index block is kept while `alloc_data_block` makes
calls of its own. Both agree exactly as long as it stays the entry of that block.
-/

namespace OrangeOs.Fs.Cache

open Bytes Function

/-! ## The functions -/

/-- `cache_get` when every transfer succeeds. -/
def get (s : State) (block : Nat) (write : Bool) : Option Slot × State :=
  cacheGet s block write goodTransfers

/-- The scan of `bitmap_allocate` over the `n` bits from `i` on. -/
def bitmapScan (sb : SuperBlock) (base : Nat) : State → Nat → Nat → Int × State
  | s, _, 0 => (-1, s)
  | s, i, n + 1 =>
    match get s (bitmapBlock sb base i) true with
    | (none, s) => (-1, s)
    | (some p, s) =>
      if bit (s.cache p).data (i % (sb.blockSize * 8)) then bitmapScan sb base s (i + 1) n
      else (i32 i, s.fill p (setBit (s.cache p).data (i % (sb.blockSize * 8))))

def bitmapAllocate (sb : SuperBlock) (s : State) (base first limit : Nat) : Int × State :=
  bitmapScan sb base s first (limit - first)

def bitmapFree (sb : SuperBlock) (s : State) (base i : Nat) : State :=
  match get s (bitmapBlock sb base i) true with
  | (none, s) => s
  | (some p, s) => s.fill p (clearBit (s.cache p).data (i % (sb.blockSize * 8)))

def allocDataBlock (sb : SuperBlock) (s : State) : Option Nat × State :=
  let (block, s) := bitmapAllocate sb s sb.bmapStart sb.firstDataBlock sb.totalBlocks
  if block < 0 then (none, s)
  else
    match get s block.toNat true with
    | (none, s) => (none, bitmapFree sb s sb.bmapStart block.toNat)
    | (some p, s) => (some block.toNat, s.fill p zero)

/-- Entry `i` of an index block. The new block number goes into the entry `p` that was got
before the allocation, whatever block it is for by then. -/
def ensureEntry (sb : SuperBlock) (s : State) (block i : Nat) (create : Bool) :
    Option Nat × State :=
  match get s block create with
  | (none, s) => (none, s)
  | (some p, s) =>
    if indexEntry (s.cache p).data i = 0 ∧ create = true then
      match allocDataBlock sb s with
      | (none, s) => (none, s)
      | (some n, s) =>
        let s := s.fill p (setIndexEntry (s.cache p).data i n)
        (some (indexEntry (s.cache p).data i), s)
    else (some (indexEntry (s.cache p).data i), s)

def walkIndex (sb : SuperBlock) (create : Bool) : State → Nat → List Nat → Option Nat × State
  | s, b, [] => (some b, s)
  | s, b, i :: path =>
    if b = 0 then (some 0, s)
    else
      match ensureEntry sb s b i create with
      | (none, s) => (none, s)
      | (some child, s) => walkIndex sb create s child path

def lookupSlot (sb : SuperBlock) (s : State) (ino : Inode) (j : Nat) (path : List Nat)
    (create : Bool) : Option Nat × Inode × State :=
  if ino.root j = 0 ∧ create = true then
    match allocDataBlock sb s with
    | (none, s) => (none, ino, s)
    | (some n, s) =>
      let (out, s) := walkIndex sb create s n path
      (out, ino.setRoot j n, s)
  else
    let (out, s) := walkIndex sb create s (ino.root j) path
    (out, ino, s)

/-- `inode_data_block`: the result (`none` for `-1`), the inode and the cache. -/
def inodeDataBlock (sb : SuperBlock) (s : State) (ino : Inode) (index : Nat) (create : Bool) :
    Option Nat × Inode × State :=
  if fsMaxFileBlocks ≤ index then (none, ino, s)
  else if index < 11 then lookupSlot sb s ino index [] create
  else
    let index := index - 11
    if index < 1024 then lookupSlot sb s ino 11 [index] create
    else
      let index := index - 1024
      if index < 1024 * 1024 then lookupSlot sb s ino 12 [index / 1024, index % 1024] create
      else
        let index := index - 1024 * 1024
        if 1024 * 1024 * 1024 ≤ index then (none, ino, s)
        else
          lookupSlot sb s ino 13 [index / (1024 * 1024), index / 1024 % 1024, index % 1024] create

variable {i b j n k index : Nat} {s t : State} {v : Volume}

theorem inodeDataBlock_of_lt (sb : SuperBlock) (s : State) (ino : Inode) (create : Bool)
    (h : index < fsMaxFileBlocks) : inodeDataBlock sb s ino index create =
      lookupSlot sb s ino (locate index).1 (locate index).2 create := by
  unfold fsMaxFileBlocks at h
  unfold inodeDataBlock locate fsMaxFileBlocks
  dsimp only
  rw [if_neg (by omega)]
  repeat' split
  all_goals first | rfl | omega

/-! ## One call -/

section Call

variable {p : Slot} {write : Bool}

/-- A call that answered with entry `p`: it is for the block, and the others are as they were. -/
structure Got (s t : State) (p : Slot) (b : Nat) (write : Bool) : Prop where
  holds : t.holds p b = true
  dirty : write = true → (t.cache p).dirty = true
  others : ∀ j, j ≠ p → t.cache j = s.cache j
  totalBlocks : t.totalBlocks = s.totalBlocks

theorem cacheFlushEntry_good (s : State) (i : Slot) :
    (cacheFlushEntry s i goodTransfers.write).1 = true ∧
      (cacheFlushEntry s i goodTransfers.write).2.totalBlocks = s.totalBlocks ∧
      ∀ j, j ≠ i → (cacheFlushEntry s i goodTransfers.write).2.cache j = s.cache j := by
  unfold cacheFlushEntry
  dsimp only
  split
  · exact ⟨rfl, rfl, fun _ _ => rfl⟩
  · exact ⟨rfl, rfl, fun j hj => update_of_ne hj _ _⟩

theorem get_got (hget : get s b write = (some p, t)) :
    b < s.totalBlocks ∧ Got s t p b write := by
  by_cases hblock : s.totalBlocks ≤ b
  · rw [get, cacheGet, if_pos hblock] at hget
    cases hget
  refine ⟨Nat.lt_of_not_le hblock, ?_⟩
  rw [get, cacheGet, if_neg hblock] at hget
  split at hget
  · next i hscan =>
    cases hget
    refine ⟨?_, ?_, fun j hj => update_of_ne hj _ _, rfl⟩
    · rw [← scan_hit hscan]
      exact State.holds_congr b (by simp [State.touch]) (by simp [State.touch])
    · rintro rfl
      simp [State.touch]
  · cases hget
  · next i hscan =>
    obtain ⟨hok, htotal, hothers⟩ := cacheFlushEntry_good s i
    rcases hflush : cacheFlushEntry s i goodTransfers.write with ⟨ok, u⟩
    rw [hflush] at hok htotal hothers
    dsimp only at hok hothers
    subst hok
    simp only [loadVictim, hflush] at hget
    cases hget
    refine ⟨by simp [State.holds, State.relabel], ?_, fun j hj => ?_, htotal⟩
    · rintro rfl
      simp [State.relabel]
    · simp [State.relabel, State.fill, State.setEntry, hj, hothers j hj]

theorem get_served (h : Consistent s) (hget : get s b write = (some p, t)) :
    Consistent t ∧ contents t = contents s ∧ (t.cache p).data = contents s b := by
  have hok : Allowed s (.get b write goodTransfers) := Or.inr (Or.inr (Or.inl ⟨0, by decide, rfl⟩))
  have hserved := cacheGet_served h hok
  rw [show cacheGet s b write goodTransfers = (some p, t) from hget] at hserved
  exact ⟨hserved.consistent, hserved.contents, hserved.yields p rfl⟩

end Call

/-! ## Agreement with the plain functions -/

/-- The cache shows the volume. -/
structure Shows (s : State) (v : Volume) : Prop where
  consistent : Consistent s
  contents : contents s = v.disk
  total : s.totalBlocks = v.sb.totalBlocks

theorem Shows.got (h : Shows s v) {p : Slot} {block : Nat} {write : Bool}
    (hget : get s block write = (some p, t)) :
    block < v.sb.totalBlocks ∧ Got s t p block write ∧ Shows t v ∧
      (t.cache p).data = v.disk block := by
  obtain ⟨hlt, hg⟩ := get_got hget
  obtain ⟨hc, hsame, hdata⟩ := get_served h.consistent hget
  exact ⟨h.total ▸ hlt, hg, ⟨hc, hsame.trans h.contents, hg.totalBlocks.trans h.total⟩,
    by rw [hdata, h.contents]⟩

theorem Shows.fill (h : Shows s v) {p : Slot} (hp : s.holds p b = true)
    (hdirty : (s.cache p).dirty = true) (d : Block) : Shows (s.fill p d) (v.store b d) := by
  have hok : Allowed s (.modify p b d) := ⟨hp, hdirty⟩
  obtain ⟨hc, hsame⟩ := modify_spec h.consistent hok
  exact ⟨hc, by rw [hsame, h.contents]; rfl, h.total⟩

section Level

variable {c : Nat}

/-- A level that allocates, up to the store of the block number. -/
structure Allocates (s : State) (v : Volume) (b k : Nat) (q : Slot) (s₁ : State) (n : Nat)
    (u : State) (w : Volume) : Prop where
  got : get s b true = (some q, s₁)
  null : indexEntry (v.disk b) k = 0
  data : (s₁.cache q).data = v.disk b
  alloc : allocDataBlock v.sb s₁ = (some n, u)
  plain : Fs.allocDataBlock v = (some n, w)
  shows : Shows u w
  dirty : u.holds q b = true → (u.cache q).dirty = true

variable (hm : Mounted v.sb) (hlo : dataRegion v.sb b) (hmark : bmapBit v b = true) (h : Shows s v)
include hm hlo hmark h

end Level

section Walk

variable {tab : Table} {r : Nat × Nat} {p : List Nat} {c : Nat}

section

variable (hm : Mounted v.sb) (ho : Owned v tab) (hb : blockAt v tab r p = b) (hb0 : b ≠ 0)
  (h : Shows s v)
include hm ho hb hb0 h

end

variable {ino ino' : Inode} (hm : Mounted v.sb) (ho : Owned v tab) (hi : tab i = some ino)
  (hindex : index < fsMaxFileBlocks) (h : Shows s v)
include hm ho hi hindex h

end Walk

/-! ## A small volume -/

/-- The volume that the cache and the disk make up. -/
def State.volume (s : State) (sb : SuperBlock) : Volume := ⟨sb, contents s, fun _ => 0⟩

/-- A lookup in the contents of the blocks. -/
def lookup (sb : SuperBlock) (s : State) (file : Inode) (x : Nat) : Option Nat :=
  (Fs.inodeDataBlock (s.volume sb) file x false).1

theorem lookup_eq {sb : SuperBlock} {tab : Table} {x : Nat} {file : Inode} (hm : Mounted sb)
    (ho : Owned (s.volume sb) tab) (hk : tab k = some file) : lookup sb s file x =
      if x < fsMaxFileBlocks then some (blockAt (s.volume sb) tab (k, (locate x).1) (locate x).2)
      else none := by
  by_cases hx : x < fsMaxFileBlocks
  · obtain ⟨out, ino', w, hplain, hr, -⟩ := inodeDataBlock_spec false hm ho hk hx
    rw [lookup, hplain, if_pos hx]
    exact (hr.plain rfl).2.2
  · rw [if_neg hx, lookup, Fs.inodeDataBlock, if_pos (Nat.le_of_not_lt hx)]

end OrangeOs.Fs.Cache
