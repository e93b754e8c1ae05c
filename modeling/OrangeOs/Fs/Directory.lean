import OrangeOs.Fs.View
import Mathlib.Data.List.DropRight

/-! # Directories and paths

`dir_find`, `dir_add` and `dir_empty` with their loops over the blocks and the
64 entries of a block, and the two path splitters. C strings are lists of bytes
without the terminating NUL. A lookup without allocation changes nothing
(`Reached.plain`), so only its result is taken. The second half specifies
the three loops by the entries a directory shows in the view.
-/

namespace OrangeOs.Fs

open Bytes Function List

/-- Bytes of a C string, the terminating NUL left out. -/
abbrev Str := List UInt8

def slash : UInt8 := 47
def dot : Str := [46]
def dotdot : Str := [46, 46]

/-! ## Entries -/

def nameEqual (a b : Str) : Prop := a.length < 60 ∧ a = b

instance (a b : Str) : Decidable (nameEqual a b) := inferInstanceAs (Decidable (_ ∧ _))

/-- The number of blocks of a directory, in `uint64_t` arithmetic. -/
def dirBlocks (dir : Inode) : Nat := ((dir.size + 4096 - 1) / 4096).toNat

/-- The entry loop of `dir_find`. -/
def findEntry (block : Block) (name : Str) : Option Nat :=
  (List.range 64).find? fun i => decide (entryInode block i ≠ 0 ∧ nameEqual (entryName block i) name)

/-- The entry loop of `dir_add`. -/
def freeEntry (block : Block) : Option Nat :=
  (List.range 64).find? fun i => decide (entryInode block i = 0)

/-- The block loop of `dir_find` over the `n` blocks from `b` on. -/
def dirFindFrom (v : Volume) (dir : Inode) (name : Str) : Nat → Nat → Option (Nat × Nat × Nat)
  | _, 0 => none
  | b, n + 1 =>
    match (inodeDataBlock v dir b false).1 with
    | none => dirFindFrom v dir name (b + 1) n
    | some 0 => dirFindFrom v dir name (b + 1) n
    | some data =>
      match cacheGet v data with
      | none => none
      | some entries =>
        match findEntry entries name with
        | some i => some (entryInode entries i, data, i)
        | none => dirFindFrom v dir name (b + 1) n

/-- `dir_find`: the inode number, the block and the index of the entry. -/
def dirFind (v : Volume) (dirNr : Nat) (name : Str) : Option (Nat × Nat × Nat) :=
  match fsGetInode v dirNr with
  | none => none
  | some dir =>
    if dir.type ≠ fsTypeDirectory then none
    else dirFindFrom v dir name 0 (max 1 (dirBlocks dir))

/-- The block loop of `dir_add`: `n` existing blocks from `b` on, then the new
one after the last. -/
def dirAddFrom (v : Volume) (dirNr : Nat) (dir : Inode) (name : Str) (nr : Nat) :
    Nat → Nat → Bool × Volume
  | b, n + 1 =>
    match (inodeDataBlock v dir b false).1 with
    | none => dirAddFrom v dirNr dir name nr (b + 1) n
    | some 0 => dirAddFrom v dirNr dir name nr (b + 1) n
    | some data =>
      match cacheGet v data with
      | none => (false, v)
      | some entries =>
        match freeEntry entries with
        | some i => (true, v.store data (setEntry entries i nr name))
        | none => dirAddFrom v dirNr dir name nr (b + 1) n
  | b, 0 =>
    match inodeDataBlock v dir b true with
    | (none, _, v) => (false, v)
    | (some data, dir, v) =>
      match fsPutInode v dirNr { dir with size := UInt64.ofNat ((b + 1) * 4096) } with
      | none => (false, v)
      | some v =>
        match cacheGet v data with
        | none => (false, v)
        | some entries =>
          match freeEntry entries with
          | some i => (true, v.store data (setEntry entries i nr name))
          | none => (false, v)

def dirAdd (v : Volume) (dirNr : Nat) (name : Str) (nr : Nat) : Bool × Volume :=
  if name.length = 0 ∨ 60 ≤ name.length ∨ (dirFind v dirNr name).isSome then (false, v)
  else
    match fsGetInode v dirNr with
    | none => (false, v)
    | some dir =>
      if dir.type ≠ fsTypeDirectory then (false, v)
      else dirAddFrom v dirNr dir name nr 0 (max 1 (dirBlocks dir))

/-- The block loop of `dir_empty`, which has no minimum of one block. -/
def dirEmptyFrom (v : Volume) (dir : Inode) : Nat → Nat → Bool
  | _, 0 => true
  | b, n + 1 =>
    match (inodeDataBlock v dir b false).1 with
    | none => dirEmptyFrom v dir (b + 1) n
    | some 0 => dirEmptyFrom v dir (b + 1) n
    | some data =>
      match cacheGet v data with
      | none => false
      | some entries =>
        if (List.range 64).any fun i => decide (entryInode entries i ≠ 0 ∧
          entryName entries i ≠ dot ∧ entryName entries i ≠ dotdot) then false
        else dirEmptyFrom v dir (b + 1) n

def dirEmpty (v : Volume) (dirNr : Nat) : Bool :=
  match fsGetInode v dirNr with
  | none => false
  | some dir => dirEmptyFrom v dir 0 (dirBlocks dir)

/-! ## Paths -/

/-- The three outcomes of `next_component`: -1, 0, and 1 with the component and
the cursor after it. -/
inductive Component where
  | tooLong
  | finished
  | next (name rest : Str)

def nextComponent (cursor : Str) : Component :=
  let p := cursor.dropWhile (· = slash)
  if p = [] then .finished
  else
    let name := p.takeWhile (· ≠ slash)
    if 60 ≤ name.length then .tooLong else .next name (p.dropWhile (· ≠ slash))

variable {name : Str} {d s n : Nat} {block : Block} {v : Volume} {dir : Inode}

theorem nextComponent_lt {cursor rest : Str} (h : nextComponent cursor = .next name rest) :
    rest.length < cursor.length := by
  unfold nextComponent at h
  dsimp only at h
  split at h
  · exact Component.noConfusion h
  · next hne =>
    split at h
    · exact Component.noConfusion h
    · obtain ⟨-, rfl⟩ := Component.next.inj h
      cases hp : cursor.dropWhile (· = slash) with
      | nil => exact absurd hp hne
      | cons c p =>
        have hc : c ≠ slash := by
          have := head_dropWhile_not (· = slash) (by rw [hp]; simp)
          simpa [hp] using this
        have h1 : (cursor.dropWhile (· = slash)).length ≤ cursor.length :=
          (dropWhile_sublist _).length_le
        have h2 : (p.dropWhile (· ≠ slash)).length ≤ p.length :=
          (dropWhile_sublist _).length_le
        rw [hp, length_cons] at h1
        simp only [dropWhile_cons, hc, ne_eq, not_false_eq_true, decide_true, if_true]
        simp only [ne_eq] at h2
        omega

theorem nextComponent_slash {rest : Str} (hne : name ≠ []) (hslash : slash ∉ name)
    (hlen : name.length < 60) (hrest : rest = [] ∨ rest.head? = some slash) :
    nextComponent (slash :: (name ++ rest)) = .next name rest := by
  have hall : ∀ x ∈ name, decide (x ≠ slash) = true := fun x hx =>
    decide_eq_true fun heq => hslash (heq ▸ hx)
  have hend : rest.takeWhile (· ≠ slash) = [] ∧ rest.dropWhile (· ≠ slash) = rest := by
    cases rest with
    | nil => exact ⟨rfl, rfl⟩
    | cons x rest =>
      obtain rfl := Option.some.inj (hrest.resolve_left (cons_ne_nil x rest))
      simp
  have hskip : (slash :: (name ++ rest)).dropWhile (· = slash) = name ++ rest := by
    obtain ⟨x, xs, rfl⟩ := exists_cons_of_ne_nil hne
    have hx : x ≠ slash := fun heq => hslash (heq ▸ mem_cons_self)
    simp [hx]
  unfold nextComponent
  rw [hskip, if_neg (by simp [hne]), takeWhile_append_of_pos hall,
    dropWhile_append_of_pos hall, hend.1, hend.2, append_nil, if_neg (by omega)]

/-- The component loop of `fs_lookup_path`. -/
def lookupFrom (v : Volume) (current : Nat) (cursor : Str) : Option Nat :=
  match _h : nextComponent cursor with
  | .tooLong => none
  | .finished => some current
  | .next name rest =>
    if name = dot then lookupFrom v current rest
    else
      match dirFind v current name with
      | none =>
        if name = dotdot ∧ current = fsRootInode then lookupFrom v current rest else none
      | some (child, _, _) =>
        match fsGetInode v child with
        | none => none
        | some info =>
          if rest ≠ [] ∧ info.type ≠ fsTypeDirectory then none
          else lookupFrom v child rest
termination_by cursor.length
decreasing_by all_goals exact nextComponent_lt _h

def fsLookupPath (v : Volume) (path : Str) (cwd : Nat) : Option (Nat × Inode) :=
  let current := if path.head? = some slash then fsRootInode else cwd
  if path = [] ∨ ¬validInode v current then none
  else
    match lookupFrom v current path with
    | none => none
    | some nr => (fsGetInode v nr).map fun info => (nr, info)

/-- `path_parent`: the parent directory and the last component. The source
copies the last component into 60 bytes; a longer one, which `dir_add` and
`dir_find` refuse, is kept whole here. -/
def pathParent (v : Volume) (path : Str) (cwd : Nat) : Option (Nat × Str) :=
  if fsPathMax ≤ path.length then none
  else
    let copy := path.rdropWhile (· = slash)
    if copy = [] then none
    else
      let head := copy.rdropWhile (· ≠ slash)
      let leaf := copy.rtakeWhile (· ≠ slash)
      let dir := if head = [] then dot else if head.length = 1 then [slash] else head.dropLast
      (fsLookupPath v dir cwd).map fun (parent, _) => (parent, leaf)

/-! ## Scanning the blocks of a directory -/

section Scan

variable (hs : Sound v) (hdir : diskTab v d = some dir)
include hs hdir

theorem dirBlock_cases {k : Nat} (hk : k < fsMaxFileBlocks) :
    ((inodeDataBlock v dir k false).1 = some 0 ∧ (view v).data d k = zero) ∨
    ∃ b, b ≠ 0 ∧ (inodeDataBlock v dir k false).1 = some b ∧
      cacheGet v b = some ((view v).data d k) ∧
      blockAt v (diskTab v) (d, (locate k).1) (locate k).2 = b := by
  obtain ⟨out, ino', w, he, hr, -⟩ := inodeDataBlock_spec false hs.mounted hs.owned hdir hk
  have hout : (inodeDataBlock v dir k false).1 =
      some (blockAt v (diskTab v) (d, (locate k).1) (locate k).2) := by
    rw [he]
    exact (hr.plain rfl).2.2
  rw [view_data d hk, leaf]
  by_cases h0 : blockAt v (diskTab v) (d, (locate k).1) (locate k).2 = 0
  · exact Or.inl ⟨by rw [hout, h0], if_pos h0⟩
  · refine Or.inr ⟨_, h0, hout, ?_, rfl⟩
    rw [if_neg h0]
    exact cacheGet_of_lt (hs.owned.hi (locate_isLeaf hk d).1 h0)

end Scan

/-! ## Finding an entry -/

/-- Slot `s` of block `k` of directory `d` is in use with this number and name. -/
structure View.Entry (V : View) (d k s nr : Nat) (name : Str) : Prop where
  slot : s < 64
  inode : entryInode (V.data d k) s = nr
  used : nr ≠ 0
  name : entryName (V.data d k) s = name

theorem findEntry_none (h : findEntry block name = none) (hs : s < 64)
    (hused : entryInode block s ≠ 0) : ¬nameEqual (entryName block s) name := by
  have := find?_eq_none.mp h s (by simpa using hs)
  simpa [hused] using this

theorem findEntry_some (h : findEntry block name = some s) :
    s < 64 ∧ entryInode block s ≠ 0 ∧ nameEqual (entryName block s) name := by
  have h1 := find?_some h
  have h2 := mem_of_find?_eq_some h
  simp only [decide_eq_true_eq] at h1
  exact ⟨by simpa using h2, h1⟩

/-- The block loop of `dir_find` found an entry with this name. -/
structure Found (v : Volume) (d : Nat) (name : Str) (k s nr block : Nat) : Prop where
  fits : name.length < 60
  entry : (view v).Entry d k s nr name
  block_ne : block ≠ 0
  block : blockAt v (diskTab v) (d, (locate k).1) (locate k).2 = block

/-- What the loop over the `n` blocks from `b` on may answer. -/
def ScanResult (v : Volume) (d : Nat) (name : Str) (b n : Nat) (out : Option (Nat × Nat × Nat)) :
    Prop :=
  (out = none ∧ ∀ k s nr, b ≤ k → k < b + n → name.length < 60 →
    ¬(view v).Entry d k s nr name) ∨
  ∃ k s nr block, b ≤ k ∧ k < b + n ∧ Found v d name k s nr block ∧ out = some (nr, block, s)

theorem ScanResult.skip {b : Nat} {out : Option (Nat × Nat × Nat)}
    (h : ScanResult v d name (b + 1) n out)
    (hnone : ∀ s nr, name.length < 60 → ¬(view v).Entry d b s nr name) :
    ScanResult v d name b (n + 1) out := by
  rcases h with ⟨he, hall⟩ | ⟨k, s, nr, block, h1, h2, hrest⟩
  · refine Or.inl ⟨he, fun k s nr h1 h2 hlen => ?_⟩
    by_cases hk : k = b
    · exact hk ▸ hnone s nr hlen
    · exact hall k s nr (by omega) (by omega) hlen
  · exact Or.inr ⟨k, s, nr, block, by omega, by omega, hrest⟩

theorem dirFindFrom_spec (hs : Sound v) (hdir : diskTab v d = some dir) (name : Str) (b n : Nat)
    (hn : b + n ≤ fsMaxFileBlocks) : ScanResult v d name b n (dirFindFrom v dir name b n) := by
  induction n generalizing b with
  | zero => exact Or.inl ⟨rfl, fun k _ _ h1 h2 => by omega⟩
  | succ n ih =>
    have hrest := ih (b + 1) (by omega)
    rcases dirBlock_cases hs hdir (show b < fsMaxFileBlocks by omega) with
      ⟨hhole, hdata⟩ | ⟨block, hne, hblock, hget, hat⟩
    · simp only [dirFindFrom, hhole]
      refine hrest.skip fun s nr _ h => h.used ?_
      rw [← h.inode, hdata, entryInode_zero]
    · obtain ⟨x, rfl⟩ := Nat.exists_eq_succ_of_ne_zero hne
      cases hf : findEntry ((view v).data d b) name with
      | none =>
        simp only [dirFindFrom, hblock, hget, hf]
        refine hrest.skip fun s nr hlen h => ?_
        refine findEntry_none hf h.slot (h.inode ▸ h.used) ?_
        rw [h.name]
        exact ⟨hlen, rfl⟩
      | some s =>
        obtain ⟨h1, h2, h3, h4⟩ := findEntry_some hf
        refine Or.inr ⟨b, s, _, _, le_refl b, by omega, ⟨h4 ▸ h3, ⟨h1, rfl, h2, h4⟩, hne, hat⟩, ?_⟩
        simp [dirFindFrom, hblock, hget, hf]

/-! ## Directories in the view -/

/-- Inode `d` is a directory of `n` full blocks with nothing after them. -/
structure View.Dir (V : View) (d n : Nat) : Prop where
  pos : 0 < d
  used : V.used d = true
  type : (V.info d).type = fsTypeDirectory
  size : (V.info d).size.toNat = 4096 * n
  one_le : 1 ≤ n
  le_max : n ≤ fsMaxFileBlocks
  tail : ∀ k, n ≤ k → V.data d k = zero

theorem dirBlocks_eq (hsize : dir.size.toNat = 4096 * n) (hn : n ≤ fsMaxFileBlocks) :
    dirBlocks dir = n := by
  have hmax : n ≤ 1074791435 := hn
  have hsum : (dir.size + 4096 - 1).toNat = 4096 * n + 4095 := by
    have h1 : (dir.size + 4096).toNat = 4096 * n + 4096 := by
      rw [UInt64.toNat_add, hsize]
      exact Nat.mod_eq_of_lt (by change 4096 * n + 4096 < 2 ^ 64; omega)
    have hle : (1 : UInt64) ≤ dir.size + 4096 := by
      rw [UInt64.le_iff_toNat_le, h1]
      change 1 ≤ _
      omega
    rw [UInt64.toNat_sub_of_le _ _ hle, h1]
    rfl
  rw [dirBlocks, UInt64.toNat_div, hsum]
  change (4096 * n + 4095) / 4096 = n
  omega

section Dirs

variable (hs : Sound v) (hd : (view v).Dir d n)
include hd

theorem View.Dir.valid : validInode v d := ⟨hd.pos, (view_used_iff.mp hd.used).1⟩

theorem View.Dir.tab : diskTab v d = some (inodeAt v d) :=
  diskTab_eq (view_used_iff.mp hd.used).1 (Or.inl (view_used_iff.mp hd.used).2)

theorem View.Dir.type_eq : (inodeAt v d).type = fsTypeDirectory := by
  have h := hd.type
  rwa [view_info hd.valid.2] at h

theorem View.Dir.size_eq : (inodeAt v d).size.toNat = 4096 * n := by
  have h := hd.size
  rwa [view_info hd.valid.2] at h

theorem View.Dir.blocks : dirBlocks (inodeAt v d) = n := dirBlocks_eq hd.size_eq hd.le_max

theorem View.Entry.lt {k nr : Nat} (he : (view v).Entry d k s nr name) : k < n := by
  by_contra hk
  apply he.used
  rw [← he.inode, hd.tail k (by omega), entryInode_zero]

include hs

theorem View.Dir.get : fsGetInode v d = some (inodeAt v d) := fsGetInode_eq hs.mounted hd.valid

theorem dirFind_spec (name : Str) : ScanResult v d name 0 n (dirFind v d name) := by
  have hone := hd.one_le
  rw [dirFind, hd.get hs]
  dsimp only
  rw [if_neg (not_not.mpr hd.type_eq), hd.blocks, Nat.max_eq_right hone]
  exact dirFindFrom_spec hs hd.tab name 0 n (by simpa using hd.le_max)

end Dirs

/-! ## Adding an entry -/

/-- The view after entry `s` of block `k` was filled; block `n` is a new one. -/
def View.enter (V : View) (d n k s nr : Nat) (name : Str) : View :=
  (if k < n then V
    else V.setInfo d { V.info d with size := UInt64.ofNat ((k + 1) * 4096) }).setData d k
      (setEntry (V.data d k) s nr name)

/-- `dir_add` either leaves the view alone or fills a free entry. -/
inductive AddResult (v : Volume) (d n : Nat) (name : Str) (nr : Nat) : Bool → Volume → Prop
  | refused {w : Volume} (sound : Sound w) (same : view w = view v) (tab : diskTab w = diskTab v) :
      AddResult v d n name nr false w
  | added {w : Volume} (k s : Nat) (le : k ≤ n) (lt : k < fsMaxFileBlocks) (slot : s < 64)
      (free : entryInode ((view v).data d k) s = 0) (sound : Sound w)
      (entered : view w = (view v).enter d n k s nr name)
      (tab : ∀ j, j ≠ d → diskTab w j = diskTab v j) : AddResult v d n name nr true w

theorem freeEntry_some (h : freeEntry block = some s) : s < 64 ∧ entryInode block s = 0 := by
  have h1 := find?_some h
  have h2 := mem_of_find?_eq_some h
  exact ⟨by simpa using h2, by simpa using h1⟩

theorem freeEntry_zero : freeEntry zero = some 0 := by
  simp [freeEntry, range_succ_eq_map]

/-- A directory that was given block `n` has its new entry there; `w` and `dir` are what
`inode_data_block` made of the volume and the inode. -/
structure Lengthened (v w : Volume) (d n : Nat) (dir : Inode) (name : Str) (nr : Nat)
    (u : Volume) : Prop where
  sound : Sound u
  sb : u.sb = v.sb
  entered : view u = (view v).enter d n n 0 nr name
  tab : ∀ j, j ≠ d → diskTab u j = diskTab v j
  roots : ∀ j, (inodeAt u d).root j = dir.root j
  bits : ∀ x, x < v.sb.totalBlocks → bmapBit u x = bmapBit w x

variable (hs : Sound v)
include hs

variable (hd : (view v).Dir d n)
include hd

theorem dirAddFrom_extend {w : Volume} {data : Nat}
    (hlt : n < fsMaxFileBlocks) (he : inodeDataBlock v (inodeAt v d) n true = (some data, dir, w))
    (name : Str) (nr : Nat) :
    ∃ u, dirAddFrom v d (inodeAt v d) name nr n 0 = (true, u) ∧
      Lengthened v w d n dir name nr u := by
  obtain ⟨out, dir', w', he', hr, htype, -, hlink⟩ :=
    inodeDataBlock_spec true hs.mounted hs.owned hd.tab hlt
  rw [he] at he'
  cases he'
  have hne : data ≠ 0 := fun h0 => hr.made rfl (by rw [h0])
  have hfound := hr.found data rfl
  have hleaf := (locate_isLeaf hlt d).1
  have hrun := (hs.running d).grow hr.grow fun j hj => update_of_ne hj _ _
  obtain ⟨hrun, hval⟩ := hrun.touch { dir with
    size := UInt64.ofNat ((n + 1) * 4096) } (update_self d _ _) fun j _ => rfl
  rw [update_idem] at hrun hval
  have hvalid : validInode w d := by
    have := hd.valid
    rwa [validInode, hr.grow.frame.sb]
  have hused : imapBit w d = true := by
    rw [imapBit_grow hs.mounted hr.grow.frame hd.valid.2]
    exact (view_used_iff.mp hd.used).2
  obtain ⟨u, hput, hsound, hview, hsb, hsettled, hval'⟩ := hrun.commit hvalid
    (update_self d _ _) (Or.inl hused)
  have hat : blockAt u (diskTab u) (d, (locate n).1) (locate n).2 = data := by
    rw [← hsettled, hval' _ _ hleaf, hval _ _ hleaf, ← hfound]
  have hdata : (view u).data d n = zero := by
    rw [hview]
    exact hd.tail n (le_refl n)
  have hzero : u.disk data = zero := by
    have := view_data (v := u) d hlt
    rw [hdata, leaf, hat, if_neg hne] at this
    exact this.symm
  have hget : cacheGet u data = some zero := by
    rw [← hzero]
    exact cacheGet_of_lt (hat ▸ hsound.owned.hi hleaf (hat ▸ hne))
  obtain ⟨hsound', hview', htab'⟩ := hsound.store hlt (setEntry zero 0 nr name) hat hne
  refine ⟨u.store data (setEntry zero 0 nr name), ?_, hsound', hsb.trans hr.grow.frame.sb,
    ?_, ?_, ?_, ?_⟩
  · simp only [dirAddFrom, he, hput, hget, freeEntry_zero]
  · rw [hview', hview, View.enter, if_neg (lt_irrefl n), hd.tail n (le_refl n)]
    have hinfo : ({ dir with size := UInt64.ofNat ((n + 1) * 4096) } : Inode).info =
        { (view v).info d with size := UInt64.ofNat ((n + 1) * 4096) } := by
      rw [view_info hd.valid.2]
      simp [Inode.info, htype, hlink]
    rw [hinfo]
  · intro j hj
    rw [htab', ← hsettled, update_of_ne hj]
  · intro j
    have hsame : diskTab (u.store data (setEntry zero 0 nr name)) d = diskTab u d := by rw [htab']
    rw [← hsettled, update_self] at hsame
    rw [← (diskTab_eq_some hsame).2]
    rfl
  · intro x hx
    have hmw : Mounted w.sb := hr.grow.frame.sb ▸ hs.mounted
    obtain ⟨u', hput', hframe, -⟩ := fsPutInode_spec hmw hvalid
      { dir with size := UInt64.ofNat ((n + 1) * 4096) }
    cases hput.symm.trans hput'
    have hxw : x < w.sb.totalBlocks := hr.grow.frame.sb ▸ hx
    rw [bmapBit_frame (hsb ▸ hmw) (Frame.store u _ rfl : Frame (· = data) _ _) ?_ (hsb ▸ hxw),
      bmapBit_frame hmw hframe (fun b hb => (bmapRegion_disjoint hmw hb).2.1) hxw]
    rintro b hb rfl
    have hlo := hsound.owned.lo hleaf (hat ▸ hne)
    rw [hat] at hlo
    exact (bmapRegion_disjoint (hsb ▸ hmw) hb).2.2 hlo

theorem dirAddFrom_grow (name : Str) (nr : Nat) :
    AddResult v d n name nr (dirAddFrom v d (inodeAt v d) name nr n 0).1
      (dirAddFrom v d (inodeAt v d) name nr n 0).2 := by
  by_cases hmax : fsMaxFileBlocks ≤ n
  · have he : inodeDataBlock v (inodeAt v d) n true = (none, inodeAt v d, v) := by
      simp [inodeDataBlock, hmax]
    simp only [dirAddFrom, he]
    exact .refused hs rfl rfl
  · have hlt : n < fsMaxFileBlocks := by omega
    obtain ⟨out, dir, w, he, hr, -⟩ :=
      inodeDataBlock_spec true hs.mounted hs.owned hd.tab hlt
    cases out with
    | none =>
      -- index blocks filled in on the way are lost with the local inode
      have hundo := (hs.running d).grow (hr.grow.undo hs.mounted) fun _ _ => rfl
      have htab := diskTab_grow hs.mounted hr.grow.frame
      obtain ⟨h1, h2⟩ := hundo.finish (by rw [htab])
      simp only [dirAddFrom, he]
      exact .refused h1 h2 htab
    | some data =>
      obtain ⟨u, hu, hlong⟩ := dirAddFrom_extend hs hd hlt he name nr
      rw [hu]
      refine .added n 0 (le_refl n) hlt (by decide) ?_ hlong.sound hlong.entered hlong.tab
      rw [hd.tail n (le_refl n), entryInode_zero]

theorem dirAddFrom_succ (name : Str) (nr : Nat) {b m : Nat} (hb : b + (m + 1) = n) :
    (((view v).data d b = zero ∨ freeEntry ((view v).data d b) = none) ∧
      dirAddFrom v d (inodeAt v d) name nr b (m + 1) =
        dirAddFrom v d (inodeAt v d) name nr (b + 1) m) ∨
    ∃ s block, freeEntry ((view v).data d b) = some s ∧ block ≠ 0 ∧
      blockAt v (diskTab v) (d, (locate b).1) (locate b).2 = block ∧
      dirAddFrom v d (inodeAt v d) name nr b (m + 1) =
        (true, v.store block (setEntry ((view v).data d b) s nr name)) := by
  have hmax := hd.le_max
  rcases dirBlock_cases hs hd.tab (show b < fsMaxFileBlocks by omega) with
    ⟨hhole, hzero⟩ | ⟨block, hne, hblock, hget, hat⟩
  · exact Or.inl ⟨Or.inl hzero, by simp only [dirAddFrom, hhole]⟩
  · obtain ⟨x, rfl⟩ := Nat.exists_eq_succ_of_ne_zero hne
    cases hf : freeEntry ((view v).data d b) with
    | none => exact Or.inl ⟨Or.inr rfl, by simp only [dirAddFrom, hblock, hget, hf]⟩
    | some s =>
      exact Or.inr ⟨s, _, rfl, hne, hat, by simp only [dirAddFrom, hblock, hget, hf]⟩

theorem dirAddFrom_spec (name : Str) (nr b m : Nat) (hb : b + m = n) :
    AddResult v d n name nr (dirAddFrom v d (inodeAt v d) name nr b m).1
      (dirAddFrom v d (inodeAt v d) name nr b m).2 := by
  induction m generalizing b with
  | zero =>
    obtain rfl : b = n := by omega
    exact dirAddFrom_grow hs hd name nr
  | succ m ih =>
    rcases dirAddFrom_succ hs hd name nr hb with ⟨-, he⟩ | ⟨s, block, hf, hne, hat, he⟩
    · rw [he]
      exact ih (b + 1) (by omega)
    · have hlt : b < fsMaxFileBlocks := Nat.lt_of_lt_of_le (by omega) hd.le_max
      obtain ⟨hslot, hfree⟩ := freeEntry_some hf
      obtain ⟨h1, h2, h3⟩ := hs.store hlt (setEntry ((view v).data d b) s nr name) hat hne
      rw [he]
      refine .added b s (by omega) hlt hslot hfree h1 ?_ fun j _ => by rw [h3]
      rw [h2, View.enter, if_pos (by omega)]

theorem dirAddFrom_refused (name : Str) (nr b m : Nat)
    (hb : b + m = n) (hno : (dirAddFrom v d (inodeAt v d) name nr b m).1 = false) :
    (inodeDataBlock v (inodeAt v d) n true).1 = none ∧
      (dirAddFrom v d (inodeAt v d) name nr b m).2 =
        (inodeDataBlock v (inodeAt v d) n true).2.2 := by
  induction m generalizing b with
  | zero =>
    obtain rfl : b = n := by omega
    rcases he : inodeDataBlock v (inodeAt v d) b true with ⟨out, dir, w⟩
    cases out with
    | none => exact ⟨rfl, by simp only [dirAddFrom, he]⟩
    | some data =>
      have hlt : b < fsMaxFileBlocks := by
        by_contra hmax
        rw [inodeDataBlock, if_pos (by omega)] at he
        cases he
      obtain ⟨u, hu, -⟩ := dirAddFrom_extend hs hd hlt he name nr
      rw [hu] at hno
      cases hno
  | succ m ih =>
    rcases dirAddFrom_succ hs hd name nr hb with ⟨-, he⟩ | ⟨s, block, -, -, -, he⟩
    · rw [he] at hno ⊢
      exact ih (b + 1) (by omega) hno
    · rw [he] at hno
      cases hno

theorem dirAddFrom_skip (name : Str) (nr b k m : Nat)
    (hb : b + k + m = n) (hfull : ∀ l, b ≤ l → l < b + k → freeEntry ((view v).data d l) = none) :
    dirAddFrom v d (inodeAt v d) name nr b (k + m) =
      dirAddFrom v d (inodeAt v d) name nr (b + k) m := by
  induction k generalizing b with
  | zero => rw [Nat.zero_add, Nat.add_zero]
  | succ k ih =>
    have hrest := ih (b + 1) (by omega) fun l h1 h2 => hfull l (by omega) (by omega)
    rw [show b + (k + 1) = b + 1 + k by omega, show k + 1 + m = (k + m) + 1 by omega, ← hrest]
    rcases dirAddFrom_succ hs hd name nr (b := b) (m := k + m) (by omega) with ⟨-, he⟩ | ⟨s, _, hf, -⟩
    · exact he
    · rw [hfull b (by omega) (by omega)] at hf
      cases hf

theorem dirAddFrom_take (name : Str) (nr : Nat) {b m : Nat}
    (hb : b + (m + 1) = n) (hfree : freeEntry ((view v).data d b) = some s)
    (hne : (view v).data d b ≠ zero) :
    ∃ block, block ≠ 0 ∧ blockAt v (diskTab v) (d, (locate b).1) (locate b).2 = block ∧
      dirAddFrom v d (inodeAt v d) name nr b (m + 1) =
        (true, v.store block (setEntry ((view v).data d b) s nr name)) := by
  rcases dirAddFrom_succ hs hd name nr hb with ⟨hzero | hnone, -⟩ | ⟨s, block, hf, hrest⟩
  · exact absurd hzero hne
  · cases hfree.symm.trans hnone
  · cases hfree.symm.trans hf
    exact ⟨block, hrest⟩

/-- `dir_add` on a directory: it fails without effect or fills a free entry, and
it only does the latter for a name that fits and that no entry has. -/
theorem dirAdd_spec (name : Str) (nr : Nat) :
    AddResult v d n name nr (dirAdd v d name nr).1 (dirAdd v d name nr).2 ∧
    ((dirAdd v d name nr).1 = true →
      0 < name.length ∧ name.length < 60 ∧ ∀ k s i, ¬(view v).Entry d k s i name) := by
  unfold dirAdd
  by_cases hbad : name.length = 0 ∨ 60 ≤ name.length ∨ (dirFind v d name).isSome
  · rw [if_pos hbad]
    exact ⟨.refused hs rfl rfl, by simp⟩
  · simp only [not_or, Bool.not_eq_true, Option.isSome_eq_false_iff, Option.isNone_iff_eq_none]
      at hbad
    obtain ⟨hne, hlen, hfind⟩ := hbad
    rw [if_neg (by simp [hne, hfind]; omega), hd.get hs]
    dsimp only
    rw [if_neg (not_not.mpr hd.type_eq), hd.blocks, Nat.max_eq_right hd.one_le]
    refine ⟨dirAddFrom_spec hs hd name nr 0 n (by omega), fun _ => ⟨by omega, by omega, ?_⟩⟩
    intro k s i he
    rcases dirFind_spec hs hd name with ⟨-, hall⟩ | ⟨_, _, _, _, -, -, -, hsome⟩
    · exact hall k s i (by omega) (by simpa using he.lt hd) (by omega) he
    · rw [hfind] at hsome
      cases hsome

/-! ## Emptiness -/

omit hd in
theorem dirEmptyFrom_spec (hdir : diskTab v d = some dir) (b n : Nat)
    (hn : b + n ≤ fsMaxFileBlocks) :
    dirEmptyFrom v dir b n = true ↔ ∀ k s nr name, b ≤ k → k < b + n →
      (view v).Entry d k s nr name → name = dot ∨ name = dotdot := by
  induction n generalizing b with
  | zero => exact ⟨fun _ k _ _ _ h1 h2 => by omega, fun _ => rfl⟩
  | succ n ih =>
    have hrest := ih (b + 1) (by omega)
    have hskip : ∀ (ok : Prop), (ok ↔ ∀ s nr name, (view v).Entry d b s nr name →
        name = dot ∨ name = dotdot) →
        (ok ∧ dirEmptyFrom v dir (b + 1) n = true ↔ ∀ k s nr name, b ≤ k → k < b + (n + 1) →
          (view v).Entry d k s nr name → name = dot ∨ name = dotdot) := by
      intro ok hok
      rw [hrest, hok]
      constructor
      · rintro ⟨h1, h2⟩ k s nr name hlo hhi he
        by_cases hk : k = b
        · exact h1 s nr name (hk ▸ he)
        · exact h2 k s nr name (by omega) (by omega) he
      · intro hall
        exact ⟨fun s nr name he => hall b s nr name (le_refl b) (by omega) he,
          fun k s nr name hlo hhi he => hall k s nr name (by omega) (by omega) he⟩
    rcases dirBlock_cases hs hdir (show b < fsMaxFileBlocks by omega) with
      ⟨hhole, hdata⟩ | ⟨block, hne, hblock, hget, -⟩
    · have hnone : True ↔ ∀ s nr name, (view v).Entry d b s nr name →
          name = dot ∨ name = dotdot :=
        ⟨fun _ s nr name he => absurd (by rw [← he.inode, hdata, entryInode_zero]) he.used,
          fun _ => trivial⟩
      rw [← hskip True hnone]
      simp [dirEmptyFrom, hhole]
    · obtain ⟨x, rfl⟩ := Nat.exists_eq_succ_of_ne_zero hne
      have hblk : (¬((range 64).any fun i => decide (entryInode ((view v).data d b) i ≠ 0 ∧
          entryName ((view v).data d b) i ≠ dot ∧ entryName ((view v).data d b) i ≠ dotdot))
            = true) ↔ ∀ s nr name, (view v).Entry d b s nr name → name = dot ∨ name = dotdot := by
        simp only [any_eq_true, mem_range, decide_eq_true_eq, not_exists, not_and]
        constructor
        · intro hall s nr name he
          by_contra hno
          rw [not_or] at hno
          exact hall s he.slot (he.inode ▸ he.used) (he.name ▸ hno.1) (he.name ▸ hno.2)
        · intro hall s hs hused h1 h2
          exact (hall s _ _ ⟨hs, rfl, hused, rfl⟩).elim h1 h2
      rw [← hskip _ hblk]
      simp only [dirEmptyFrom, hblock, hget]
      split
      · next h => exact ⟨fun h' => absurd h' (by simp), fun h' => absurd h h'.1⟩
      · next h => exact ⟨fun h' => ⟨h, h'⟩, fun h' => h'.2⟩

theorem dirEmpty_spec :
    dirEmpty v d = true ↔
      ∀ k s nr name, (view v).Entry d k s nr name → name = dot ∨ name = dotdot := by
  rw [dirEmpty, hd.get hs]
  dsimp only
  rw [hd.blocks, dirEmptyFrom_spec hs hd.tab 0 n (by simpa using hd.le_max)]
  exact ⟨fun h k s nr name he => h k s nr name (by omega) (by simpa using he.lt hd) he,
    fun h k s nr name _ _ he => h k s nr name he⟩

end OrangeOs.Fs
