import OrangeOs.Fs.Packed
import OrangeOs.Storage.Safety
import Mathlib.Order.Interval.Finset.Nat

/-! # A crowded root directory

A run that fills the root directory up to the last entry of its last direct block, while a
given number of directories take a free block each.
-/

namespace OrangeOs.Mkfs

open Bytes Fs

section Image

variable {sb : SuperBlock} {inputs : List Input} {st : State} {tab : Table} (hm : Mounted sb)
  (h : Prepared sb inputs st tab)
include hm h

theorem Prepared.freeBlocks_eq : freeBlocks (finished sb st) = sb.totalBlocks - st.img.next := by
  obtain ⟨-, -, hbits, -⟩ := h.settled hm
  have hlo := h.built.next_lo
  have hset : freeSet (finished sb st) = Finset.Ico st.img.next sb.totalBlocks := by
    ext x
    rw [mem_freeSet, Finset.mem_Ico, finished_sb]
    constructor
    · rintro ⟨hx, -, hfree⟩
      rw [hbits x hx, decide_eq_false_iff_not] at hfree
      exact ⟨by omega, hx⟩
    · rintro ⟨hge, hx⟩
      refine ⟨hx, by omega, ?_⟩
      rw [hbits x hx, decide_eq_false_iff_not]
      omega
  rw [freeBlocks, hset, Nat.card_Ico]

theorem Prepared.packed (hlo : 4096 ≤ sb.totalInodes) (hhi : sb.totalInodes ≤ 262144) :
    Packed (finished sb st) fsRootInode 1 (inputs.length + 2) := by
  have hf := h.finish hm hlo hhi
  have hcount := h.count
  obtain ⟨n, hdir⟩ := hf.names.dirs ((hf.isDir_iff fsRootInode).mpr rfl)
  have hone : n = 1 := by
    have hsize : (4096 : UInt64).toNat = 4096 * n := by
      rw [← hdir.size, hf.root]
    have htext : (4096 : UInt64).toNat = 4096 := rfl
    omega
  subst hone
  refine ⟨hdir, fun j h1 h2 => ?_, fun k s hs => ?_, by omega, by omega⟩
  · have hroot : Fs.diskTab (finished sb st) fsRootInode = some (rootInode sb) := by
      rw [h.diskTab hm hlo, h.root]
    rw [← (diskTab_eq_some hroot).2, rootInode,
      Inode.root_setRoot (hm.data_lt.trans hm.total_lt) _ (by decide), if_neg (by omega)]
    exact Inode.root_blank j
  · by_cases hk : k = 0
    · rw [hk, hf.rootBlock.inode s]
      have hfile : (inputAt inputs s).isSome ↔ 2 ≤ s ∧ s < inputs.length + 2 := by
        unfold inputAt
        split
        · simp
          omega
        · rw [Option.isSome_iff_ne_none, ne_eq, List.getElem?_eq_none_iff]
          omega
      unfold fsRootInode
      split
      · omega
      · split
        · next hsome =>
          have := hfile.mp hsome
          omega
        · next hnone =>
          have := mt hfile.mpr hnone
          omega
    · rw [hf.rootTail k (by omega), entryInode_zero]
      omega

end Image

end OrangeOs.Mkfs

namespace OrangeOs.Storage

open Bytes Fs Mkfs

/-! ## The names -/

def digit (n : Nat) : UInt8 := UInt8.ofNat (48 + n % 10)

theorem digit_toNat (n : Nat) : (digit n).toNat = 48 + n % 10 := by
  rw [digit, UInt8.toNat_ofNat']
  omega

theorem digit_ne (n : Nat) {x : UInt8} (hx : x.toNat < 48) : x ≠ digit n := by
  rintro rfl
  rw [digit_toNat] at hx
  omega

/-- The names `000`, `001` and so on. -/
def crowdName (k : Nat) : Name where
  val := [digit (k / 100), digit (k / 10), digit k]
  property := by
    have hzero : ∀ n, (0 : UInt8) ≠ digit n := fun n => digit_ne n (by decide)
    have hslash : ∀ n, slash ≠ digit n := fun n => digit_ne n (by decide)
    refine ⟨⟨by simp, by simp, by simp [hzero]⟩, by simp [hslash], by simp [dot], by simp [dotdot]⟩

theorem crowdName_injective {j k : Nat} (hj : j < 1000) (hk : k < 1000)
    (h : (crowdName j).1 = (crowdName k).1) : j = k := by
  simp only [crowdName, List.cons.injEq, and_true] at h
  obtain ⟨h1, h2, h3⟩ := h
  have e1 := congrArg UInt8.toNat h1
  have e2 := congrArg UInt8.toNat h2
  have e3 := congrArg UInt8.toNat h3
  rw [digit_toNat, digit_toNat] at e1 e2 e3
  omega

/-! ## The run -/

/-- The first `dirs` are directories, which take a block each. -/
def crowdType (dirs k : Nat) : FileType := if k < dirs then .directory else .file

def crowdOp (dirs k : Nat) : Op :=
  .create ⟨render [crowdName k], zero_notMem_render _⟩ (crowdType dirs k)

def crowdOps (dirs : Nat) : List Op := (List.range 701).map (crowdOp dirs)

/-- The state after `k` creations. -/
structure Crowded (dirs : Nat) (v : Volume) (k : Nat) : Prop where
  healthy : Healthy v
  sb : v.sb = sampleSb
  packed : ∃ n, Packed v fsRootInode n (k + 3)
  free : freeBlocks v + min k dirs + (k + 2) / 64 = 176
  names : ∀ b s c name, (view v).Entry fsRootInode b s c name →
    name.length ≠ 3 ∨ ∃ j, j < k ∧ name = (crowdName j).1
  inodes : ∃ S : Finset Nat, S.card ≤ k + 2 ∧ ∀ i, (view v).used i = true → i ∈ S
  file : (view v).used 2 = true ∧ diskTab v 2 = some sampleInode ∧ (view v).data 2 0 0 = 104

section Crowded

variable {dirs k : Nat} {v : Volume} (h : Crowded dirs v k)
include h

theorem Crowded.small : SmallVolume v.sb := by
  rw [h.sb, SmallVolume]
  decide

theorem Crowded.inode_two : inodeAt v 2 = sampleInode :=
  (diskTab_eq_some h.file.2.1).2.symm

theorem Crowded.isFile : IsFile v 2 := by
  refine ⟨⟨by decide, (view_used_iff.mp h.file.1).1⟩, ?_⟩
  rw [h.inode_two]
  decide

theorem Crowded.absent (hk : k < 1000) : dirFind v fsRootInode (crowdName k).1 = none := by
  obtain ⟨n, hp⟩ := h.packed
  rcases dirFind_spec h.healthy.sound hp.dir (crowdName k).1 with
    ⟨hnone, -⟩ | ⟨b, s, c, block, -, -, hfound, -⟩
  · exact hnone
  · rcases h.names b s c _ hfound.entry with hlen | ⟨j, hj, heq⟩
    · exact absurd rfl hlen
    · have := crowdName_injective hk (by omega) heq
      omega

theorem Crowded.inode (hk : k < 4000) :
    ∃ i, fsRootInode < i ∧ i < v.sb.totalInodes ∧ imapBit v i = false := by
  by_contra hnone
  obtain ⟨S, hcard, hused⟩ := h.inodes
  have hsub : Finset.Ico 2 4096 ⊆ S := by
    intro i hi
    rw [Finset.mem_Ico] at hi
    have hlt : i < v.sb.totalInodes := by
      rw [h.sb]
      exact hi.2
    refine hused i (view_used_iff.mpr ⟨hlt, ?_⟩)
    by_contra hfree
    exact hnone ⟨i, hi.1, hlt, Bool.not_eq_true _ ▸ hfree⟩
  have := Finset.card_le_card hsub
  rw [Nat.card_Ico] at this
  omega

omit h in
theorem crowdType_need (dirs k : Nat) :
    newNeed (crowdType dirs k).code + min k dirs = min (k + 1) dirs := by
  unfold crowdType
  split
  · rw [show newNeed FileType.directory.code = 1 from rfl]
    omega
  · rw [show newNeed FileType.file.code = 0 from rfl]
    omega

theorem Crowded.step (hdirs : dirs ≤ 166) (hk : k < 701) :
    Crowded dirs ((crowdOp dirs k).apply v) (k + 1) := by
  obtain ⟨n, hp⟩ := h.packed
  have hneed := crowdType_need dirs k
  have hgrow : growNeed (k + 3) + (k + 2) / 64 = (k + 3) / 64 := by
    unfold growNeed
    split <;> omega
  have hfree := h.free
  obtain ⟨i, u, m, hcreate, hdone, hpu, hsb, hcount, htab⟩ :=
    hp.create h.healthy h.small (h.absent (by omega)) (h.inode (by omega)) (by omega)
      (crowdType dirs k).code_cases (by omega)
  have hstep : (crowdOp dirs k).apply v = u := congrArg Prod.snd hcreate
  have hhealthy := h.healthy.step (crowdOp dirs k)
  obtain ⟨b, s, hc⟩ := hdone.created
  rw [hstep] at hhealthy ⊢
  refine ⟨hhealthy, hsb.trans h.sb, ⟨m, hpu⟩, by omega, ?_, ?_, ?_⟩
  · intro b' s' c name hentry
    rcases (hc.added b' s' c name).mp hentry with ⟨-, -, -, rfl⟩ | hold
    · exact Or.inr ⟨k, by omega, rfl⟩
    · rcases h.names b' s' c name hold with hlen | ⟨j, hj, heq⟩
      · exact Or.inl hlen
      · exact Or.inr ⟨j, by omega, heq⟩
  · obtain ⟨S, hcard, hused⟩ := h.inodes
    refine ⟨insert i S, (Finset.card_insert_le i S).trans (by omega), fun j hj => ?_⟩
    rw [hc.used] at hj
    by_cases hji : j = i
    · rw [hji]
      exact Finset.mem_insert_self i S
    · rw [Function.update_of_ne hji] at hj
      exact Finset.mem_insert_of_mem (hused j hj)
  · obtain ⟨hused, hino, hbyte⟩ := h.file
    have h2i : 2 ≠ i := by
      rintro rfl
      rw [hc.fresh] at hused
      cases hused
    have h2r : 2 ≠ fsRootInode := by decide
    refine ⟨?_, ?_, ?_⟩
    · rw [hc.used, Function.update_of_ne h2i, hused]
    · rw [htab 2 (view_used_iff.mp hused).1 h2i h2r, hino]
    · rw [(hdone.others 2 h2i h2r).2, hbyte]

end Crowded

theorem crowded_mkfs (dirs : Nat) {disk : Nat → Block}
    (h : mkfs 1048576 0 [sampleInput] = some disk) :
    ∃ v, fsInit 0 disk = some v ∧ Crowded dirs v 0 := by
  obtain ⟨sb, st, tab, hlayout, hfiles, hok, hm, hprep, hinit⟩ := mkfs_prepared h
  obtain rfl : sb = sampleSb := Option.some.inj (hlayout.symm.trans layout_sample)
  obtain ⟨st', hst, hnext, hinodes⟩ := addFiles_sample
  obtain rfl : st = st' := Option.some.inj (hfiles.symm.trans hst)
  have hf := hprep.finish hm hok.inodes_lo hok.inodes_hi
  refine ⟨finished sampleSb st, hinit, hf.healthy, rfl,
    ⟨1, hprep.packed hm hok.inodes_lo hok.inodes_hi⟩, ?_, ?_, ⟨{fsRootInode, 2}, ?_, ?_⟩, ?_⟩
  · rw [hprep.freeBlocks_eq hm, hnext]
    rfl
  · intro b s c name hentry
    obtain ⟨-, ⟨-, -, rfl⟩ | ⟨-, -, rfl⟩ | ⟨f, hf, -, rfl⟩⟩ := hf.entry_cases hentry
    · exact Or.inl (by decide)
    · exact Or.inl (by decide)
    · obtain rfl : f = sampleInput := by simpa using (inputAt_some hf).2.2
      exact Or.inl (by decide)
  · decide
  · intro i hi
    rcases (hf.used i).mp hi with rfl | hsome
    · simp
    · obtain ⟨f, hf⟩ := Option.isSome_iff_exists.mp hsome
      have := inputAt_some hf
      have : i = 2 := by
        simp only [List.length_cons, List.length_nil] at this
        omega
      simp [this]
  · have hused : (view (finished sampleSb st)).used 2 = true := (hf.used 2).mpr (Or.inr rfl)
    have hlt := (view_used_iff.mp hused).1
    refine ⟨hused, ?_, ?_⟩
    · rw [diskTab_eq hlt (Or.inl (view_used_iff.mp hused).2), finished_inodeAt hm st hlt, hinodes,
        read_setInodeAt, if_pos rfl]
    · rw [hf.data 2 0 (by decide)]
      rfl

theorem Crowded.run {dirs : Nat} {v : Volume} (h : Crowded dirs v 0) (hdirs : dirs ≤ 166) (k : Nat)
    (hk : k ≤ 701) : Crowded dirs (runOps v ((List.range k).map (crowdOp dirs))) k := by
  induction k with
  | zero => exact h
  | succ k ih =>
    rw [List.range_succ, List.map_append, runOps, List.foldl_append]
    exact (ih (by omega)).step hdirs (by omega)

/-- The root directory has its direct blocks full, and `166 - dirs` blocks are free. -/
theorem mkfs_crowded {dirs : Nat} (hdirs : dirs ≤ 166) :
    ∃ disk v, mkfs 1048576 0 [sampleInput] = some disk ∧ fsInit 0 disk = some v ∧
      Crowded dirs (runOps v (crowdOps dirs)) 701 := by
  obtain ⟨disk, hdisk⟩ := mkfs_sample
  obtain ⟨v, hinit, hstart⟩ := crowded_mkfs dirs hdisk
  exact ⟨disk, v, hdisk, hinit, hstart.run hdirs 701 (le_refl _)⟩

end OrangeOs.Storage
