import OrangeOs.Fs.FileData
import OrangeOs.Fs.Space

/-! # Rejected writes

What a write that runs out of blocks leaves behind. The rollback sees the file's
fourteen pointer slots before and after, so it undoes what was hung below slots that
were null, and nothing else: data written over blocks in use, blocks hung below
an index block in use, and a block with a number beyond `int` stay.
-/

namespace OrangeOs.Fs

open Bytes Function

/-- The current inodes while an operation holds the inode `i` in a local copy. -/
def localTab (v : Volume) (i : Nat) (ino : Inode) : Table :=
  update (diskTab v) i (some ino)

theorem localTab_self (v : Volume) (i : Nat) (ino : Inode) : localTab v i ino i = some ino :=
  update_self _ _ _

variable {v w : Volume} {i : Nat} {ino : Inode} {V : View} {tab : Table} {D : Nat → Block}

theorem localTab_grow (hm : Mounted v.sb) (hframe : Frame (growRegion v.sb) v w) (i : Nat)
    (ino : Inode) : localTab w i ino = localTab v i ino := by
  rw [localTab, localTab, diskTab_grow hm hframe]

theorem Running.localTab_eq (h : Running v tab i V) (hi : tab i = some ino) :
    tab = localTab v i ino := by
  funext j
  by_cases hj : j = i
  · subst hj
    rw [hi, localTab_self]
  · rw [localTab, update_of_ne hj, h.agree j hj]

theorem Writing.running_local {ino0 : Inode} (h : Writing i V ino0 v ino D) :
    Running v (localTab v i ino) i (V.setBlocks i D) := by
  obtain ⟨tab, hrun, hi⟩ := h.running
  rw [← hrun.localTab_eq hi]
  exact hrun

/-! ## What a rollback leaves -/

/-- The blocks that stay marked if the write is given up: those not below a slot that was
null in `old`. -/
def Kept (i : Nat) (old : Inode) (v : Volume) (ino : Inode) (x : Nat) : Prop :=
  bmapBit v x = true ∧ ¬∃ j, j < 14 ∧ old.root j = 0 ∧ Below v (localTab v i ino) (i, j) [] x

section Kept

variable {old ino' : Inode} {x j index : Nat} {path : List Nat}

section Grow

variable (hg : Grow v (localTab v i ino) w (localTab w i ino'))
include hg

theorem Grow.kept (hx : x < v.sb.totalBlocks) (h : Kept i old v ino x) : Kept i old w ino' x := by
  refine ⟨hg.bits x hx h.1, ?_⟩
  rintro ⟨k, hk, h0, hx0, p, hp, hat⟩
  rw [List.nil_append] at hp hat
  by_cases hnull : blockAt v (localTab v i ino) (i, k) p = 0
  · have hfree := hg.fresh hp hnull (by rwa [hat])
    rw [hat, h.1] at hfree
    cases hfree
  · exact h.2 ⟨k, hk, h0, hx0, p, hp, (hg.keep hp hnull).symm.trans hat⟩

end Grow

section Lookup

variable (h : Writing i V old v ino D) (hindex : index < fsMaxFileBlocks)
include h hindex

theorem Writing.grow {out : Option Nat} (he : inodeDataBlock v ino index true = (out, ino', w)) :
    Grow v (localTab v i ino) w (localTab w i ino') ∧
      ∀ b, out = some b →
        b = blockAt w (localTab w i ino') (i, (locate index).1) (locate index).2 := by
  have hrun := h.running_local
  obtain ⟨_, _, _, he', hr, -⟩ := inodeDataBlock_spec true hrun.mounted hrun.owned
    (localTab_self v i ino) hindex
  cases he.symm.trans he'
  have htab : update (localTab v i ino) i (some ino') = localTab w i ino' := by
    rw [localTab_grow hrun.mounted hr.grow.frame, localTab, localTab, update_idem]
  rw [htab] at hr
  exact ⟨hr.grow, hr.found⟩

theorem Writing.extends {out : Option Nat}
    (he : inodeDataBlock v ino index true = (out, ino', w)) :
    ∃ u, Extends (i, (locate index).1) (locate index).2 v (localTab v i ino) u
      (localTab u i ino') ∧ EndsIn out u w := by
  have hrun := h.running_local
  obtain ⟨u, hext, hend⟩ := inodeDataBlock_extends hrun.mounted hrun.owned (localTab_self v i ino)
    hindex true he
  have htab : update (localTab v i ino) i (some ino') = localTab u i ino' := by
    rw [localTab_grow hrun.mounted hext.grow.frame, localTab, localTab, update_idem]
  rw [htab] at hext
  exact ⟨u, hext, hend⟩

end Lookup

end Kept

/-- The byte at `o` of a file with `size` bytes is replaced unseen: below the size it is the
same, and from there on a zero stays one. -/
structure Unseen (size o : Nat) (old new : UInt8) : Prop where
  within : o < size → new = old
  beyond : size ≤ o → old = 0 → new = 0

theorem Unseen.refl (size o : Nat) (b : UInt8) : Unseen size o b b := ⟨fun _ => rfl, fun _ h => h⟩

theorem slice_congr {b b' : Block} {off n : Nat} (h : ∀ x, x < n → b' (off + x) = b (off + x)) :
    slice b' off n = slice b off n :=
  List.map_congr_left fun x hx => h x (List.mem_range.mp hx)

theorem readBlocks_congr {nr : Nat} {ino' : Inode} (hs : Sound v) (hs' : Sound w)
    (hi : diskTab v nr = some ino) (hi' : diskTab w nr = some ino') (pos n : Nat)
    (hdata : ∀ o, o < pos + n → fileByte ((view w).data nr) o = fileByte ((view v).data nr) o) :
    readBlocks w ino' pos n = readBlocks v ino pos n := by
  induction n using Nat.strong_induction_on generalizing pos with
  | _ n ih =>
    rw [readBlocks, readBlocks.eq_def v]
    by_cases h0 : n = 0
    · rw [if_pos h0, if_pos h0]
    · rw [if_neg h0, if_neg h0]
      generalize hchunk : min (4096 - pos % 4096) n = chunk
      have hrest := ih (n - chunk) (by omega) (pos + chunk) fun o ho => hdata o (by omega)
      by_cases hk : pos / 4096 < fsMaxFileBlocks
      · obtain ⟨b, hb, hpiece⟩ := readPiece hs hi hk (pos % 4096) chunk
        obtain ⟨b', hb', hpiece'⟩ := readPiece hs' hi' hk (pos % 4096) chunk
        have hslice : slice ((view w).data nr (pos / 4096)) (pos % 4096) chunk =
            slice ((view v).data nr (pos / 4096)) (pos % 4096) chunk := slice_congr fun x hx => by
          have hbyte := hdata (pos + x) (by omega)
          rwa [fileByte, fileByte, show (pos + x) / 4096 = pos / 4096 by omega,
            show (pos + x) % 4096 = pos % 4096 + x by omega] at hbyte
        simp only [hb, hb', hpiece, hpiece', hslice, hrest]
      · have hnone : ∀ (u : Volume) (x : Inode),
            (inodeDataBlock u x (pos / 4096) false).1 = none := fun u x => by
          rw [inodeDataBlock, if_pos (by omega)]
        simp only [hnone]

end OrangeOs.Fs
