import OrangeOs.Fs.Operations
import OrangeOs.Lib.SparseArray

/-! # File data as bytes

A file is the byte function its data blocks spell out. The read loop copies a
slice of it, the write loop overwrites a slice of it, whatever index levels the
blocks hang from: positions of different file blocks never meet.
-/

namespace OrangeOs.Fs

open Bytes Function List

/-- Byte `o` of a file with the given blocks. -/
def fileByte (D : Nat → Block) (o : Nat) : UInt8 := D (o / 4096) (o % 4096)

/-- The bytes `data` laid over a file from `pos` on. -/
abbrev overlay (f : Nat → UInt8) (pos : Nat) (data : List UInt8) : Nat → UInt8 :=
  SparseArray.overlay 0 f pos data

theorem fileByte_splice (D : Nat → Block) {pos : Nat} {data : List UInt8}
    (hfit : pos % 4096 + data.length ≤ 4096) :
    fileByte (update D (pos / 4096) (splice (D (pos / 4096)) (pos % 4096) data)) =
      overlay (fileByte D) pos data := by
  funext o
  unfold fileByte overlay SparseArray.overlay
  by_cases hblk : o / 4096 = pos / 4096
  · rw [hblk, update_self]
    by_cases hin : pos ≤ o ∧ o < pos + data.length
    · rw [if_pos hin, splice, if_pos (by omega)]
      congr 1
      omega
    · rw [if_neg hin, splice_of_outside _ _ (by omega)]
      dsimp only
      rw [hblk]
  · rw [update_of_ne hblk, if_neg]
    rintro ⟨h1, h2⟩
    omega

/-! ## Writing -/

/-- The state of a write to inode `i` that started from the inode `ino` and the
view `V`: the local inode is `ino'` and the file shows `D`. -/
structure Writing (i : Nat) (V : View) (ino : Inode) (w : Volume) (ino' : Inode) (D : Nat → Block) :
    Prop where
  running : ∃ tab, Running w tab i (V.setBlocks i D) ∧ tab i = some ino'
  valid : validInode w i
  roots : ∀ j, j < 14 → ino.root j ≠ 0 → ino'.root j = ino.root j
  type : ino'.type = ino.type
  size : ino'.size = ino.size
  links : ino'.linkCount = ino.linkCount

variable {v : Volume} {V : View} {ino0 ino : Inode} {i nr : Nat} {D : Nat → Block}

theorem Writing.start {tab : Table} (h : Running v tab i V) (hvalid : validInode v i)
    (hi : tab i = some ino) : Writing i V ino v ino (V.data i) := by
  refine ⟨⟨tab, ?_, hi⟩, hvalid, fun _ _ _ => rfl, rfl, rfl, rfl⟩
  rw [View.setBlocks_self]
  exact h

theorem Writing.lookup {index : Nat} (h : Writing i V ino0 v ino D)
    (hindex : index < fsMaxFileBlocks) :
    ∃ out ino' w, inodeDataBlock v ino index true = (out, ino', w) ∧ Writing i V ino0 w ino' D ∧
      ∀ b, out = some b → b ≠ 0 ∧ cacheGet w b = some (D index) ∧
        ∀ d, Writing i V ino0 (w.store b d) ino' (update D index d) := by
  obtain ⟨tab, hrun, hi⟩ := h.running
  obtain ⟨out, ino', w, he, hr, htype, hsize, hlink⟩ :=
    inodeDataBlock_spec true hrun.mounted hrun.owned hi hindex
  have hrun' := hrun.grow hr.grow fun j hj => update_of_ne hj _ _
  have hroots : ∀ j, j < 14 → ino0.root j ≠ 0 → ino'.root j = ino0.root j := by
    intro j hj hne
    have hold := h.roots j hj hne
    have hkeep := hr.grow.keep (r := (i, j)) (p := []) ⟨hj, by simp, by simp⟩
    simp only [blockAt, PointerForest.Store.at_nil, pointers, hi, update_self] at hkeep
    rw [hkeep (by rwa [hold]), hold]
  have hw : Writing i V ino0 w ino' D :=
    ⟨⟨_, hrun', update_self i _ _⟩, by rw [validInode, hr.grow.frame.sb]; exact h.valid,
      hroots, htype.trans h.type, hsize.trans h.size, hlink.trans h.links⟩
  refine ⟨out, ino', w, he, hw, ?_⟩
  rintro b rfl
  have hne : b ≠ 0 := fun h0 => hr.made rfl (by rw [h0])
  have hat := (hr.found b rfl).symm
  have hleaf := (locate_isLeaf hindex i).1
  have hdata : w.disk b = D index := by
    have hv := congrArg (fun W => W.data i index) hrun'.view
    simp only [viewOf, if_pos hindex, View.setBlocks_data_self, leaf, hat, if_neg hne] at hv
    exact hv
  refine ⟨hne, ?_, fun d => ?_⟩
  · rw [← hdata]
    exact cacheGet_of_lt (hat ▸ hr.grow.owned.hi hleaf (hat ▸ hne))
  · refine ⟨⟨update tab i (some ino'), ?_, update_self i _ _⟩, hw.valid, hw.roots,
      hw.type, hw.size, hw.links⟩
    have hstore := hrun'.store hindex d hat hne
    simpa [View.setData] using hstore

/-- The write loop: whatever its outcome the write is still in a consistent
state, and a loop that ran to its end has laid the data over the file. -/
theorem writeBlocks_spec (pos : Nat) (data : List UInt8) (h : Writing i V ino0 v ino D)
    (hfit : pos + data.length ≤ fsMaxFileSize) :
    ∃ ok ino' w D', writeBlocks v ino pos data = (ok, ino', w) ∧ Writing i V ino0 w ino' D' ∧
      (ok = true → fileByte D' = overlay (fileByte D) pos data) := by
  induction hlen : data.length using Nat.strong_induction_on generalizing v ino pos data D with
  | _ n ih =>
    by_cases hnil : data = []
    · subst hnil
      exact ⟨true, ino, v, D, by simp [writeBlocks], h, fun _ => (SparseArray.overlay_nil _ _ _).symm⟩
    · have hpos : 0 < data.length := length_pos_iff.mpr hnil
      have hindex : pos / 4096 < fsMaxFileBlocks := by
        unfold fsMaxFileSize at hfit
        exact Nat.div_lt_of_lt_mul (by omega)
      obtain ⟨out, ino', w, he, hw, hout⟩ := h.lookup hindex
      cases out with
      | none => exact ⟨false, ino', w, D, by rw [writeBlocks]; simp [hnil, he], hw, by simp⟩
      | some b =>
        obtain ⟨hne, hget, hstore⟩ := hout b rfl
        obtain ⟨x, rfl⟩ := Nat.exists_eq_succ_of_ne_zero hne
        generalize hchunk : min (4096 - pos % 4096) data.length = chunk
        have htake : (data.take chunk).length = chunk := by
          rw [length_take]
          omega
        have hdrop : (data.drop chunk).length = data.length - chunk := length_drop
        obtain ⟨ok, ino'', u, D', hrest, hw', hbytes⟩ :=
          ih (data.length - chunk) (by omega) (pos + chunk) (data.drop chunk)
            (hstore (splice (D (pos / 4096)) (pos % 4096) (data.take chunk)))
            (by omega) hdrop
        refine ⟨ok, ino'', u, D', ?_, hw', fun hok => ?_⟩
        · rw [writeBlocks]
          simp only [hnil, dite_false, he, hget, hchunk]
          exact hrest
        · rw [hbytes hok, fileByte_splice D (by omega)]
          have := SparseArray.overlay_append 0 (fileByte D) pos (data.take chunk) (data.drop chunk)
          rwa [htake, take_append_drop] at this

/-- The inode number of a file that `fs_get_inode` accepts. -/
structure IsFile (v : Volume) (nr : Nat) : Prop where
  valid : validInode v nr
  type : (inodeAt v nr).type = fsTypeFile

theorem IsFile.tab (h : IsFile v nr) : diskTab v nr = some (inodeAt v nr) :=
  diskTab_eq h.valid.2 (Or.inr h.type)

theorem IsFile.info (h : IsFile v nr) :
    (view v).info nr = (inodeAt v nr).info := view_info h.valid.2

theorem Writing.put {ino' : Inode} (h : Writing i V ino0 v ino D)
    (hroot : ∀ j, ino'.root j = ino.root j) (htype : ino'.type = fsTypeFile) :
    ∃ w, fsPutInode v i ino' = some w ∧ Sound w ∧
      view w = (V.setBlocks i D).setInfo i ino'.info := by
  obtain ⟨tab, hrun, htab⟩ := h.running
  obtain ⟨hrun, -⟩ := hrun.touch _ htab fun j _ => hroot j
  obtain ⟨w, hput, hs, hv, -⟩ := hrun.commit h.valid (update_self i _ _) (Or.inr htype)
  exact ⟨w, hput, hs, hv⟩

theorem Writing.abort {old now : Inode} (h : Writing i V old v now D)
    (htype : old.type = fsTypeFile) (hinfo : V.info i = old.info) :
    Sound (abortWrite v i old now) ∧ view (abortWrite v i old now) =
      V.setBlocks i fun k => if old.root (locate k).1 ≠ 0 then D k else zero := by
  obtain ⟨tab, hrun, htab⟩ := h.running
  have hc := rollbackNewBlocks_spec hrun.mounted hrun.owned htab h.roots (Frame.refl _ v)
  have hdrop := hrun.drop (fun j => old.root j ≠ 0) (some old) hc (by
    intro j hj
    by_cases h0 : old.root j = 0
    · simp [pointers, h0]
    · simp [pointers, h0, htab, h.roots j hj h0]) (by
    rintro b ⟨j, -, h0, hbelow⟩
    exact ⟨j, not_not.mpr h0, hbelow⟩)
  have hvalid : validInode (rollbackNewBlocks v old now) i := by
    rw [validInode, hc.frame.sb]
    exact h.valid
  obtain ⟨w, hput, hs, hv, -⟩ := hdrop.commit hvalid (update_self i _ _) (Or.inr htype)
  have hw : abortWrite v i old now = w := by simp [abortWrite, hput]
  rw [hw, hv, View.setBlocks_setBlocks, View.setBlocks_data_self]
  refine ⟨hs, ?_⟩
  simp only [View.setInfo, View.setBlocks, ← hinfo, update_eq_self]

/-- What `fs_write_inode` does to the view. -/
inductive WriteResult (v : Volume) (nr offset : Nat) (data : List UInt8) :
    Option Nat × Volume → Prop
  | refused : WriteResult v nr offset data (none, v)
  | failed {w : Volume} (D : Nat → Block) (file : IsFile v nr) (sound : Sound w)
      (changed : view w = (view v).setBlocks nr D) : WriteResult v nr offset data (none, w)
  | written {w : Volume} (D : Nat → Block) (file : IsFile v nr)
      (fits : offset + data.length ≤ fsMaxFileSize) (sound : Sound w)
      (changed : view w = ((view v).setBlocks nr D).setInfo nr { (view v).info nr with
        size := UInt64.ofNat (max ((view v).info nr).size.toNat (offset + data.length)) })
      (bytes : fileByte D = overlay (fileByte ((view v).data nr)) offset data) :
      WriteResult v nr offset data (some data.length, w)

theorem WriteResult.sound_snd {v : Volume} {nr offset : Nat} {data : List UInt8}
    {r : Option Nat × Volume} (h : WriteResult v nr offset data r) (hs : Sound v) : Sound r.2 := by
  cases h <;> assumption

theorem fsWriteInode_spec (hs : Sound v) (nr offset : Nat) (data : List UInt8) :
    WriteResult v nr offset data (fsWriteInode v nr offset data) := by
  unfold fsWriteInode
  by_cases hvalid : validInode v nr
  · rw [fsGetInode_eq hs.mounted hvalid]
    dsimp only
    split
    · exact .refused
    · next hno =>
      simp only [not_or, not_not, not_lt] at hno
      obtain ⟨htype, hoff, hlen, -⟩ := hno
      have hfile : IsFile v nr := ⟨hvalid, htype⟩
      have hfit : offset + data.length ≤ fsMaxFileSize := by omega
      have hstart := Writing.start (hs.running nr) hvalid hfile.tab
      obtain ⟨ok, ino, w, D, he, hw, hbytes⟩ := writeBlocks_spec offset data hstart hfit
      rw [he]
      cases ok with
      | false =>
        have habort := hw.abort htype hfile.info
        exact .failed _ hfile habort.1 habort.2
      | true =>
        dsimp only
        generalize hino' : (if ino.size.toNat < offset + data.length then
          { ino with size := UInt64.ofNat (offset + data.length) } else ino : Inode) = ino'
        have hroot : ∀ j, ino'.root j = ino.root j := by
          intro j
          rw [← hino']
          split <;> rfl
        have hinfo : ino'.info = { (view v).info nr with
            size := UInt64.ofNat (max ((view v).info nr).size.toNat
              (offset + data.length)) } := by
          rw [hfile.info]
          simp only [Inode.info]
          rw [← hw.size, ← hw.type, ← hw.links, ← hino']
          split
          · next hlt => rw [Nat.max_eq_right (by omega)]
          · next hge => rw [Nat.max_eq_left (by omega), UInt64.ofNat_toNat]
        have htype' : ino'.type = fsTypeFile := by
          have := congrArg Info.type hinfo
          rw [hfile.info] at this
          exact this.trans htype
        obtain ⟨u, hput, h1, h2⟩ := hw.put hroot htype'
        rw [hput]
        exact .written D hfile hfit h1 (by rw [h2, hinfo]) (hbytes rfl)
  · rw [fsGetInode, if_neg hvalid]
    exact .refused

/-! ## Reading -/

theorem readPiece {k : Nat} (hs : Sound v) (hi : diskTab v nr = some ino) (hk : k < fsMaxFileBlocks)
    (off chunk : Nat) :
    ∃ b, (inodeDataBlock v ino k false).1 = some b ∧
      (if b = 0 then replicate chunk 0 else slice (v.disk b) off chunk) =
        slice ((view v).data nr k) off chunk := by
  rcases dirBlock_cases hs hi hk with ⟨hhole, hdata⟩ | ⟨b, hne, hblock, hget, -⟩
  · refine ⟨0, hhole, ?_⟩
    rw [if_pos rfl, hdata]
    simp [slice, zero, map_const']
  · refine ⟨b, hblock, ?_⟩
    rw [if_neg hne]
    unfold cacheGet at hget
    split at hget
    · cases hget
    · rw [Option.some.inj hget]

theorem readBlocks_spec (hs : Sound v) (hi : diskTab v nr = some ino) (pos n : Nat)
    (hfit : pos + n ≤ fsMaxFileSize) :
    readBlocks v ino pos n =
      some ((range n).map fun t => fileByte ((view v).data nr) (pos + t)) := by
  induction n using Nat.strong_induction_on generalizing pos with
  | _ n ih =>
    rw [readBlocks]
    by_cases h0 : n = 0
    · simp [h0]
    · rw [if_neg h0]
      have hindex : pos / 4096 < fsMaxFileBlocks := by
        unfold fsMaxFileSize at hfit
        exact Nat.div_lt_of_lt_mul (by omega)
      generalize hchunk : min (4096 - pos % 4096) n = chunk
      have hrest := ih (n - chunk) (by omega) (pos + chunk) (by omega)
      have hbytes : slice ((view v).data nr (pos / 4096)) (pos % 4096) chunk =
          (range chunk).map fun t => fileByte ((view v).data nr) (pos + t) := by
        refine map_congr_left fun t ht => ?_
        have ht : t < chunk := by simpa using ht
        have h1 : (pos + t) / 4096 = pos / 4096 := by omega
        have h2 : (pos + t) % 4096 = pos % 4096 + t := by omega
        rw [fileByte, h1, h2]
      obtain ⟨b, hb, hpiece⟩ := readPiece hs hi hindex (pos % 4096) chunk
      rw [hbytes] at hpiece
      simp only [hb, hpiece, hrest, Option.map_some]
      congr 1
      have hsplit : n = chunk + (n - chunk) := by omega
      conv_rhs => rw [hsplit, range_add, map_append, map_map]
      congr 2
      funext t
      simp only [comp_apply]
      congr 1
      omega

theorem fsReadInode_spec (hs : Sound v) (hf : IsFile v nr)
    (hsize : ((view v).info nr).size.toNat ≤ fsMaxFileSize) (offset length : Nat) :
    fsReadInode v nr offset length =
      some ((range (min length (((view v).info nr).size.toNat - offset))).map fun t =>
        fileByte ((view v).data nr) (offset + t)) := by
  have hmax : fsMaxFileSize < 2 ^ 63 := by decide
  rw [hf.info] at hsize ⊢
  simp only [Inode.info] at hsize ⊢
  unfold fsReadInode
  rw [fsGetInode_eq hs.mounted hf.valid]
  dsimp only
  rw [if_neg (not_not.mpr hf.type)]
  by_cases h0 : (inodeAt v nr).size.toNat ≤ offset ∨ length = 0
  · have hzero : min length ((inodeAt v nr).size.toNat - offset) = 0 := by omega
    rw [if_pos h0, hzero]
    rfl
  · rw [if_neg h0, if_neg (by omega)]
    exact readBlocks_spec hs hf.tab _ _ (by omega)

/-! ## Files an operation leaves alone -/

/-- Every file of `W` is one of `V` with its size and bytes, or is empty. -/
def KeepsFiles (V W : View) : Prop := ∀ j, (W.info j).type = fsTypeFile →
  ((V.info j).type = fsTypeFile ∧ (W.info j).size = (V.info j).size ∧ W.data j = V.data j) ∨
    ((W.info j).size = 0 ∧ W.data j = fun _ => zero)

theorem KeepsFiles.refl (V : View) : KeepsFiles V V := fun _ h => Or.inl ⟨h, rfl, rfl⟩

theorem KeepsFiles.trans {U W : View} (h1 : KeepsFiles U V) (h2 : KeepsFiles V W) :
    KeepsFiles U W := by
  intro j hj
  rcases h2 j hj with ⟨ht, hsize, hdata⟩ | hempty
  · rw [hsize, hdata]
    exact h1 j ht
  · exact Or.inr hempty

end OrangeOs.Fs
