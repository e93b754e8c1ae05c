import OrangeOs.Fs.Effects

/-! # Creation

`fs_create_path` builds an inode, stores it, enters it in the parent directory
and undoes all of that when the last step fails. Its effect on the view is
either invisible, since only the unused inode slot differs, or one new entry.
-/

namespace OrangeOs.Fs

open Bytes Function View

/-! ## The block of a new directory -/

variable {d i n p k s : Nat} {V : View} {v w u : Volume} {type : UInt16} {ino : Inode} {name : Str}

section Strcpy

variable (b : Block) (i nr : Nat)

theorem strcpyEntry_of_outside (hname : name.length < 60) (h : k < 64 * i ∨ 64 * i + 64 ≤ k) :
    strcpyEntry b i nr name k = b k := by
  have hlen : (name ++ [(0 : UInt8)]).length = name.length + 1 := by simp
  rw [strcpyEntry, splice_of_outside _ _ (by omega), writeLE_of_outside _ _ (by omega)]

theorem entryInode_strcpyEntry (hnr : nr < 2 ^ 32) :
    entryInode (strcpyEntry b i nr name) i = nr := by
  rw [entryInode, strcpyEntry, readLE_splice_of_disjoint _ (by omega)]
  exact readLE_writeLE_of_lt b (64 * i) hnr

theorem entryName_strcpyEntry (hname : EntryName name) :
    entryName (strcpyEntry b i nr name) i = name := by
  have hlen : (name ++ [(0 : UInt8)]).length = name.length + 1 := by simp
  have hlt := hname.2.1
  have hsplit : 60 = name.length + 1 + (59 - name.length) := by omega
  have hhead := slice_splice (writeLE 4 b (64 * i) nr) (64 * i + 4) (name ++ [0])
  rw [hlen] at hhead
  rw [entryName, hsplit, slice_add, strcpyEntry, hhead, List.append_assoc]
  have hall : ∀ c ∈ name, decide (c ≠ 0) = true := by
    intro c hc
    simp only [ne_eq, decide_eq_true_eq]
    rintro rfl
    exact hname.2.2 hc
  rw [List.takeWhile_append_of_pos hall]
  simp

end Strcpy

theorem entryName_dot : EntryName dot := by
  refine ⟨by decide, by decide, by decide⟩

theorem entryName_dotdot : EntryName dotdot := by
  refine ⟨by decide, by decide, by decide⟩

/-- The first block of a new directory: the two dot entries and nothing else. -/
def dotBlock (nr parent : Nat) : Block :=
  strcpyEntry (strcpyEntry zero 0 nr dot) 1 parent dotdot

section DotBlock

variable (hi32 : i < 2 ^ 32) (hp32 : p < 2 ^ 32)

include hi32 in
theorem dotBlock_self : entryInode (dotBlock i p) 0 = i ∧ entryName (dotBlock i p) 0 = dot := by
  have hsame : ∀ x, 64 * 0 ≤ x → x < 64 * 0 + 64 → dotBlock i p x = strcpyEntry zero 0 i dot x :=
    fun x _ _ => strcpyEntry_of_outside _ _ _ (by decide) (by omega)
  rw [entryInode_congr hsame, entryName_congr hsame]
  exact ⟨entryInode_strcpyEntry _ _ _ hi32, entryName_strcpyEntry _ _ _ entryName_dot⟩

include hp32 in
theorem dotBlock_up : entryInode (dotBlock i p) 1 = p ∧ entryName (dotBlock i p) 1 = dotdot :=
  ⟨entryInode_strcpyEntry _ _ _ hp32, entryName_strcpyEntry _ _ _ entryName_dotdot⟩

theorem dotBlock_rest (hs : 2 ≤ s) : entryInode (dotBlock i p) s = 0 := by
  have hsame : ∀ x, 64 * s ≤ x → x < 64 * s + 64 → dotBlock i p x = zero x := by
    intro x h1 h2
    rw [dotBlock, strcpyEntry_of_outside _ _ _ (by decide) (by omega),
      strcpyEntry_of_outside _ _ _ (by decide) (by omega)]
  rw [entryInode_congr hsame, entryInode_zero]

end DotBlock

def dotBlocks (nr parent : Nat) : Nat → Block :=
  update (fun _ => zero) 0 (dotBlock nr parent)

theorem entry_dotBlocks (hdata : V.data i = dotBlocks i p) (hi : i ≠ 0) (hi32 : i < 2 ^ 32)
    (hp : p ≠ 0) (hp32 : p < 2 ^ 32) (k s c : Nat) (nm : Str) :
    V.Entry i k s c nm ↔
      (k = 0 ∧ s = 0 ∧ c = i ∧ nm = dot) ∨ (k = 0 ∧ s = 1 ∧ c = p ∧ nm = dotdot) := by
  have hzero : dotBlocks i p 0 = dotBlock i p := update_self _ _ _
  have hself := dotBlock_self (p := p) hi32
  have hup := dotBlock_up (i := i) hp32
  rw [← hzero] at hself hup
  have hrest : ∀ s, 2 ≤ s → entryInode (dotBlocks i p 0) s = 0 := fun s hs =>
    hzero ▸ dotBlock_rest hs
  constructor
  · intro h
    have h1 := h.inode
    have h2 := h.name
    rw [hdata] at h1 h2
    by_cases hk : k = 0
    · subst hk
      by_cases hs0 : s = 0
      · subst hs0
        exact Or.inl ⟨rfl, rfl, h1.symm.trans hself.1, h2.symm.trans hself.2⟩
      · by_cases hs1 : s = 1
        · subst hs1
          exact Or.inr ⟨rfl, rfl, h1.symm.trans hup.1, h2.symm.trans hup.2⟩
        · exact absurd (h1.symm.trans (hrest s (by omega))) h.used
    · have hzero : dotBlocks i p k = zero := by simp [dotBlocks, hk]
      rw [hzero, entryInode_zero] at h1
      exact absurd h1.symm h.used
  · rintro (⟨rfl, rfl, rfl, rfl⟩ | ⟨rfl, rfl, rfl, rfl⟩)
    · exact ⟨by decide, by rw [hdata]; exact hself.1, hi, by rw [hdata]; exact hself.2⟩
    · exact ⟨by decide, by rw [hdata]; exact hup.1, hp, by rw [hdata]; exact hup.2⟩

/-! ## The new inode -/

/-- Nothing hangs from an inode whose pointers are null, so it may replace
whatever the slot held. -/
theorem Running.fresh {tab : Table} (h : Running v tab i V) (ino : Inode)
    (hroot : ∀ j, j < 14 → ino.root j = 0) :
    Running v (update tab i (some ino)) i (V.setBlocks i fun _ => zero) := by
  have hdrop := h.drop (fun _ => False) (some ino)
    (Cleared.none (S := fun _ => False) fun _ => id) (by
      intro j hj
      simp [pointers, hroot j hj]) (fun _ hb => hb.elim)
  simpa using hdrop

/-- The fields and the data of an inode just made. -/
def newInfo (type : UInt16) : Info := ⟨type, if type = fsTypeDirectory then 4096 else 0, 1⟩

def newBlocks (type : UInt16) (i p : Nat) : Nat → Block :=
  if type = fsTypeDirectory then dotBlocks i p else fun _ => zero

/-- The outcome of building the inode of a new file or directory. -/
structure NewInode (v : Volume) (i p : Nat) (V : View) (type : UInt16) (ino : Inode) (w : Volume) :
    Prop where
  running : ∃ tab, Running w tab i (V.setBlocks i (newBlocks type i p)) ∧ tab i = some ino
  info : ino.info = newInfo type
  roots : type ≠ fsTypeDirectory → ∀ j, j < 14 → ino.root j = 0
  frame : Frame (growRegion v.sb) v w

theorem newInode_spec {tab : Table} (h : Running v tab i V) (p : Nat) (type : UInt16) :
    (∃ w, newInode v i p type = (none, w) ∧ Running w tab i V ∧ Frame (growRegion v.sb) v w) ∨
    ∃ ino w, newInode v i p type = (some ino, w) ∧ NewInode v i p V type ino w := by
  unfold newInode
  split
  next htype =>
    rcases allocDataBlock_spec h.mounted with ⟨w, he, hf⟩ | ⟨n, w, he, ha⟩
    · rw [he]
      have hg := h.owned.grow_failed h.mounted hf
      exact Or.inl ⟨w, rfl, h.grow hg fun _ _ => rfl, hg.frame⟩
    · rw [he]
      have hn32 := ha.lt_word h.mounted
      have hget : cacheGet w n = some zero := by
        rw [← ha.blank]
        exact cacheGet_of_lt (by rw [ha.frame.sb]; exact ha.hi)
      -- the slot is emptied first, then the block is attached to its first pointer
      have hfresh := h.fresh (freshInode type 4096) fun j _ => Inode.root_blank j
      have hg := hfresh.owned.grow_root hfresh.mounted ha (update_self i _ _)
        (by decide : 0 < 14) (Inode.root_blank 0)
      rw [update_idem] at hg
      have hrun := hfresh.grow hg fun j hj => by
        rw [update_of_ne hj, update_of_ne hj]
      have hat : blockAt w (update tab i (some ((freshInode type 4096).setRoot 0 n)))
          (i, (locate 0).1) (locate 0).2 = n := by
        simp [locate, pointers, Inode.root_setRoot hn32]
      have hstore := hrun.store (k := 0) (by decide)
        (strcpyEntry (strcpyEntry zero 0 i dot) 1 p dotdot) hat (ha.ne_zero h.mounted)
      refine Or.inr ⟨(freshInode type 4096).setRoot 0 n,
        w.store n (strcpyEntry (strcpyEntry zero 0 i dot) 1 p dotdot), by simp only [hget],
        ⟨⟨update tab i (some ((freshInode type 4096).setRoot 0 n)), ?_,
          update_self i _ _⟩, ?_, ?_, ?_⟩⟩
      · rw [newBlocks, if_pos htype]
        simpa [setData, dotBlocks, dotBlock] using hstore
      · simp [Inode.info, newInfo, htype, freshInode]
      · exact fun hne => absurd htype hne
      · exact hg.frame.trans (Frame.store w _ (Or.inr ha.lo))
  next htype =>
    have hroot : ∀ j, j < 14 → (freshInode type 0).root j = 0 := fun j _ => Inode.root_blank j
    refine Or.inr ⟨freshInode type 0, v, rfl, ⟨⟨update tab i (some (freshInode type 0)), ?_,
      update_self i _ _⟩, ?_, fun _ => hroot, Frame.refl _ v⟩⟩
    · rw [newBlocks, if_neg htype]
      exact h.fresh _ hroot
    · rw [newInfo, if_neg htype]
      rfl

/-! ## The outcomes of a creation -/

/-- A creation of inode `i` that failed after the number was taken. -/
structure CreateFailed (v w : Volume) (i : Nat) : Prop where
  sound : Sound w
  fresh : (view v).used i = false
  only : OnlyAt (view v) (view w) i
  files : KeepsFiles (view v) (view w)

/-- A creation that entered inode `i` in directory `p`. -/
structure CreateDone (v w : Volume) (p i : Nat) (name : Str) (type : UInt16) : Prop where
  sound : Sound w
  created : ∃ k s, Created (view v) (view w) p k s i name
  info : ((view w).info i) = newInfo type
  data : (view w).data i = newBlocks type i p
  others : ∀ j, j ≠ i → j ≠ p → SameInode v w j

/-- Taking back an inode that could not be entered: its blocks and its bit go,
the slot keeps the fields it was given. -/
theorem undoCreate_spec (hs : Sound v) (htab : diskTab v i = some ino) (htype : ino.type = type)
    (hkind : type = fsTypeFile ∨ type = fsTypeDirectory)
    (hroots : type ≠ fsTypeDirectory → ∀ j, j < 14 → ino.root j = 0) :
    Sound (bitmapFree (freeInodeBlocks v ino) (freeInodeBlocks v ino).sb.imapStart i) ∧
      view (bitmapFree (freeInodeBlocks v ino) (freeInodeBlocks v ino).sb.imapStart i) =
        ((view v).setBlocks i fun _ => zero).setUsed i false := by
  obtain ⟨hlt, hino⟩ := diskTab_eq_some htab
  obtain ⟨hrun, hframe⟩ := (hs.running i).release
    (x := if type = fsTypeDirectory then none else some ino) htab (by
      intro ino' hx
      split at hx
      · cases hx
      · next hne =>
        cases hx
        exact hroots hne)
  have hlt' : i < (freeInodeBlocks v ino).sb.totalInodes := by
    rw [hframe.sb]
    exact hlt
  obtain ⟨hrun, hsb, himap, hsame⟩ := bitmapFree_running hrun hlt'
  have hslot : inodeAt (bitmapFree (freeInodeBlocks v ino) (freeInodeBlocks v ino).sb.imapStart i) i
      = ino := by
    rw [hsame i hlt', inodeAt_grow hs.mounted hframe hlt, hino]
  refine hrun.finish ?_
  rw [update_self]
  rcases hkind with rfl | rfl
  · rw [if_neg (by decide), diskTab_eq (by rw [hsb]; exact hlt') (Or.inr (by rw [hslot, htype])),
      hslot]
  · rw [if_pos rfl, diskTab_eq_none himap]
    rw [hslot, htype]
    decide

theorem View.setUsed_self {b : Bool} (h : V.used i = b) : V.setUsed i b = V := by
  subst h
  simp [setUsed]

theorem dirAdd_of_not_dir (hs : Sound v) (hd : ¬(view v).IsDir d) (hused : (view v).used d = true)
    (name : Str) (nr : Nat) : dirAdd v d name nr = (false, v) := by
  have hlt := (view_used_iff.mp hused).1
  unfold dirAdd
  split
  · rfl
  · cases hget : fsGetInode v d with
    | none => rfl
    | some dir =>
      obtain ⟨-, rfl⟩ := fsGetInode_some hs.mounted hget
      refine if_pos fun ht => hd ⟨hused, ?_⟩
      rw [view_info hlt]
      exact ht

/-- The view with a new inode that no directory names yet. -/
def View.install (V : View) (i : Nat) (info : Info) (D : Nat → Block) : View :=
  ((V.setUsed i true).setBlocks i D).setInfo i info

theorem View.install_of_ne (V : View) {j : Nat} (info : Info) (D : Nat → Block) (h : j ≠ i) :
    (V.install i info D).used j = V.used j ∧ (V.install i info D).info j = V.info j ∧
      (V.install i info D).data j = V.data j := by
  simp [install, setInfo, setBlocks, setUsed, h]

theorem View.install_self (V : View) (i : Nat) (info : Info) (D : Nat → Block) :
    (V.install i info D).info i = info ∧ (V.install i info D).data i = D := by
  simp [install, setInfo, setBlocks]

theorem View.enter_of_ne (V : View) (n k s nr : Nat) (name : Str) {j : Nat} (h : j ≠ d) :
    (V.enter d n k s nr name).info j = V.info j ∧ (V.enter d n k s nr name).data j = V.data j := by
  unfold enter
  split <;> simp [setData, setBlocks, setInfo, h]

theorem View.enter_same (V : View) (d n k s nr : Nat) (name : Str) :
    (V.enter d n k s nr name).used = V.used ∧ (V.enter d n k s nr name).refs = V.refs ∧
      (V.enter d n k s nr name).data d =
        update (V.data d) k (setEntry (V.data d k) s nr name) ∧
      ((V.enter d n k s nr name).info d).type = (V.info d).type ∧
      ((V.enter d n k s nr name).info d).linkCount = (V.info d).linkCount := by
  unfold enter
  split <;> simp [setData, setBlocks, setInfo]

theorem View.Dir.enter (h : V.Dir d n) (s nr : Nat) (name : Str)
    (hmax : k < fsMaxFileBlocks) : (V.enter d n k s nr name).Dir d (max n (k + 1)) := by
  obtain ⟨hused, -, hdata, htype, -⟩ := V.enter_same d n k s nr name
  refine ⟨h.pos, by rw [hused]; exact h.used, htype.trans h.type, ?_, ?_, ?_, ?_⟩
  · unfold View.enter
    split
    · next hlt =>
      rw [Nat.max_eq_left (by omega)]
      exact h.size
    · next hge =>
      have hbound : (k + 1) * 4096 < 2 ^ 64 := by
        unfold fsMaxFileBlocks at hmax
        omega
      rw [Nat.max_eq_right (by omega)]
      simp only [setData, setBlocks, setInfo, update_self,
        UInt64.toNat_ofNat', Nat.mod_eq_of_lt hbound]
      omega
  · have := h.one_le
    omega
  · have := h.le_max
    omega
  · intro l hl
    rw [hdata, update_of_ne (by omega)]
    exact h.tail l (by omega)

/-- The view of a creation, put together from the new inode, the new entry and
the parent's link count. -/
theorem Created.of_steps {W : View} {info : Info} {D : Nat → Block} (hV : V.Names) (hp : V.Dir p n)
    (hfresh : V.used i = false) (hi : i ≠ 0) (hi32 : i < 2 ^ 32) (hp32 : p < 2 ^ 32) (hk : k ≤ n)
    (hmax : k < fsMaxFileBlocks) (hs : s < 64) (hfree : entryInode (V.data p k) s = 0)
    (hname : EntryName name) (hslash : slash ∉ name) (hdot : name ≠ dot) (hdotdot : name ≠ dotdot)
    (habsent : ∀ k s c, ¬V.Entry p k s c name)
    (hkind : (info.type = fsTypeFile ∧ info.linkCount ≠ 0) ∨
      (info.type = fsTypeDirectory ∧ info.size = 4096 ∧ D = dotBlocks i p))
    (hused : W.used = ((V.install i info D).enter p n k s i name).used) (hrefs : W.refs = V.refs)
    (hdata : W.data = ((V.install i info D).enter p n k s i name).data)
    (hinfo : ∀ j, j ≠ p → W.info j = ((V.install i info D).enter p n k s i name).info j)
    (hpinfo : (W.info p).type = (V.info p).type ∧
      (W.info p).size = (((V.install i info D).enter p n k s i name).info p).size) :
    Created V W p k s i name := by
  have hpi : p ≠ i := by
    rintro rfl
    rw [hp.used] at hfresh
    cases hfresh
  obtain ⟨hiu, hii, hid⟩ := V.install_of_ne info D hpi
  obtain ⟨heu, -, hed, het, -⟩ := (V.install i info D).enter_same p n k s i name
  have hpdir : (V.install i info D).Dir p n := hp.congr hiu (by rw [hii]) (by rw [hii]) hid
  have hWp : W.data p = update (V.data p) k (setEntry (V.data p k) s i name) := by
    rw [hdata, hed, hid]
  have hWused : W.used = update V.used i true := by
    rw [hused, heu]
    rfl
  have hWi : W.info i = info ∧ W.data i = D := by
    obtain ⟨h1, h2⟩ := (V.install i info D).enter_of_ne n k s i name
      (Ne.symm hpi)
    rw [hinfo i (Ne.symm hpi), hdata, h1, h2]
    exact V.install_self i info D
  have hWo : ∀ j, j ≠ i → j ≠ p → W.info j = V.info j ∧ W.data j = V.data j := by
    intro j h1 h2
    obtain ⟨h3, h4⟩ := (V.install i info D).enter_of_ne n k s i name h2
    obtain ⟨-, h5, h6⟩ := V.install_of_ne info D h1
    rw [hinfo j h2, hdata, h3, h4, h5, h6]
    exact ⟨rfl, rfl⟩
  have htype : ∀ j, j ≠ i → (W.info j).type = (V.info j).type := by
    intro j hj
    by_cases hjp : j = p
    · rw [hjp]
      exact hpinfo.1
    · rw [(hWo j hj hjp).1]
  refine ⟨hp.isDir, hfresh, hi, hname, hslash, hdot, hdotdot, habsent, hWused, hrefs,
    fun j hj _ => htype j hj, ?_, ?_, fun d h1 h2 _ => (hWo d h1 h2).2, ?_, ?_⟩
  · intro j hj hu hf
    have hjp : j ≠ p := by
      rintro rfl
      exact absurd (hf.symm.trans hp.type) (by decide)
    rw [(hWo j hj hjp).1]
  · intro d hd
    by_cases hdi : d = i
    · subst hdi
      rcases hkind with ⟨hf, -⟩ | ⟨-, hsize, hD⟩
      · have := hd.2
        rw [hWi.1, hf] at this
        exact absurd this (by decide)
      · refine ⟨1, Nat.pos_of_ne_zero hi, hd.1, hd.2, ?_, le_refl 1, by decide, ?_⟩
        · rw [hWi.1, hsize]
          rfl
        · intro l hl
          rw [hWi.2, hD, dotBlocks, update_of_ne (by omega)]
    · have hdV : V.IsDir d := by
        refine ⟨?_, (htype d hdi).symm.trans hd.2⟩
        have := hd.1
        rwa [hWused, update_of_ne hdi] at this
      by_cases hdp : d = p
      · subst hdp
        have hm := hpdir.enter s i name hmax
        exact ⟨_, hm.congr (by rw [hused]) (hpinfo.1.trans (by rw [het, hii])) hpinfo.2
          (by rw [hdata])⟩
      · obtain ⟨m, hm⟩ := hV.dirs hdV
        obtain ⟨h1, h2⟩ := hWo d hdi hdp
        exact ⟨_, hm.congr (hd.1.trans hdV.1.symm) (by rw [h1]) (by rw [h1]) h2⟩
  · intro k' s' c nm
    rw [entry_set hs hname hi hi32 hWp]
    refine or_congr_right ⟨fun h => h.1, fun h => ⟨h, ?_⟩⟩
    rintro ⟨rfl, rfl⟩
    exact h.used (h.inode.symm.trans hfree)
  · rw [hWi.1]
    refine hkind.imp_right fun hk => ⟨hk.1, fun k' s' c nm => ?_⟩
    exact entry_dotBlocks (hWi.2.trans hk.2.2) hi hi32 (Nat.pos_iff_ne_zero.mp hp.pos) hp32 k' s' c nm

/-! ## The operation -/

/-- The state right after `bitmap_allocate` has taken inode `i`. -/
structure Taken (v w : Volume) (i : Nat) : Prop where
  ge : fsRootInode + 1 ≤ i
  lt : i < v.sb.totalInodes
  free : imapBit v i = false
  frame : Frame (imapRegion v.sb) v w
  bits : ∀ x, x < v.sb.totalInodes → imapBit w x = (decide (x = i) || imapBit v x)

theorem Taken.running (ht : Taken v w i) (hs : Sound v) :
    Running w (diskTab v) i ((view v).setUsed i true) ∧
      ∀ j, j < v.sb.totalInodes → inodeAt w j = inodeAt v j := by
  refine (hs.running i).imap (b := true) ht.lt ht.frame fun x hx => ?_
  rw [ht.bits x hx]
  by_cases hxi : x = i <;> simp [hxi]

theorem Taken.fresh (ht : Taken v w i) : (view v).used i = false := by
  simp [view, viewOf, ht.free]

theorem Taken.put (ht : Taken v w i) (hn : NewInode w i p ((view v).setUsed i true) type ino u) :
    ∃ z, fsPutInode u i ino = some z ∧ Sound z ∧ z.sb = v.sb ∧ diskTab z i = some ino ∧
      view z = (view v).install i (newInfo type) (newBlocks type i p) := by
  obtain ⟨tab, hrun, htab⟩ := hn.running
  have hsb : u.sb = v.sb := hn.frame.sb.trans ht.frame.sb
  have hvalid : validInode u i := by
    rw [validInode, hsb]
    exact ⟨by have := ht.ge; unfold fsRootInode at this; omega, ht.lt⟩
  have hused : imapBit u i = true := by
    have hv := congrArg (fun V => V.used i) hrun.view
    simp only [setBlocks, setUsed, update_self, viewOf, Bool.and_eq_true] at hv
    exact hv.2
  obtain ⟨z, hput, h1, h2, hsb', hdisk, -⟩ := hrun.commit hvalid htab (Or.inl hused)
  refine ⟨z, hput, h1, hsb'.trans hsb, hdisk ▸ htab, ?_⟩
  rw [h2, hn.info]
  rfl

theorem Taken.abandon (hs : Sound v) (ht : Taken v w i)
    (hrun : Running u (diskTab v) i ((view v).setUsed i true))
    (hframe : Frame (growRegion w.sb) w u) : CreateFailed v (bitmapFree u u.sb.imapStart i) i := by
  have hfresh := ht.fresh
  have hsb : u.sb = v.sb := hframe.sb.trans ht.frame.sb
  have hlt : i < u.sb.totalInodes := by
    rw [hsb]
    exact ht.lt
  have hw : Mounted w.sb := by
    rw [ht.frame.sb]
    exact hs.mounted
  obtain ⟨hrun, hsb', himap, hsame⟩ := bitmapFree_running hrun hlt
  have hslot : inodeAt (bitmapFree u u.sb.imapStart i) i = inodeAt v i := by
    rw [hsame i hlt, inodeAt_grow hw hframe (by rw [ht.frame.sb]; exact ht.lt),
      (ht.running hs).2 i ht.lt]
  have htab : diskTab (bitmapFree u u.sb.imapStart i) i = diskTab v i := by
    unfold diskTab
    rw [himap, hslot, hsb', hsb, ht.free]
  obtain ⟨h1, h2⟩ := hrun.finish htab.symm
  have hview : view (bitmapFree u u.sb.imapStart i) = view v := by
    rw [h2]
    simp only [setUsed, update_idem]
    exact setUsed_self hfresh
  refine ⟨h1, hfresh, ?_, ?_⟩
  · rw [hview]
    exact ⟨rfl, rfl, fun _ _ => rfl, fun _ _ => rfl⟩
  · rw [hview]
    exact KeepsFiles.refl _

theorem Taken.withdraw {y : Volume} (ht : Taken v w i) (hy : Sound y)
    (htab : diskTab y i = some ino) (htype : ino.type = type)
    (hkind : type = fsTypeFile ∨ type = fsTypeDirectory)
    (hroots : type ≠ fsTypeDirectory → ∀ j, j < 14 → ino.root j = 0)
    (hview : view y = (view v).install i (newInfo type) (newBlocks type i p)) :
    CreateFailed v (bitmapFree (freeInodeBlocks y ino) (freeInodeBlocks y ino).sb.imapStart i) i := by
  have hfresh := ht.fresh
  obtain ⟨h1, h2⟩ := undoCreate_spec hy htab htype hkind hroots
  rw [hview] at h2
  generalize bitmapFree (freeInodeBlocks y ino) (freeInodeBlocks y ino).sb.imapStart i = u at h1 h2 ⊢
  have hother : ∀ j, j ≠ i → SameInode v u j := by
    intro j hj
    unfold SameInode
    rw [h2]
    simp [install, setUsed, setBlocks, setInfo, hj]
  refine ⟨h1, hfresh, ⟨?_, by rw [h2]; rfl, fun j hj => (hother j hj).1,
    fun j hj => (hother j hj).2⟩, fun j hj => ?_⟩
  · rw [h2]
    simp only [install, setUsed, setBlocks, setInfo, update_idem]
    rw [← hfresh, update_eq_self]
  · by_cases hji : j = i
    · subst hji
      have hinfo : (view u).info j = newInfo type := by
        rw [h2]
        exact update_self _ _ _
      have hdata : (view u).data j = fun _ => zero := by
        rw [h2]
        exact update_self _ _ _
      rw [hinfo] at hj ⊢
      have hfile : type = fsTypeFile := hj
      exact Or.inr ⟨by rw [hfile]; rfl, hdata⟩
    · rw [(hother j hji).1, (hother j hji).2] at *
      exact Or.inl ⟨hj, rfl, rfl⟩

theorem Taken.complete {y : Volume} (h : Healthy v) (ht : Taken v w i) (hdn : (view v).Dir p n)
    (hname : EntryName name) (hslash : slash ∉ name) (hdot : name ≠ dot) (hdotdot : name ≠ dotdot)
    (habsent : ∀ k s c, ¬(view v).Entry p k s c name)
    (hkind : type = fsTypeFile ∨ type = fsTypeDirectory) (hk : k ≤ n) (hmax : k < fsMaxFileBlocks)
    (hslot : s < 64) (hfree : entryInode ((view v).data p k) s = 0) (hview : view y =
      ((view v).install i (newInfo type) (newBlocks type i p)).enter p n k s i name)
    (hlinks : LinksOnly y u p) : CreateDone v u p i name type := by
  have hfresh := ht.fresh
  have hlt32 : ∀ {j}, j < v.sb.totalInodes → j < 2 ^ 32 := by
    intro j hj
    have := h.sound.inodes
    omega
  have hpi : p ≠ i := by
    rintro rfl
    rw [hdn.used] at hfresh
    cases hfresh
  have hi0 : i ≠ 0 := by
    have := ht.ge
    omega
  have hkind' : ((newInfo type).type = fsTypeFile ∧ (newInfo type).linkCount ≠ 0) ∨
      ((newInfo type).type = fsTypeDirectory ∧ (newInfo type).size = 4096 ∧
        newBlocks type i p = dotBlocks i p) := by
    rcases hkind with rfl | rfl
    · exact Or.inl ⟨rfl, by decide⟩
    · exact Or.inr ⟨rfl, rfl, rfl⟩
  obtain ⟨-, hii, -⟩ := (view v).install_of_ne (newInfo type) (newBlocks type i p) hpi
  obtain ⟨-, -, -, het, -⟩ :=
    ((view v).install i (newInfo type) (newBlocks type i p)).enter_same p n k s i name
  have hother : ∀ j, j ≠ p → (view u).info j =
      ((view v).install i (newInfo type) (newBlocks type i p)).info j ∧
      (view u).data j = ((view v).install i (newInfo type) (newBlocks type i p)).data j := by
    intro j hj
    obtain ⟨h1, h2⟩ := ((view v).install i (newInfo type) (newBlocks type i p)).enter_of_ne
      n k s i name hj
    rw [hlinks.info j hj, hlinks.data, hview]
    exact ⟨h1, h2⟩
  obtain ⟨hself1, hself2⟩ := (view v).install_self i (newInfo type) (newBlocks type i p)
  have hcreated : Created (view v) (view u) p k s i name := by
    refine Created.of_steps h.names hdn hfresh hi0 (hlt32 ht.lt) (hlt32 hdn.valid.2) hk hmax
      hslot hfree hname hslash hdot hdotdot habsent hkind' ?_ ?_ ?_ ?_ ?_
    · rw [hlinks.used, hview]
    · rw [hlinks.refs, hview, enter]
      split <;> rfl
    · rw [hlinks.data, hview]
    · intro j hj
      rw [hlinks.info j hj, hview]
    · rw [hlinks.type, hlinks.size, hview]
      exact ⟨by rw [het, hii], rfl⟩
  refine ⟨hlinks.sound, ⟨k, s, hcreated⟩, (hother i (Ne.symm hpi)).1.trans hself1,
    (hother i (Ne.symm hpi)).2.trans hself2, fun j h1 h2 => ?_⟩
  obtain ⟨-, h3, h4⟩ := (view v).install_of_ne (newInfo type) (newBlocks type i p) h1
  exact ⟨(hother j h2).1.trans h3, (hother j h2).2.trans h4⟩

theorem CreateDone.files (h : CreateDone v w p i name type) : KeepsFiles (view v) (view w) := by
  intro j hj
  obtain ⟨k, s, hc⟩ := h.created
  by_cases hji : j = i
  · subst hji
    have htype : type = fsTypeFile := by
      rw [h.info] at hj
      exact hj
    subst htype
    exact Or.inr ⟨by rw [h.info]; rfl, by rw [h.data]; rfl⟩
  · have hjp : j ≠ p := by
      rintro rfl
      rw [hc.type j hji hc.parent.1, hc.parent.2] at hj
      exact absurd hj (by decide)
    rw [(h.others j hji hjp).1] at hj ⊢
    exact Or.inl ⟨hj, rfl, (h.others j hji hjp).2⟩

theorem createAt_spec (h : Healthy v) (ht : Taken v w i) (hp : (view v).used p = true)
    (hname : (0 : UInt8) ∉ name) (hslash : slash ∉ name) (hdot : name ≠ dot)
    (hdotdot : name ≠ dotdot) (hfind : dirFind v p name = none)
    (hkind : type = fsTypeFile ∨ type = fsTypeDirectory) :
    (∃ u, createAt w i p name type = (none, u) ∧ CreateFailed v u i) ∨
    ∃ u, createAt w i p name type = (some i, u) ∧ CreateDone v u p i name type := by
  have hfresh := ht.fresh
  have hpi : p ≠ i := by
    rintro rfl
    rw [hp] at hfresh
    cases hfresh
  rcases newInode_spec (ht.running h.sound).1 p type with ⟨u, he, hrun, hframe⟩ | ⟨ino, u, he, hn⟩
  · exact Or.inl ⟨_, by simp only [createAt, he], ht.abandon h.sound hrun hframe⟩
  · obtain ⟨z, hput, hsz, -, htabz, hviewz⟩ := ht.put hn
    have htype : ino.type = type := congrArg Info.type hn.info
    obtain ⟨hzu, hzi, hzd⟩ := (view v).install_of_ne (newInfo type) (newBlocks type i p) hpi
    by_cases hdir : (view v).IsDir p
    · obtain ⟨n, hdn⟩ := h.names.dirs hdir
      have hdz : (view z).Dir p n := by
        rw [hviewz]
        exact hdn.congr hzu (by rw [hzi]) (by rw [hzi]) hzd
      obtain ⟨hres, hok⟩ := dirAdd_spec hsz hdz name i
      cases hadd : dirAdd z p name i with
      | mk ok y =>
        rw [hadd] at hres hok
        cases hres with
        | refused hy hviewy htaby =>
          exact Or.inl ⟨_, by simp only [createAt, he, hput, hadd],
            ht.withdraw hy (by rw [htaby]; exact htabz) htype hkind hn.roots
              (hviewy.trans hviewz)⟩
        | added k s hk hmax hslot hfree hy hviewy htaby =>
          obtain ⟨hne, hlen, -⟩ := hok rfl
          have habsent : ∀ k s c, ¬(view v).Entry p k s c name := by
            intro k s c hent
            rcases dirFind_spec h.sound hdn name with ⟨-, hall⟩ | ⟨_, _, _, _, -, -, -, hsome⟩
            · exact hall k s c (by omega) (by simpa using hent.lt hdn) hlen hent
            · rw [hfind] at hsome
              cases hsome
          have hyused : (view y).used p = true := by
            rw [hviewy, ((view z).enter_same p n k s i name).1]
            exact hdz.used
          have hlinks := parentLinks_spec hy ⟨hdn.pos, (view_used_iff.mp hyused).1⟩ hyused
            (type = fsTypeDirectory) (fun n => some (n + 1))
          refine Or.inr ⟨_, by simp only [createAt, he, hput, hadd],
            ht.complete h hdn ⟨List.ne_nil_of_length_pos hne, hlen, hname⟩ hslash hdot hdotdot habsent
              hkind hk hmax hslot ?_ ?_ hlinks⟩
          · rwa [hviewz, hzd] at hfree
          · rw [hviewy, hviewz]
    · have hnot : ¬(view z).IsDir p := by
        rw [hviewz, View.IsDir, hzu, hzi]
        exact hdir
      have hzp : (view z).used p = true := by
        rw [hviewz]
        exact hzu.trans hp
      have hadd := dirAdd_of_not_dir hsz hnot hzp name i
      exact Or.inl ⟨_, by simp only [createAt, he, hput, hadd],
        ht.withdraw hsz htabz htype hkind hn.roots hviewz⟩

/-- `fs_create_path` for a file or a directory, relative to the root: nothing
happens, or a creation fails on the way, or it succeeds. -/
theorem fsCreatePath_spec (h : Healthy v) {path : Str} (hpath : (0 : UInt8) ∉ path)
    (hkind : type = fsTypeFile ∨ type = fsTypeDirectory) :
    fsCreatePath v path fsRootInode type = (none, v) ∨
    (∃ i u, fsCreatePath v path fsRootInode type = (none, u) ∧ CreateFailed v u i) ∨
    ∃ p i name u, pathParent v path fsRootInode = some (p, name) ∧
      fsCreatePath v path fsRootInode type = (some i, u) ∧ CreateDone v u p i name type := by
  unfold fsCreatePath
  cases hpp : pathParent v path fsRootInode with
  | none => exact Or.inl rfl
  | some pl =>
    obtain ⟨p, name⟩ := pl
    obtain ⟨hp, hslash, hleaf⟩ := h.pathParent_some hpp
    dsimp only
    split
    · exact Or.inl rfl
    next hbad =>
      simp only [not_or, Bool.not_eq_true, Option.isSome_eq_false_iff,
        Option.isNone_iff_eq_none] at hbad
      obtain ⟨hdot, hdotdot, hfind⟩ := hbad
      rcases bitmapAllocate_imap h.sound.mounted (fsRootInode + 1) h.sound.inodes with
        ⟨he, -⟩ | ⟨i, w, he, hge, hlt, hfree, hframe, hbits⟩
      · rw [he]
        exact Or.inl rfl
      · rw [he]
        rw [if_neg (by omega), Int.toNat_natCast]
        have ht : Taken v w i := ⟨hge, hlt, hfree, hframe, hbits⟩
        rcases createAt_spec h ht hp (hleaf hpath) hslash hdot hdotdot hfind hkind with
          ⟨u, hc, hres⟩ | ⟨u, hc, hres⟩
        · exact Or.inr (Or.inl ⟨i, u, hc, hres⟩)
        · exact Or.inr (Or.inr ⟨p, i, name, u, rfl, hc, hres⟩)

end OrangeOs.Fs
