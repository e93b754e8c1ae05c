import OrangeOs.Fs.Operations

/-! # The name space invariant

What holds of the directories of a volume between operations, as a statement
about the view: every directory has its two dot entries in their places, every
other entry names a used inode that no second entry names, and the parent
recorded in `..` has an entry for the directory. That names within a directory
are unique is kept apart in `Unique`: an image may start without it. The invariant is kept by
the three changes operations make, described here on views alone: nothing named
changes, an entry with a new inode appears, an entry disappears.
-/

namespace OrangeOs.Fs

open Function

def View.IsDir (V : View) (d : Nat) : Prop :=
  V.used d = true ∧ (V.info d).type = fsTypeDirectory

def View.IsFile (V : View) (i : Nat) : Prop :=
  V.used i = true ∧ (V.info i).type = fsTypeFile

/-- An entry other than the two dot entries. -/
structure View.Child (V : View) (d k s c : Nat) (name : Str) : Prop where
  entry : V.Entry d k s c name
  ne_dot : name ≠ dot
  ne_dotdot : name ≠ dotdot

structure View.Names (V : View) : Prop where
  rootDir : V.IsDir fsRootInode
  dirs : ∀ {d}, V.IsDir d → ∃ n, V.Dir d n
  self : ∀ {d}, V.IsDir d → V.Entry d 0 0 d dot
  up : ∀ {d}, V.IsDir d → ∃ p, V.Entry d 0 1 p dotdot ∧ V.IsDir p ∧
    if d = fsRootInode then p = fsRootInode else ∃ k s name, V.Child p k s d name
  fits : ∀ {d k s c name}, V.IsDir d → V.Entry d k s c name →
    name ≠ [] ∧ name.length < 60 ∧ slash ∉ name
  dots : ∀ {d k s c name}, V.IsDir d → V.Entry d k s c name →
    (name = dot → k = 0 ∧ s = 0) ∧ (name = dotdot → k = 0 ∧ s = 1)
  child : ∀ {d k s c name}, V.IsDir d → V.Child d k s c name →
    V.used c = true ∧ c ≠ fsRootInode ∧ ((V.info c).type = fsTypeDirectory ∨
      (V.info c).type = fsTypeFile ∧ (V.info c).linkCount ≠ 0)
  once : ∀ {d d' k s c k' s' name name'}, V.IsDir d → V.IsDir d' → V.Child d k s c name →
    V.Child d' k' s' c name' → d = d' ∧ k = k' ∧ s = s'
  refs : ∀ {i}, V.refs i ≠ 0 → V.used i = true ∧ (V.info i).type = fsTypeFile

variable {V W : View} {d p k s c i : Nat} {name : Str}

theorem View.Dir.isDir {n : Nat} (h : V.Dir d n) : V.IsDir d := ⟨h.used, h.type⟩

/-! ## Entries of a changed block -/

theorem View.Entry.congr (h : V.Entry d k s c name) (hdata : W.data d = V.data d) :
    W.Entry d k s c name :=
  ⟨h.slot, by rw [hdata]; exact h.inode, h.used, by rw [hdata]; exact h.name⟩

theorem View.entry_congr (hdata : W.data d = V.data d) (k s c : Nat) (name : Str) :
    W.Entry d k s c name ↔ V.Entry d k s c name :=
  ⟨fun h => h.congr hdata.symm, fun h => h.congr hdata⟩

theorem View.entry_set (hs : s < 64) (hname : EntryName name) (hi : i ≠ 0) (hi32 : i < 2 ^ 32)
    (hdata : W.data d = update (V.data d) k (setEntry (V.data d k) s i name))
    (k' s' c : Nat) (nm : Str) :
    W.Entry d k' s' c nm ↔
      (k' = k ∧ s' = s ∧ c = i ∧ nm = name) ∨ (V.Entry d k' s' c nm ∧ ¬(k' = k ∧ s' = s)) := by
  by_cases hk : k' = k
  · subst hk
    by_cases hs' : s' = s
    · subst hs'
      have hino : entryInode (W.data d k') s' = i := by
        rw [hdata, update_self, entryInode_setEntry _ _ hi32]
      have hnm : entryName (W.data d k') s' = name := by
        rw [hdata, update_self, entryName_setEntry _ _ _ hname]
      constructor
      · intro h
        exact Or.inl ⟨rfl, rfl, h.inode.symm.trans hino, h.name.symm.trans hnm⟩
      · rintro (⟨-, -, rfl, rfl⟩ | ⟨-, hne⟩)
        · exact ⟨hs, hino, hi, hnm⟩
        · exact absurd ⟨rfl, rfl⟩ hne
    · have hsame : ∀ x, 64 * s' ≤ x → x < 64 * s' + 64 → W.data d k' x = V.data d k' x := by
        intro x h1 h2
        rw [hdata, update_self]
        exact setEntry_of_outside _ _ hname.2.1 (by omega)
      have hino := entryInode_congr hsame
      have hnm := entryName_congr hsame
      constructor
      · exact fun h => Or.inr ⟨⟨h.slot, hino ▸ h.inode, h.used, hnm ▸ h.name⟩, fun he => hs' he.2⟩
      · rintro (⟨-, he, -⟩ | ⟨h, -⟩)
        · exact absurd he hs'
        · exact ⟨h.slot, hino.trans h.inode, h.used, hnm.trans h.name⟩
  · have hsame : W.data d k' = V.data d k' := by rw [hdata, update_of_ne hk]
    constructor
    · intro h
      exact Or.inr ⟨⟨h.slot, hsame ▸ h.inode, h.used, hsame ▸ h.name⟩, fun he => hk he.1⟩
    · rintro (⟨he, -⟩ | ⟨h, -⟩)
      · exact absurd he hk
      · exact ⟨h.slot, by rw [hsame]; exact h.inode, h.used, by rw [hsame]; exact h.name⟩

theorem View.entry_clear
    (hdata : W.data d = update (V.data d) k (clearEntry (V.data d k) s)) (k' s' c : Nat)
    (nm : Str) : W.Entry d k' s' c nm ↔ V.Entry d k' s' c nm ∧ ¬(k' = k ∧ s' = s) := by
  by_cases hk : k' = k
  · subst hk
    by_cases hs' : s' = s
    · subst hs'
      have hino : entryInode (W.data d k') s' = 0 := by
        rw [hdata, update_self, entryInode_clearEntry]
      exact ⟨fun h => absurd (h.inode.symm.trans hino) h.used, fun h => absurd ⟨rfl, rfl⟩ h.2⟩
    · have hsame : ∀ x, 64 * s' ≤ x → x < 64 * s' + 64 → W.data d k' x = V.data d k' x := by
        intro x h1 h2
        rw [hdata, update_self]
        exact clearEntry_of_outside _ (by omega)
      have hino := entryInode_congr hsame
      have hnm := entryName_congr hsame
      exact ⟨fun h => ⟨⟨h.slot, hino ▸ h.inode, h.used, hnm ▸ h.name⟩, fun he => hs' he.2⟩,
        fun h => ⟨h.1.slot, hino.trans h.1.inode, h.1.used, hnm.trans h.1.name⟩⟩
  · have hsame : W.data d k' = V.data d k' := by rw [hdata, update_of_ne hk]
    exact ⟨fun h => ⟨⟨h.slot, hsame ▸ h.inode, h.used, hsame ▸ h.name⟩, fun he => hk he.1⟩,
      fun h => ⟨h.1.slot, by rw [hsame]; exact h.1.inode, h.1.used,
        by rw [hsame]; exact h.1.name⟩⟩

/-! ## Changes that keep every name -/

/-- `W` shows the same directories as `V` and still uses every file that may be
named. Files may differ in everything else, and unnamed ones may be gone. -/
structure SameNames (V W : View) : Prop where
  isDir : ∀ d, W.IsDir d ↔ V.IsDir d
  size : ∀ d, V.IsDir d → (W.info d).size = (V.info d).size
  data : ∀ d, V.IsDir d → W.data d = V.data d
  files : ∀ i, V.used i = true → (V.info i).type = fsTypeFile → (V.info i).linkCount ≠ 0 →
    W.used i = true ∧ (W.info i).type = fsTypeFile ∧ (W.info i).linkCount ≠ 0
  refs : ∀ i, W.refs i ≠ 0 → W.used i = true ∧ (W.info i).type = fsTypeFile

theorem View.Dir.congr {n : Nat} (h : V.Dir d n) (hused : W.used d = V.used d)
    (htype : (W.info d).type = (V.info d).type) (hsize : (W.info d).size = (V.info d).size)
    (hdata : W.data d = V.data d) : W.Dir d n :=
  ⟨h.pos, hused.trans h.used, htype.trans h.type, by rw [hsize]; exact h.size, h.one_le, h.le_max,
    fun k hk => by rw [hdata]; exact h.tail k hk⟩

theorem View.Child.congr (h : V.Child d k s c name) (hdata : W.data d = V.data d) :
    W.Child d k s c name :=
  ⟨h.entry.congr hdata, h.ne_dot, h.ne_dotdot⟩

theorem View.Names.same (hV : V.Names) (h : SameNames V W) : W.Names := by
  have hent : ∀ {d k s c name}, V.IsDir d → (W.Entry d k s c name ↔ V.Entry d k s c name) :=
    fun hd => View.entry_congr (h.data _ hd) _ _ _ _
  have hchild : ∀ {d k s c name}, V.IsDir d → W.Child d k s c name → V.Child d k s c name :=
    fun hd hc => hc.congr (h.data _ hd).symm
  refine ⟨(h.isDir _).mpr hV.rootDir, ?_, ?_, ?_, ?_, ?_, ?_, ?_, h.refs _⟩
  · intro d hW
    have hd := (h.isDir d).mp hW
    obtain ⟨n, hn⟩ := hV.dirs hd
    exact ⟨n, hn.congr (hW.1.trans hd.1.symm) (hW.2.trans hd.2.symm) (h.size d hd) (h.data d hd)⟩
  · intro d hd
    have hd := (h.isDir d).mp hd
    exact (hent hd).mpr (hV.self hd)
  · intro d hd
    have hd := (h.isDir d).mp hd
    obtain ⟨p, h1, h2, h3⟩ := hV.up hd
    refine ⟨p, (hent hd).mpr h1, (h.isDir p).mpr h2, ?_⟩
    split
    · next hr => rwa [if_pos hr] at h3
    · next hr =>
      rw [if_neg hr] at h3
      obtain ⟨k, s, name, hc⟩ := h3
      exact ⟨k, s, name, hc.congr (h.data p h2)⟩
  · intro d k s c name hd he
    have hd := (h.isDir d).mp hd
    exact hV.fits hd ((hent hd).mp he)
  · intro d k s c name hd he
    have hd := (h.isDir d).mp hd
    exact hV.dots hd ((hent hd).mp he)
  · intro d k s c name hd hc
    have hd := (h.isDir d).mp hd
    obtain ⟨h1, h2, h3⟩ := hV.child hd (hchild hd hc)
    rcases h3 with hdir | ⟨hfile, hlink⟩
    · have hW := (h.isDir c).mpr ⟨h1, hdir⟩
      exact ⟨hW.1, h2, Or.inl hW.2⟩
    · obtain ⟨h4, h5⟩ := h.files c h1 hfile hlink
      exact ⟨h4, h2, Or.inr h5⟩
  · intro d d' k s c k' s' name name' hd hd' h1 h2
    have hd := (h.isDir d).mp hd
    have hd' := (h.isDir d').mp hd'
    exact hV.once hd hd' (hchild hd h1) (hchild hd' h2)

/-- `W` differs from `V` at most in the fields and data of inode `i`. -/
structure OnlyAt (V W : View) (i : Nat) : Prop where
  used : W.used = V.used
  refs : W.refs = V.refs
  info : ∀ j, j ≠ i → W.info j = V.info j
  data : ∀ j, j ≠ i → W.data j = V.data j

theorem OnlyAt.sameNames (hV : V.Names) (h : OnlyAt V W i) (hi : V.used i = false) :
    SameNames V W := by
  have hne : ∀ {j}, V.used j = true → j ≠ i := by
    rintro j hj rfl
    rw [hi] at hj
    cases hj
  refine ⟨fun d => ?_, fun d hd => by rw [h.info d (hne hd.1)], fun d hd => h.data d (hne hd.1),
    fun j h1 h2 h3 => ?_, fun j hj => ?_⟩
  · unfold View.IsDir
    rw [h.used]
    exact and_congr_right fun hd => by rw [h.info d (hne hd)]
  · rw [h.used, h.info j (hne h1)]
    exact ⟨h1, h2, h3⟩
  · rw [h.refs] at hj
    obtain ⟨h1, h2⟩ := hV.refs hj
    rw [h.used, h.info j (hne h1)]
    exact ⟨h1, h2⟩

theorem OnlyAt.sameNames_file (hV : V.Names) (h : OnlyAt V W i) (hi : (V.info i).type = fsTypeFile)
    (htype : (W.info i).type = fsTypeFile) (hlinks : (W.info i).linkCount = (V.info i).linkCount) :
    SameNames V W := by
  have hne : ∀ {d}, V.IsDir d → d ≠ i := by
    rintro d hd rfl
    exact absurd (hi.symm.trans hd.2) (by decide)
  have hinfo : ∀ j, (W.info j).type = (V.info j).type ∧
      (W.info j).linkCount = (V.info j).linkCount := by
    intro j
    by_cases hj : j = i
    · rw [hj]
      exact ⟨htype.trans hi.symm, hlinks⟩
    · rw [h.info j hj]
      exact ⟨rfl, rfl⟩
  refine ⟨fun d => ?_, fun d hd => by rw [h.info d (hne hd)], fun d hd => h.data d (hne hd),
    fun j h1 h2 h3 => ?_, fun j hj => ?_⟩
  · unfold View.IsDir
    rw [h.used, (hinfo d).1]
  · rw [h.used, (hinfo j).1, (hinfo j).2]
    exact ⟨h1, h2, h3⟩
  · rw [h.refs] at hj
    rw [h.used, (hinfo j).1]
    exact hV.refs hj

/-! ## A new entry with a new inode -/

/-- `W` is `V` with the unused inode `i` entered in directory `p` under a name
that `p` did not have. -/
structure Created (V W : View) (p k s i : Nat) (name : Str) : Prop where
  parent : V.IsDir p
  fresh : V.used i = false
  pos : i ≠ 0
  fits : EntryName name
  noSlash : slash ∉ name
  ne_dot : name ≠ dot
  ne_dotdot : name ≠ dotdot
  absent : ∀ k s c, ¬V.Entry p k s c name
  used : W.used = update V.used i true
  refs : W.refs = V.refs
  type : ∀ j, j ≠ i → V.used j = true → (W.info j).type = (V.info j).type
  links : ∀ j, j ≠ i → V.used j = true → (V.info j).type = fsTypeFile →
    (W.info j).linkCount = (V.info j).linkCount
  dirs : ∀ d, W.IsDir d → ∃ n, W.Dir d n
  data : ∀ d, d ≠ i → d ≠ p → V.IsDir d → W.data d = V.data d
  added : ∀ k' s' c nm, W.Entry p k' s' c nm ↔
    (k' = k ∧ s' = s ∧ c = i ∧ nm = name) ∨ V.Entry p k' s' c nm
  kind : ((W.info i).type = fsTypeFile ∧ (W.info i).linkCount ≠ 0) ∨
    ((W.info i).type = fsTypeDirectory ∧ ∀ k' s' c nm, W.Entry i k' s' c nm ↔
      (k' = 0 ∧ s' = 0 ∧ c = i ∧ nm = dot) ∨ (k' = 0 ∧ s' = 1 ∧ c = p ∧ nm = dotdot))

section Created

variable (h : Created V W p k s i name)
include h

theorem Created.ne_of_used {j : Nat} (hj : V.used j = true) : j ≠ i := by
  rintro rfl
  rw [h.fresh] at hj
  cases hj

theorem Created.used_iff (j : Nat) : W.used j = true ↔ j = i ∨ V.used j = true := by
  rw [h.used, update_apply]
  split
  · next he => simp [he]
  · next he => simp [he]

theorem Created.isDir_iff (d : Nat) :
    W.IsDir d ↔ V.IsDir d ∨ (d = i ∧ (W.info i).type = fsTypeDirectory) := by
  unfold View.IsDir
  rw [h.used_iff d]
  constructor
  · rintro ⟨rfl | hd, ht⟩
    · exact Or.inr ⟨rfl, ht⟩
    · exact Or.inl ⟨hd, (h.type d (h.ne_of_used hd) hd).symm.trans ht⟩
  · rintro (⟨hd, ht⟩ | ⟨rfl, ht⟩)
    · exact ⟨Or.inr hd, (h.type d (h.ne_of_used hd) hd).trans ht⟩
    · exact ⟨Or.inl rfl, ht⟩

theorem Created.entry_iff (hd : V.IsDir d) (k' s' c : Nat) (nm : Str) :
    W.Entry d k' s' c nm ↔
      (d = p ∧ k' = k ∧ s' = s ∧ c = i ∧ nm = name) ∨ V.Entry d k' s' c nm := by
  by_cases hp : d = p
  · subst hp
    simpa using h.added k' s' c nm
  · rw [View.entry_congr (h.data d (h.ne_of_used hd.1) hp hd)]
    simp [hp]

theorem Created.entry_new (ht : (W.info i).type = fsTypeDirectory) (k' s' c : Nat) (nm : Str) :
    W.Entry i k' s' c nm ↔
      (k' = 0 ∧ s' = 0 ∧ c = i ∧ nm = dot) ∨ (k' = 0 ∧ s' = 1 ∧ c = p ∧ nm = dotdot) := by
  rcases h.kind with ⟨hf, -⟩ | ⟨-, hiff⟩
  · rw [hf] at ht
    exact absurd ht (by decide)
  · exact hiff k' s' c nm

theorem Created.child_iff (d k' s' c : Nat) (nm : Str) (hd : W.IsDir d) :
    W.Child d k' s' c nm ↔
      (d = p ∧ k' = k ∧ s' = s ∧ c = i ∧ nm = name) ∨ (V.IsDir d ∧ V.Child d k' s' c nm) := by
  rcases (h.isDir_iff d).mp hd with hd | ⟨rfl, ht⟩
  · constructor
    · rintro ⟨he, h1, h2⟩
      exact ((h.entry_iff hd k' s' c nm).mp he).imp_right fun he => ⟨hd, he, h1, h2⟩
    · rintro (⟨rfl, rfl, rfl, rfl, rfl⟩ | ⟨-, hc⟩)
      · exact ⟨(h.entry_iff hd _ _ _ _).mpr (Or.inl ⟨rfl, rfl, rfl, rfl, rfl⟩), h.ne_dot, h.ne_dotdot⟩
      · exact ⟨(h.entry_iff hd _ _ _ _).mpr (Or.inr hc.entry), hc.ne_dot, hc.ne_dotdot⟩
  · constructor
    · rintro ⟨he, h1, h2⟩
      rcases (h.entry_new ht _ _ _ _).mp he with ⟨-, -, -, rfl⟩ | ⟨-, -, -, rfl⟩
      · exact absurd rfl h1
      · exact absurd rfl h2
    · rintro (⟨hp, -⟩ | ⟨hd, -⟩)
      · exact absurd (hp ▸ h.parent.1) (by simp [h.fresh])
      · exact absurd hd.1 (by simp [h.fresh])

end Created

theorem View.Names.created (hV : V.Names) (h : Created V W p k s i name) : W.Names := by
  have hroot : fsRootInode ≠ i := h.ne_of_used hV.rootDir.1
  have hnew : ∀ {d k' s' nm}, V.IsDir d → ¬V.Child d k' s' i nm := by
    intro d k' s' nm hd hc
    exact h.ne_of_used (hV.child hd hc).1 rfl
  refine ⟨(h.isDir_iff _).mpr (Or.inl hV.rootDir), h.dirs _, ?_, ?_, ?_, ?_, ?_, ?_, ?_⟩
  · intro d hd
    rcases (h.isDir_iff d).mp hd with hd | ⟨rfl, ht⟩
    · exact (h.entry_iff hd _ _ _ _).mpr (Or.inr (hV.self hd))
    · exact (h.entry_new ht _ _ _ _).mpr (Or.inl ⟨rfl, rfl, rfl, rfl⟩)
  · intro d hd
    rcases (h.isDir_iff d).mp hd with hd' | ⟨rfl, ht⟩
    · obtain ⟨q, h1, h2, h3⟩ := hV.up hd'
      refine ⟨q, (h.entry_iff hd' _ _ _ _).mpr (Or.inr h1), (h.isDir_iff q).mpr (Or.inl h2), ?_⟩
      split
      · next hr => rwa [if_pos hr] at h3
      · next hr =>
        rw [if_neg hr] at h3
        obtain ⟨k', s', nm, hc⟩ := h3
        exact ⟨k', s', nm, (h.child_iff q k' s' d nm ((h.isDir_iff q).mpr (Or.inl h2))).mpr
          (Or.inr ⟨h2, hc⟩)⟩
    · have hp : W.IsDir p := (h.isDir_iff p).mpr (Or.inl h.parent)
      refine ⟨p, (h.entry_new ht _ _ _ _).mpr (Or.inr ⟨rfl, rfl, rfl, rfl⟩), hp, ?_⟩
      rw [if_neg hroot.symm]
      exact ⟨k, s, name, (h.child_iff p _ _ _ _ hp).mpr (Or.inl ⟨rfl, rfl, rfl, rfl, rfl⟩)⟩
  · intro d k' s' c nm hd he
    rcases (h.isDir_iff d).mp hd with hd | ⟨rfl, ht⟩
    · rcases (h.entry_iff hd _ _ _ _).mp he with ⟨-, -, -, -, rfl⟩ | he
      · exact ⟨h.fits.1, h.fits.2.1, h.noSlash⟩
      · exact hV.fits hd he
    · rcases (h.entry_new ht _ _ _ _).mp he with ⟨-, -, -, rfl⟩ | ⟨-, -, -, rfl⟩ <;> decide
  · intro d k' s' c nm hd he
    rcases (h.isDir_iff d).mp hd with hd | ⟨rfl, ht⟩
    · rcases (h.entry_iff hd _ _ _ _).mp he with ⟨-, -, -, -, rfl⟩ | he
      · exact ⟨fun hn => absurd hn h.ne_dot, fun hn => absurd hn h.ne_dotdot⟩
      · exact hV.dots hd he
    · rcases (h.entry_new ht _ _ _ _).mp he with ⟨rfl, rfl, -, rfl⟩ | ⟨rfl, rfl, -, rfl⟩
      · exact ⟨fun _ => ⟨rfl, rfl⟩, fun hn => absurd hn (by decide)⟩
      · exact ⟨fun hn => absurd hn (by decide), fun _ => ⟨rfl, rfl⟩⟩
  · intro d k' s' c nm hd hc
    rcases (h.child_iff d _ _ _ _ hd).mp hc with ⟨-, -, -, rfl, -⟩ | ⟨hd, hc⟩
    · refine ⟨(h.used_iff c).mpr (Or.inl rfl), hroot.symm, ?_⟩
      exact h.kind.symm.imp (fun hk => hk.1) id
    · obtain ⟨h1, h2, h3⟩ := hV.child hd hc
      have hci := h.ne_of_used h1
      rw [h.type c hci h1]
      refine ⟨(h.used_iff c).mpr (Or.inr h1), h2, h3.imp_right fun h4 => ⟨h4.1, ?_⟩⟩
      rw [h.links c hci h1 h4.1]
      exact h4.2
  · intro d d' k1 s1 c k2 s2 nm nm' hd hd' hc hc'
    rcases (h.child_iff d _ _ _ _ hd).mp hc with ⟨rfl, rfl, rfl, rfl, -⟩ | ⟨hd, hc⟩
    · rcases (h.child_iff d' _ _ _ _ hd').mp hc' with ⟨rfl, rfl, rfl, -, -⟩ | ⟨hd', hc'⟩
      · exact ⟨rfl, rfl, rfl⟩
      · exact absurd hc' (hnew hd')
    · rcases (h.child_iff d' _ _ _ _ hd').mp hc' with ⟨rfl, rfl, rfl, rfl, -⟩ | ⟨hd', hc'⟩
      · exact absurd hc (hnew hd)
      · exact hV.once hd hd' hc hc'
  · intro j hj
    rw [h.refs] at hj
    obtain ⟨h1, h2⟩ := hV.refs hj
    exact ⟨(h.used_iff j).mpr (Or.inr h1), by rw [h.type j (h.ne_of_used h1) h1, h2]⟩

/-! ## An entry removed -/

/-- `W` is `V` without the entry of inode `i` in directory `p`. The inode may stay
in use if it is a file; a directory must have been empty. -/
structure Unlinked (V W : View) (p k s i : Nat) (name : Str) : Prop where
  parent : V.IsDir p
  child : V.Child p k s i name
  empty : V.IsDir i → ∀ k s c nm, V.Entry i k s c nm → nm = dot ∨ nm = dotdot
  used : ∀ j, j ≠ i → W.used j = V.used j
  gone : V.IsDir i → W.used i = false
  refs : ∀ j, W.refs j ≠ 0 → V.refs j ≠ 0 ∧ W.used j = true
  type : ∀ j, V.used j = true → W.used j = true → (W.info j).type = (V.info j).type
  links : ∀ j, j ≠ i → V.used j = true → (V.info j).type = fsTypeFile →
    (W.info j).linkCount = (V.info j).linkCount
  dirs : ∀ d, W.IsDir d → ∃ n, W.Dir d n
  data : ∀ d, d ≠ i → d ≠ p → V.IsDir d → W.data d = V.data d
  removed : ∀ k' s' c nm, W.Entry p k' s' c nm ↔ V.Entry p k' s' c nm ∧ ¬(k' = k ∧ s' = s)

section Unlinked

variable (hV : V.Names) (h : Unlinked V W p k s i name)
include h

theorem Unlinked.childless {k' s' : Nat} {nm : Str} (hi : V.IsDir i) :
    ¬V.Child i k' s' c nm := fun hc => (h.empty hi _ _ _ _ hc.entry).elim hc.ne_dot hc.ne_dotdot

include hV

theorem Unlinked.isDir_iff (d : Nat) : W.IsDir d ↔ V.IsDir d ∧ d ≠ i := by
  have hused : V.used i = true := (hV.child h.parent h.child).1
  unfold View.IsDir
  by_cases hd : d = i
  · subst hd
    constructor
    · rintro ⟨h1, h2⟩
      rw [h.type d hused h1] at h2
      rw [h.gone ⟨hused, h2⟩] at h1
      cases h1
    · exact fun hc => absurd rfl hc.2
  · rw [h.used d hd]
    constructor
    · rintro ⟨h1, h2⟩
      exact ⟨⟨h1, (h.type d h1 ((h.used d hd).trans h1)).symm.trans h2⟩, hd⟩
    · rintro ⟨⟨h1, h2⟩, -⟩
      exact ⟨h1, (h.type d h1 ((h.used d hd).trans h1)).trans h2⟩

theorem Unlinked.entry_iff (hd : W.IsDir d) (k' s' c : Nat) (nm : Str) :
    W.Entry d k' s' c nm ↔ V.Entry d k' s' c nm ∧ ¬(d = p ∧ k' = k ∧ s' = s) := by
  obtain ⟨hdV, hdi⟩ := (h.isDir_iff hV d).mp hd
  by_cases hp : d = p
  · subst hp
    simpa using h.removed k' s' c nm
  · rw [View.entry_congr (h.data d hdi hp hdV)]
    simp [hp]

theorem Unlinked.child_iff (hd : W.IsDir d) (k' s' c : Nat) (nm : Str) :
    W.Child d k' s' c nm ↔ V.Child d k' s' c nm ∧ c ≠ i := by
  obtain ⟨hdV, -⟩ := (h.isDir_iff hV d).mp hd
  constructor
  · rintro ⟨he, h1, h2⟩
    obtain ⟨he, hne⟩ := (h.entry_iff hV hd k' s' c nm).mp he
    refine ⟨⟨he, h1, h2⟩, ?_⟩
    rintro rfl
    exact hne (hV.once hdV h.parent ⟨he, h1, h2⟩ h.child)
  · rintro ⟨hc, hci⟩
    refine ⟨(h.entry_iff hV hd k' s' c nm).mpr ⟨hc.entry, ?_⟩, hc.ne_dot, hc.ne_dotdot⟩
    rintro ⟨rfl, rfl, rfl⟩
    exact hci (hc.entry.inode.symm.trans h.child.entry.inode)

end Unlinked

theorem View.Names.unlinked (hV : V.Names) (h : Unlinked V W p k s i name) : W.Names := by
  obtain ⟨hiused, hiroot, -⟩ := hV.child h.parent h.child
  have hdir := fun d => h.isDir_iff hV d
  have hent : ∀ {d k' s' c nm}, W.IsDir d → W.Entry d k' s' c nm → V.Entry d k' s' c nm :=
    fun hd he => ((h.entry_iff hV hd _ _ _ _).mp he).1
  have hdots : ∀ {d k' s' c nm}, W.IsDir d → V.Entry d k' s' c nm → nm = dot ∨ nm = dotdot →
      W.Entry d k' s' c nm := by
    intro d k' s' c nm hd he hnm
    refine (h.entry_iff hV hd _ _ _ _).mpr ⟨he, ?_⟩
    rintro ⟨rfl, rfl, rfl⟩
    rw [← he.name, h.child.entry.name] at hnm
    exact hnm.elim h.child.ne_dot h.child.ne_dotdot
  refine ⟨(hdir _).mpr ⟨hV.rootDir, hiroot.symm⟩, h.dirs _, ?_, ?_, ?_, ?_, ?_, ?_, ?_⟩
  · intro d hd
    exact hdots hd (hV.self ((hdir d).mp hd).1) (Or.inl rfl)
  · intro d hd
    obtain ⟨hdV, hdi⟩ := (hdir d).mp hd
    obtain ⟨q, h1, h2, h3⟩ := hV.up hdV
    have hqi : q ≠ i := by
      rintro rfl
      rw [if_neg (fun hr => ?_)] at h3
      · obtain ⟨k', s', nm, hc⟩ := h3
        exact h.childless h2 hc
      · rw [if_pos hr] at h3
        exact hiroot h3
    have hq : W.IsDir q := (hdir q).mpr ⟨h2, hqi⟩
    refine ⟨q, hdots hd h1 (Or.inr rfl), hq, ?_⟩
    split
    · next hr => rwa [if_pos hr] at h3
    · next hr =>
      rw [if_neg hr] at h3
      obtain ⟨k', s', nm, hc⟩ := h3
      exact ⟨k', s', nm, (h.child_iff hV hq _ _ _ _).mpr ⟨hc, hdi⟩⟩
  · intro d k' s' c nm hd he
    exact hV.fits ((hdir d).mp hd).1 (hent hd he)
  · intro d k' s' c nm hd he
    exact hV.dots ((hdir d).mp hd).1 (hent hd he)
  · intro d k' s' c nm hd hc
    obtain ⟨hc, hci⟩ := (h.child_iff hV hd _ _ _ _).mp hc
    obtain ⟨h1, h2, h3⟩ := hV.child ((hdir d).mp hd).1 hc
    have hused : W.used c = true := (h.used c hci).trans h1
    rw [h.type c h1 hused]
    refine ⟨hused, h2, h3.imp_right fun h4 => ⟨h4.1, ?_⟩⟩
    rw [h.links c hci h1 h4.1]
    exact h4.2
  · intro d d' k1 s1 c k2 s2 nm nm' hd hd' hc hc'
    exact hV.once ((hdir d).mp hd).1 ((hdir d').mp hd').1 ((h.child_iff hV hd _ _ _ _).mp hc).1
      ((h.child_iff hV hd' _ _ _ _).mp hc').1
  · intro j hj
    obtain ⟨h1, h2⟩ := h.refs j hj
    obtain ⟨h3, h4⟩ := hV.refs h1
    exact ⟨h2, (h.type j h3 h2).trans h4⟩

/-! ## Unique names -/

/-- No directory has two entries of one name. -/
def View.Unique (V : View) : Prop :=
  ∀ {d k s c k' s' c' name}, V.IsDir d → V.Entry d k s c name → V.Entry d k' s' c' name →
    k = k' ∧ s = s'

theorem View.Unique.same (hV : V.Unique) (h : SameNames V W) : W.Unique := by
  intro d k s c k' s' c' name hd h1 h2
  have hd := (h.isDir d).mp hd
  exact hV hd (h1.congr (h.data d hd).symm) (h2.congr (h.data d hd).symm)

theorem View.Unique.created (hV : V.Unique) (h : Created V W p k s i name) : W.Unique := by
  intro d k1 s1 c1 k2 s2 c2 nm hd he1 he2
  rcases (h.isDir_iff d).mp hd with hd | ⟨rfl, ht⟩
  · rcases (h.entry_iff hd _ _ _ _).mp he1 with ⟨rfl, rfl, rfl, rfl, rfl⟩ | he1
    · rcases (h.entry_iff hd _ _ _ _).mp he2 with ⟨-, rfl, rfl, -, -⟩ | he2
      · exact ⟨rfl, rfl⟩
      · exact absurd he2 (h.absent _ _ _)
    · rcases (h.entry_iff hd _ _ _ _).mp he2 with ⟨rfl, rfl, rfl, rfl, rfl⟩ | he2
      · exact absurd he1 (h.absent _ _ _)
      · exact hV hd he1 he2
  · rcases (h.entry_new ht _ _ _ _).mp he1 with ⟨rfl, rfl, -, rfl⟩ | ⟨rfl, rfl, -, rfl⟩ <;>
      rcases (h.entry_new ht _ _ _ _).mp he2 with ⟨rfl, rfl, -, hn⟩ | ⟨rfl, rfl, -, hn⟩ <;>
      first | exact ⟨rfl, rfl⟩ | exact absurd hn (by decide)

theorem View.Unique.unlinked (hN : V.Names) (hV : V.Unique) (h : Unlinked V W p k s i name) :
    W.Unique := by
  intro d k1 s1 c1 k2 s2 c2 nm hd he1 he2
  exact hV ((h.isDir_iff hN d).mp hd).1 ((h.entry_iff hN hd _ _ _ _).mp he1).1
    ((h.entry_iff hN hd _ _ _ _).mp he2).1

end OrangeOs.Fs
