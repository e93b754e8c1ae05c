import OrangeOs.Fs.Run

/-! # How long a file lives

A file in use has a link or is open. An operation of the file service carries the
files over, drops the link of one of them, or takes back the last reference to it;
`Carries`, `Severed` and `Sheds` say what the other files keep in each case.
-/

namespace OrangeOs.Fs

open Bytes Function

/-! ## Operations that free nothing -/

/-- Every file of `V` is one of `W` with the same links, and with the same contents
unless it is in `C`. A file that is new in `W` has a link. -/
structure Carries (C : Nat → Prop) (V W : View) : Prop where
  file : ∀ i, V.IsFile i → W.IsFile i ∧ (W.info i).linkCount = (V.info i).linkCount
  same : ∀ i, V.IsFile i → ¬C i → (W.info i).size = (V.info i).size ∧ W.data i = V.data i
  fresh : ∀ i, W.IsFile i → V.IsFile i ∨ (W.info i).linkCount ≠ 0
  fits : ∀ i, W.IsFile i → (V.IsFile i ∧ (W.info i).size = (V.info i).size) ∨
    (W.info i).size.toNat ≤ fsMaxFileSize
  refs : ∀ i, V.refs i ≠ 0 → W.refs i ≠ 0

section Carries

variable {C D : Nat → Prop} {U V W : View}

theorem Carries.refl (C : Nat → Prop) (V : View) : Carries C V V :=
  ⟨fun _ h => ⟨h, rfl⟩, fun _ _ _ => ⟨rfl, rfl⟩, fun _ => Or.inl, fun _ h => Or.inl ⟨h, rfl⟩,
    fun _ => id⟩

theorem Carries.mono (h : Carries C V W) (hCD : ∀ i, C i → D i) : Carries D V W :=
  ⟨h.file, fun i hi hno => h.same i hi fun hc => hno (hCD i hc), h.fresh, h.fits, h.refs⟩

theorem Carries.trans (h1 : Carries C U V) (h2 : Carries C V W) : Carries C U W := by
  refine ⟨fun i hi => ?_, fun i hi hno => ?_, fun i hi => ?_, fun i hi => ?_,
    fun i hi => h2.refs i (h1.refs i hi)⟩
  · obtain ⟨hV, hl⟩ := h1.file i hi
    obtain ⟨hW, hl'⟩ := h2.file i hV
    exact ⟨hW, hl'.trans hl⟩
  · obtain ⟨hsize, hdata⟩ := h1.same i hi hno
    obtain ⟨hsize', hdata'⟩ := h2.same i (h1.file i hi).1 hno
    exact ⟨hsize'.trans hsize, hdata'.trans hdata⟩
  · rcases h2.fresh i hi with hV | hl
    · rcases h1.fresh i hV with hU | hl
      · exact Or.inl hU
      · exact Or.inr (by rw [(h2.file i hV).2]; exact hl)
    · exact Or.inr hl
  · rcases h2.fits i hi with ⟨hV, hsize⟩ | hle
    · rw [hsize]
      exact h1.fits i hV
    · exact Or.inr hle

theorem Carries.of_only (nr : Nat) (h : OnlyAt V W nr) (htype : (W.info nr).type = (V.info nr).type)
    (hlinks : (W.info nr).linkCount = (V.info nr).linkCount)
    (hsize : (W.info nr).size = (V.info nr).size ∨ (W.info nr).size.toNat ≤ fsMaxFileSize) :
    Carries (· = nr) V W := by
  have hinfo : ∀ i, (W.info i).type = (V.info i).type ∧
      (W.info i).linkCount = (V.info i).linkCount := by
    intro i
    by_cases hi : i = nr
    · subst hi
      exact ⟨htype, hlinks⟩
    · rw [h.info i hi]
      exact ⟨rfl, rfl⟩
  have hfile : ∀ i, W.IsFile i ↔ V.IsFile i := by
    intro i
    rw [View.IsFile, View.IsFile, h.used, (hinfo i).1]
  refine ⟨fun i hi => ⟨(hfile i).mpr hi, (hinfo i).2⟩, fun i _ hno => ?_,
    fun i hi => Or.inl ((hfile i).mp hi), fun i hi => ?_, fun i hi => by rw [h.refs]; exact hi⟩
  · exact ⟨by rw [h.info i hno], h.data i hno⟩
  · by_cases hin : i = nr
    · subst hin
      exact hsize.imp_left fun hs => ⟨(hfile i).mp hi, hs⟩
    · exact Or.inl ⟨(hfile i).mp hi, by rw [h.info i hin]⟩

theorem Carries.setRefs (V : View) (nr : Nat) {n : UInt32} (hn : n ≠ 0) :
    Carries C V (V.setRefs nr n) := by
  refine ⟨fun i hi => ⟨hi, rfl⟩, fun i _ _ => ⟨rfl, rfl⟩, fun i => Or.inl,
    fun i hi => Or.inl ⟨hi, rfl⟩, fun i hi => ?_⟩
  by_cases hin : i = nr
  · simpa [View.setRefs, hin] using hn
  · simpa [View.setRefs, hin] using hi

end Carries

variable {v w : Volume} {C : Nat → Prop}

theorem write_carries (hs : Sound v) (nr offset : Nat) (data : List UInt8) :
    Carries (· = nr) (view v) (view (fsWriteInode v nr offset data).2) ∧
      (fsWriteInode v nr offset data).2.openRefs = v.openRefs := by
  have hspec := fsWriteInode_spec hs nr offset data
  generalize fsWriteInode v nr offset data = r at hspec ⊢
  cases hspec with
  | refused => exact ⟨Carries.refl _ _, rfl⟩
  | failed D hf hs' hview =>
    refine ⟨?_, congrArg View.refs hview⟩
    rw [hview]
    exact Carries.of_only nr ⟨rfl, rfl, fun _ _ => rfl, fun j hj => update_of_ne hj _ _⟩
      rfl rfl (Or.inl rfl)
  | written D hf hfit hs' hview hbytes =>
    refine ⟨?_, congrArg View.refs hview⟩
    rw [hview]
    refine Carries.of_only nr ⟨rfl, rfl, fun j hj => update_of_ne hj _ _,
      fun j hj => update_of_ne hj _ _⟩ ?_ ?_ ?_
    · simp [View.setInfo, View.setBlocks]
    · simp [View.setInfo, View.setBlocks]
    · simp only [View.setInfo, View.setBlocks, update_self]
      rcases Nat.le_total (offset + data.length) ((view v).info nr).size.toNat with hle | hle
      · rw [Nat.max_eq_left hle]
        exact Or.inl (UInt64.ofNat_toNat)
      · rw [Nat.max_eq_right hle]
        exact Or.inr (Nat.le_trans (Nat.mod_le _ _) hfit)

theorem create_carries (h : Healthy v) {path : Str} (hpath : (0 : UInt8) ∉ path) {type : UInt16}
    (hkind : type = fsTypeFile ∨ type = fsTypeDirectory) :
    Carries (fun _ => False) (view v) (view (fsCreatePath v path fsRootInode type).2) ∧
      (fsCreatePath v path fsRootInode type).2.openRefs = v.openRefs ∧
      ∀ i, (fsCreatePath v path fsRootInode type).1 = some i → (view v).used i = false := by
  rcases fsCreatePath_spec h hpath hkind with he | ⟨i, u, he, hf⟩ | ⟨p, i, name, u, -, he, hd⟩
  · rw [he]
    exact ⟨Carries.refl _ _, rfl, nofun⟩
  · rw [he]
    refine ⟨?_, hf.only.refs, nofun⟩
    have hother : ∀ j, (view v).used j = true → j ≠ i := by
      rintro j hj rfl
      exact absurd hj (by simp [hf.fresh])
    have hsame : ∀ j, (view v).used j = true → SameInode v u j :=
      fun j hj => ⟨hf.only.info j (hother j hj), hf.only.data j (hother j hj)⟩
    have hfile : ∀ j, (view u).IsFile j ↔ (view v).IsFile j := by
      intro j
      rw [View.IsFile, View.IsFile, hf.only.used]
      exact and_congr_right fun hj => by rw [(hsame j hj).1]
    refine ⟨fun j hj => ⟨(hfile j).mpr hj, by rw [(hsame j hj.1).1]⟩, fun j hj _ => ?_,
      fun j hj => Or.inl ((hfile j).mp hj), fun j hj => Or.inl ?_, fun j hj => ?_⟩
    · exact ⟨by rw [(hsame j hj.1).1], (hsame j hj.1).2⟩
    · have hj := (hfile j).mp hj
      exact ⟨hj, by rw [(hsame j hj.1).1]⟩
    · rw [hf.only.refs]
      exact hj
  · rw [he]
    obtain ⟨k, s, hc⟩ := hd.created
    refine ⟨?_, hc.refs, fun j hj => ?_⟩
    · have hsame : ∀ j, (view v).IsFile j → SameInode v u j := by
        intro j hj
        refine hd.others j (hc.ne_of_used hj.1) ?_
        rintro rfl
        exact absurd (hj.2.symm.trans hc.parent.2) (by decide)
      have hback : ∀ j, (view u).IsFile j → j = i ∨ (view v).IsFile j := by
        rintro j ⟨hj, ht⟩
        refine ((hc.used_iff j).mp hj).imp_right fun hj => ⟨hj, ?_⟩
        rw [← hc.type j (hc.ne_of_used hj) hj]
        exact ht
      refine ⟨fun j hj => ⟨⟨(hc.used_iff j).mpr (Or.inr hj.1), ?_⟩, ?_⟩, fun j hj _ => ?_,
        fun j hj => ?_, fun j hj => ?_, fun j hj => by rw [hc.refs]; exact hj⟩
      · rw [(hsame j hj).1]
        exact hj.2
      · rw [(hsame j hj).1]
      · exact ⟨by rw [(hsame j hj).1], (hsame j hj).2⟩
      · rcases hback j hj with rfl | hj
        · refine Or.inr ?_
          rw [hd.info]
          simp [newInfo]
        · exact Or.inl hj
      · rcases hback j hj with rfl | hj
        · refine Or.inr ?_
          rw [hd.info, newInfo]
          dsimp only
          split <;> decide
        · exact Or.inl ⟨hj, by rw [(hsame j hj).1]⟩
    · cases hj
      exact hc.fresh

/-- An open request that is answered adds one reference to a file in use, which it
may have emptied. -/
theorem open_carries (h : Healthy v) {path : Str} (hpath : (0 : UInt8) ∉ path) (flags : UInt32) :
    (∃ w, fsOpen v path flags = (none, w) ∧ Healthy w ∧
      Carries (fun _ => False) (view v) (view w) ∧ w.openRefs = v.openRefs) ∨
    ∃ nr ino u, fsOpen v path flags = (some (nr, ino), u.setRefs nr (u.openRefs nr + 1)) ∧
      Healthy u ∧ Carries (fun i => i = nr ∧ flags &&& 2 ≠ 0) (view v) (view u) ∧
      u.openRefs = v.openRefs ∧ 0 < nr ∧ (view u).IsFile nr := by
  have htarget : Carries (fun _ => False) (view v) (view (openTarget v path flags).2) ∧
      (openTarget v path flags).2.openRefs = v.openRefs := by
    rcases openTarget_volume v path flags with he | he
    · rw [he]
      exact ⟨Carries.refl _ _, rfl⟩
    · rw [he]
      obtain ⟨h1, h2, -⟩ := create_carries h hpath (Or.inl rfl)
      exact ⟨h1, h2⟩
  rcases fsOpen_spec h hpath flags with he | ⟨nr, ino, u, he, hopen⟩
  · exact Or.inl ⟨_, he, (openTarget_spec h hpath flags).1, htarget⟩
  · refine Or.inr ⟨nr, ino, u, he, hopen.healthy, ?_, ?_, hopen.file.valid.1, hopen.isFile⟩
    · refine (htarget.1.mono fun _ => False.elim).trans ?_
      rw [hopen.view]
      split
      · exact Carries.refl _ _
      next hflag =>
        have hempty := Carries.of_only nr (V := view (openTarget v path flags).2)
          (W := ((view (openTarget v path flags).2).setBlocks nr fun _ => zero).setInfo nr
            { (view (openTarget v path flags).2).info nr with size := 0 })
          ⟨rfl, rfl, fun j hj => update_of_ne hj _ _,
            fun j hj => update_of_ne hj _ _⟩
          (by simp [View.setInfo]) (by simp [View.setInfo]) (Or.inr (by simp [View.setInfo]))
        exact hempty.mono fun i hi => ⟨hi, hflag⟩
    · rw [← htarget.2]
      have hrefs := congrArg View.refs hopen.view
      split at hrefs <;> exact hrefs

/-! ## The files of a volume -/

/-- The invariant of the files: their sizes are within the limit, and one without a
link is open. -/
structure Tidy (v : Volume) : Prop where
  healthy : Healthy v
  fits : ∀ i, (view v).IsFile i → ((view v).info i).size.toNat ≤ fsMaxFileSize
  held : ∀ i, (view v).IsFile i → ((view v).info i).linkCount = 0 → v.openRefs i ≠ 0
  zero : v.openRefs 0 = 0

theorem Tidy.carries (h : Tidy v) (hw : Healthy w) (hc : Carries C (view v) (view w))
    (hzero : w.openRefs 0 = 0) : Tidy w := by
  refine ⟨hw, fun i hi => ?_, fun i hi hl => ?_, hzero⟩
  · rcases hc.fits i hi with ⟨hV, hsize⟩ | hle
    · rw [hsize]
      exact h.fits i hV
    · exact hle
  · rcases hc.fresh i hi with hV | hne
    · exact hc.refs i (h.held i hV ((hc.file i hV).2.symm.trans hl))
    · exact absurd hl hne

theorem Tidy.unlink (h : Tidy v) (path : Str) :
    Tidy (fsUnlinkPath v path fsRootInode).2 ∧
      ((fsUnlinkPath v path fsRootInode).2 = v ∨
        ∃ i, Severed v (fsUnlinkPath v path fsRootInode).2 i ∧
          (v.openRefs i = 0 → (fsUnlinkPath v path fsRootInode).2.sb = v.sb)) := by
  have hw := h.healthy.unlink path
  rcases fsUnlinkPath_spec h.healthy path with ⟨he, -⟩ |
    ⟨p, k, s, i, name, w, -, he, -, -, -, hsev, hsb⟩
  · rw [he]
    exact ⟨h, Or.inl rfl⟩
  · rw [he] at hw ⊢
    have hkept : ∀ j, (view w).IsFile j → (view v).IsFile j ∧
        ((view w).info j).size = ((view v).info j).size ∧
        (((view w).info j).linkCount = ((view v).info j).linkCount ∨ v.openRefs j ≠ 0) := by
      intro j hj
      refine ⟨hsev.files j hj, ?_⟩
      by_cases hji : j = i
      · subst hji
        have hopen : v.openRefs j ≠ 0 := by
          intro h0
          exact absurd hj.1 (by simp [(hsev.closed h0).1])
        rw [(hsev.opened hopen).2.1]
        exact ⟨rfl, Or.inr hopen⟩
      · rw [(hsev.others j hji (hsev.files j hj)).2.1]
        exact ⟨rfl, Or.inl rfl⟩
    refine ⟨⟨hw, fun j hj => ?_, fun j hj hl => ?_, ?_⟩, Or.inr ⟨i, hsev, hsb⟩⟩
    · obtain ⟨hV, hsize, -⟩ := hkept j hj
      rw [hsize]
      exact h.fits j hV
    · obtain ⟨hV, -, hlinks | hopen⟩ := hkept j hj
      · rw [hsev.refs]
        exact h.held j hV (hlinks.symm.trans hl)
      · rw [hsev.refs]
        exact hopen
    · rw [hsev.refs]
      exact h.zero

/-! ## Taking references back -/

/-- References have been taken back, and files that had no link and lost their last
reference have gone with their blocks. -/
structure Sheds (v w : Volume) : Prop where
  refs : ∀ i, v.openRefs i = 0 → w.openRefs i = 0
  used : ∀ i, (view w).used i = true → (view v).used i = true
  same : ∀ i, (view w).used i = true → SameInode v w i
  blocks : ∀ i x, (view w).used i = true → HasBlock v i x → HasBlock w i x
  bits : ∀ x, x < v.sb.totalBlocks → bmapBit w x = true → bmapBit v x = true
  freed : ∀ i, (view v).used i = true → (view w).used i = false → (view v).IsFile i ∧
    ((view v).info i).linkCount = 0 ∧ w.openRefs i = 0 ∧ ∀ x, HasBlock v i x → bmapBit w x = false

section Sheds

variable {u : Volume}

theorem Sheds.refl (v : Volume) : Sheds v v :=
  ⟨fun _ => id, fun _ => id, fun _ _ => ⟨rfl, rfl⟩, fun _ _ _ => id, fun _ _ => id,
    fun _ h1 h2 => absurd (h1.symm.trans h2) (by decide)⟩

theorem Sheds.trans (hs : Sound u) (h1 : Sheds u v) (h2 : Sheds v w) (hsb : v.sb = u.sb) :
    Sheds u w := by
  have hbits : ∀ x, x < u.sb.totalBlocks → bmapBit w x = true → bmapBit v x = true :=
    fun x hx => h2.bits x (by rw [hsb]; exact hx)
  refine ⟨fun i hi => h2.refs i (h1.refs i hi), fun i hi => h1.used i (h2.used i hi),
    fun i hi => ?_, fun i x hi hx => h2.blocks i x hi (h1.blocks i x (h2.used i hi) hx),
    fun x hx hset => h1.bits x hx (hbits x hx hset), fun i hu hw => ?_⟩
  · obtain ⟨hinfo, hdata⟩ := h2.same i hi
    obtain ⟨hinfo', hdata'⟩ := h1.same i (h2.used i hi)
    exact ⟨hinfo.trans hinfo', hdata.trans hdata'⟩
  · cases hv : (view v).used i with
    | false =>
      obtain ⟨hf, hl, hr, hb⟩ := h1.freed i hu hv
      refine ⟨hf, hl, h2.refs i hr, fun x hx => Bool.eq_false_iff.mpr fun hset => ?_⟩
      exact absurd (hbits x (hx.lt hs) hset) (by simp [hb x hx])
    | true =>
      obtain ⟨hf, hl, hr, hb⟩ := h2.freed i hv hw
      obtain ⟨hinfo, -⟩ := h1.same i hv
      rw [View.IsFile, hinfo] at hf
      rw [hinfo] at hl
      exact ⟨⟨hu, hf.2⟩, hl, hr, fun x hx => hb x (h1.blocks i x hv hx)⟩

theorem Sheds.setRefs {nr : Nat} {n : UInt32} (h : v.openRefs nr ≠ 0) :
    Sheds v (v.setRefs nr n) := by
  refine ⟨fun i hi => ?_, fun _ => id, fun _ _ => ⟨rfl, rfl⟩, fun _ _ _ => id, fun _ _ => id,
    fun _ h1 h2 => absurd (h1.symm.trans h2) (by decide)⟩
  have hne : i ≠ nr := fun he => h (he ▸ hi)
  simpa [Volume.setRefs, hne] using hi

theorem Sheds.of_erased {nr : Nat} (hs : Sound v) (he : Erased v w nr)
    (hview : view w = (view v).free nr) (hfile : (view v).IsFile nr)
    (hlinks : ((view v).info nr).linkCount = 0) (hrefs : v.openRefs nr = 0) : Sheds v w := by
  have hgone : (view w).used nr = false := by
    rw [hview]
    simp [View.free, View.setInfo, View.setUsed]
  have hother : ∀ i, i ≠ nr → (view w).used i = (view v).used i ∧ SameInode v w i := by
    intro i hi
    unfold SameInode
    rw [hview]
    simp [View.free, View.setInfo, View.setUsed, View.setBlocks, hi]
  have hne : ∀ i, (view w).used i = true → i ≠ nr := by
    rintro i hi rfl
    exact absurd hi (by simp [hgone])
  refine ⟨fun i hi => by rw [he.openRefs]; exact hi,
    fun i hi => (hother i (hne i hi)).1.symm.trans hi, fun i hi => (hother i (hne i hi)).2,
    fun i x hi hx => hx.congr (blockAt_of_disk hs he.disk (he.tab i (hne i hi))),
    fun x hx hset => ((he.bits x hx).mp hset).1, fun i hv hw => ?_⟩
  have hi : i = nr := by
    by_contra hi
    rw [(hother i hi).1, hv] at hw
    cases hw
  subst hi
  refine ⟨hfile, hlinks, by rw [he.openRefs]; exact hrefs, fun x hx => ?_⟩
  exact Bool.eq_false_iff.mpr fun hset => ((he.bits x (hx.lt hs)).mp hset).2 hx

end Sheds

theorem Tidy.sheds (h : Tidy v) (hw : Healthy w) (hs : Sheds v w)
    (hheld : ∀ i, (view w).used i = true → ((view v).info i).linkCount = 0 → v.openRefs i ≠ 0 →
      w.openRefs i ≠ 0) : Tidy w := by
  have hback : ∀ i, (view w).IsFile i → (view v).IsFile i := by
    intro i hi
    refine ⟨hs.used i hi.1, ?_⟩
    rw [← (hs.same i hi.1).1]
    exact hi.2
  refine ⟨hw, fun i hi => ?_, fun i hi hl => ?_, hs.refs 0 h.zero⟩
  · rw [(hs.same i hi.1).1]
    exact h.fits i (hback i hi)
  · rw [(hs.same i hi.1).1] at hl
    exact hheld i hi.1 hl (h.held i (hback i hi) hl)

/-- `release_inode`: without a reference nothing happens; otherwise one is taken back, and
the inode goes if that was the last one and there is no link. -/
theorem Tidy.releaseInode_cases (h : Tidy v) (nr : Nat) :
    (v.openRefs nr = 0 ∧ releaseInode v nr = v) ∨
    v.openRefs nr ≠ 0 ∧ validInode v nr ∧ (view v).IsFile nr ∧
      ((¬(v.openRefs nr - 1 = 0 ∧ ((view v).info nr).linkCount = 0) ∧
          releaseInode v nr = v.setRefs nr (v.openRefs nr - 1)) ∨
        v.openRefs nr - 1 = 0 ∧ ((view v).info nr).linkCount = 0 ∧
          ∃ u, u = v.setRefs nr (v.openRefs nr - 1) ∧
            releaseInode v nr = forgetInode u nr (inodeAt u nr)) := by
  by_cases hrefs : v.openRefs nr = 0
  · exact Or.inl ⟨hrefs, if_pos (Or.inr hrefs)⟩
  · have hfile : (view v).IsFile nr := h.healthy.names.refs hrefs
    have hvalid : validInode v nr := by
      refine ⟨Nat.pos_of_ne_zero fun h0 => hrefs ?_, (view_used_iff.mp hfile.1).1⟩
      rw [h0]
      exact h.zero
    refine Or.inr ⟨hrefs, hvalid, hfile, ?_⟩
    have hself : (v.setRefs nr (v.openRefs nr - 1)).openRefs nr = v.openRefs nr - 1 :=
      update_self _ _ _
    have hget := fsGetInode_eq (v := v.setRefs nr (v.openRefs nr - 1))
      h.healthy.sound.mounted hvalid
    have hlinks : ((view v).info nr).linkCount =
        (inodeAt (v.setRefs nr (v.openRefs nr - 1)) nr).linkCount := by
      rw [view_info hvalid.2]
      rfl
    rw [hlinks, releaseInode, if_neg (by simp [hvalid, hrefs])]
    dsimp only
    rw [hself, hget]
    by_cases hzero : v.openRefs nr - 1 = 0
    · rw [if_pos hzero]
      by_cases hl : (inodeAt (v.setRefs nr (v.openRefs nr - 1)) nr).linkCount = 0
      · exact Or.inr ⟨hzero, hl, _, rfl, if_pos hl⟩
      · exact Or.inl ⟨fun hgo => hl hgo.2, if_neg hl⟩
    · exact Or.inl ⟨fun hgo => hzero hgo.1, if_neg hzero⟩

theorem Tidy.release (h : Tidy v) (nr : Nat) :
    Tidy (releaseInode v nr) ∧ Sheds v (releaseInode v nr) ∧ (releaseInode v nr).sb = v.sb ∧
      (releaseInode v nr).openRefs = if v.openRefs nr = 0 then v.openRefs
        else update v.openRefs nr (v.openRefs nr - 1) := by
  have hw := h.healthy.release nr
  rcases h.releaseInode_cases nr with
    ⟨hrefs, he⟩ | ⟨hrefs, hvalid, hfile, ⟨hstay, he⟩ | ⟨hlast, hlinks, u, hu, he⟩⟩
  · rw [he, if_pos hrefs]
    exact ⟨h, Sheds.refl v, rfl, rfl⟩
  · rw [he] at hw ⊢
    have hshed : Sheds v (v.setRefs nr (v.openRefs nr - 1)) := Sheds.setRefs hrefs
    refine ⟨h.sheds hw hshed fun i _ hl hopen => ?_, hshed, rfl, (if_neg hrefs).symm⟩
    by_cases hi : i = nr
    · subst hi
      simpa [Volume.setRefs] using fun h0 => hstay ⟨h0, hl⟩
    · simpa [Volume.setRefs, hi] using hopen
  · have hshed : Sheds v u := hu ▸ Sheds.setRefs hrefs
    have hrefsu : u.openRefs = update v.openRefs nr (v.openRefs nr - 1) := by
      rw [hu]
      rfl
    have hsb : u.sb = v.sb := by
      rw [hu]
      rfl
    have hview : view u = (view v).setRefs nr (v.openRefs nr - 1) := by
      rw [hu]
      rfl
    have hs : Sound u := hu ▸ (h.healthy.sound.setRefs nr (v.openRefs nr - 1)).1
    have hfileu : (view u).IsFile nr := by
      rw [hview]
      exact hfile
    have hvalidu : validInode u nr := by
      rw [validInode, hsb]
      exact hvalid
    obtain ⟨-, hfree, herase⟩ := forgetInode_spec hs hvalidu
      (diskTab_eq hvalidu.2 (Or.inl (view_used_iff.mp hfileu.1).2))
    rw [← he] at hfree herase
    have hgone : (view (releaseInode v nr)).used nr = false := by
      rw [hfree]
      simp [View.free, View.setInfo, View.setUsed]
    have hall := hshed.trans h.healthy.sound (Sheds.of_erased hs herase hfree hfileu
      (by rw [hview]; exact hlinks) (by rw [hrefsu, update_self]; exact hlast)) hsb
    rw [if_neg hrefs, herase.openRefs, hrefsu]
    refine ⟨h.sheds hw hall fun i hused _ hopen => ?_, hall, herase.sb.trans hsb, rfl⟩
    have hi : i ≠ nr := by
      rintro rfl
      exact absurd hused (by simp [hgone])
    rw [herase.openRefs, hrefsu, update_of_ne hi]
    exact hopen

/-! ## What happens to a file -/

/-- One call, as the files see it: those that stay in use keep their contents unless
they are in `C`, and their links unless a name was removed; the others have no
reference, had no link if no name was removed, and their blocks are free. -/
structure Lives (C : Nat → Prop) (removed : Prop) (v w : Volume) : Prop where
  kept : ∀ i, (view v).IsFile i → (view w).used i = true → (view w).IsFile i ∧
    (¬C i → ((view w).info i).size = ((view v).info i).size ∧ (view w).data i = (view v).data i)
  links : ∀ i, (view v).IsFile i → (view w).used i = true → ¬removed →
    ((view w).info i).linkCount = ((view v).info i).linkCount
  freed : ∀ i, (view v).IsFile i → (view w).used i = false → w.openRefs i = 0 ∧
    (((view v).info i).linkCount = 0 ∨ removed) ∧ ∀ x, HasBlock v i x → bmapBit w x = false

theorem Lives.mono {D : Nat → Prop} {removed removed' : Prop} (h : Lives C removed v w)
    (hCD : ∀ i, C i → D i) (hr : removed → removed') : Lives D removed' v w := by
  refine ⟨fun i hi hw => ?_, fun i hi hw hno => h.links i hi hw fun hrem => hno (hr hrem),
    fun i hi hw => ?_⟩
  · obtain ⟨hf, hsame⟩ := h.kept i hi hw
    exact ⟨hf, fun hno => hsame fun hc => hno (hCD i hc)⟩
  · obtain ⟨hrefs, hlinks, hbits⟩ := h.freed i hi hw
    exact ⟨hrefs, hlinks.imp_right hr, hbits⟩

theorem Carries.lives (h : Carries C (view v) (view w)) : Lives C False v w :=
  ⟨fun i hi _ => ⟨(h.file i hi).1, h.same i hi⟩, fun i hi _ _ => (h.file i hi).2,
    fun i hi hno => absurd hno (by simp [(h.file i hi).1.1])⟩

theorem Sheds.lives (h : Sheds v w) : Lives (fun _ => False) False v w := by
  refine ⟨fun i hi hw => ?_, fun i _ hw _ => by rw [(h.same i hw).1], fun i hi hw => ?_⟩
  · obtain ⟨hinfo, hdata⟩ := h.same i hw
    refine ⟨⟨hw, by rw [hinfo]; exact hi.2⟩, fun _ => ⟨by rw [hinfo], hdata⟩⟩
  · obtain ⟨-, hl, hr, hb⟩ := h.freed i hi.1 hw
    exact ⟨hr, Or.inl hl, hb⟩

theorem Severed.lives {j : Nat} (h : Severed v w j) : Lives (fun _ => False) True v w := by
  refine ⟨fun i hi hw => ?_, fun _ _ _ hno => absurd trivial hno, fun i hi hw => ?_⟩
  · by_cases hij : i = j
    · subst hij
      have hopen : v.openRefs i ≠ 0 := fun h0 => absurd hw (by simp [(h.closed h0).1])
      obtain ⟨-, hinfo, hdata⟩ := h.opened hopen
      rw [View.IsFile, hinfo]
      exact ⟨⟨hw, hi.2⟩, fun _ => ⟨rfl, hdata⟩⟩
    · obtain ⟨-, hinfo, hdata⟩ := h.others i hij hi
      rw [View.IsFile, hinfo]
      exact ⟨⟨hw, hi.2⟩, fun _ => ⟨rfl, hdata⟩⟩
  · have hij : i = j := by
      by_contra hij
      exact absurd hw (by simp [(h.others i hij hi).1])
    subst hij
    have hclosed : v.openRefs i = 0 := by
      by_contra hopen
      exact absurd hw (by simp [(h.opened hopen).1])
    exact ⟨by rw [h.refs]; exact hclosed, Or.inr trivial, (h.closed hclosed).2⟩

end OrangeOs.Fs
