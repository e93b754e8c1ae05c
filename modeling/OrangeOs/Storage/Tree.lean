import OrangeOs.Storage.Safety
import OrangeOs.Lib.Machine
import OrangeOs.Lib.NamedTree

/-! # The name space as a tree

The abstract name space is a finite tree whose nodes are inode numbers, and its
operations say when a creation or a removal may succeed and what it then does to
the tree. `fs_create_path` and `fs_unlink_path` on canonical absolute paths refine
it: whatever the history, `fs_lookup_path` shows the tree.
-/

namespace OrangeOs.Storage

open Bytes Fs Mkfs NamedGraph Machine Function Option

/-! ## The abstract name space -/

inductive NameOp where
  | create (path : List Name) (type : FileType)
  | unlink (path : List Name)

inductive NameResult where
  | created (nr : Nat)
  | unlinked
  | refused

abbrev NameTree := PathTree Nat Name

/-- A creation needs a directory without an entry of the name and gives a number
that is not in the tree; it may also be refused for lack of space. A removal
needs a node with nothing below it and is refused only if there is none, or if the
path is too long for `path_parent`. -/
inductive NameStep : NameTree → NameOp → NameResult → NameTree → Prop
  | created (t : NameTree) (p : List Name) (c : Name) (type : FileType) (nr : Nat)
      (parent : ∃ d, t.node p = some ⟨d, true⟩) (absent : t.node (p ++ [c]) = none)
      (fresh : ∀ q m, t.node q = some m → m.id ≠ nr) :
      NameStep t (.create (p ++ [c]) type) (.created nr)
        (t.add p c ⟨nr, type = .directory⟩ parent absent fresh)
  | refusedCreate (t : NameTree) (p : List Name) (type : FileType) :
      NameStep t (.create p type) .refused t
  | unlinked (t : NameTree) (p : List Name) (c : Name) (present : t.node (p ++ [c]) ≠ none)
      (bare : t.Bare (p ++ [c])) :
      NameStep t (.unlink (p ++ [c])) .unlinked (t.remove p c bare)
  | refusedUnlink (t : NameTree) (p : List Name)
      (reason : p = [] ∨ t.node p = none ∨ ¬t.Bare p ∨ fsPathMax ≤ (render p).length) :
      NameStep t (.unlink p) .refused t

/-! ## The operations of the file system -/

def NameOp.exec (v : Volume) : NameOp → NameResult × Volume
  | .create path type =>
    match fsCreatePath v (render path) fsRootInode type.code with
    | (some nr, w) => (.created nr, w)
    | (none, w) => (.refused, w)
  | .unlink path =>
    match fsUnlinkPath v (render path) fsRootInode with
    | (true, w) => (.unlinked, w)
    | (false, w) => (.refused, w)

/-- What `fs_lookup_path` finds at a path. -/
def lookup (v : Volume) (p : List Name) : Option (Node Nat) :=
  (fsLookupPath v (render p) fsRootInode).map fun (i, ino) => ⟨i, ino.type = fsTypeDirectory⟩

/-- Lookups show the tree, no directory has two entries of one name, and `..` names
the parent. -/
structure Shows (v : Volume) (t : NameTree) : Prop where
  lookup : ∀ p, lookup v p = t.node p
  unique : (view v).Unique
  rootUp : (dirFind v fsRootInode dotdot).map (fun found => found.1) = some fsRootInode
  up : ∀ p c d i, t.node p = some ⟨d, true⟩ → t.node (p ++ [c]) = some ⟨i, true⟩ →
    (dirFind v i dotdot).map (fun found => found.1) = some d

/-! ## The tree of a volume -/

variable {i : Nat} {q : List Name} {v : Volume} {t : NameTree}

section Tree

variable (h : Healthy v)

theorem lookup_eq (h : Healthy v) (p : List Name) : lookup v p =
    ((graph v).walk p).map fun i => ⟨i, (inodeAt v i).type = fsTypeDirectory⟩ := by
  rw [lookup, h.fsLookupPath_render, map_map]
  rfl

theorem inode_type (hi : (view v).used i = true) : ((view v).info i).type = (inodeAt v i).type := by
  rw [view_info (view_used_iff.mp hi).1]
  rfl

theorem parent_walk (h : Healthy v) {c : Name} {d : Nat} {name : Str}
    (hpp : pathParent v (render (q ++ [c])) fsRootInode = some (d, name)) :
    (graph v).walk q = some d ∧ name = c.1 := by
  rw [h.pathParent_render] at hpp
  split at hpp
  · cases hpp
  · obtain ⟨d', hd', heq⟩ := map_eq_some_iff.mp hpp
    cases heq
    exact ⟨hd', rfl⟩

theorem inode_isDir (hi : (view v).used i = true) :
    (view v).IsDir i ↔ (inodeAt v i).type = fsTypeDirectory := by
  rw [View.IsDir, inode_type hi]
  exact and_iff_right hi

/-- The directories and files of a volume, seen from its root. -/
def nameTree (h : Healthy v) : NameTree :=
  h.rooted.tree (fun i => (inodeAt v i).type = fsTypeDirectory) (U := {i | i < v.sb.totalInodes})
    (Set.finite_lt_nat _) (fun _ _ hp => (view_used_iff.mp (h.walk_used hp).1).1)
    (decide_eq_true ((inode_isDir h.root_used).mp h.names.rootDir))
    (fun hc => decide_eq_true ((inode_isDir (h.child_some hc).1.1).mp (h.child_some hc).1))

theorem nameTree_node (p : List Name) : (nameTree h).node p = lookup v p := (lookup_eq h p).symm

theorem node_walk {p : List Name} {n : Node Nat} (hn : (nameTree h).node p = some n) :
    (graph v).walk p = some n.id ∧ n.inner = decide ((inodeAt v n.id).type = fsTypeDirectory) := by
  obtain ⟨i, hi, rfl⟩ := map_eq_some_iff.mp hn
  exact ⟨hi, rfl⟩

theorem shows_nameTree (hu : (view v).Unique) : Shows v (nameTree h) := by
  have hup : ∀ {d}, (view v).IsDir d → ∃ p, (view v).IsDir p ∧
      (dirFind v d dotdot).map (fun found => found.1) = some p ∧
      if d = fsRootInode then p = fsRootInode else ∃ k s name, (view v).Child p k s d name := by
    intro d hd
    obtain ⟨p, he, hp, hparent⟩ := h.names.up hd
    exact ⟨p, hp, h.dirFind_entry hu hd he, hparent⟩
  refine ⟨fun p => (nameTree_node h p).symm, hu, ?_, ?_⟩
  · obtain ⟨p, -, hfind, hparent⟩ := hup h.names.rootDir
    rwa [if_pos rfl, ← some.injEq, ← hfind] at hparent
  · intro p c d i hd hi
    obtain ⟨hwd, -⟩ := node_walk h hd
    obtain ⟨hwi, hinner⟩ := node_walk h hi
    obtain ⟨x, hx, hc⟩ := PointedGraph.walk_snoc_some hwi
    obtain rfl := some.inj (hx.symm.trans hwd)
    obtain ⟨hdir, k, s, hchild⟩ := h.child_some hc
    obtain ⟨hused, hroot, -⟩ := h.names.child hdir hchild
    have hidir := (inode_isDir hused).mpr (of_decide_eq_true hinner.symm)
    obtain ⟨q, hq, hfind, hparent⟩ := hup hidir
    rw [if_neg hroot] at hparent
    obtain ⟨k', s', name, hchild'⟩ := hparent
    rw [hfind, (h.names.once hdir hq hchild hchild').1]

end Tree

/-! ## Steps -/

theorem lookup_same {w : Volume} (hv : Healthy v) (hw : Healthy w) (hu : (view v).Unique)
    (hsame : SameNames (view v) (view w))
    (htype : ∀ i, (view v).used i = true → (inodeAt w i).type = (inodeAt v i).type)
    (p : List Name) : lookup w p = lookup v p := by
  have hchild : (graph w).child = (graph v).child := by
    funext d c
    apply ext
    intro i
    rw [hw.child_iff (hu.same hsame), hv.child_iff hu, hsame.isDir]
    refine and_congr_right fun hd => ?_
    have hdata := hsame.data d hd
    exact ⟨fun ⟨k, s, hc⟩ => ⟨k, s, hc.congr hdata.symm⟩, fun ⟨k, s, hc⟩ => ⟨k, s, hc.congr hdata⟩⟩
  have hgraph : graph w = graph v := by
    change PointedGraph.mk fsRootInode (graph w).child = _
    rw [hchild]
    rfl
  rw [lookup_eq hw, lookup_eq hv, hgraph]
  cases hp : (graph v).walk p with
  | none => rfl
  | some i => rw [map_some, map_some, htype i (hv.walk_used hp).1]

section Step

variable {w : Volume} (hv : Healthy v) (hw : Healthy w) (hu : (view v).Unique) {d k s : Nat}
  {c : Name}
include hv hw hu

theorem created_relinked (hc : Created (view v) (view w) d k s i c.1) :
    Relinked (graph v) (graph w) d c ∧ (graph v).child d c = none ∧
      (graph w).child d c = some i := by
  have hwu : (view w).Unique := hu.created hc
  have hold : (graph v).child d c = none := by
    refine eq_none_iff_forall_not_mem.mpr fun j hj => ?_
    obtain ⟨-, k', s', hchild⟩ := (hv.child_iff hu).mp hj
    exact hc.absent k' s' j hchild.entry
  have hd : (view w).IsDir d := (hc.isDir_iff d).mpr (Or.inl hc.parent)
  have hnew : (graph w).child d c = some i := (hw.child_iff hwu).mpr
    ⟨hd, k, s, (hc.child_iff d _ _ _ _ hd).mpr (Or.inl ⟨rfl, rfl, rfl, rfl, rfl⟩)⟩
  refine ⟨⟨rfl, ?_, ?_, ?_⟩, hold, hnew⟩
  · intro x b hne
    apply ext
    intro j
    rw [hw.child_iff hwu, hv.child_iff hu]
    constructor
    · rintro ⟨hx, k', s', hchild⟩
      rcases (hc.child_iff x _ _ _ _ hx).mp hchild with ⟨rfl, -, -, -, hb⟩ | ⟨hx, hchild⟩
      · exact absurd ⟨rfl, Subtype.ext hb⟩ hne
      · exact ⟨hx, k', s', hchild⟩
    · rintro ⟨hx, k', s', hchild⟩
      have hxw := (hc.isDir_iff x).mpr (Or.inl hx)
      exact ⟨hxw, k', s', (hc.child_iff x _ _ _ _ hxw).mpr (Or.inr ⟨hx, hchild⟩)⟩
  · intro j b hj
    rw [hold] at hj
    cases hj
  · intro j b hj
    obtain rfl := some.inj (hnew.symm.trans hj)
    refine eq_none_iff_forall_not_mem.mpr fun j hj => ?_
    obtain ⟨hi, k', s', hchild⟩ := (hw.child_iff hwu).mp hj
    rcases (hc.child_iff i _ _ _ _ hi).mp hchild with ⟨heq, -⟩ | ⟨hi, -⟩
    · exact hc.ne_of_used hc.parent.1 heq.symm
    · exact hc.ne_of_used hi.1 rfl

theorem unlinked_relinked (hun : Unlinked (view v) (view w) d k s i c.1) :
    Relinked (graph v) (graph w) d c ∧ (graph v).child d c = some i ∧
      (graph w).child d c = none := by
  have hwu : (view w).Unique := hu.unlinked hv.names hun
  have hold : (graph v).child d c = some i := (hv.child_iff hu).mpr ⟨hun.parent, k, s, hun.child⟩
  have hnew : (graph w).child d c = none := by
    refine eq_none_iff_forall_not_mem.mpr fun j hj => ?_
    obtain ⟨hd, k', s', hchild⟩ := (hw.child_iff hwu).mp hj
    obtain ⟨hchild, hne⟩ := (hun.child_iff hv.names hd _ _ _ _).mp hchild
    obtain ⟨rfl, rfl⟩ := hu hun.parent hchild.entry hun.child.entry
    exact hne (hchild.entry.inode.symm.trans hun.child.entry.inode)
  have hbare : ∀ b, (graph v).child i b = none := by
    intro b
    refine eq_none_iff_forall_not_mem.mpr fun j hj => ?_
    obtain ⟨hi, k', s', hchild⟩ := hv.child_some hj
    exact hun.childless hi hchild
  refine ⟨⟨rfl, ?_, ?_, ?_⟩, hold, hnew⟩
  · intro x b hne
    apply ext
    intro j
    rw [hw.child_iff hwu, hv.child_iff hu]
    constructor
    · rintro ⟨hx, k', s', hchild⟩
      exact ⟨((hun.isDir_iff hv.names x).mp hx).1, k', s',
        ((hun.child_iff hv.names hx _ _ _ _).mp hchild).1⟩
    · rintro ⟨hx, k', s', hchild⟩
      have hxi : x ≠ i := by
        rintro rfl
        exact hun.childless hx hchild
      have hxw := (hun.isDir_iff hv.names x).mpr ⟨hx, hxi⟩
      refine ⟨hxw, k', s', (hun.child_iff hv.names hxw _ _ _ _).mpr ⟨hchild, ?_⟩⟩
      rintro rfl
      obtain ⟨rfl, rfl, rfl⟩ := hv.names.once hx hun.parent hchild hun.child
      exact hne ⟨rfl, Subtype.ext (hchild.entry.name.symm.trans hun.child.entry.name)⟩
  · intro j b hj
    obtain rfl := some.inj (hold.symm.trans hj)
    exact hbare b
  · intro j b hj
    rw [hnew] at hj
    cases hj

theorem created_lookup (hc : Created (view v) (view w) d k s i c.1)
    (hq : (graph v).walk q = some d) :
    lookup w = update (lookup v) (q ++ [c])
      (some ⟨i, (inodeAt w i).type = fsTypeDirectory⟩) := by
  classical
  obtain ⟨hrel, -, hnew⟩ := created_relinked hv hw hu hc
  funext p
  rw [lookup_eq hw, hrel.walk hv.rooted hq, hnew, update_apply]
  split
  · rfl
  · rw [lookup_eq hv]
    cases hp : (graph v).walk p with
    | none => rfl
    | some j =>
      have hj := (hv.walk_used hp).1
      rw [map_some, map_some, ← inode_type hj,
        ← inode_type ((hc.used_iff j).mpr (Or.inr hj)), hc.type j (hc.ne_of_used hj) hj]

theorem unlinked_lookup (hun : Unlinked (view v) (view w) d k s i c.1)
    (hq : (graph v).walk q = some d) : lookup w = update (lookup v) (q ++ [c]) none := by
  classical
  obtain ⟨hrel, hold, hnew⟩ := unlinked_relinked hv hw hu hun
  have hwalk : (graph v).walk (q ++ [c]) = some i := by
    rw [PointedGraph.walk_snoc, hq]
    exact hold
  funext p
  rw [lookup_eq hw, hrel.walk hv.rooted hq, hnew, update_apply]
  split
  · rfl
  · next hne =>
    rw [lookup_eq hv]
    cases hp : (graph v).walk p with
    | none => rfl
    | some j =>
      have hj := (hv.walk_used hp).1
      have hji : j ≠ i := by
        rintro rfl
        exact hne (hv.rooted.walk_injective hp hwalk)
      have hjw := (hun.used j hji).trans hj
      rw [map_some, map_some, ← inode_type hj, ← inode_type hjw,
        hun.type j hj hjw]

end Step

/-- A healthy volume without two entries of one name in a directory shows its
tree. -/
def Represents (v : Volume) (t : NameTree) : Prop :=
  ∃ h : Healthy v, (view v).Unique ∧ t = nameTree h

theorem Represents.shows (h : Represents v t) : Shows v t := by
  obtain ⟨hv, hu, rfl⟩ := h
  exact shows_nameTree hv hu

theorem Represents.of_lookup (h : Healthy v) (hu : (view v).Unique) (ht : t.node = lookup v) :
    Represents v t := by
  refine ⟨h, hu, PathTree.ext ?_⟩
  rw [ht]
  funext p
  exact (nameTree_node h p).symm

theorem create_step (h : Represents v t) (path : List Name) (type : FileType) :
    ∃ t', NameStep t (.create path type) (NameOp.exec v (.create path type)).1 t' ∧
      Represents (NameOp.exec v (.create path type)).2 t' := by
  obtain ⟨hv, hu, rfl⟩ := h
  have hnode : (nameTree hv).node = lookup v := funext (nameTree_node hv)
  rcases fsCreatePath_spec hv (zero_notMem_render path) type.code_cases with
    he | ⟨i, u, he, hf⟩ | ⟨d, i, name, u, hpp, he, hdone⟩
  · have hexec : NameOp.exec v (.create path type) = (.refused, v) := by
      simp only [NameOp.exec, he]
    rw [hexec]
    exact ⟨_, .refusedCreate _ path type, hv, hu, rfl⟩
  · have hexec : NameOp.exec v (.create path type) = (.refused, u) := by
      simp only [NameOp.exec, he]
    have hsame := hf.only.sameNames hv.names hf.fresh
    have hw := hv.of_same hf.sound hsame
    rw [hexec]
    refine ⟨_, .refusedCreate _ path type, .of_lookup hw (hu.same hsame) ?_⟩
    rw [hnode]
    funext p
    refine (lookup_same hv hw hu hsame (fun j hj => ?_) p).symm
    have hji : j ≠ i := by
      rintro rfl
      rw [hf.fresh] at hj
      cases hj
    have hju : (view u).used j = true := by rwa [hf.only.used]
    rw [← inode_type hj, ← inode_type hju, hf.only.info j hji]
  · have hexec : NameOp.exec v (.create path type) = (.created i, u) := by
      simp only [NameOp.exec, he]
    obtain ⟨k, s, hc⟩ := hdone.created
    have hw : Healthy u := ⟨hdone.sound, hv.names.created hc⟩
    rw [hexec]
    cases path using List.reverseRecOn with
    | nil => cases (pathParent_root v fsRootInode).symm.trans hpp
    | append_singleton q c =>
      obtain ⟨hq, rfl⟩ := parent_walk hv hpp
      have hlookup := created_lookup hv hw hu hc hq
      have hiu : (view u).used i = true := (hc.used_iff i).mpr (Or.inl rfl)
      have hkind : ((inodeAt u i).type = fsTypeDirectory) = (type = .directory) := by
        rw [← inode_type hiu, hdone.info]
        cases type with
        | file => simp [newInfo, FileType.code, fsTypeFile, fsTypeDirectory]
        | directory => simp [newInfo, FileType.code]
      have hparent : ∃ d, (nameTree hv).node q = some ⟨d, true⟩ := by
        refine ⟨d, ?_⟩
        rw [hnode, lookup_eq hv, hq, map_some,
          decide_eq_true ((inode_isDir hc.parent.1).mp hc.parent)]
      have habsent : (nameTree hv).node (q ++ [c]) = none := by
        rw [hnode, lookup_eq hv, PointedGraph.walk_snoc, hq, bind_some,
          (created_relinked hv hw hu hc).2.1]
        rfl
      have hfresh : ∀ p m, (nameTree hv).node p = some m → m.id ≠ i :=
        fun p m hm => hc.ne_of_used (hv.walk_used (node_walk hv hm).1).1
      refine ⟨_, .created _ q c type i hparent habsent hfresh,
        .of_lookup hw (hu.created hc) ?_⟩
      rw [hlookup]
      simp only [hkind]
      exact congrArg (fun f => update f (q ++ [c]) _) hnode

theorem child_canonical (hv : Healthy v) {d k s : Nat} {name : Str} (hd : (view v).IsDir d)
    (hc : (view v).Child d k s i name) : CanonicalName name := by
  obtain ⟨h1, h2, h3⟩ := hv.names.fits hd hc.entry
  refine ⟨⟨h1, h2, ?_⟩, h3, hc.ne_dot, hc.ne_dotdot⟩
  rw [← hc.entry.name]
  intro hmem
  have := List.mem_takeWhile_imp hmem
  simp at this

theorem unlink_reason (hv : Healthy v) (hu : (view v).Unique) {path : List Name}
    (h : UnlinkRefused v (render path)) :
    path = [] ∨ (nameTree hv).node path = none ∨ ¬(nameTree hv).Bare path ∨
      fsPathMax ≤ (render path).length := by
  cases path using List.reverseRecOn with
  | nil => exact Or.inl rfl
  | append_singleton q c =>
    have hnode : (nameTree hv).node = lookup v := funext (nameTree_node hv)
    have hgone : (graph v).walk (q ++ [c]) = none → (nameTree hv).node (q ++ [c]) = none := by
      intro hwalk
      rw [hnode, lookup_eq hv, hwalk]
      rfl
    right
    cases h with
    | noParent hpp =>
      rw [hv.pathParent_render] at hpp
      split at hpp
      · next hlong => exact Or.inr (Or.inr hlong)
      · refine Or.inl (hgone ?_)
        rw [PointedGraph.walk_snoc, map_eq_none_iff.mp hpp]
        rfl
    | dots hpp hdots =>
      obtain ⟨-, rfl⟩ := parent_walk hv hpp
      exact absurd hdots (not_or.mpr ⟨c.ne_dot, c.ne_dotdot⟩)
    | absent hpp hfind =>
      obtain ⟨hq, rfl⟩ := parent_walk hv hpp
      refine Or.inl (hgone ?_)
      rw [PointedGraph.walk_snoc, hq, bind_some, Fs.graph]
      simp [hfind]
    | @nonempty d nr block s name hpp hfind hdir hchild =>
      obtain ⟨hq, rfl⟩ := parent_walk hv hpp
      obtain ⟨k, s', i, nm, hc⟩ := hchild
      have hd := (hv.walk_used hq).1
      have hfound : (graph v).child d c = some nr := by
        rw [Fs.graph]
        simp [hd, hfind]
      refine Or.inr (Or.inl fun hbare => ?_)
      have hnone := hbare ⟨nm, child_canonical hv hdir hc⟩
      rw [hnode, lookup_eq hv, PointedGraph.walk_snoc, PointedGraph.walk_snoc, hq, bind_some, hfound,
        bind_some, (hv.child_iff hu).mpr ⟨hdir, k, s', hc⟩] at hnone
      cases hnone

theorem unlink_step (h : Represents v t) (path : List Name) :
    ∃ t', NameStep t (.unlink path) (NameOp.exec v (.unlink path)).1 t' ∧
      Represents (NameOp.exec v (.unlink path)).2 t' := by
  obtain ⟨hv, hu, rfl⟩ := h
  have hnode : (nameTree hv).node = lookup v := funext (nameTree_node hv)
  rcases fsUnlinkPath_spec hv (render path) with
    ⟨he, hreason⟩ | ⟨d, k, s, i, name, u, hpp, he, hs, hun, -⟩
  · have hexec : NameOp.exec v (.unlink path) = (.refused, v) := by simp only [NameOp.exec, he]
    rw [hexec]
    exact ⟨_, .refusedUnlink _ path (unlink_reason hv hu hreason), hv, hu, rfl⟩
  · have hexec : NameOp.exec v (.unlink path) = (.unlinked, u) := by simp only [NameOp.exec, he]
    have hw : Healthy u := ⟨hs, hv.names.unlinked hun⟩
    rw [hexec]
    cases path using List.reverseRecOn with
    | nil => cases (pathParent_root v fsRootInode).symm.trans hpp
    | append_singleton q c =>
      obtain ⟨hq, rfl⟩ := parent_walk hv hpp
      obtain ⟨hrel, hold, -⟩ := unlinked_relinked hv hw hu hun
      have hwalk : (graph v).walk (q ++ [c]) = some i := by
        rw [PointedGraph.walk_snoc, hq]
        exact hold
      have hpresent : (nameTree hv).node (q ++ [c]) ≠ none := by
        rw [hnode, lookup_eq hv, hwalk]
        simp
      have hbare : (nameTree hv).Bare (q ++ [c]) := by
        intro b
        rw [hnode, lookup_eq hv, PointedGraph.walk_snoc, hwalk, bind_some, hrel.leafOld b hold]
        rfl
      refine ⟨_, .unlinked _ q c hpresent hbare, .of_lookup hw (hu.unlinked hv.names hun) ?_⟩
      rw [unlinked_lookup hv hw hu hun hq]
      exact congrArg (fun f => update f (q ++ [c]) none) hnode

theorem name_step (h : Represents v t) (op : NameOp) :
    ∃ t', NameStep t op (NameOp.exec v op).1 t' ∧ Represents (NameOp.exec v op).2 t' := by
  cases op with
  | create path type => exact create_step h path type
  | unlink path => exact unlink_step h path

/-- Every run of creations and removals on an image is a run of the abstract name
space, and in every state reached the lookups show its tree. -/
theorem namespace_refines_tree {diskSize startLba : Nat} {inputs : List Input}
    {disk : Nat → Block} (h : mkfs diskSize startLba inputs = some disk)
    (hnames : (inputs.map Input.name).Nodup) :
    ∃ v₀ t₀, fsInit startLba disk = some v₀ ∧ Shows v₀ t₀ ∧
      ∀ ops, ∃ t, SpecRun NameStep t₀ (trace NameOp.exec v₀ ops) t ∧
        Shows (exec NameOp.exec v₀ ops) t := by
  obtain ⟨v₀, hinit, hf⟩ := mkfs_formatted h
  have hstart : Represents v₀ (nameTree hf.healthy) := ⟨hf.healthy, hf.unique hnames, rfl⟩
  refine ⟨v₀, nameTree hf.healthy, hinit, hstart.shows, fun ops => ?_⟩
  obtain ⟨t, hrun, hend⟩ :=
    SpecRun.of_steps (R := Represents) (fun _ _ op hr => name_step hr op) hstart ops
  exact ⟨t, hrun, hend.shows⟩

theorem namespace_refines_tree_sample : ∃ disk v t₀, mkfs 1048576 0 [sampleInput] = some disk ∧
    fsInit 0 disk = some v ∧ Shows v t₀ ∧
      ∀ ops, ∃ t, SpecRun NameStep t₀ (trace NameOp.exec v ops) t ∧
        Shows (exec NameOp.exec v ops) t := by
  obtain ⟨disk, hdisk⟩ := mkfs_sample
  obtain ⟨v, t₀, hinit, hshows, hruns⟩ := namespace_refines_tree hdisk (by decide)
  exact ⟨disk, v, t₀, hdisk, hinit, hshows, hruns⟩

end OrangeOs.Storage
