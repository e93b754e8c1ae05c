import OrangeOs.Storage.Crowding
import OrangeOs.Fs.Canonical

/-! # Lexical and physical resolution

`canonicalize` lets `..` remove a component; `fs_lookup_path` follows the entry on the disk. The
stack of components and the current inode move together, the inode being the one that the
components lead to from the root.
-/

namespace OrangeOs.Storage

open Fs Mkfs List

/-- One component of `fs_lookup_path`, without its check that more of the path needs a directory. -/
def stepName (v : Volume) (d : Nat) (name : Str) : Option Nat :=
  if name = dot then some d
  else
    match dirFind v d name with
    | none => if name = dotdot ∧ d = fsRootInode then some d else none
    | some (child, _, _) => (fsGetInode v child).map fun _ => child

def walkNames (v : Volume) (d : Nat) (names : List Str) : Option Nat := names.foldlM (stepName v) d

/-- A component that is an entry's name, not a dot entry. -/
structure Plain (name : Str) : Prop where
  short : ShortName name
  ne_dot : name ≠ dot
  ne_dotdot : name ≠ dotdot

/-- The directories below the root are a tree, and each `..` leads to the parent. -/
structure DotsConsistent (v : Volume) : Prop where
  root : ∀ {p block s}, dirFind v fsRootInode dotdot = some (p, block, s) → p = fsRootInode
  up : ∀ {names d name e p block s block' s'}, (∀ x ∈ names, Plain x) →
    walkNames v fsRootInode names = some d → Plain name → dirFind v d name = some (e, block, s) →
    dirFind v e dotdot = some (p, block', s') → p = d
  below : ∀ {names d name e block s}, (∀ x ∈ names, Plain x) →
    walkNames v fsRootInode names = some d → Plain name → dirFind v d name = some (e, block, s) →
    e ≠ fsRootInode

theorem walkNames_cons (v : Volume) (d : Nat) (name : Str) (names : List Str) :
    walkNames v d (name :: names) = (stepName v d name).bind fun e => walkNames v e names :=
  foldlM_cons

theorem walkNames_snoc (v : Volume) (d : Nat) (name : Str) (names : List Str) :
    walkNames v d (names ++ [name]) = (walkNames v d names).bind fun e => stepName v e name := by
  rw [walkNames, foldlM_append]
  simp only [foldlM_cons, foldlM_nil, bind_pure]
  rfl

variable {d i : Nat} {v : Volume} {name : Str} {names : List Str}

theorem stepName_plain (hname : Plain name) (h : stepName v d name = some i) :
    ∃ block s info, dirFind v d name = some (i, block, s) ∧ fsGetInode v i = some info := by
  rw [stepName, if_neg hname.ne_dot] at h
  split at h
  case h_1 =>
    rw [if_neg fun hroot => hname.ne_dotdot hroot.1] at h
    cases h
  case h_2 child block s hfind =>
    obtain ⟨info, hinfo, rfl⟩ := Option.map_eq_some_iff.mp h
    exact ⟨block, s, info, hfind, hinfo⟩

/-! ## Both walks -/

theorem walkNames_of_lookupFrom {s : Str} (h : lookupFrom v d s = some i) :
    walkNames v d (components s) = some i ∧ ∀ name ∈ components s, name.length < 60 := by
  induction hn : s.length using Nat.strong_induction_on generalizing d s with
  | _ n ih =>
    subst hn
    rw [lookupFrom] at h
    rcases nextComponent_cases s with ⟨hnext, hnil⟩ | ⟨hnext, -⟩ | ⟨name, rest, hnext, hcons, hshort⟩
    · rw [hnil]
      split at h <;> simp_all [walkNames]
    · split at h <;> simp_all
    · have hstep : ∃ e, stepName v d name = some e ∧ lookupFrom v e rest = some i := by
        split at h
        case h_1 heq => cases hnext.symm.trans heq
        case h_2 heq => cases hnext.symm.trans heq
        case h_3 name' rest' heq =>
          obtain ⟨rfl, rfl⟩ := Component.next.inj (hnext.symm.trans heq)
          split at h
          next hdot => exact ⟨d, if_pos hdot, h⟩
          next hdot =>
            split at h
            case h_1 hfind =>
              split at h
              next hroot =>
                refine ⟨d, ?_, h⟩
                rw [stepName, if_neg hdot, hfind]
                exact if_pos hroot
              · cases h
            case h_2 child block k hfind =>
              split at h
              case h_1 => cases h
              case h_2 info hinfo =>
                split at h
                · cases h
                · refine ⟨child, ?_, h⟩
                  rw [stepName, if_neg hdot, hfind]
                  simp [hinfo]
      obtain ⟨e, he, hrest⟩ := hstep
      obtain ⟨hwalk, hall⟩ := ih rest.length (nextComponent_lt hnext) hrest rfl
      rw [hcons, walkNames_cons, he]
      exact ⟨hwalk, forall_mem_cons.mpr ⟨hshort, hall⟩⟩

theorem dirFind_directory {info : Inode} {x : Nat × Nat × Nat} (h : dirFind v d name = some x)
    (hinfo : fsGetInode v d = some info) : info.type = fsTypeDirectory := by
  rw [dirFind, hinfo] at h
  dsimp only at h
  split at h
  · cases h
  next htype => exact not_not.mp htype

theorem lookupFrom_of_walkNames (hplain : ∀ x ∈ names, Plain x) (h : walkNames v d names = some i) :
    lookupFrom v d (names.flatMap (slash :: ·)) = some i := by
  induction names generalizing d with
  | nil =>
    rw [lookupFrom]
    exact h
  | cons name names ih =>
    obtain ⟨hname, hrest⟩ := forall_mem_cons.mp hplain
    rw [walkNames_cons] at h
    obtain ⟨e, hstep, hwalk⟩ := Option.bind_eq_some_iff.mp h
    obtain ⟨block, s, info, hfind, hinfo⟩ := stepName_plain hname hstep
    have hnext : nextComponent ((name :: names).flatMap (slash :: ·)) =
        .next name (names.flatMap (slash :: ·)) := by
      rw [flatMap_cons]
      refine nextComponent_slash hname.short.ne_nil hname.short.no_slash hname.short.short ?_
      cases names with
      | nil => exact Or.inl rfl
      | cons next names => exact Or.inr rfl
    have hdir : ¬(names.flatMap (slash :: ·) ≠ [] ∧ info.type ≠ fsTypeDirectory) := by
      rintro ⟨hne, htype⟩
      cases names with
      | nil => exact hne rfl
      | cons next names =>
        rw [walkNames_cons] at hwalk
        obtain ⟨e', hstep', -⟩ := Option.bind_eq_some_iff.mp hwalk
        obtain ⟨_, _, _, hfind', -⟩ := stepName_plain (hrest next mem_cons_self) hstep'
        exact htype (dirFind_directory hfind' hinfo)
    rw [lookupFrom]
    split
    case h_1 heq => cases hnext.symm.trans heq
    case h_2 heq => cases hnext.symm.trans heq
    case h_3 name' rest' heq =>
      obtain ⟨rfl, rfl⟩ := Component.next.inj (hnext.symm.trans heq)
      simp only [if_neg hname.ne_dot, hfind, hinfo, if_neg hdir]
      exact ih hrest hwalk

theorem pathText_cons (name : Str) (names : List Str) :
    pathText (name :: names) = (name :: names).flatMap (slash :: ·) := by
  induction names generalizing name with
  | nil => simp [pathText]
  | cons next names ih =>
    rw [flatMap_cons, ← ih next, pathText, intercalate_cons_cons]
    simp [pathText]

theorem lookupFrom_pathText (hplain : ∀ x ∈ names, Plain x)
    (h : walkNames v fsRootInode names = some i) :
    lookupFrom v fsRootInode (pathText names) = some i := by
  cases names with
  | nil =>
    rw [lookupFrom]
    exact h
  | cons name names =>
    rw [pathText_cons]
    exact lookupFrom_of_walkNames hplain h

/-! ## The stack follows the inode -/

section Consistent

variable (hv : DotsConsistent v)
include hv

/-- One component: the kept components lead to the inode that the lookup steps to. -/
theorem DotsConsistent.step {parts : List Str} (hparts : ∀ x ∈ parts, Plain x)
    (hd : walkNames v fsRootInode parts = some d) (hname : ShortName name)
    (h : stepName v d name = some i) :
    walkNames v fsRootInode (keep parts name) = some i ∧ ∀ x ∈ keep parts name, Plain x := by
  unfold keep
  by_cases hdot : name = dot
  · rw [if_pos hdot]
    rw [stepName, if_pos hdot] at h
    exact ⟨hd.trans h, hparts⟩
  rw [if_neg hdot]
  by_cases hup : name = dotdot
  · rw [if_pos hup]
    subst hup
    refine ⟨?_, fun x hx => hparts x (dropLast_subset _ hx)⟩
    rw [stepName, if_neg hdot] at h
    cases parts using reverseRecOn with
    | nil =>
      obtain rfl := Option.some.inj hd
      split at h
      case h_1 => rwa [if_pos ⟨rfl, rfl⟩] at h
      case h_2 child block s hfind =>
        obtain ⟨info, -, rfl⟩ := Option.map_eq_some_iff.mp h
        exact congrArg some (hv.root hfind).symm
    | append_singleton parts last =>
      rw [dropLast_concat]
      rw [walkNames_snoc] at hd
      obtain ⟨e, he, hlast⟩ := Option.bind_eq_some_iff.mp hd
      have hbefore : ∀ x ∈ parts, Plain x := fun x hx => hparts x (mem_append_left _ hx)
      have hplain := hparts last (mem_append_right _ mem_cons_self)
      obtain ⟨block, s, info, hfind, -⟩ := stepName_plain hplain hlast
      split at h
      case h_1 =>
        rw [if_neg fun hroot => hv.below hbefore he hplain hfind hroot.2] at h
        cases h
      case h_2 child block' s' hfind' =>
        obtain ⟨info, -, rfl⟩ := Option.map_eq_some_iff.mp h
        rw [he, hv.up hbefore he hplain hfind hfind']
  · rw [if_neg hup, walkNames_snoc, hd]
    refine ⟨h, fun x hx => ?_⟩
    rcases mem_append.mp hx with hold | hnew
    · exact hparts x hold
    · obtain rfl := mem_singleton.mp hnew
      exact ⟨hname, hdot, hup⟩

theorem DotsConsistent.walk {parts : List Str} (hparts : ∀ x ∈ parts, Plain x)
    (hd : walkNames v fsRootInode parts = some d) (hnames : ∀ x ∈ names, ShortName x)
    (h : walkNames v d names = some i) :
    walkNames v fsRootInode (resolve parts names) = some i ∧
      ∀ x ∈ resolve parts names, Plain x := by
  induction names generalizing parts d with
  | nil => exact ⟨hd.trans h, hparts⟩
  | cons name names ih =>
    obtain ⟨hname, hrest⟩ := forall_mem_cons.mp hnames
    rw [walkNames_cons] at h
    obtain ⟨e, hstep, hwalk⟩ := Option.bind_eq_some_iff.mp h
    obtain ⟨he, hkept⟩ := hv.step hparts hd hname hstep
    exact ih hkept he hrest hwalk

end Consistent

/-! ## Volumes as the operations leave them -/

section Healthy

variable (h : Healthy v)
include h

theorem healthy_plain_child {e block s : Nat} (hd : (view v).used d = true) (hname : Plain name)
    (hf : dirFind v d name = some (e, block, s)) :
    (view v).IsDir d ∧ ∃ k, (view v).Child d k s e name := by
  obtain ⟨n, k, hdir, -, hfound⟩ := h.dirFind_some hd hf
  exact ⟨hdir.isDir, k, hfound.entry, hname.ne_dot, hname.ne_dotdot⟩

theorem healthy_walk_used (hnames : ∀ x ∈ names, Plain x)
    (hd : walkNames v fsRootInode names = some d) : (view v).used d = true := by
  induction names using reverseRecOn generalizing d with
  | nil =>
    obtain rfl := Option.some.inj hd
    exact h.names.rootDir.1
  | append_singleton names last ih =>
    rw [walkNames_snoc] at hd
    obtain ⟨e, he, hlast⟩ := Option.bind_eq_some_iff.mp hd
    have hplain := hnames last (mem_append_right _ mem_cons_self)
    obtain ⟨block, s, info, hfind, -⟩ := stepName_plain hplain hlast
    have hused := ih (fun x hx => hnames x (mem_append_left _ hx)) he
    obtain ⟨hdir, k, hchild⟩ := healthy_plain_child h hused hplain hfind
    exact (h.names.child hdir hchild).1

theorem healthy_up {p block s : Nat} (hd : (view v).used d = true)
    (hf : dirFind v d dotdot = some (p, block, s)) : (view v).IsDir p ∧
      if d = fsRootInode then p = fsRootInode else ∃ k s name, (view v).Child p k s d name := by
  obtain ⟨n, k, hdir, -, hfound⟩ := h.dirFind_some hd hf
  obtain ⟨p', hp', hisDir, hparent⟩ := h.names.up hdir.isDir
  obtain ⟨rfl, rfl⟩ := (h.names.dots hdir.isDir hfound.entry).2 rfl
  obtain rfl : p' = p := hp'.inode.symm.trans hfound.entry.inode
  exact ⟨hisDir, hparent⟩

theorem healthy_dotsConsistent : DotsConsistent v where
  root := fun hf => by simpa using (healthy_up h h.names.rootDir.1 hf).2
  up := by
    intro names d name e p block s block' s' hnames hd hname hf hup
    obtain ⟨hdir, k, hchild⟩ := healthy_plain_child h (healthy_walk_used h hnames hd) hname hf
    obtain ⟨hused, hne, -⟩ := h.names.child hdir hchild
    obtain ⟨hisDir, hparent⟩ := healthy_up h hused hup
    rw [if_neg hne] at hparent
    obtain ⟨k', s', name', hchild'⟩ := hparent
    exact (h.names.once hisDir hdir hchild' hchild).1
  below := by
    intro names d name e block s hnames hd hname hf
    obtain ⟨hdir, k, hchild⟩ := healthy_plain_child h (healthy_walk_used h hnames hd) hname hf
    exact (h.names.child hdir hchild).2.1

end Healthy

/-! ## Whole paths -/

theorem lookupFrom_of_fsLookupPath {path : Str} {cwd : Nat} {info : Inode}
    (h : fsLookupPath v path cwd = some (i, info)) :
    validInode v (if path.head? = some slash then fsRootInode else cwd) ∧
      lookupFrom v (if path.head? = some slash then fsRootInode else cwd) path = some i ∧
      fsGetInode v i = some info := by
  unfold fsLookupPath at h
  dsimp only at h
  generalize (if path.head? = some slash then fsRootInode else cwd) = start at h ⊢
  split at h
  · cases h
  next hvalid =>
    split at h
    case h_1 => cases h
    case h_2 nr hlookup =>
      obtain ⟨info', hinfo, heq⟩ := Option.map_eq_some_iff.mp h
      obtain ⟨rfl, rfl⟩ := Prod.mk.inj heq
      exact ⟨not_not.mp fun hno => hvalid (Or.inr hno), hlookup, hinfo⟩

/-- What a relative or absolute path leads to from a directory, the canonical path leads to from
the root. -/
theorem canonical_path_same_inode {v : Volume} (hv : DotsConsistent v) {parts : List Str}
    (hparts : ∀ x ∈ parts, Plain x) {d i : Nat} {dirInfo info : Inode}
    (hd : fsLookupPath v (pathText parts) fsRootInode = some (d, dirInfo)) {path c : Str}
    (hphysical : fsLookupPath v path d = some (i, info))
    (hlexical : canonicalize path (pathText parts) = some c) :
    fsLookupPath v c fsRootInode = some (i, info) := by
  obtain ⟨hvalid, hcwd, -⟩ := lookupFrom_of_fsLookupPath hd
  obtain ⟨-, hlookup, hinfo⟩ := lookupFrom_of_fsLookupPath hphysical
  have htext : components (pathText parts) = parts := components_pathText fun x hx =>
    ⟨(hparts x hx).short.ne_nil, (hparts x hx).short.no_slash⟩
  rw [if_pos (show (pathText parts).head? = some slash from rfl)] at hvalid hcwd
  have hstart := (walkNames_of_lookupFrom hcwd).1
  rw [htext] at hstart
  obtain ⟨hwalk, hlens⟩ := walkNames_of_lookupFrom hlookup
  have hnames : ∀ x ∈ components path, ShortName x := fun x hx =>
    ⟨(mem_components hx).1, (mem_components hx).2, hlens x hx⟩
  obtain ⟨rfl, -⟩ := canonicalize_some hlexical
  have hresolved : walkNames v fsRootInode (resolve [] (readNames path (pathText parts))) = some i ∧
      ∀ x ∈ resolve [] (readNames path (pathText parts)), Plain x := by
    have hread := shortOnes_eq_self hlens
    have hshort := shortOnes_eq_self fun x hx => (hparts x hx).short.short
    unfold readNames
    split
    next habs =>
      rw [if_pos habs] at hwalk
      rw [hread, nil_append]
      exact hv.walk (fun _ hx => absurd hx not_mem_nil) rfl hnames hwalk
    next hrel =>
      rw [if_neg hrel] at hwalk
      rw [hread, htext, hshort, resolve, foldl_append]
      have hinit : parts.foldl keep [] = parts :=
        resolve_plain [] fun x hx => ⟨(hparts x hx).ne_dot, (hparts x hx).ne_dotdot⟩
      rw [hinit]
      exact hv.walk hparts hstart hnames hwalk
  have hfound := lookupFrom_pathText hresolved.2 hresolved.1
  have hne : pathText (resolve [] (readNames path (pathText parts))) ≠ [] := cons_ne_nil _ _
  unfold fsLookupPath
  rw [if_pos (show (pathText _).head? = some slash from rfl),
    if_neg (not_or.mpr ⟨hne, not_not.mpr hvalid⟩), hfound]
  simp [hinfo]

theorem lookupFrom_entry (h : Healthy v) (hu : (view v).Unique) {cursor : Str} (rest : Str)
    {k s e : Nat}
    (hnext : nextComponent cursor = .next name rest) (hdot : name ≠ dot) (hd : (view v).IsDir d)
    (he : (view v).Entry d k s e name) (hused : (view v).used e = true)
    (hgo : rest = [] ∨ (view v).IsDir e) : lookupFrom v d cursor = lookupFrom v e rest := by
  obtain ⟨⟨e', block, slot⟩, hfind, rfl⟩ := Option.map_eq_some_iff.mp (h.dirFind_entry hu hd he)
  have hstay : ¬(rest ≠ [] ∧ (inodeAt v e').type ≠ fsTypeDirectory) := by
    rintro ⟨hrest, htype⟩
    have hdir := (hgo.resolve_left hrest).2
    rw [view_info (view_used_iff.mp hused).1] at hdir
    exact htype hdir
  rw [lookupFrom]
  split
  · next heq => cases hnext.symm.trans heq
  · next heq => cases hnext.symm.trans heq
  · next heq =>
    obtain ⟨rfl, rfl⟩ := Component.next.inj (hnext.symm.trans heq)
    rw [if_neg hdot, hfind]
    dsimp only
    rw [h.get_used hused he.used]
    exact if_neg hstay

/-- `000/../a`. -/
def upPath : Str := [48, 48, 48, 47, 46, 46, 47, 97]

/-- The path on the sample image with a directory `000`. -/
theorem canonical_path_same_inode_up : ∃ disk v i u info,
    mkfs 1048576 0 [sampleInput] = some disk ∧ fsInit 0 disk = some v ∧
      fsCreatePath v (pathText [[48, 48, 48]]) fsRootInode fsTypeDirectory = (some i, u) ∧
      fsLookupPath u upPath fsRootInode = some (2, info) ∧
      canonicalize upPath [slash] = some [slash, 97] ∧
      fsLookupPath u [slash, 97] fsRootInode = some (2, info) := by
  obtain ⟨disk, hdisk⟩ := mkfs_sample
  obtain ⟨v, hinit, hcrowd⟩ := crowded_mkfs 1 hdisk
  obtain ⟨v', hinit', hf⟩ := mkfs_formatted hdisk
  cases hinit.symm.trans hinit'
  obtain ⟨n, hp⟩ := hcrowd.packed
  have hfree := hcrowd.free
  obtain ⟨i, u, m, hcreate, hdone, -⟩ := hp.create hcrowd.healthy hcrowd.small
    (hcrowd.absent (by decide)) (hcrowd.inode (by decide)) (by decide) (Or.inr rfl)
    (show 1 + 0 ≤ freeBlocks v by omega)
  obtain ⟨k, s, hc⟩ := hdone.created
  have hu : Healthy u := by
    have := hf.healthy.create (zero_notMem_render [crowdName 0]) (Or.inr rfl)
    rwa [hcreate] at this
  have hunique : (view u).Unique := View.Unique.created (hf.unique (by decide)) hc
  have hused : ∀ {j}, (view v).used j = true → (view u).used j = true := by
    intro j hj
    rw [hc.used]
    by_cases hji : j = i
    · rw [hji, Function.update_self]
    · rwa [Function.update_of_ne hji]
  have hroot := hu.names.rootDir
  have hdir : (view u).IsDir i := ⟨by rw [hc.used, Function.update_self], by rw [hdone.info]; rfl⟩
  have hnew : (view u).Entry fsRootInode k s i (crowdName 0).1 :=
    (hc.added k s i _).mpr (Or.inl ⟨rfl, rfl, rfl, rfl⟩)
  have hold : (view u).Entry fsRootInode 0 2 2 [97] :=
    (hc.added 0 2 2 _).mpr (Or.inr (hf.entry (f := sampleInput) rfl))
  obtain ⟨p, hup, hpdir, hparent⟩ := hu.names.up hdir
  have hi := (hu.names.child hroot ⟨hnew, hc.ne_dot, hc.ne_dotdot⟩).2.1
  rw [if_neg hi] at hparent
  obtain ⟨k', s', name', hchild⟩ := hparent
  obtain rfl := (hu.names.once hpdir hroot hchild ⟨hnew, hc.ne_dot, hc.ne_dotdot⟩).1
  have hlookup : lookupFrom u fsRootInode upPath = some 2 := by
    rw [lookupFrom_entry hu hunique [47, 46, 46, 47, 97] rfl hc.ne_dot hroot hnew
        hdir.1 (Or.inr hdir),
      lookupFrom_entry hu hunique [47, 97] rfl (by decide) hdir hup hroot.1
        (Or.inr hroot),
      lookupFrom_entry hu hunique [] rfl (by decide) hroot hold (hused hcrowd.file.1)
        (Or.inl rfl), lookupFrom]
    rfl
  have hstart : fsLookupPath u (pathText []) fsRootInode =
      some (fsRootInode, inodeAt u fsRootInode) := hu.fsLookupPath_render [] fsRootInode
  obtain ⟨hvalid, -, -⟩ := lookupFrom_of_fsLookupPath hstart
  have hphysical : fsLookupPath u upPath fsRootInode = some (2, inodeAt u 2) := by
    refine (if_neg (not_or.mpr ⟨by decide, not_not.mpr hvalid⟩)).trans ?_
    rw [ite_self, hlookup]
    simp [hu.get_used (hused hcrowd.file.1) (by decide)]
  have hlexical : canonicalize upPath (pathText []) = some [slash, 97] := by decide +kernel
  exact ⟨disk, v, i, u, _, hdisk, hinit, hcreate, hphysical, hlexical,
    canonical_path_same_inode (healthy_dotsConsistent hu) (fun _ hx => absurd hx not_mem_nil)
      hstart hphysical hlexical⟩

end OrangeOs.Storage
