import OrangeOs.Fs.Effects
import OrangeOs.Lib.NamedGraph

/-! # Canonical paths

The directories of a volume are a graph with named edges, read by `dir_find`. On
the text of a canonical absolute path both splitters of the source agree with
walking that graph: `fs_lookup_path` follows the whole path, `path_parent` all of
it but the last component.
-/

namespace OrangeOs.Fs

open NamedGraph List

/-! ## The text of a path -/

def CanonicalName (s : Str) : Prop :=
  EntryName s ∧ slash ∉ s ∧ s ≠ dot ∧ s ≠ dotdot

abbrev Name := { s : Str // CanonicalName s }

theorem Name.ne_nil (c : Name) : c.1 ≠ [] := c.2.1.1

theorem Name.length_lt (c : Name) : c.1.length < 60 := c.2.1.2.1

theorem Name.no_slash (c : Name) {x : UInt8} (hx : x ∈ c.1) : x ≠ slash := by
  rintro rfl
  exact c.2.2.1 hx

theorem Name.ne_dot (c : Name) : c.1 ≠ dot := c.2.2.2.1

theorem Name.ne_dotdot (c : Name) : c.1 ≠ dotdot := c.2.2.2.2

/-- Every component with a slash before it. -/
def renderTail (p : List Name) : Str := p.flatMap fun c => slash :: c.1

def render (p : List Name) : Str := if p = [] then [slash] else renderTail p

@[simp] theorem renderTail_nil : renderTail [] = [] := rfl

theorem renderTail_cons (c : Name) (p : List Name) :
    renderTail (c :: p) = slash :: (c.1 ++ renderTail p) := by
  simp [renderTail]

theorem renderTail_snoc (p : List Name) (c : Name) :
    renderTail (p ++ [c]) = renderTail p ++ slash :: c.1 := by
  simp [renderTail]

variable {p : List Name} {d i : Nat} {c : Name}

theorem renderTail_eq_nil : renderTail p = [] ↔ p = [] := by
  cases p with
  | nil => simp
  | cons c p => simp [renderTail_cons]

theorem render_snoc (p : List Name) (c : Name) :
    render (p ++ [c]) = renderTail p ++ slash :: c.1 := by
  rw [render, if_neg (by simp), renderTail_snoc]

theorem render_head (p : List Name) : (render p).head? = some slash := by
  cases p with
  | nil => rfl
  | cons c p => rw [render, if_neg (by simp), renderTail_cons, head?_cons]

theorem zero_notMem_render (p : List Name) : (0 : UInt8) ∉ render p := by
  unfold render
  split
  · decide
  · intro hmem
    obtain ⟨c, -, hc⟩ := mem_flatMap.mp hmem
    rcases mem_cons.mp hc with h | h
    · exact absurd h (by decide)
    · exact c.2.1.2.2 h

/-! ## The two splitters -/

theorem nextComponent_renderTail (c : Name) (p : List Name) :
    nextComponent (renderTail (c :: p)) = .next c.1 (renderTail p) := by
  rw [renderTail_cons]
  refine nextComponent_slash c.ne_nil c.2.2.1 c.length_lt ?_
  cases p with
  | nil => exact Or.inl rfl
  | cons d p => exact Or.inr rfl

section Split

variable (p : List Name) (c : Name)

theorem rdropWhile_render : (render (p ++ [c])).rdropWhile (· = slash) = render (p ++ [c]) := by
  obtain ⟨xs, x, hx⟩ : ∃ xs x, c.1 = xs ++ [x] :=
    ⟨_, _, (dropLast_append_getLast c.ne_nil).symm⟩
  have hne : x ≠ slash := c.no_slash (by rw [hx]; simp)
  have htext : render (p ++ [c]) = renderTail p ++ slash :: xs ++ [x] := by
    rw [render_snoc, hx]
    simp
  rw [htext, rdropWhile_concat_neg _ _ _ (by simpa using hne)]

theorem rtakeWhile_render : (render (p ++ [c])).rtakeWhile (· ≠ slash) = c.1 := by
  have hall : ∀ x ∈ c.1.reverse, decide (x ≠ slash) = true := fun x hx => by
    simpa using c.no_slash (mem_reverse.mp hx)
  rw [render_snoc, rtakeWhile]
  simp only [reverse_append, reverse_cons, append_assoc]
  rw [takeWhile_append_of_pos hall]
  simp

theorem rdropWhile_leaf : (render (p ++ [c])).rdropWhile (· ≠ slash) = renderTail p ++ [slash] := by
  have hall : ∀ x ∈ c.1.reverse, decide (x ≠ slash) = true := fun x hx => by
    simpa using c.no_slash (mem_reverse.mp hx)
  rw [render_snoc, rdropWhile]
  simp only [reverse_append, reverse_cons, append_assoc]
  rw [dropWhile_append_of_pos hall]
  simp

end Split

/-! ## Lookup -/

/-- The directories in use as `dir_find` reads them. -/
def graph (v : Volume) : PointedGraph Nat Name where
  root := fsRootInode
  child d c := if (view v).used d = true then (dirFind v d c.1).map fun found => found.1 else none

section Lookup

variable {v : Volume} (h : Healthy v)
include h

theorem Healthy.child_some (hc : (graph v).child d c = some i) :
    (view v).IsDir d ∧ ∃ k s, (view v).Child d k s i c.1 := by
  dsimp only [graph] at hc
  split at hc
  · next hd =>
    obtain ⟨⟨nr, block, s⟩, hf, rfl⟩ := Option.map_eq_some_iff.mp hc
    obtain ⟨n, k, hdir, -, hfound⟩ := h.dirFind_some hd hf
    exact ⟨hdir.isDir, k, s, hfound.entry, c.ne_dot, c.ne_dotdot⟩
  · cases hc

theorem Healthy.child_used (hc : (graph v).child d c = some i) :
    (view v).used i = true ∧ i ≠ 0 := by
  obtain ⟨hd, k, s, hchild⟩ := h.child_some hc
  exact ⟨(h.names.child hd hchild).1, hchild.entry.used⟩

theorem Healthy.get_used (hi : (view v).used i = true) (hpos : i ≠ 0) :
    fsGetInode v i = some (inodeAt v i) :=
  fsGetInode_eq h.sound.mounted ⟨Nat.pos_of_ne_zero hpos, (view_used_iff.mp hi).1⟩

theorem Healthy.walkFrom_file (hi : (view v).used i = true)
    (htype : (inodeAt v i).type ≠ fsTypeDirectory) (hp : p ≠ []) :
    (graph v).walkFrom i p = none := by
  cases p with
  | nil => exact absurd rfl hp
  | cons c p =>
    have hchild : (graph v).child i c = none := by
      cases hc : (graph v).child i c with
      | none => rfl
      | some j =>
        have hdir := (h.child_some hc).1.2
        rw [view_info (view_used_iff.mp hi).1] at hdir
        exact absurd hdir htype
    rw [PointedGraph.walkFrom, hchild]
    rfl

theorem Healthy.lookupFrom_renderTail (p : List Name) (hd : (view v).used d = true) :
    lookupFrom v d (renderTail p) = (graph v).walkFrom d p := by
  induction p generalizing d with
  | nil =>
    rw [lookupFrom]
    rfl
  | cons c p ih =>
    have hnext := nextComponent_renderTail c p
    rw [lookupFrom]
    split
    · next heq => cases hnext.symm.trans heq
    · next heq => cases hnext.symm.trans heq
    · next name rest heq =>
      obtain ⟨rfl, rfl⟩ := Component.next.inj (hnext.symm.trans heq)
      rw [if_neg c.ne_dot, PointedGraph.walkFrom]
      cases hf : dirFind v d c.1 with
      | none =>
        have hchild : (graph v).child d c = none := by simp [graph, hd, hf]
        rw [hchild]
        exact if_neg fun hc => c.ne_dotdot hc.1
      | some found =>
        obtain ⟨i, block, s⟩ := found
        have hchild : (graph v).child d c = some i := by simp [graph, hd, hf]
        obtain ⟨hused, hpos⟩ := h.child_used hchild
        dsimp only
        rw [hchild, h.get_used hused hpos]
        dsimp only [Option.bind_some]
        split
        next hstop =>
          exact (h.walkFrom_file hused hstop.2 (mt renderTail_eq_nil.mpr hstop.1)).symm
        · exact ih hused

theorem Healthy.walk_used (hp : (graph v).walk p = some i) : (view v).used i = true ∧ i ≠ 0 := by
  cases p using reverseRecOn with
  | nil =>
    obtain rfl := Option.some.inj hp
    exact ⟨h.root_used, (by decide : fsRootInode ≠ 0)⟩
  | append_singleton p c =>
    obtain ⟨d, -, hc⟩ := PointedGraph.walk_snoc_some hp
    exact h.child_used hc

theorem Healthy.fsLookupPath_render (p : List Name) (cwd : Nat) :
    fsLookupPath v (render p) cwd = ((graph v).walk p).map fun i => (i, inodeAt v i) := by
  have hlookup : lookupFrom v fsRootInode (render p) = (graph v).walk p := by
    unfold render
    split
    · next hp =>
      subst hp
      rw [lookupFrom]
      rfl
    · exact h.lookupFrom_renderTail p h.root_used
  have hne : render p ≠ [] := by
    intro hnil
    have := render_head p
    rw [hnil] at this
    cases this
  have hvalid : validInode v fsRootInode :=
    ⟨by decide, (view_used_iff.mp h.root_used).1⟩
  unfold fsLookupPath
  rw [if_pos (render_head p)]
  rw [if_neg (not_or.mpr ⟨hne, not_not.mpr hvalid⟩), hlookup]
  cases hw : (graph v).walk p with
  | none => rfl
  | some i =>
    obtain ⟨hused, hpos⟩ := h.walk_used hw
    simp [h.get_used hused hpos]

theorem Healthy.pathParent_render (p : List Name) (c : Name) (cwd : Nat) :
    pathParent v (render (p ++ [c])) cwd =
      if fsPathMax ≤ (render (p ++ [c])).length then none
      else ((graph v).walk p).map fun d => (d, c.1) := by
  unfold pathParent
  split
  · rfl
  · have hne : render (p ++ [c]) ≠ [] := by
      rw [render_snoc]
      simp
    have hdir : (if renderTail p ++ [slash] = [] then dot
        else if (renderTail p ++ [slash]).length = 1 then [slash]
        else (renderTail p ++ [slash]).dropLast) = render p := by
      rw [if_neg (by simp)]
      unfold render
      by_cases hp : p = []
      · rw [if_pos hp, if_pos (by simp [hp])]
      · have hlen : (renderTail p).length ≠ 0 := by simpa [renderTail_eq_nil] using hp
        rw [if_neg hp, if_neg (by simpa using hlen), dropLast_concat]
    dsimp only
    rw [rdropWhile_render, rdropWhile_leaf, rtakeWhile_render, if_neg hne, hdir,
      h.fsLookupPath_render, Option.map_map]
    rfl

theorem Healthy.dirFind_entry (hu : (view v).Unique) {k s : Nat} {name : Str}
    (hd : (view v).IsDir d) (he : (view v).Entry d k s i name) :
    (dirFind v d name).map (fun found => found.1) = some i := by
  obtain ⟨n, hdir⟩ := h.names.dirs hd
  rcases dirFind_spec h.sound hdir name with ⟨-, hnone⟩ | ⟨k', s', nr, block, -, -, hfound, heq⟩
  · have hlt := he.lt hdir
    exact absurd he (hnone k s i (Nat.zero_le k) (by omega) (h.names.fits hd he).2.1)
  · obtain ⟨rfl, rfl⟩ := hu hd he hfound.entry
    rw [heq, Option.map_some, ← hfound.entry.inode, he.inode]

theorem Healthy.child_iff (hu : (view v).Unique) :
    (graph v).child d c = some i ↔ (view v).IsDir d ∧ ∃ k s, (view v).Child d k s i c.1 := by
  refine ⟨h.child_some, ?_⟩
  rintro ⟨hd, k, s, hc⟩
  have hguard : (graph v).child d c = (dirFind v d c.1).map fun found => found.1 := if_pos hd.1
  rw [hguard]
  exact h.dirFind_entry hu hd hc.entry

theorem Healthy.rooted : Rooted (graph v) where
  once := by
    intro d d' i c c' hc hc'
    obtain ⟨hd, k, s, hchild⟩ := h.child_some hc
    obtain ⟨hd', k', s', hchild'⟩ := h.child_some hc'
    obtain ⟨rfl, rfl, rfl⟩ := h.names.once hd hd' hchild hchild'
    exact ⟨rfl, Subtype.ext (hchild.entry.name.symm.trans hchild'.entry.name)⟩
  root := by
    intro d c hc
    obtain ⟨hd, k, s, hchild⟩ := h.child_some hc
    exact (h.names.child hd hchild).2.1 rfl

end Lookup

theorem pathParent_root (v : Volume) (cwd : Nat) : pathParent v (render []) cwd = none := rfl

end OrangeOs.Fs
