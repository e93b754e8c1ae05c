import Mathlib.Data.List.Basic

/-! # Runs of machines

A machine is a total step function on states; a run applies it to a list of
actions. `Throughout ok step s as` says that every action of a run is taken in a
state that allows it, and the rules below carry an invariant, or a relation to a
second machine, along such a run. A machine whose steps also give a result
refines a specification that may allow several results and next states.
-/

namespace Machine

variable {σ τ α : Type*}

/-- Every action of the run from `s` is allowed in the state it is taken in. -/
def Throughout (ok : σ → α → Prop) (step : σ → α → σ) : σ → List α → Prop
  | _, [] => True
  | s, a :: as => ok s a ∧ Throughout ok step (step s a) as

variable {ok : σ → α → Prop} {step : σ → α → σ}

instance Throughout.decidable [∀ s a, Decidable (ok s a)] :
    ∀ s as, Decidable (Throughout ok step s as)
  | _, [] => isTrue trivial
  | s, a :: as =>
    have := Throughout.decidable (step s a) as
    inferInstanceAs (Decidable (ok s a ∧ Throughout ok step (step s a) as))

theorem throughout_append {s : σ} {as bs : List α} : Throughout ok step s (as ++ bs) ↔
    Throughout ok step s as ∧ Throughout ok step (as.foldl step s) bs := by
  induction as generalizing s with
  | nil => simp [Throughout]
  | cons a as ih => simp [Throughout, ih, and_assoc]

theorem Throughout.invariant (Inv : σ → Prop) {s : σ} {as : List α}
    (hpres : ∀ s a, Inv s → ok s a → Inv (step s a)) (hs : Inv s)
    (h : Throughout ok step s as) : Inv (as.foldl step s) := by
  induction as generalizing s with
  | nil => exact hs
  | cons a as ih => exact ih (hpres s a hs h.1) h.2

theorem foldl_iff {I P : σ → Prop} {Q : α → Prop} (hinv : ∀ s a, I s → I (step s a))
    (hstep : ∀ s a, I s → (P (step s a) ↔ P s ∨ Q a)) {s : σ} (hs : I s) (as : List α) :
    P (as.foldl step s) ↔ P s ∨ ∃ a ∈ as, Q a := by
  induction as generalizing s with
  | nil => simp
  | cons a as ih => simp [ih (hinv s a hs), hstep s a hs, or_assoc]

theorem foldl_throughout {I P : σ → Prop}
    (hstep : ∀ s a, I s → I (step s a) ∧ (P (step s a) ↔ P s ∧ ok s a)) {s : σ} (hs : I s)
    (as : List α) :
    I (as.foldl step s) ∧ (P (as.foldl step s) ↔ P s ∧ Throughout ok step s as) := by
  induction as generalizing s with
  | nil => exact ⟨hs, (and_iff_left trivial).symm⟩
  | cons a as ih =>
    obtain ⟨hs', hone⟩ := hstep s a hs
    rw [List.foldl_cons, (ih hs').2, hone, Throughout, and_assoc]
    exact ⟨(ih hs').1, Iff.rfl⟩

/-! ## Machines with results -/

variable {β : Type*}

def exec (step : σ → α → β × σ) (s : σ) (as : List α) : σ := as.foldl (fun s a => (step s a).2) s

/-- The actions of a run, each with its result. -/
def trace (step : σ → α → β × σ) : σ → List α → List (α × β)
  | _, [] => []
  | s, a :: as => (a, (step s a).1) :: trace step (step s a).2 as

/-- A run of a specification: `spec t a b t'` allows the result `b` and the next
state `t'` for the action `a`. -/
inductive SpecRun (spec : τ → α → β → τ → Prop) : τ → List (α × β) → τ → Prop
  | nil (t : τ) : SpecRun spec t [] t
  | cons {t t' u : τ} {a : α} {b : β} {rest : List (α × β)} (head : spec t a b t')
      (tail : SpecRun spec t' rest u) : SpecRun spec t ((a, b) :: rest) u

theorem SpecRun.of_steps {spec : τ → α → β → τ → Prop} {R : σ → τ → Prop} {step : σ → α → β × σ}
    (hstep : ∀ s t a, R s t → ∃ t', spec t a (step s a).1 t' ∧ R (step s a).2 t')
    {s : σ} {t : τ} (hst : R s t) (as : List α) :
    ∃ u, SpecRun spec t (trace step s as) u ∧ R (exec step s as) u := by
  induction as generalizing s t with
  | nil => exact ⟨t, .nil t, hst⟩
  | cons a as ih =>
    obtain ⟨t', hspec, hrel⟩ := hstep s t a hst
    obtain ⟨u, hrun, hend⟩ := ih hrel
    exact ⟨u, .cons hspec hrun, hend⟩

end Machine
