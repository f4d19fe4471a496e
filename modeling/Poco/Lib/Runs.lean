import Mathlib.Data.List.Basic

/-! # Runs of a labelled transition system

A system is a step relation `step s a s'`: from state `s` the step labelled `a` may lead to
`s'`.  `Run step s l s'` is a finite run with the labels `l` of its steps, in order; the
last step is at the end of the list, so that an induction over a run meets the state
reached before the last step.

`Run.invariant` is the invariant rule.  A condition on the steps of a run (on the state
before the step and on its label) is a conjunct of the step relation: `Guarded C step`.  For
a system whose steps are a partial function, `Run.of_foldlM` gives its runs. -/

namespace Poco.Lib

variable {σ τ α : Type*}

/-- Runs of `step`, with the labels of their steps. -/
inductive Run (step : σ → α → σ → Prop) : σ → List α → σ → Prop
  | refl (s : σ) : Run step s [] s
  | snoc {s t u : σ} {l : List α} {a : α} :
      Run step s l t → step t a u → Run step s (l ++ [a]) u

/-- The steps of `step` that are taken in a state and with a label that meet `C`. -/
def Guarded (C : σ → α → Prop) (step : σ → α → σ → Prop) : σ → α → σ → Prop :=
  fun s a s' => C s a ∧ step s a s'

variable {step : σ → α → σ → Prop}

theorem Run.invariant {I : σ → Prop} (hstep : ∀ s a s', I s → step s a s' → I s') {s t : σ}
    {l : List α} (h : Run step s l t) (h0 : I s) : I t := by
  induction h with
  | refl => exact h0
  | snoc _ hs ih => exact hstep _ _ _ ih hs

theorem Run.single {s t : σ} {a : α} (h : step s a t) : Run step s [a] t :=
  Run.snoc (Run.refl s) h

theorem Run.trans {s t u : σ} {l l' : List α} (h : Run step s l t) (h' : Run step t l' u) :
    Run step s (l ++ l') u := by
  induction h' with
  | refl => simpa using h
  | snoc _ hs ih =>
      rw [← List.append_assoc]
      exact Run.snoc ih hs

theorem Run.cons {s t u : σ} {a : α} {l : List α} (h : step s a t) (h' : Run step t l u) :
    Run step s (a :: l) u := by
  have := (Run.single h).trans h'
  simpa using this

/-- A system given by a partial function runs as the function says. -/
theorem Run.of_foldlM {f : σ → α → Option σ} {l : List α} {s t : σ} (h : l.foldlM f s = some t) :
    Run (fun s a s' => f s a = some s') s l t := by
  induction l generalizing s with
  | nil =>
      obtain rfl := Option.some.inj h
      exact Run.refl s
  | cons a l ih =>
      rw [List.foldlM_cons] at h
      obtain ⟨u, hu, h⟩ := Option.bind_eq_some_iff.mp h
      exact Run.cons hu (ih h)

end Poco.Lib
