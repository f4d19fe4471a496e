import Mathlib.Data.List.Basic

/-! # Traversals

A traversal starts at a place, if there is one, and goes from each place to the next one until there is none.
`Traverses next start l` says that it ends and that `l` are the places it visits, in order.  If every
place knows the list of those behind it, this list is visited (`Traverses.of_rest`); a function that takes the next
places to next places takes traversals to traversals (`Traverses.map`). -/

namespace Poco.Lib

variable {σ τ : Type} {next : σ → Option σ}

/-- The places that are visited. -/
inductive Traverses (next : σ → Option σ) : Option σ → List σ → Prop
  | stop : Traverses next none []
  | visit {s : σ} {l : List σ} : Traverses next (next s) l → Traverses next (some s) (s :: l)

theorem Traverses.unique {start : Option σ} {l l' : List σ} (h : Traverses next start l)
    (h' : Traverses next start l') : l = l' := by
  induction h generalizing l' with
  | stop =>
      cases h'
      rfl
  | visit _ ih =>
      cases h' with
      | visit h' => rw [ih h']

/-- The places behind a place are visited when each begins with the next place and goes on with those behind it. -/
theorem Traverses.of_rest {rest : σ → List σ}
    (h : ∀ s, (next s = none ∧ rest s = []) ∨ ∃ t, next s = some t ∧ rest s = t :: rest t) (s : σ) :
    Traverses next (next s) (rest s) := by
  generalize hl : rest s = l
  induction l generalizing s with
  | nil =>
      rcases h s with ⟨hnone, -⟩ | ⟨t, -, hrest⟩
      · rw [hnone]
        exact .stop
      · rw [hl] at hrest
        cases hrest
  | cons t l ih =>
      rcases h s with ⟨-, hrest⟩ | ⟨u, hsome, hrest⟩
      · rw [hl] at hrest
        cases hrest
      · rw [hl] at hrest
        obtain ⟨rfl, rfl⟩ := List.cons.inj hrest
        rw [hsome]
        exact .visit (ih t rfl)

/-- A traversal of the images of the places visits the images. -/
theorem Traverses.map {next' : τ → Option τ} {f : σ → τ} (h : ∀ s, next' (f s) = (next s).map f) {start : Option σ}
    {l : List σ} (htraverses : Traverses next start l) : Traverses next' (start.map f) (l.map f) := by
  induction htraverses with
  | stop => exact .stop
  | visit _ ih =>
      rw [← h] at ih
      exact .visit ih

end Poco.Lib
