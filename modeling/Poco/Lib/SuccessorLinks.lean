import Mathlib.Data.List.Nodup

/-! # Singly linked lists

Cells that know the next cell.  `Linked next start l stop` says that from `start` the links lead through the
cells `l` to `stop`, which is `none` at the end of a list.  Parts of a list are taken apart and put together
by `Linked.append_iff`; a link that is changed elsewhere does not matter (`Linked.congr`), and one that is changed
at the end of a part redirects it (`Linked.redirect`).

`seek` is the loop that goes on until a cell meets a condition. -/

namespace Poco.Lib

variable {α : Type}

/-- From `start` the links lead through `l` to `stop`. -/
def Linked (next : α → Option α) (start : Option α) (l : List α) (stop : Option α) : Prop :=
  match l with
  | [] => start = stop
  | a :: l => start = some a ∧ Linked next (next a) l stop

variable {next next' : α → Option α} {start stop : Option α} {a : α} {l l₁ l₂ : List α}

@[simp] theorem linked_nil : Linked next start [] stop ↔ start = stop := Iff.rfl

@[simp] theorem linked_cons : Linked next start (a :: l) stop ↔ start = some a ∧ Linked next (next a) l stop := Iff.rfl

theorem Linked.append_iff :
    Linked next start (l₁ ++ l₂) stop ↔ ∃ m, Linked next start l₁ m ∧ Linked next m l₂ stop := by
  induction l₁ generalizing start with
  | nil => simp
  | cons a l ih => simp [ih, and_assoc]

theorem Linked.append {m : Option α} (h₁ : Linked next start l₁ m) (h₂ : Linked next m l₂ stop) :
    Linked next start (l₁ ++ l₂) stop := append_iff.2 ⟨m, h₁, h₂⟩

theorem Linked.congr (h : Linked next start l stop) (heq : ∀ a ∈ l, next' a = next a) : Linked next' start l stop := by
  induction l generalizing start with
  | nil => exact h
  | cons a l ih =>
      obtain ⟨hstart, hrest⟩ := h
      obtain ⟨ha, hl⟩ := List.forall_mem_cons.mp heq
      refine ⟨hstart, ih ?_ hl⟩
      rwa [ha]

theorem Linked.start_eq (h : Linked next start l none) : start = l.head? := by
  cases l with
  | nil => exact h
  | cons a l => exact h.1

/-- The link of the last cell of a part is the end of this part. -/
theorem Linked.last_eq (h : Linked next start (l ++ [a]) stop) : next a = stop := by
  obtain ⟨m, -, -, hstop⟩ := append_iff.1 h
  exact hstop

theorem Linked.redirect {stop' : Option α} (h : Linked next start (l ++ [a]) stop) (ha : next' a = stop')
    (heq : ∀ b ∈ l, next' b = next b) : Linked next' start (l ++ [a]) stop' := by
  obtain ⟨m, hl, hm, -⟩ := append_iff.1 h
  exact (hl.congr heq).append ⟨hm, ha⟩

theorem Linked.next_eq (h : Linked next start (l₁ ++ a :: l₂) none) : next a = l₂.head? := by
  obtain ⟨m, -, -, hrest⟩ := append_iff.1 h
  exact hrest.start_eq

/-- Links that lead through two lists to their ends lead through the same list. -/
theorem Linked.unique (h₁ : Linked next start l₁ none) (h₂ : Linked next start l₂ none) : l₁ = l₂ := by
  induction l₁ generalizing start l₂ with
  | nil =>
      obtain rfl : start = none := h₁
      exact (List.head?_eq_none_iff.mp h₂.start_eq.symm).symm
  | cons a l ih =>
      obtain ⟨rfl, hl⟩ := h₁
      cases l₂ with
      | nil => cases h₂
      | cons b l₂ =>
          obtain ⟨hab, hl₂⟩ := h₂
          obtain rfl := Option.some.inj hab
          rw [ih hl hl₂]

/-! ### The loop along a list -/

/-- `while (cur && !stop(cur)) cur = cur->next`, with a limit for the number of rounds. -/
def seek (next : α → Option α) (stop : α → Bool) : ℕ → Option α → Option (Option α)
  | _, none => some none
  | 0, some _ => none
  | fuel + 1, some a => if stop a then some (some a) else seek next stop fuel (next a)

variable {p : α → Bool} {fuel : ℕ}

/-- The loop ends at the first cell that meets the condition, or at the end of the list. -/
theorem seek_find (h : Linked next start l none) (hfuel : l.length ≤ fuel) :
    seek next p fuel start = some (l.find? p) := by
  induction l generalizing start fuel with
  | nil =>
      obtain rfl : start = none := h
      cases fuel <;> rfl
  | cons b l ih =>
      obtain ⟨rfl, hrest⟩ := h
      obtain ⟨fuel, rfl⟩ := Nat.exists_eq_succ_of_ne_zero (Nat.pos_iff_ne_zero.mp (Nat.zero_lt_of_lt hfuel))
      rw [seek, List.find?_cons]
      cases p b with
      | true => rfl
      | false => exact ih hrest (Nat.le_of_succ_le_succ hfuel)

/-- The loop does not go beyond a cell that meets the condition. -/
theorem seek_eq (h : Linked next start (l₁ ++ [a]) stop) (hl : ∀ b ∈ l₁, p b = false) (ha : p a = true)
    (hfuel : l₁.length < fuel) : seek next p fuel start = some (some a) := by
  induction l₁ generalizing start fuel with
  | nil =>
      obtain ⟨rfl, -⟩ := h
      obtain ⟨fuel, rfl⟩ := Nat.exists_eq_succ_of_ne_zero (Nat.pos_iff_ne_zero.mp hfuel)
      simp [seek, ha]
  | cons b l ih =>
      obtain ⟨rfl, hrest⟩ := h
      obtain ⟨hb, hl⟩ := List.forall_mem_cons.mp hl
      obtain ⟨fuel, rfl⟩ := Nat.exists_eq_succ_of_ne_zero (Nat.pos_iff_ne_zero.mp (Nat.zero_lt_of_lt hfuel))
      simp only [seek, hb, Bool.false_eq_true, if_false]
      exact ih hrest hl (Nat.lt_of_succ_lt_succ hfuel)

/-- The loop ends at the end of the list if no cell meets the condition. -/
theorem seek_eq_none (h : Linked next start l none) (hl : ∀ b ∈ l, p b = false) (hfuel : l.length ≤ fuel) :
    seek next p fuel start = some none := by
  rw [seek_find h hfuel, List.find?_eq_none.mpr fun b hb => by simp [hl b hb]]

end Poco.Lib
