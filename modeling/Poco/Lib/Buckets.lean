import Mathlib.Data.List.Perm.Basic
import Mathlib.Tactic.Ring

/-! # Buckets and linear addresses

Two general ingredients of a hash table that grows one bucket at a time.

* **Buckets.** A table is a list of buckets.  `place addr b v` appends `v` to the bucket its
  address selects; `Placed addr b` says that every element sits in the bucket of its
  address.  Placing never changes the elements already there: the flattened table is a
  permutation of the old one with the new elements added (`flatten_foldl_place`).
* **Addresses.** `linearAddr split front n` is the address of hash value `n` when the
  buckets `0 … split - 1` of the round of size `front` have been split.  Advancing `split`
  by one moves only elements of bucket `split`, and only to bucket `front + split`
  (`linearAddr_succ`); a finished round is the beginning of the next (`linearAddr_wrap`). -/

namespace Poco.Lib

variable {α : Type}

/-! ### Buckets -/

/-- Append `v` to the bucket selected by its address. -/
def place (addr : α → ℕ) (b : List (List α)) (v : α) : List (List α) :=
  b.modify (addr v) (· ++ [v])

/-- Every element sits in the bucket of its address. -/
def Placed (addr : α → ℕ) (b : List (List α)) : Prop :=
  ∀ i, ∀ v ∈ b.getD i [], addr v = i

@[simp] theorem place_length (addr : α → ℕ) (b : List (List α)) (v : α) :
    (place addr b v).length = b.length := by simp [place]

theorem place_getD (addr : α → ℕ) (b : List (List α)) (v : α) (i : ℕ) :
    (place addr b v).getD i [] =
      if addr v = i ∧ i < b.length then b.getD i [] ++ [v] else b.getD i [] := by
  simp only [place, List.getD_eq_getElem?_getD, List.getElem?_modify]
  by_cases hi : i < b.length
  · by_cases ha : addr v = i <;> simp [hi, ha]
  · simp [hi]

theorem Placed.place {addr : α → ℕ} {b : List (List α)} (h : Placed addr b) (v : α) :
    Placed addr (place addr b v) := by
  intro i w hw
  rw [place_getD] at hw
  split_ifs at hw with hc
  · rcases List.mem_append.mp hw with hw | hw
    · exact h i w hw
    · rw [List.mem_singleton.mp hw]
      exact hc.1
  · exact h i w hw

theorem flatten_modify_append (b : List (List α)) (i : ℕ) (v : α) (hi : i < b.length) :
    List.Perm (b.modify i (· ++ [v])).flatten (v :: b.flatten) := by
  induction b generalizing i with
  | nil => simp at hi
  | cons l b ih =>
      cases i with
      | zero =>
          simp only [List.modify_zero_cons, List.flatten_cons, List.append_assoc,
            List.singleton_append]
          exact List.perm_middle
      | succ i =>
          simp only [List.modify_succ_cons, List.flatten_cons]
          apply ((ih i (by simpa using hi)).append_left l).trans
          exact List.perm_middle

theorem place_flatten {addr : α → ℕ} {b : List (List α)} {v : α} (h : addr v < b.length) :
    List.Perm (place addr b v).flatten (v :: b.flatten) :=
  flatten_modify_append b (addr v) v h

theorem foldl_place_length (addr : α → ℕ) (l : List α) (b : List (List α)) :
    (l.foldl (place addr) b).length = b.length := by
  induction l generalizing b with
  | nil => rfl
  | cons v l ih => rw [List.foldl_cons, ih, place_length]

theorem Placed.foldl_place {addr : α → ℕ} {b : List (List α)} (h : Placed addr b) (l : List α) :
    Placed addr (l.foldl (Lib.place addr) b) := by
  induction l generalizing b with
  | nil => exact h
  | cons v l ih => exact ih (h.place v)

theorem flatten_foldl_place {addr : α → ℕ} {l : List α} {b : List (List α)}
    (h : ∀ v ∈ l, addr v < b.length) :
    List.Perm (l.foldl (place addr) b).flatten (l ++ b.flatten) := by
  induction l generalizing b with
  | nil => exact List.Perm.refl _
  | cons v l ih =>
      have hv : addr v < b.length := h v (List.mem_cons_self ..)
      have hl : ∀ w ∈ l, addr w < (place addr b v).length := fun w hw => by
        rw [place_length]
        exact h w (List.mem_cons_of_mem _ hw)
      rw [List.foldl_cons]
      apply (ih hl).trans
      exact ((place_flatten hv).append_left l).trans List.perm_middle

/-- Emptying bucket `i` takes exactly its elements out of the flattened table. -/
theorem flatten_set_nil (b : List (List α)) (i : ℕ) :
    List.Perm (b.getD i [] ++ (b.set i []).flatten) b.flatten := by
  induction b generalizing i with
  | nil => simp
  | cons l b ih =>
      cases i with
      | zero => simp
      | succ i =>
          simp only [List.getD_cons_succ, List.set_cons_succ, List.flatten_cons]
          refine List.Perm.trans ?_ ((ih i).append_left l)
          rw [← List.append_assoc, ← List.append_assoc]
          exact List.perm_append_comm.append_right _

theorem flatten_eraseIdx (b : List (List α)) (i j : ℕ) (hj : j < (b.getD i []).length) :
    List.Perm ((b.getD i [])[j] :: (b.modify i (·.eraseIdx j)).flatten) b.flatten := by
  induction b generalizing i with
  | nil => simp at hj
  | cons l b ih =>
      cases i with
      | zero =>
          simp only [List.getD_cons_zero] at hj
          simp only [List.getD_cons_zero, List.modify_zero_cons, List.flatten_cons]
          exact (List.getElem_cons_eraseIdx_perm hj).append_right _
      | succ i =>
          simp only [List.getD_cons_succ] at hj
          simp only [List.getD_cons_succ, List.modify_succ_cons, List.flatten_cons]
          exact List.perm_middle.symm.trans ((ih i hj).append_left l)

/-! ### Linear addresses -/

/-- The address of hash value `n` in a round of size `front` with `split` split buckets. -/
def linearAddr (split front n : ℕ) : ℕ :=
  if n % front ≥ split then n % front else n % (2 * front)

/-- A hash value has the same residue or the residue shifted by `f` in the doubled round. -/
theorem mod_two_mul (n f : ℕ) (hf : 0 < f) :
    n % (2 * f) = n % f ∨ n % (2 * f) = n % f + f := by
  have h1 : n % (2 * f) % f = n % f := Nat.mod_mod_of_dvd n ⟨2, by ring⟩
  have h2 : n % (2 * f) < 2 * f := Nat.mod_lt _ (by omega)
  rcases Nat.lt_or_ge (n % (2 * f)) f with hlt | hge
  · left
    rw [← h1, Nat.mod_eq_of_lt hlt]
  · right
    have h3 : n % (2 * f) % f = n % (2 * f) - f := by
      rw [Nat.mod_eq_sub_mod hge, Nat.mod_eq_of_lt (by omega)]
    omega

theorem linearAddr_lt {s f : ℕ} (n : ℕ) (hf : 0 < f) : linearAddr s f n < f + s := by
  have h := Nat.mod_lt n hf
  unfold linearAddr
  split_ifs with hc
  · omega
  · rcases mod_two_mul n f hf with e | e <;> omega

/-- Splitting bucket `s` moves only its own elements, and only to bucket `f + s`. -/
theorem linearAddr_succ {s f : ℕ} (n : ℕ) (hf : 0 < f) :
    (linearAddr s f n ≠ s → linearAddr (s + 1) f n = linearAddr s f n) ∧
    (linearAddr s f n = s → linearAddr (s + 1) f n = s ∨ linearAddr (s + 1) f n = f + s) := by
  have h := Nat.mod_lt n hf
  unfold linearAddr
  rcases mod_two_mul n f hf with e | e <;> split_ifs <;> omega

/-- Merging bucket `f + s` back moves only its own elements, and only to bucket `s`. -/
theorem linearAddr_pred {s f : ℕ} (n : ℕ) (hf : 0 < f) :
    (linearAddr (s + 1) f n ≠ f + s → linearAddr s f n = linearAddr (s + 1) f n) ∧
    (linearAddr (s + 1) f n = f + s → linearAddr s f n = s) := by
  have h := Nat.mod_lt n hf
  unfold linearAddr
  rcases mod_two_mul n f hf with e | e <;> split_ifs <;> omega

/-- A finished round is the beginning of the round of twice the size. -/
theorem linearAddr_wrap {f : ℕ} (n : ℕ) (hf : 0 < f) :
    linearAddr f f n = linearAddr 0 (2 * f) n := by
  have h := Nat.mod_lt n hf
  unfold linearAddr
  split_ifs <;> omega

end Poco.Lib
