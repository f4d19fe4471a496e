import Mathlib.Data.Nat.Basic
import Mathlib.Algebra.Order.Ring.Nat
import Mathlib.Order.Compare
import Mathlib.Tactic.Ring
import Mathlib.Data.Ordering.Lemmas

/-! # Numbers as digits

`radix b k n` are `k` digits of `n` to base `b`, the highest one first.  Texts are compared as lists of
bytes are, by the first place where they differ (`compareText`), and digits of a fixed number of places
are in the order of their numbers (`compareText_radix`). -/

namespace Poco.Lib

/-! ### Texts in order -/

section

variable {α β : Type} [Ord α] [Ord β]

/-- The order of two texts: the first difference decides, and a text comes before its continuations. -/
def compareText (s t : List α) : Ordering := List.compareLex compare s t

theorem compareText_nil : compareText ([] : List α) [] = .eq := List.compareLex_nil_nil

theorem compareText_cons (a b : α) (s t : List α) :
    compareText (a :: s) (b :: t) = (compare a b).then (compareText s t) := List.compareLex_cons_cons

/-- Texts that are put together of parts with the same lengths. -/
theorem compareText_append {s t : List α} (h : s.length = t.length) (s' t' : List α) :
    compareText (s ++ s') (t ++ t') = (compareText s t).then (compareText s' t') := by
  induction s generalizing t with
  | nil =>
      obtain rfl := List.length_eq_zero_iff.mp h.symm
      rw [compareText_nil]
      rfl
  | cons a s ih =>
      cases t with
      | nil => cases h
      | cons b t =>
          rw [List.cons_append, List.cons_append, compareText_cons, compareText_cons,
            ih (Nat.succ.inj h), Ordering.then_assoc]

theorem compareText_map {f : α → β} {p : α → Prop}
    (hf : ∀ a b, p a → p b → compare (f a) (f b) = compare a b) {s t : List α} (hs : ∀ a ∈ s, p a)
    (ht : ∀ b ∈ t, p b) (hlen : s.length = t.length) :
    compareText (s.map f) (t.map f) = compareText s t := by
  induction s generalizing t with
  | nil =>
      obtain rfl := List.length_eq_zero_iff.mp hlen.symm
      rw [List.map_nil, compareText_nil, compareText_nil]
  | cons a s ih =>
      cases t with
      | nil => cases hlen
      | cons b t =>
          rw [List.forall_mem_cons] at hs ht
          rw [List.map_cons, List.map_cons, compareText_cons, compareText_cons, hf a b hs.1 ht.1,
            ih hs.2 ht.2 (Nat.succ.inj hlen)]

end

/-! ### Digits -/

section

variable {b k m n : ℕ}

/-- The `k` last digits of `n` to base `b`, the highest one first. -/
def radix (b : ℕ) : ℕ → ℕ → List ℕ
  | 0, _ => []
  | k + 1, n => n / b ^ k % b :: radix b k n

@[simp] theorem length_radix (b k n : ℕ) : (radix b k n).length = k := by
  induction k with
  | zero => rfl
  | succ k ih => rw [radix, List.length_cons, ih]

theorem lt_of_mem_radix (hb : 0 < b) : ∀ d ∈ radix b k n, d < b := by
  induction k with
  | zero => simp [radix]
  | succ k ih =>
      rw [radix, List.forall_mem_cons]
      exact ⟨Nat.mod_lt _ hb, ih⟩

theorem radix_mod (b k n : ℕ) : radix b k (n % b ^ k) = radix b k n := by
  suffices h : ∀ j, radix b k (n % (b ^ k * j)) = radix b k n by
    have h₁ := h 1
    rwa [Nat.mul_one] at h₁
  intro j
  induction k generalizing j with
  | zero => rfl
  | succ k ih =>
      rw [radix, radix, Nat.pow_succ, Nat.mul_assoc, ih, Nat.mod_mul_right_div_self,
        Nat.mod_mul_right_mod]

theorem radix_append (b j k n : ℕ) : radix b (j + k) n = radix b j (n / b ^ k) ++ radix b k n := by
  induction j with
  | zero => rw [Nat.zero_add, radix, List.nil_append]
  | succ j ih =>
      rw [Nat.succ_add, radix, radix, ih, Nat.div_div_eq_div_mul, ← Nat.pow_add, Nat.add_comm j k,
        List.cons_append]

theorem compare_split {p q q' r r' : ℕ} (hr : r < p) (hr' : r' < p) :
    compare (q * p + r) (q' * p + r') = (compare q q').then (compare r r') := by
  rcases lt_trichotomy q q' with h | rfl | h
  · have hle : (q + 1) * p ≤ q' * p := Nat.mul_le_mul_right p h
    rw [Nat.add_mul, Nat.one_mul] at hle
    rw [compare_lt_iff_lt.mpr h, compare_lt_iff_lt.mpr (by omega)]
    rfl
  · rw [compare_eq_iff_eq.mpr rfl, Ordering.eq_then]
    rcases lt_trichotomy r r' with h | rfl | h
    · rw [compare_lt_iff_lt.mpr h, compare_lt_iff_lt.mpr (by omega)]
    · rw [compare_eq_iff_eq.mpr rfl, compare_eq_iff_eq.mpr rfl]
    · rw [compare_gt_iff_gt.mpr h, compare_gt_iff_gt.mpr (by omega)]
  · have hle : (q' + 1) * p ≤ q * p := Nat.mul_le_mul_right p h
    rw [Nat.add_mul, Nat.one_mul] at hle
    rw [compare_gt_iff_gt.mpr h, compare_gt_iff_gt.mpr (by omega)]
    rfl

theorem compareText_radix (hb : 0 < b) (hm : m < b ^ k) (hn : n < b ^ k) :
    compareText (radix b k m) (radix b k n) = compare m n := by
  induction k generalizing m n with
  | zero =>
      obtain rfl : m = 0 := by simpa using hm
      obtain rfl : n = 0 := by simpa using hn
      rfl
  | succ k ih =>
      have hpos : 0 < b ^ k := Nat.pow_pos hb
      have hdigit : ∀ x < b ^ (k + 1), x / b ^ k % b = x / b ^ k := by
        intro x hx
        rw [Nat.pow_succ] at hx
        exact Nat.mod_eq_of_lt (Nat.div_lt_of_lt_mul hx)
      have hsplit : ∀ x, x / b ^ k * b ^ k + x % b ^ k = x := fun x => Nat.div_add_mod' x (b ^ k)
      conv_rhs => rw [← hsplit m, ← hsplit n]
      rw [compare_split (Nat.mod_lt _ hpos) (Nat.mod_lt _ hpos), radix, radix, compareText_cons,
        hdigit m hm, hdigit n hn, ← radix_mod b k m, ← radix_mod b k n,
        ih (Nat.mod_lt _ hpos) (Nat.mod_lt _ hpos)]

end

end Poco.Lib
