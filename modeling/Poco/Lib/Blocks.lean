import Mathlib.Data.List.Basic
import Mathlib.Data.Nat.ModEq
import Mathlib.Tactic.Ring
import Poco.Lib.Memory

/-! # Texts read block by block

A compression function takes a state and a block to the next state.  `chain` applies it to the
blocks at the front of a text, as long as there is a whole one, and keeps the rest; `blocks` gives
the blocks as a list.  It does not matter where a text is cut in two, when the rest of the first
part is put in front of the second (`chain_append`).

A number that is counted in two words of `w` bits, with a carry from the low one to the high one, is
`count`: adding to it is adding modulo `2 ^ (2 * w)`. -/

namespace Poco.Lib

/-! ### Blocks -/

section

variable {σ α : Type} (compress : σ → List α → σ) (size : ℕ)

/-- The state behind the whole blocks of the text, and the rest of the text. -/
def chain (s : σ) (text : List α) : σ × List α :=
  if 0 < size ∧ size ≤ text.length then chain (compress s (text.take size)) (text.drop size)
  else (s, text)
termination_by text.length
decreasing_by
  rw [List.length_drop]
  omega

/-- The whole blocks of a text. -/
def blocks (text : List α) : List (List α) :=
  (List.range (text.length / size)).map fun i => slice text (size * i) size

variable {compress size} {s : σ} {text more : List α}

theorem chain_of_lt (h : text.length < size) : chain compress size s text = (s, text) := by
  rw [chain, if_neg (by omega)]

theorem chain_of_le (hsize : 0 < size) (h : size ≤ text.length) :
    chain compress size s text = chain compress size (compress s (text.take size)) (text.drop size) := by
  rw [chain, if_pos ⟨hsize, h⟩]

theorem chain_block (hsize : 0 < size) {block : List α} (h : block.length = size) :
    chain compress size s (block ++ text) = chain compress size (compress s block) text := by
  have hle : size ≤ (block ++ text).length := by simp [h]
  rw [chain_of_le hsize hle, ← h, List.take_left, List.drop_left]

theorem length_rest (hsize : 0 < size) (s : σ) (text : List α) :
    (chain compress size s text).2.length = text.length % size := by
  induction hlen : text.length using Nat.strong_induction_on generalizing s text with
  | _ n ih =>
      rcases Nat.lt_or_ge text.length size with h | h
      · rw [chain_of_lt h, hlen, Nat.mod_eq_of_lt (hlen ▸ h)]
      · have hdrop : (text.drop size).length < n := by
          rw [List.length_drop]
          omega
        rw [chain_of_le hsize h, ih _ hdrop _ _ rfl, List.length_drop, ← hlen]
        exact (Nat.mod_eq_sub_mod h).symm

theorem length_rest_lt (hsize : 0 < size) (s : σ) (text : List α) :
    (chain compress size s text).2.length < size := by
  rw [length_rest hsize]
  exact Nat.mod_lt _ hsize

theorem chain_append (hsize : 0 < size) (s : σ) (text more : List α) :
    chain compress size s (text ++ more) =
      chain compress size (chain compress size s text).1 ((chain compress size s text).2 ++ more) := by
  induction hlen : text.length using Nat.strong_induction_on generalizing s text with
  | _ n ih =>
      rcases Nat.lt_or_ge text.length size with h | h
      · rw [chain_of_lt h]
      · have hdrop : (text.drop size).length < n := by
          rw [List.length_drop]
          omega
        have hle : size ≤ (text ++ more).length := by
          rw [List.length_append]
          omega
        rw [chain_of_le hsize hle, chain_of_le hsize h, List.take_append_of_le_length h,
          List.drop_append_of_le_length h]
        exact ih _ hdrop _ _ rfl

theorem blocks_of_lt (h : text.length < size) : blocks size text = [] := by
  rw [blocks, Nat.div_eq_of_lt h]
  rfl

theorem blocks_of_le (hsize : 0 < size) (h : size ≤ text.length) :
    blocks size text = text.take size :: blocks size (text.drop size) := by
  have hdiv : text.length / size = (text.drop size).length / size + 1 := by
    rw [List.length_drop, ← Nat.div_eq_sub_div hsize h]
  rw [blocks, blocks, hdiv, List.range_succ_eq_map, List.map_cons, List.map_map]
  congr 1
  apply List.map_congr_left
  intro i _
  rw [Function.comp_apply, slice, slice, List.drop_drop, Nat.mul_succ, Nat.add_comm]

theorem chain_eq_foldl (hsize : 0 < size) (s : σ) (text : List α) :
    (chain compress size s text).1 = (blocks size text).foldl compress s := by
  induction hlen : text.length using Nat.strong_induction_on generalizing s text with
  | _ n ih =>
      rcases Nat.lt_or_ge text.length size with h | h
      · rw [chain_of_lt h, blocks_of_lt h]
        rfl
      · have hdrop : (text.drop size).length < n := by
          rw [List.length_drop]
          omega
        rw [chain_of_le hsize h, blocks_of_le hsize h, List.foldl_cons]
        exact ih _ hdrop _ _ rfl

theorem length_of_mem_blocks {block : List α} (h : block ∈ blocks size text) : block.length = size := by
  obtain ⟨i, hi, rfl⟩ := List.mem_map.mp h
  rw [List.mem_range] at hi
  apply slice_length
  calc size * i + size = size * (i + 1) := by ring
    _ ≤ size * (text.length / size) := Nat.mul_le_mul_left size hi
    _ ≤ text.length := Nat.mul_div_le text.length size

end

/-! ### Numbers in two words -/

section

variable {w : ℕ}

/-- The number in a low and a high word. -/
def count (lo hi : BitVec w) : ℕ := lo.toNat + 2 ^ w * hi.toNat

theorem add_lt_iff (lo c : BitVec w) : lo + c < c ↔ 2 ^ w ≤ lo.toNat + c.toNat := by
  have hlo := lo.isLt
  have hc := c.isLt
  rw [BitVec.lt_def, BitVec.toNat_add]
  rcases Nat.lt_or_ge (lo.toNat + c.toNat) (2 ^ w) with h | h
  · rw [Nat.mod_eq_of_lt h]
    omega
  · rw [Nat.mod_eq_sub_mod h, Nat.mod_eq_of_lt (by omega)]
    omega

theorem pow_mul_mod (w a : ℕ) : 2 ^ w * (a % 2 ^ w) ≡ 2 ^ w * a [MOD 2 ^ (2 * w)] := by
  rw [Nat.two_mul, Nat.pow_add]
  exact (Nat.mod_modEq a (2 ^ w)).mul_left' (2 ^ w)

theorem count_lt (lo hi : BitVec w) : count lo hi < 2 ^ (2 * w) := by
  have hlo := lo.isLt
  have hhi : 2 ^ w * (hi.toNat + 1) ≤ 2 ^ w * 2 ^ w := Nat.mul_le_mul_left _ hi.isLt
  rw [count, Nat.two_mul, Nat.pow_add]
  rw [Nat.mul_succ] at hhi
  omega

theorem count_add (lo hi c c' : BitVec w) :
    count (lo + c) ((if lo + c < c then hi + 1 else hi) + c') =
      (count lo hi + count c c') % 2 ^ (2 * w) := by
  have hlo := lo.isLt
  have hc := c.isLt
  rw [← Nat.mod_eq_of_lt (count_lt (lo + c) _)]
  show _ ≡ _ [MOD 2 ^ (2 * w)]
  rw [count, count, count, BitVec.toNat_add, BitVec.toNat_add]
  refine (Nat.ModEq.add_left _ (pow_mul_mod w _)).trans ?_
  split
  · rename_i h
    rw [add_lt_iff] at h
    have hhi : (hi + 1).toNat = (hi.toNat + 1) % 2 ^ w := by
      rw [BitVec.toNat_add, BitVec.ofNat_eq_ofNat, BitVec.toNat_ofNat, Nat.add_mod_mod]
    rw [Nat.mod_eq_sub_mod h, Nat.mod_eq_of_lt (by omega), hhi, Nat.mul_add]
    refine (Nat.ModEq.add_left _ (Nat.ModEq.add_right _ (pow_mul_mod w _))).trans ?_
    have heq : lo.toNat + c.toNat - 2 ^ w + (2 ^ w * (hi.toNat + 1) + 2 ^ w * c'.toNat) =
        lo.toNat + 2 ^ w * hi.toNat + (c.toNat + 2 ^ w * c'.toNat) := by
      rw [Nat.mul_succ]
      omega
    rw [heq]
  · rename_i h
    rw [add_lt_iff, Nat.not_le] at h
    have heq : lo.toNat + c.toNat + 2 ^ w * (hi.toNat + c'.toNat) =
        lo.toNat + 2 ^ w * hi.toNat + (c.toNat + 2 ^ w * c'.toNat) := by ring
    rw [Nat.mod_eq_of_lt h, heq]

theorem count_shift (h : 3 ≤ w) (lo hi : BitVec w) :
    count (lo <<< 3) (lo >>> (w - 3) ||| hi <<< 3) = 8 * count lo hi % 2 ^ (2 * w) := by
  obtain ⟨v, rfl⟩ := Nat.exists_eq_add_of_le' h
  have hpow : 2 ^ (v + 3) = 2 ^ v * 8 := Nat.pow_add 2 v 3
  have hpos : 0 < 2 ^ v := Nat.two_pow_pos v
  have hlo : lo.toNat < 2 ^ v * 8 := hpow ▸ lo.isLt
  have hlow : (lo <<< 3).toNat = 8 * (lo.toNat % 2 ^ v) := by
    rw [BitVec.toNat_shiftLeft, Nat.shiftLeft_eq, hpow, Nat.mul_mod_mul_right, Nat.mul_comm]
  have hhigh : (lo >>> (v + 3 - 3) ||| hi <<< 3).toNat = 8 * (hi.toNat % 2 ^ v) + lo.toNat / 2 ^ v := by
    have hlt : lo.toNat / 2 ^ v < 2 ^ 3 := by
      rw [Nat.div_lt_iff_lt_mul hpos]
      omega
    rw [BitVec.toNat_or, BitVec.toNat_ushiftRight, BitVec.toNat_shiftLeft, Nat.shiftLeft_eq, hpow,
      Nat.mul_mod_mul_right, Nat.add_sub_cancel, Nat.shiftRight_eq_div_pow, Nat.or_comm]
    rw [← Nat.shiftLeft_eq _ 3, ← Nat.shiftLeft_add_eq_or_of_lt hlt, Nat.shiftLeft_eq]
    omega
  rw [count, count, hlow, hhigh, Nat.mul_comm 2, Nat.pow_mul, hpow]
  -- from here on an equation of numbers, with `2 ^ v` as a variable
  generalize 2 ^ v = p at *
  have hlodiv := Nat.div_add_mod lo.toNat p
  have hhidiv := Nat.div_add_mod hi.toNat p
  have hhi : hi.toNat % p < p := Nat.mod_lt _ hpos
  generalize lo.toNat % p = l at *
  generalize lo.toNat / p = l' at *
  generalize hi.toNat % p = r at *
  generalize hi.toNat / p = r' at *
  have hsplit : 8 * (lo.toNat + p * 8 * hi.toNat) = 8 * l + p * 8 * (8 * r + l') + (p * 8) ^ 2 * r' := by
    rw [← hlodiv, ← hhidiv]
    ring
  have hlt : 8 * l + p * 8 * (8 * r + l') < (p * 8) ^ 2 := by
    have hsum : 8 * l + p * 8 * (8 * r + l') = 8 * lo.toNat + 64 * (p * r) := by
      rw [← hlodiv]
      ring
    have hle : p * (r + 1) ≤ p * p := Nat.mul_le_mul_left p hhi
    have hsq : (p * 8) ^ 2 = 64 * (p * p) := by ring
    rw [hsum, hsq]
    rw [Nat.mul_succ] at hle
    omega
  rw [hsplit, Nat.add_mul_mod_self_left, Nat.mod_eq_of_lt hlt]

end

end Poco.Lib
