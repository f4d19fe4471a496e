import Mathlib.Data.List.GetD
import Mathlib.Data.List.Infix
import Mathlib.Tactic.IntervalCases
import Poco.Lib.Radix

/-! # `pad`

`pad` brings the text of a floating-point number to a number of fractional digits, rounding on its
characters, and to a width.  A carry goes from the last digit that stays to the front.

A carry out of the first digit is not right: behind a sign it turns the sign into a full stop, and
otherwise the `1` in front moves the last digit out of the text.  Everything else is rounded half away
from zero (`pad_rounds_iff`). -/

namespace Poco.Foundation

open Poco.Lib

namespace DecimalPad

/-! ### The function -/

/-- `++` of a character. -/
def increment (c : Char) : Char := Char.ofNat (c.toNat + 1)

/-- The loop of `pad` over the characters before the last digit that stays, from back to front, with the
carry. -/
def carryLoop (decSep : Char) : Bool → List Char → List Char × Bool
  | carry, [] => ([], carry)
  | carry, c :: before =>
      if c = decSep then
        let r := carryLoop decSep carry before
        (c :: r.1, r.2)
      else if carry then
        if c.toNat + 1 ≤ '9'.toNat then
          let r := carryLoop decSep false before
          (increment c :: r.1, r.2)
        else
          let r := carryLoop decSep true before
          ('0' :: r.1, r.2)
      else
        let r := carryLoop decSep false before
        (c :: r.1, r.2)

/-- Rounding up in front of the position `pos`. -/
def roundUp (decSep : Char) (str : List Char) (pos : ℕ) : List Char :=
  match (str.take pos).reverse with
  | [] => str
  | c :: before =>
      let r := if c = '9' then carryLoop decSep true before else carryLoop decSep false before
      let digits := ((if c = '9' then '0' else increment c) :: r.1).reverse
      (if r.2 then '1' :: digits else digits) ++ str.drop pos

/-- `pad`: the text afterwards. -/
def pad (str : List Char) (precision width : ℕ) (filler decSep : Char) : List Char :=
  let str := if decSep ∈ str then str else str ++ [decSep]
  let decSepPos := str.idxOf decSep
  let frac := str.length - decSepPos - 1
  let ePos := str.findIdx fun c => c == 'e' || c == 'E'
  let eStr := str.drop ePos
  -- the difference of two values of `size_type`
  let frac := if eStr.length ≤ frac then frac - eStr.length else frac + 2 ^ 64 - eStr.length
  let str := str.take ePos
  let pos := decSepPos + 1 + precision
  let str :=
    if frac < precision then str ++ List.replicate (precision - frac) '0'
    else if precision < frac then
      (if '5' ≤ str.getD pos ' ' then roundUp decSep str pos else str).take pos
    else str
  let str := str ++ eStr
  if width ≠ 0 ∧ str.length < width then List.replicate (width - str.length) filler ++ str else str

/-! ### Numerals -/

/-- The digits of a number as characters. -/
def digits (k n : ℕ) : List Char := (radix 10 k n).map Nat.digitChar

/-- A decimal numeral: its sign, how many digits are before and behind the separator, and the number of all
its digits.  Without digits behind it there is no separator. -/
structure Numeral where
  negative : Bool
  places : ℕ
  frac : ℕ
  number : ℕ
  places_pos : 0 < places
  number_lt : number < 10 ^ (places + frac)

/-- A character that can be a decimal separator. -/
abbrev Separator : Type := {c : Char // (∀ d < 10, c ≠ Nat.digitChar d) ∧ c ≠ '-' ∧ c ≠ 'e' ∧ c ≠ 'E'}

namespace Numeral

variable (x : Numeral) (decSep : Separator) (precision width : ℕ) (filler : Char)

/-- The sign as it is written. -/
def sign : List Char := if x.negative then ['-'] else []

/-- The text of a numeral. -/
def text : List Char :=
  x.sign ++ digits x.places (x.number / 10 ^ x.frac) ++
    if x.frac = 0 then [] else decSep.val :: digits x.frac x.number

/-- The number of all digits of the numeral with `precision` digits behind the separator, rounded half away
from zero. -/
def rounded : ℕ :=
  if x.frac ≤ precision then x.number * 10 ^ (precision - x.frac)
  else (x.number + 5 * 10 ^ (x.frac - precision - 1)) / 10 ^ (x.frac - precision)

/-- How many digits the rounded numeral has before its separator: one more if it needs it. -/
def roundedPlaces : ℕ := if x.rounded precision < 10 ^ (x.places + precision) then x.places else x.places + 1

/-- The rounded numeral, filled up to a width. -/
def roundedText : List Char :=
  (x.sign ++ digits (x.roundedPlaces precision) (x.rounded precision / 10 ^ precision) ++
    decSep.val :: digits precision (x.rounded precision)).leftpad width filler

/-- Digits are cut off, and the first one of them is at least 5. -/
def RoundsUp : Prop := precision < x.frac ∧ 5 ≤ x.number / 10 ^ (x.frac - precision - 1) % 10

/-- All digits that stay are nines. -/
def AllNines : Prop := x.number / 10 ^ (x.frac - precision) + 1 = 10 ^ (x.places + precision)

end Numeral

/-! ### Digits -/

theorem digits_succ (k n : ℕ) : digits (k + 1) n = digits k (n / 10) ++ [Nat.digitChar (n % 10)] := by
  have hone : radix 10 1 n = [n % 10] := by
    rw [radix, Nat.pow_zero, Nat.div_one]
    rfl
  unfold digits
  rw [radix_append 10 k 1 n, List.map_append, hone, Nat.pow_one]
  rfl

theorem length_digits (k n : ℕ) : (digits k n).length = k := by
  unfold digits
  rw [List.length_map, length_radix]

theorem digits_append (j k n : ℕ) : digits (j + k) n = digits j (n / 10 ^ k) ++ digits k n := by
  unfold digits
  rw [radix_append, List.map_append]

theorem digits_mod (k n : ℕ) : digits k (n % 10 ^ k) = digits k n := by
  unfold digits
  rw [radix_mod]

theorem mem_digits {k n : ℕ} {c : Char} (h : c ∈ digits k n) : ∃ d < 10, c = Nat.digitChar d := by
  obtain ⟨d, hd, rfl⟩ := List.mem_map.mp h
  exact ⟨d, lt_of_mem_radix (by omega) d hd, rfl⟩

theorem digits_mul (j k n : ℕ) : digits (j + k) (n * 10 ^ k) = digits j n ++ List.replicate k '0' := by
  rw [digits_append, Nat.mul_div_cancel _ (Nat.pow_pos (by omega))]
  congr 1
  rw [← digits_mod, Nat.mul_mod_left]
  induction k with
  | zero => rfl
  | succ k ih => rw [digits_succ, Nat.zero_div, ih, List.replicate_succ']; rfl

/-- A digit character is counted up, or goes back to zero. -/
theorem digitChar_spec {d : ℕ} (hd : d < 10) :
    (Nat.digitChar d = '9' ↔ d = 9) ∧ ((Nat.digitChar d).toNat + 1 ≤ '9'.toNat ↔ d ≠ 9) ∧
      (d ≠ 9 → increment (Nat.digitChar d) = Nat.digitChar (d + 1)) ∧
      ('5' ≤ Nat.digitChar d ↔ 5 ≤ d) := by
  interval_cases d <;> decide

/-! ### The carry -/

variable {decSep : Separator}

theorem digitChar_ne_sep (decSep : Separator) {d : ℕ} (hd : d < 10) : Nat.digitChar d ≠ decSep.val :=
  fun h => decSep.property.1 d hd h.symm

theorem carryLoop_cons (sep : Char) (carry : Bool) (c : Char) (s : List Char) :
    carryLoop sep carry (c :: s) =
      if c = sep then (c :: (carryLoop sep carry s).1, (carryLoop sep carry s).2)
      else if carry then
        if c.toNat + 1 ≤ '9'.toNat then (increment c :: (carryLoop sep false s).1, (carryLoop sep false s).2)
        else ('0' :: (carryLoop sep true s).1, (carryLoop sep true s).2)
      else (c :: (carryLoop sep false s).1, (carryLoop sep false s).2) := rfl

theorem carryLoop_append (sep : Char) (carry : Bool) (s t : List Char) :
    carryLoop sep carry (s ++ t) =
      ((carryLoop sep carry s).1 ++ (carryLoop sep (carryLoop sep carry s).2 t).1,
        (carryLoop sep (carryLoop sep carry s).2 t).2) := by
  induction s generalizing carry with
  | nil => rfl
  | cons c s ih =>
      rw [List.cons_append, carryLoop_cons sep carry c (s ++ t), carryLoop_cons sep carry c s]
      split
      · rw [ih]; rfl
      · split
        · split
          · rw [ih]; rfl
          · rw [ih]; rfl
        · rw [ih]; rfl

theorem carryLoop_false (sep : Char) (s : List Char) : carryLoop sep false s = (s, false) := by
  induction s with
  | nil => rfl
  | cons c s ih =>
      rw [carryLoop_cons, ih, if_neg Bool.false_ne_true]
      exact ite_self _

theorem carryLoop_sep (sep : Char) (carry : Bool) (s : List Char) :
    carryLoop sep carry (sep :: s) = (sep :: (carryLoop sep carry s).1, (carryLoop sep carry s).2) := by
  rw [carryLoop_cons, if_pos rfl]

/-- The carry adds one to a number; it is left when all digits are nines. -/
theorem carryLoop_digits (decSep : Separator) (k n : ℕ) (hn : n < 10 ^ k) :
    carryLoop decSep.val true (digits k n).reverse = ((digits k (n + 1)).reverse, decide (n + 1 = 10 ^ k)) := by
  induction k generalizing n with
  | zero =>
      obtain rfl : n = 0 := by omega
      rfl
  | succ k ih =>
      have hlt : n % 10 < 10 := Nat.mod_lt _ (by omega)
      have hdiv : n / 10 < 10 ^ k := by
        rw [Nat.pow_succ] at hn
        exact Nat.div_lt_of_lt_mul (by omega)
      have hpow : 10 ^ (k + 1) = 10 ^ k * 10 := Nat.pow_succ ..
      obtain ⟨-, hle, hinc, -⟩ := digitChar_spec hlt
      rw [digits_succ, digits_succ, List.reverse_append, List.reverse_append, List.reverse_singleton,
        List.reverse_singleton, List.singleton_append, List.singleton_append]
      rw [carryLoop_cons, if_neg (digitChar_ne_sep decSep hlt), if_pos rfl]
      by_cases hnine : n % 10 = 9
      · have hdigit : (n + 1) % 10 = 0 := by omega
        have hnext : (n + 1) / 10 = n / 10 + 1 := by omega
        rw [if_neg (by rw [hle]; exact not_not.mpr hnine), ih _ hdiv, hdigit, hnext]
        refine congrArg (Prod.mk _) (decide_eq_decide.mpr ?_)
        omega
      · have hdigit : (n + 1) % 10 = n % 10 + 1 := by omega
        have hnext : (n + 1) / 10 = n / 10 := by omega
        rw [if_pos (hle.mpr hnine), carryLoop_false, hdigit, hnext, hinc hnine]
        refine congrArg (Prod.mk _) (Eq.symm (decide_eq_false ?_))
        omega

/-- The first step of the rounding is one of the carry. -/
theorem roundUp_eq (decSep : Separator) {s : List Char} {d : ℕ} (hd : d < 10) (t : List Char) :
    roundUp decSep.val (s ++ [Nat.digitChar d] ++ t) (s.length + 1) =
      let r := carryLoop decSep.val true (s ++ [Nat.digitChar d]).reverse
      (if r.2 then '1' :: r.1.reverse else r.1.reverse) ++ t := by
  have hlen : (s ++ [Nat.digitChar d]).length = s.length + 1 := List.length_append
  obtain ⟨heq, hle, -, -⟩ := digitChar_spec hd
  unfold roundUp
  rw [← hlen, List.take_left, List.drop_left, List.reverse_append, List.reverse_singleton, List.singleton_append]
  rw [carryLoop_cons, if_neg (digitChar_ne_sep decSep hd), if_pos rfl]
  dsimp only
  by_cases hnine : d = 9
  · have hchar := heq.mpr hnine
    have hstop : ¬(Nat.digitChar d).toNat + 1 ≤ '9'.toNat := fun h => hle.mp h hnine
    simp only [if_pos hchar, if_neg hstop]
  · have hchar : ¬Nat.digitChar d = '9' := fun h => hnine (heq.mp h)
    simp only [if_neg hchar, if_pos (hle.mpr hnine)]

theorem div_carry {M a r : ℕ} (hM : 0 < M) (hr : r + 1 = M) :
    (a * M + r + 1) / M = a + 1 ∧ ∀ J, a + 1 = J ↔ a * M + r + 1 = J * M := by
  have heq : a * M + r + 1 = (a + 1) * M := by
    rw [Nat.add_mul, Nat.one_mul, Nat.add_assoc, hr]
  rw [heq]
  exact ⟨Nat.mul_div_cancel _ hM, fun J => (Nat.mul_left_inj (Nat.ne_of_gt hM)).symm⟩

theorem div_no_carry {M a r : ℕ} (hr : r + 1 < M) :
    (a * M + r + 1) / M = a ∧ ∀ J, a * M + r + 1 ≠ J * M := by
  have hmod : (a * M + r + 1) % M = r + 1 := by
    rw [Nat.add_assoc, Nat.add_comm, Nat.add_mul_mod_self_right, Nat.mod_eq_of_lt hr]
  constructor
  · rw [Nat.add_assoc, Nat.add_comm, Nat.add_mul_div_right _ _ (by omega), Nat.div_eq_of_lt hr, Nat.zero_add]
  · intro J hJ
    rw [hJ, Nat.mul_mod_left] at hmod
    omega

/-- The carry over all digits of a number, with the separator in between. -/
theorem carryLoop_number (decSep : Separator) {j k q : ℕ} (hq : q < 10 ^ (j + k)) (t : List Char) :
    carryLoop decSep.val true ((digits k q).reverse ++ decSep.val :: ((digits j (q / 10 ^ k)).reverse ++ t)) =
      let r := carryLoop decSep.val (decide (q + 1 = 10 ^ (j + k))) t
      ((digits k (q + 1)).reverse ++ decSep.val :: ((digits j ((q + 1) / 10 ^ k)).reverse ++ r.1), r.2) := by
  have hpos : 0 < 10 ^ k := Nat.pow_pos (by omega)
  have hsplit : q / 10 ^ k * 10 ^ k + q % 10 ^ k + 1 = q + 1 := congrArg (· + 1) (Nat.div_add_mod' q (10 ^ k))
  have hmod : q % 10 ^ k < 10 ^ k := Nat.mod_lt _ hpos
  have hdiv : q / 10 ^ k < 10 ^ j := by
    rw [Nat.div_lt_iff_lt_mul hpos, ← Nat.pow_add]
    exact hq
  have hlow : digits k (q % 10 ^ k + 1) = digits k (q + 1) := by
    rw [← digits_mod k (q % 10 ^ k + 1), ← digits_mod k (q + 1), Nat.mod_add_mod]
  rw [carryLoop_append, ← digits_mod k q, carryLoop_digits decSep k _ hmod, hlow]
  dsimp only
  rw [carryLoop_sep, carryLoop_append, Nat.pow_add]
  by_cases hcarry : q % 10 ^ k + 1 = 10 ^ k
  · obtain ⟨hnext, hall⟩ := @div_carry _ (q / 10 ^ k) _ hpos hcarry
    rw [hsplit] at hnext hall
    rw [decide_eq_true hcarry, carryLoop_digits decSep j _ hdiv, hnext]
    simp only [hall]
  · obtain ⟨hnext, hnot⟩ := @div_no_carry _ (q / 10 ^ k) _ (lt_of_le_of_ne hmod hcarry)
    rw [hsplit] at hnext hnot
    rw [decide_eq_false hcarry, carryLoop_false, hnext, decide_eq_false (hnot (10 ^ j))]

/-! ### The text of a numeral -/

/-- Characters that are neither the separator nor the letter of an exponent. -/
def Ordinary (decSep : Separator) (s : List Char) : Prop := ∀ c ∈ s, c ≠ decSep.val ∧ c ≠ 'e' ∧ c ≠ 'E'

theorem ordinary_digits (decSep : Separator) (k n : ℕ) : Ordinary decSep (digits k n) := by
  intro c hc
  obtain ⟨d, hd, rfl⟩ := mem_digits hc
  refine ⟨digitChar_ne_sep decSep hd, ?_⟩
  interval_cases d <;> decide

theorem ordinary_sign (decSep : Separator) (x : Numeral) : Ordinary decSep x.sign := by
  unfold Numeral.sign
  intro c hc
  split at hc
  · rw [List.mem_singleton.mp hc]
    exact ⟨fun h => decSep.property.2.1 h.symm, by decide⟩
  · exact absurd hc List.not_mem_nil

theorem leftpad_eq (s : List Char) (width : ℕ) (filler : Char) :
    (if width ≠ 0 ∧ s.length < width then List.replicate (width - s.length) filler ++ s else s) =
      s.leftpad width filler := by
  unfold List.leftpad
  split_ifs with h
  · rfl
  · have hzero : width - s.length = 0 := by omega
    rw [hzero]
    rfl

theorem pad_text {a f : List Char} (ha : Ordinary decSep a) (hf : Ordinary decSep f) (precision width : ℕ)
    (filler : Char) :
    pad (a ++ if f = [] then [] else decSep.val :: f) precision width filler decSep.val =
      List.leftpad width filler (
        if f.length < precision then a ++ decSep.val :: f ++ List.replicate (precision - f.length) '0'
        else if precision < f.length then
          (if '5' ≤ f.getD precision ' ' then roundUp decSep.val (a ++ decSep.val :: f) (a.length + 1 + precision)
            else a ++ decSep.val :: f).take (a.length + 1 + precision)
        else a ++ decSep.val :: f) := by
  have hnotmem : decSep.val ∉ a := fun h => (ha _ h).1 rfl
  have hstr : (if decSep.val ∈ (a ++ if f = [] then [] else decSep.val :: f) then
      (a ++ if f = [] then [] else decSep.val :: f) else (a ++ if f = [] then [] else decSep.val :: f) ++
        [decSep.val]) = a ++ decSep.val :: f := by
    by_cases hnil : f = []
    · rw [if_pos hnil, List.append_nil, if_neg hnotmem, hnil]
    · rw [if_neg hnil, if_pos (List.mem_append_right _ List.mem_cons_self)]
  have hpos : (a ++ decSep.val :: f).idxOf decSep.val = a.length := by
    rw [List.idxOf_append_of_notMem hnotmem, List.idxOf_cons_self, Nat.add_zero]
  have hexp : (a ++ decSep.val :: f).findIdx (fun c => c == 'e' || c == 'E') = (a ++ decSep.val :: f).length := by
    apply List.findIdx_eq_length_of_false
    intro c hc
    have hc' : c ≠ 'e' ∧ c ≠ 'E' := by
      rcases List.mem_append.mp hc with hc | hc
      · exact (ha c hc).2
      · rcases List.mem_cons.mp hc with rfl | hc
        · exact decSep.property.2.2
        · exact (hf c hc).2
    rw [Bool.or_eq_false_iff, beq_eq_false_iff_ne, beq_eq_false_iff_ne]
    exact hc'
  have hlen : (a ++ decSep.val :: f).length - a.length - 1 = f.length := by
    rw [List.length_append, List.length_cons]
    omega
  have hget : (a ++ decSep.val :: f).getD (a.length + 1 + precision) ' ' = f.getD precision ' ' := by
    rw [List.getD_append_right _ _ _ _ (by omega), Nat.add_assoc, Nat.add_sub_cancel_left, Nat.add_comm,
      List.getD_cons_succ]
  unfold pad
  dsimp only
  rw [hstr, hpos, hexp, List.drop_length, List.take_length, hlen, hget, leftpad_eq, List.append_nil]
  rfl

namespace Numeral

variable (x : Numeral) (decSep : Separator) (precision width : ℕ) (filler : Char)

/-- The sign and the digits before the separator. -/
def front : List Char := x.sign ++ digits x.places (x.number / 10 ^ x.frac)

theorem ordinary_front : Ordinary decSep x.front := by
  intro c hc
  rcases List.mem_append.mp hc with hc | hc
  · exact ordinary_sign decSep x c hc
  · exact ordinary_digits decSep _ _ c hc

theorem length_sign_reverse : x.sign.reverse = x.sign := by
  unfold sign
  split <;> rfl

theorem pad_eq : pad (x.text decSep) precision width filler decSep.val =
    List.leftpad width filler (
      if x.frac < precision then
        x.front ++ decSep.val :: digits x.frac x.number ++ List.replicate (precision - x.frac) '0'
      else if precision < x.frac then
        (if '5' ≤ (digits x.frac x.number).getD precision ' ' then
          roundUp decSep.val (x.front ++ decSep.val :: digits x.frac x.number) (x.front.length + 1 + precision)
        else x.front ++ decSep.val :: digits x.frac x.number).take (x.front.length + 1 + precision)
      else x.front ++ decSep.val :: digits x.frac x.number) := by
  have htext : x.text decSep =
      x.front ++ if digits x.frac x.number = [] then [] else decSep.val :: digits x.frac x.number := by
    unfold text
    refine congrArg _ (if_congr ?_ rfl rfl)
    rw [← List.length_eq_zero_iff, length_digits]
  rw [htext, pad_text (x.ordinary_front decSep) (ordinary_digits decSep _ _), length_digits]

theorem kept_lt (h : precision < x.frac) : x.number / 10 ^ (x.frac - precision) < 10 ^ (x.places + precision) := by
  rw [Nat.div_lt_iff_lt_mul (Nat.pow_pos (by omega)), ← Nat.pow_add]
  have hexp : x.places + precision + (x.frac - precision) = x.places + x.frac := by omega
  rw [hexp]
  exact x.number_lt

/-- Rounding adds one to the digits that stay, or nothing. -/
theorem rounded_eq (h : precision < x.frac) :
    x.rounded precision = x.number / 10 ^ (x.frac - precision) +
      if 5 ≤ x.number / 10 ^ (x.frac - precision - 1) % 10 then 1 else 0 := by
  have hpos : 0 < 10 ^ (x.frac - precision - 1) := Nat.pow_pos (by omega)
  have hpow : 10 ^ (x.frac - precision) = 10 ^ (x.frac - precision - 1) * 10 := by
    rw [← Nat.pow_succ]
    congr 1
    omega
  unfold rounded
  rw [if_neg (by omega), hpow, ← Nat.div_div_eq_div_mul, ← Nat.div_div_eq_div_mul, Nat.add_mul_div_right _ _ hpos]
  split <;> omega

/-- The digits behind the separator, when digits are cut off. -/
theorem digits_frac (h : precision < x.frac) :
    digits x.frac x.number = digits precision (x.number / 10 ^ (x.frac - precision)) ++
      Nat.digitChar (x.number / 10 ^ (x.frac - precision - 1) % 10) ::
        digits (x.frac - precision - 1) x.number := by
  have hsplit : x.frac = precision + (1 + (x.frac - precision - 1)) := by omega
  have hcut : 1 + (x.frac - precision - 1) = x.frac - precision := by omega
  conv_lhs => rw [hsplit, digits_append, digits_append 1, hcut]
  rw [digits_succ]
  rfl

/-- The digits before the separator belong to the digits that stay. -/
theorem front_eq (h : precision < x.frac) :
    x.front = x.sign ++ digits x.places (x.number / 10 ^ (x.frac - precision) / 10 ^ precision) := by
  unfold front
  rw [Nat.div_div_eq_div_mul, ← Nat.pow_add, Nat.sub_add_cancel h.le]

theorem pad_of_le (h : x.frac ≤ precision) :
    pad (x.text decSep) precision width filler decSep.val = x.roundedText decSep precision width filler := by
  have hround : x.rounded precision = x.number * 10 ^ (precision - x.frac) := if_pos h
  have hexp : x.frac + (precision - x.frac) = precision := by omega
  have hlt : x.rounded precision < 10 ^ (x.places + precision) := by
    rw [hround, ← hexp, ← Nat.add_assoc, Nat.pow_add 10 (x.places + x.frac), Nat.add_sub_cancel_left]
    exact Nat.mul_lt_mul_of_pos_right x.number_lt (Nat.pow_pos (by omega))
  have hint : x.rounded precision / 10 ^ precision = x.number / 10 ^ x.frac := by
    rw [hround]
    conv_lhs => rw [← hexp, Nat.pow_add, Nat.add_sub_cancel_left]
    exact Nat.mul_div_mul_right _ _ (Nat.pow_pos (by omega))
  have hfrac : digits precision (x.rounded precision) =
      digits x.frac x.number ++ List.replicate (precision - x.frac) '0' := by
    rw [hround, ← digits_mul, hexp]
  rw [pad_eq]
  unfold roundedText roundedPlaces
  rw [if_pos hlt, hint, hfrac]
  refine congrArg _ ?_
  by_cases hless : x.frac < precision
  · rw [if_pos hless, List.append_assoc, List.cons_append]
    rfl
  · have hzero : precision - x.frac = 0 := by omega
    rw [if_neg hless, if_neg (by omega), hzero, List.replicate_zero, List.append_nil]
    rfl

theorem getD_digits (h : precision < x.frac) : (digits x.frac x.number).getD precision ' ' =
    Nat.digitChar (x.number / 10 ^ (x.frac - precision - 1) % 10) := by
  rw [x.digits_frac precision h, List.getD_append_right _ _ _ _ (length_digits _ _).le, length_digits, Nat.sub_self]
  rfl

theorem take_kept (sep : Char) (a u t : List Char) {k : ℕ} (hk : u.length = k) :
    (a ++ sep :: (u ++ t)).take (a.length + 1 + k) = a ++ sep :: u := by
  have hlen : (a ++ sep :: u).length = a.length + 1 + k := by
    rw [List.length_append, List.length_cons, hk]
    omega
  rw [← List.cons_append, ← List.append_assoc, ← hlen, List.take_left]

theorem pad_of_lt (h : precision < x.frac) :
    pad (x.text decSep) precision width filler decSep.val = List.leftpad width filler (
      (if 5 ≤ x.number / 10 ^ (x.frac - precision - 1) % 10 then
        roundUp decSep.val (x.front ++ decSep.val :: digits x.frac x.number) (x.front.length + 1 + precision)
      else x.front ++ decSep.val :: digits x.frac x.number).take (x.front.length + 1 + precision)) := by
  have hdigit : x.number / 10 ^ (x.frac - precision - 1) % 10 < 10 := Nat.mod_lt _ (by omega)
  rw [pad_eq, if_neg (by omega), if_pos h, x.getD_digits precision h]
  refine congrArg (fun s => List.leftpad width filler (List.take _ s)) (if_congr ?_ rfl rfl)
  exact (digitChar_spec hdigit).2.2.2

theorem pad_down (h : precision < x.frac) (hdown : ¬5 ≤ x.number / 10 ^ (x.frac - precision - 1) % 10) :
    pad (x.text decSep) precision width filler decSep.val = x.roundedText decSep precision width filler := by
  have hround : x.rounded precision = x.number / 10 ^ (x.frac - precision) := by
    rw [x.rounded_eq precision h, if_neg hdown, Nat.add_zero]
  have hlt : x.rounded precision < 10 ^ (x.places + precision) := hround ▸ x.kept_lt precision h
  rw [x.pad_of_lt decSep precision width filler h, if_neg hdown, x.digits_frac precision h,
    take_kept _ _ _ _ (length_digits _ _)]
  unfold roundedText roundedPlaces
  rw [if_pos hlt, hround, x.front_eq precision h]

theorem roundUp_text (h : precision < x.frac) (hpos : 0 < precision) :
    roundUp decSep.val (x.front ++ decSep.val :: digits x.frac x.number) (x.front.length + 1 + precision) =
      let q := x.number / 10 ^ (x.frac - precision)
      let r := carryLoop decSep.val (decide (q + 1 = 10 ^ (x.places + precision))) x.sign
      let text := r.1.reverse ++ digits x.places ((q + 1) / 10 ^ precision) ++
        decSep.val :: digits precision (q + 1)
      (if r.2 then '1' :: text else text) ++
        Nat.digitChar (x.number / 10 ^ (x.frac - precision - 1) % 10) ::
          digits (x.frac - precision - 1) x.number := by
  obtain ⟨k, rfl⟩ : ∃ k, precision = k + 1 := ⟨precision - 1, by omega⟩
  generalize hq : x.number / 10 ^ (x.frac - (k + 1)) = q
  have hlt : q < 10 ^ (x.places + (k + 1)) := hq ▸ x.kept_lt _ h
  have hfront : x.front = x.sign ++ digits x.places (q / 10 ^ (k + 1)) := hq ▸ x.front_eq _ h
  have hd : q % 10 < 10 := Nat.mod_lt _ (by omega)
  have hlen : (x.front ++ decSep.val :: digits k (q / 10)).length + 1 = x.front.length + 1 + (k + 1) := by
    rw [List.length_append, List.length_cons, length_digits]
    omega
  have hstr : x.front ++ decSep.val :: digits x.frac x.number =
      (x.front ++ decSep.val :: digits k (q / 10)) ++ [Nat.digitChar (q % 10)] ++
        Nat.digitChar (x.number / 10 ^ (x.frac - (k + 1) - 1) % 10) ::
          digits (x.frac - (k + 1) - 1) x.number := by
    rw [x.digits_frac _ h, hq, digits_succ]
    simp only [List.append_assoc, List.cons_append]
  have hreverse : ((x.front ++ decSep.val :: digits k (q / 10)) ++ [Nat.digitChar (q % 10)]).reverse =
      (digits (k + 1) q).reverse ++ decSep.val ::
        ((digits x.places (q / 10 ^ (k + 1))).reverse ++ x.sign) := by
    rw [digits_succ, hfront]
    simp only [List.reverse_append, List.reverse_cons, List.append_assoc, x.length_sign_reverse]
    rfl
  rw [hstr, ← hlen, roundUp_eq decSep hd, hreverse, carryLoop_number decSep hlt]
  simp only [List.reverse_append, List.reverse_cons, List.reverse_reverse, List.append_assoc, List.cons_append,
    List.nil_append]

/-- A text that is rounded up without a carry out of the first digit. -/
theorem pad_up (h : precision < x.frac) (hup : 5 ≤ x.number / 10 ^ (x.frac - precision - 1) % 10)
    (hpos : 0 < precision) (hnines : ¬x.AllNines precision) :
    pad (x.text decSep) precision width filler decSep.val = x.roundedText decSep precision width filler := by
  have hround : x.rounded precision = x.number / 10 ^ (x.frac - precision) + 1 := by
    rw [x.rounded_eq precision h, if_pos hup]
  have hlt : x.rounded precision < 10 ^ (x.places + precision) := by
    rw [hround]
    exact lt_of_le_of_ne (x.kept_lt precision h) hnines
  have hfront : x.front.length = (x.sign ++ digits x.places (x.rounded precision / 10 ^ precision)).length := by
    unfold front
    rw [List.length_append, List.length_append, length_digits, length_digits]
  have htext := x.roundUp_text decSep precision h hpos
  unfold AllNines at hnines
  dsimp only at htext
  rw [decide_eq_false hnines, carryLoop_false, if_neg Bool.false_ne_true, x.length_sign_reverse, ← hround,
    List.append_assoc, List.cons_append] at htext
  rw [x.pad_of_lt decSep precision width filler h, if_pos hup, htext, hfront,
    take_kept _ _ _ _ (length_digits _ _)]
  unfold roundedText roundedPlaces
  rw [if_pos hlt]

/-! ### What goes wrong -/

/-- Of two texts that are filled up to the same one, the shorter one is the end of the other. -/
theorem suffix_of_leftpad {s t : List Char} (h : s.leftpad width filler = t.leftpad width filler)
    (hlen : s.length ≤ t.length) : s <:+ t :=
  List.suffix_of_suffix_length_le (h ▸ List.leftpad_suffix) List.leftpad_suffix hlen

/-- A text that is one character short begins like the other one behind its first character. -/
theorem head?_of_leftpad {s t : List Char} {c : Char} (h : s.leftpad width filler = (c :: t).leftpad width filler)
    (hlen : s.length = t.length) : s.head? = t.head? := by
  have hsuffix := suffix_of_leftpad width filler h (by rw [List.length_cons]; omega)
  rcases List.suffix_cons_iff.mp hsuffix with heq | hsuffix
  · rw [heq, List.length_cons] at hlen
    omega
  · rw [hsuffix.eq_of_length hlen]

theorem digits_pow (j : ℕ) : digits (j + 1) (10 ^ j) = '1' :: List.replicate j '0' := by
  have h := digits_mul 1 j 1
  rw [Nat.one_mul, Nat.add_comm] at h
  exact h

/-- A carry out of the first digit loses a digit or the sign. -/
theorem pad_nines (h : precision < x.frac) (hup : 5 ≤ x.number / 10 ^ (x.frac - precision - 1) % 10)
    (hpos : 0 < precision) (hnines : x.AllNines precision) :
    pad (x.text decSep) precision width filler decSep.val ≠ x.roundedText decSep precision width filler := by
  have hround : x.rounded precision = 10 ^ (x.places + precision) := by
    rw [x.rounded_eq precision h, if_pos hup]
    exact hnines
  have hint : 10 ^ (x.places + precision) / 10 ^ precision = 10 ^ x.places := by
    rw [Nat.pow_add, Nat.mul_div_cancel _ (Nat.pow_pos (by omega))]
  have hq : x.number / 10 ^ (x.frac - precision) + 1 = 10 ^ (x.places + precision) := hnines
  have htext := x.roundUp_text decSep precision h hpos
  dsimp only at htext
  rw [decide_eq_true hq, hq, hint] at htext
  generalize Nat.digitChar _ :: digits (x.frac - precision - 1) x.number = tail at htext
  intro heq
  rw [x.pad_of_lt decSep precision width filler h, if_pos hup, htext] at heq
  unfold roundedText roundedPlaces at heq
  rw [hround, if_neg (lt_irrefl _), hint, digits_pow] at heq
  have hfront : x.front.length = x.sign.length + x.places := by
    unfold front
    rw [List.length_append, length_digits]
  have hsign : x.sign = ['-'] ∨ x.sign = [] := by
    unfold sign
    split
    · exact Or.inl rfl
    · exact Or.inr rfl
  rcases hsign with hsign | hsign
  · -- the carry makes a full stop of the sign
    have hcarry : carryLoop decSep.val true ['-'] = (['.'], false) := by
      rw [carryLoop_cons, if_neg fun h => decSep.property.2.1 h.symm]
      rfl
    rw [hsign, hcarry, if_neg Bool.false_ne_true] at heq
    replace heq : List.leftpad width filler (List.take (x.front.length + 1 + precision)
        ('.' :: (digits x.places (10 ^ x.places) ++
          decSep.val :: digits precision (10 ^ (x.places + precision)) ++ tail))) =
        List.leftpad width filler ('-' :: ('1' :: (List.replicate x.places '0' ++
          decSep.val :: digits precision (10 ^ (x.places + precision))))) := heq
    have hhead := head?_of_leftpad width filler heq (by
      rw [List.length_take]
      simp only [List.length_append, List.length_cons, List.length_replicate, length_digits, hfront, hsign,
        List.length_nil]
      omega)
    rw [Nat.add_right_comm, List.take_succ_cons] at hhead
    exact absurd (Option.some.inj hhead) (by decide)
  · -- the `1` in front is one character more than the text may have
    rw [hsign, carryLoop, if_pos rfl] at heq
    replace heq : List.leftpad width filler (List.take (x.front.length + 1 + precision)
        ('1' :: (digits x.places (10 ^ x.places) ++
          decSep.val :: digits precision (10 ^ (x.places + precision)) ++ tail))) =
        List.leftpad width filler ('1' :: (List.replicate x.places '0' ++
          decSep.val :: digits precision (10 ^ (x.places + precision)))) := heq
    have hhead := head?_of_leftpad width filler heq (by
      rw [List.length_take]
      simp only [List.length_append, List.length_cons, List.length_replicate, length_digits, hfront, hsign,
        List.length_nil]
      omega)
    obtain ⟨j, hj⟩ : ∃ j, x.places = j + 1 := ⟨x.places - 1, by have := x.places_pos; omega⟩
    rw [Nat.add_right_comm, List.take_succ_cons, hj] at hhead
    exact absurd (Option.some.inj hhead) (by decide)

theorem increment_ne (c : Char) : increment c ≠ c := by
  intro h
  unfold increment at h
  by_cases hvalid : (c.toNat + 1).isValidChar
  · have hnat : (Char.ofNatAux (c.toNat + 1) hvalid).toNat = c.toNat + 1 := rfl
    rw [Char.ofNat, dif_pos hvalid] at h
    rw [h] at hnat
    omega
  · rw [Char.ofNat, dif_neg hvalid] at h
    exact hvalid (h ▸ by decide)

/-- Without digits behind the separator, the separator is counted up. -/
theorem pad_zero (h : 0 < x.frac) (hup : 5 ≤ x.number / 10 ^ (x.frac - 0 - 1) % 10) :
    pad (x.text decSep) 0 width filler decSep.val ≠ x.roundedText decSep 0 width filler := by
  have hnine : ¬decSep.val = '9' := fun h => decSep.property.1 9 (by omega) h
  have hcut (sep : Char) : (x.front ++ sep :: digits x.frac x.number).take (x.front.length + 1 + 0) =
      x.front ++ [sep] := @take_kept sep x.front [] (digits x.frac x.number) 0 rfl
  have hdrop : (x.front ++ decSep.val :: digits x.frac x.number).drop (x.front.length + 1 + 0) =
      digits x.frac x.number := by
    rw [Nat.add_zero, ← List.drop_drop, List.drop_left]
    rfl
  have htext : roundUp decSep.val (x.front ++ decSep.val :: digits x.frac x.number) (x.front.length + 1 + 0) =
      x.front ++ increment decSep.val :: digits x.frac x.number := by
    unfold roundUp
    rw [hcut, hdrop, List.reverse_append, List.reverse_singleton, List.singleton_append]
    dsimp only
    rw [if_neg hnine, if_neg hnine, carryLoop_false, if_neg Bool.false_ne_true, List.reverse_cons,
      List.reverse_reverse, List.append_assoc]
    rfl
  intro heq
  rw [x.pad_of_lt decSep 0 width filler h, if_pos hup, htext, hcut] at heq
  have hlast := congrArg List.getLast? heq
  unfold roundedText List.leftpad digits radix at hlast
  rw [List.map_nil, ← List.append_assoc, ← List.append_assoc, List.getLast?_concat, List.getLast?_concat] at hlast
  exact increment_ne _ (Option.some.inj hlast)

/-- A numeral is rounded right exactly when it is not rounded up without digits behind the separator, or
with nines only. -/
theorem pad_rounds_iff (x : Numeral) (decSep : Separator) (precision width : ℕ) (filler : Char) :
    pad (x.text decSep) precision width filler decSep.val = x.roundedText decSep precision width filler ↔
      ¬(x.RoundsUp precision ∧ (precision = 0 ∨ x.AllNines precision)) := by
  constructor
  · rintro heq ⟨⟨h, hup⟩, hcase⟩
    by_cases hzero : precision = 0
    · subst hzero
      exact x.pad_zero decSep width filler h hup heq
    · exact x.pad_nines decSep precision width filler h hup (by omega) (hcase.resolve_left hzero) heq
  · intro hnot
    by_cases h : precision < x.frac
    · by_cases hup : 5 ≤ x.number / 10 ^ (x.frac - precision - 1) % 10
      · have hgood : ¬(precision = 0 ∨ x.AllNines precision) := fun hc => hnot ⟨⟨h, hup⟩, hc⟩
        push Not at hgood
        exact x.pad_up decSep precision width filler h hup (by omega) hgood.2
      · exact x.pad_down decSep precision width filler h hup
    · exact x.pad_of_le decSep precision width filler (by omega)

end Numeral

/-- The full stop as the decimal separator. -/
def point : Separator := ⟨'.', by decide, by decide, by decide, by decide⟩

/-- `9.99` and `-9.99` with one digit behind the separator. -/
theorem not_pad_rounds :
    (¬∀ (x : Numeral) (precision width : ℕ) (filler : Char),
      pad (x.text point) precision width filler '.' = x.roundedText point precision width filler) ∧
    pad "9.99".toList 1 0 ' ' '.' = "10.".toList ∧ pad "-9.99".toList 1 0 ' ' '.' = ".0.0".toList := by
  refine ⟨fun h => ?_, by decide, by decide⟩
  exact absurd (h ⟨false, 1, 2, 999, by decide, by decide⟩ 1 0 ' ') (by decide)

end DecimalPad

end Poco.Foundation
