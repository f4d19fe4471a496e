import Mathlib.Data.Rat.Defs
import Mathlib.Algebra.Field.Rat
import Poco.Foundation.NumberFormatter
import Poco.MongoDB.Decimal128

/-! # Decimal numbers as texts

A canonical number is a sign, a coefficient below 10^34 and an exponent from -6176 to 6111.  `toString`
writes a literal with these parts, but `fromString` takes only the exponents from -6143 to 6144: the
numbers with the smallest exponents are not read back (`fromString_toString`), and a literal with an
exponent above 6111 becomes something else (`toString_fromString`). -/

namespace Poco.MongoDB

open Poco.Foundation NumericString

namespace Decimal128

/-! ### Coefficients as numbers -/

namespace Coefficient

/-- The number that the limbs stand for. -/
def value (c : Coefficient) : ℕ :=
  c.limb0.toNat + 2 ^ 32 * (c.limb1.toNat + 2 ^ 32 * (c.limb2.toNat + 2 ^ 32 * c.limb3.toNat))

theorem isZero_iff {c : Coefficient} : c.isZero = true ↔ c.value = 0 := by
  have hzero : ∀ limb : BitVec 32, limb = 0 ↔ limb.toNat = 0 := fun limb => by
    rw [← BitVec.toNat_inj]
    rfl
  rw [isZero, decide_eq_true_iff, hzero, hzero, hzero, hzero, value]
  omega

theorem toNat_halves (high low : BitVec 32) :
    ((high.setWidth 64 <<< 32) ||| low.setWidth 64).toNat = high.toNat * 2 ^ 32 + low.toNat := by
  have hhigh := high.isLt
  have hlow := low.isLt
  rw [BitVec.toNat_or, BitVec.toNat_shiftLeft, BitVec.toNat_setWidth, BitVec.toNat_setWidth,
    Nat.mod_eq_of_lt (by omega : high.toNat < 2 ^ 64), Nat.mod_eq_of_lt (by omega : low.toNat < 2 ^ 64),
    Nat.mod_eq_of_lt (by rw [Nat.shiftLeft_eq]; omega), ← Nat.shiftLeft_add_eq_or_of_lt hlow, Nat.shiftLeft_eq]

theorem divStep_spec {r : BitVec 64} (hr : r.toNat < 10) (limb : BitVec 32) :
    r.toNat * 2 ^ 32 + limb.toNat = 10 * (divStep r limb).1.toNat + (divStep r limb).2.toNat ∧
      (divStep r limb).2.toNat < 10 := by
  have hlimb := limb.isLt
  have hv : ((r <<< 32) ||| limb.setWidth 64).toNat = r.toNat * 2 ^ 32 + limb.toNat := by
    rw [BitVec.toNat_or, BitVec.toNat_shiftLeft, BitVec.toNat_setWidth,
      Nat.mod_eq_of_lt (by omega : limb.toNat < 2 ^ 64), Nat.mod_eq_of_lt (by rw [Nat.shiftLeft_eq]; omega),
      ← Nat.shiftLeft_add_eq_or_of_lt hlimb, Nat.shiftLeft_eq]
  have hten : (10 : BitVec 64).toNat = 10 := rfl
  simp only [divStep, BitVec.toNat_setWidth, BitVec.toNat_udiv, BitVec.toNat_umod, hv, hten]
  omega

theorem divmod10_spec (c : Coefficient) :
    c.value = 10 * c.divmod10.1.value + c.divmod10.2.toNat ∧ c.divmod10.2.toNat < 10 := by
  have h3 := divStep_spec (r := 0) (by decide) c.limb3
  have h2 := divStep_spec h3.2 c.limb2
  have h1 := divStep_spec h2.2 c.limb1
  have h0 := divStep_spec h1.2 c.limb0
  simp only [divmod10, value, BitVec.toNat_setWidth]
  have hzero : (0 : BitVec 64).toNat = 0 := rfl
  rw [Nat.mod_eq_of_lt (by omega)]
  omega

theorem mulStep_spec {carry : BitVec 64} (hcarry : carry.toNat < 2 ^ 32) (limb : BitVec 32) :
    limb.toNat * 10 + carry.toNat = (mulStep carry limb).1.toNat + 2 ^ 32 * (mulStep carry limb).2.toNat ∧
      (mulStep carry limb).2.toNat < 2 ^ 32 := by
  have hlimb := limb.isLt
  have hv : (limb.setWidth 64 * 10 + carry).toNat = limb.toNat * 10 + carry.toNat := by
    have hten : (10 : BitVec 64).toNat = 10 := rfl
    rw [BitVec.toNat_add, BitVec.toNat_mul, BitVec.toNat_setWidth, hten]
    omega
  simp only [mulStep, BitVec.toNat_setWidth, BitVec.toNat_ushiftRight, hv, Nat.shiftRight_eq_div_pow]
  omega

/-- `mul10Add` multiplies by 10 and adds, as long as the limbs have room. -/
theorem value_mul10Add {c : Coefficient} {digit : BitVec 32} (h : c.value * 10 + digit.toNat < 2 ^ 128) :
    (c.mul10Add digit).value = c.value * 10 + digit.toNat := by
  have hdigit := digit.isLt
  have hcarry : (digit.setWidth 64).toNat = digit.toNat := by
    rw [BitVec.toNat_setWidth, Nat.mod_eq_of_lt (by omega)]
  have h0 := mulStep_spec (by rwa [hcarry]) c.limb0
  have h1 := mulStep_spec h0.2 c.limb1
  have h2 := mulStep_spec h1.2 c.limb2
  have h3 := mulStep_spec h2.2 c.limb3
  rw [hcarry] at h0
  simp only [mul10Add, value] at h ⊢
  omega

theorem value_fromHighLow (coeffHigh coeffLow : BitVec 64) :
    (fromHighLow coeffHigh coeffLow).value = coeffHigh.toNat * 2 ^ 64 + coeffLow.toNat := by
  have hhigh := coeffHigh.isLt
  have hlow := coeffLow.isLt
  simp only [fromHighLow, value, BitVec.toNat_setWidth, BitVec.toNat_ushiftRight, Nat.shiftRight_eq_div_pow]
  omega

theorem packHighLow_spec (c : Coefficient) :
    c.packHighLow.1.toNat = c.value / 2 ^ 64 ∧ c.packHighLow.2.toNat = c.value % 2 ^ 64 := by
  have h0 := c.limb0.isLt
  have h1 := c.limb1.isLt
  simp only [packHighLow, toNat_halves, value]
  omega

theorem digits_eq {fuel : ℕ} {c : Coefficient} (h : c.value < 10 ^ fuel) :
    c.digits fuel = (Nat.digits 10 c.value).map (digitChar false) := by
  induction fuel generalizing c with
  | zero =>
      have hzero : c.value = 0 := by omega
      rw [hzero]
      rfl
  | succ fuel ih =>
      obtain ⟨hvalue, hdigit⟩ := divmod10_spec c
      rw [digits]
      split_ifs with hzero
      · rw [isZero_iff.mp hzero]
        rfl
      · rw [isZero_iff] at hzero
        have hquotient : c.divmod10.1.value = c.value / 10 := by omega
        have hrest : c.divmod10.2.toNat = c.value % 10 := by omega
        have hchar : UInt8.ofNat ('0'.toNat + c.divmod10.2.toNat) = digitChar false (c.value % 10) := by
          rw [digitChar, if_pos (Nat.mod_lt _ (by decide)), hrest]
        have hlt : c.divmod10.1.value < 10 ^ fuel := by
          rw [hquotient]
          exact Nat.div_lt_of_lt_mul (by rwa [Nat.pow_succ'] at h)
        rw [Nat.digits_def' (by decide) (by omega), List.map_cons, ← hquotient, ← ih hlt, ← hchar]

theorem mantissa_eq {c : Coefficient} (h : c.value < 10 ^ 39) :
    (if c.isZero then ['0'.toUInt8] else (c.digits 39).reverse) = numeral 10 c.value 0 false := by
  have hplain : ¬((10 : ℕ) = 10 ∧ (0 : UInt8) ≠ 0) := fun h => h.2 rfl
  rw [numeral]
  rw [if_neg hplain, places]
  by_cases hzero : c.value = 0
  · rw [if_pos (isZero_iff.mpr hzero), if_pos hzero]
    rfl
  · rw [if_neg (by rwa [isZero_iff]), if_neg hzero, digits_eq h]

theorem isDigit_spec (ch : UInt8) : isDigit ch = isDigitOf 10 ch ∧ (isDigit ch = true →
    ((BitVec.ofNat 32 (ch.toNat - '0'.toNat)).toNat = Hex.digitValue ch ∧ Hex.digitValue ch < 10) ∧
      (ch.toNat : ℤ) - '0'.toNat = Hex.digitValue ch) := by
  revert ch
  apply Lib.forall_byte
  decide +kernel

theorem digit_value {ch : UInt8} (h : isDigit ch = true) :
    (BitVec.ofNat 32 (ch.toNat - '0'.toNat)).toNat = Hex.digitValue ch ∧ Hex.digitValue ch < 10 :=
  ((isDigit_spec ch).2 h).1

theorem value_foldl {ds : List UInt8} (hds : ∀ ch ∈ ds, isDigit ch = true) {k : ℕ} (hk : k + ds.length ≤ 34)
    {c : Coefficient} (hc : c.value < 10 ^ k) :
    (ds.foldl (fun c ch => c.mul10Add (BitVec.ofNat 32 (ch.toNat - '0'.toNat))) c).value =
      ds.foldl (fun acc ch => acc * 10 + Hex.digitValue ch) c.value := by
  induction ds generalizing k c with
  | nil => rfl
  | cons ch ds ih =>
      rw [List.forall_mem_cons] at hds
      rw [List.length_cons] at hk
      obtain ⟨hdigit, hten⟩ := digit_value hds.1
      have hpow : 10 ^ (k + 1) ≤ 10 ^ 34 := Nat.pow_le_pow_right (by decide) (by omega)
      have hlt : c.value * 10 + Hex.digitValue ch < 10 ^ (k + 1) := by
        rw [Nat.pow_succ]
        omega
      have hvalue : (c.mul10Add (BitVec.ofNat 32 (ch.toNat - '0'.toNat))).value =
          c.value * 10 + Hex.digitValue ch := by
        rw [← hdigit]
        exact value_mul10Add (by rw [hdigit]; omega)
      rw [List.foldl_cons, List.foldl_cons, ih hds.2 (k := k + 1) (by omega) (by rwa [hvalue]), hvalue]

end Coefficient

/-! ### The parts of a number -/

/-- The number with a sign, a coefficient and an exponent. -/
def ofParts (negative : Bool) (coefficient : ℕ) (exponent : ℤ) : Decimal128 :=
  ⟨BitVec.ofNat 64 coefficient,
    BitVec.ofNat 64
      ((if negative then 2 ^ 63 else 0) + (exponent + DECIMAL128_BIAS).toNat * 2 ^ 49 + coefficient / 2 ^ 64)⟩

/-- A coefficient and an exponent that a decimal number of 128 bits can have. -/
structure InRange (coefficient : ℕ) (exponent : ℤ) : Prop where
  coefficient_lt : coefficient < 10 ^ 34
  le_exponent : -6176 ≤ exponent
  exponent_le : exponent ≤ 6111

/-- A finite number whose coefficient is in the place for small coefficients. -/
def IsCanonical (d : Decimal128) : Prop :=
  ∃ negative coefficient exponent, InRange coefficient exponent ∧ d = ofParts negative coefficient exponent

theorem and_mask (n j k : ℕ) : n &&& ((2 ^ k - 1) * 2 ^ j) = n / 2 ^ j % 2 ^ k * 2 ^ j := by
  apply Nat.eq_of_testBit_eq
  intro i
  rw [Nat.testBit_and, Nat.testBit_mul_two_pow, Nat.testBit_mul_two_pow, Nat.testBit_mod_two_pow,
    Nat.testBit_div_two_pow, Nat.testBit_two_pow_sub_one]
  by_cases hi : j ≤ i
  · rw [Nat.sub_add_cancel hi]
    simp [hi, Bool.and_comm]
  · simp [hi]

section

variable {d : Decimal128}

theorem isNaN_iff : d.isNaN = true ↔ d._high.toNat / 2 ^ 58 % 2 ^ 5 = 31 := by
  have hmask : d._high.toNat &&& SPECIAL_MASK.toNat = d._high.toNat / 2 ^ 58 % 2 ^ 5 * 2 ^ 58 := and_mask _ 58 5
  have hvalue : NAN_VALUE.toNat = 31 * 2 ^ 58 := rfl
  rw [isNaN, decide_eq_true_iff, ← BitVec.toNat_inj, BitVec.toNat_and, hmask, hvalue]
  omega

theorem isInfinite_iff : d.isInfinite = true ↔ d._high.toNat / 2 ^ 58 % 2 ^ 5 = 30 := by
  have hmask : d._high.toNat &&& SPECIAL_MASK.toNat = d._high.toNat / 2 ^ 58 % 2 ^ 5 * 2 ^ 58 := and_mask _ 58 5
  have hvalue : INF_VALUE.toNat = 30 * 2 ^ 58 := rfl
  rw [isInfinite, decide_eq_true_iff, ← BitVec.toNat_inj, BitVec.toNat_and, hmask, hvalue]
  omega

theorem isNegative_iff : d.isNegative = true ↔ d._high.toNat / 2 ^ 63 % 2 ^ 1 = 1 := by
  have hmask : d._high.toNat &&& SIGN_MASK.toNat = d._high.toNat / 2 ^ 63 % 2 ^ 1 * 2 ^ 63 := and_mask _ 63 1
  have hvalue : (0 : BitVec 64).toNat = 0 := rfl
  rw [isNegative, decide_eq_true_iff, ne_eq, ← BitVec.toNat_inj, BitVec.toNat_and, hmask, hvalue]
  omega

theorem large_iff : d._high &&& LARGE_COEFF_MASK = LARGE_COEFF_VALUE ↔ d._high.toNat / 2 ^ 61 % 2 ^ 2 = 3 := by
  have hmask : d._high.toNat &&& LARGE_COEFF_MASK.toNat = d._high.toNat / 2 ^ 61 % 2 ^ 2 * 2 ^ 61 := and_mask _ 61 2
  have hvalue : LARGE_COEFF_VALUE.toNat = 3 * 2 ^ 61 := rfl
  rw [← BitVec.toNat_inj, BitVec.toNat_and, hmask, hvalue]
  omega

end

theorem toNat_high (negative : Bool) {c : ℕ} {e : ℤ} (hc : c < 10 ^ 34) (he : e ≤ 6144) :
    (ofParts negative c e)._high.toNat =
      (if negative then 2 ^ 63 else 0) + (e + 6176).toNat * 2 ^ 49 + c / 2 ^ 64 := by
  have hbias : DECIMAL128_BIAS = 6176 := rfl
  rw [ofParts, BitVec.toNat_ofNat, hbias, Nat.mod_eq_of_lt]
  split_ifs <;> omega

theorem pack_eq (negative : Bool) {coeff : Coefficient} (hc : coeff.value < 10 ^ 34) {e : ℤ} (hmin : -6176 ≤ e)
    (hmax : e ≤ 6144) : pack negative coeff e = ofParts negative coeff.value e := by
  obtain ⟨hhigh, hlow⟩ := coeff.packHighLow_spec
  have hbias : DECIMAL128_BIAS = 6176 := rfl
  have hbiased : (BitVec.ofInt 64 (e + DECIMAL128_BIAS) &&& 0x3FFF).toNat = (e + 6176).toNat := by
    have hmask : (BitVec.ofInt 64 (e + DECIMAL128_BIAS)).toNat &&& (0x3FFF : BitVec 64).toNat =
        (BitVec.ofInt 64 (e + DECIMAL128_BIAS)).toNat / 2 ^ 0 % 2 ^ 14 * 2 ^ 0 := and_mask _ 0 14
    rw [BitVec.toNat_and, hmask, BitVec.toNat_ofInt, hbias]
    omega
  have hcoeff : (coeff.packHighLow.1 &&& 0x0001FFFFFFFFFFFF).toNat = coeff.value / 2 ^ 64 := by
    have hmask : coeff.packHighLow.1.toNat &&& (0x0001FFFFFFFFFFFF : BitVec 64).toNat =
        coeff.packHighLow.1.toNat / 2 ^ 0 % 2 ^ 49 * 2 ^ 0 := and_mask _ 0 49
    rw [BitVec.toNat_and, hmask, hhigh]
    omega
  have hunsigned : ((BitVec.ofInt 64 (e + DECIMAL128_BIAS) &&& 0x3FFF) <<< 49 |||
      (coeff.packHighLow.1 &&& 0x0001FFFFFFFFFFFF)).toNat = (e + 6176).toNat * 2 ^ 49 + coeff.value / 2 ^ 64 := by
    rw [BitVec.toNat_or, BitVec.toNat_shiftLeft, hbiased, hcoeff, Nat.mod_eq_of_lt (by rw [Nat.shiftLeft_eq]; omega),
      ← Nat.shiftLeft_add_eq_or_of_lt (by omega), Nat.shiftLeft_eq]
  have hsign : SIGN_MASK.toNat = 1 <<< 63 := rfl
  simp only [pack]
  rw [Decimal128.mk.injEq]
  constructor
  · rw [← BitVec.toNat_inj, hlow, ofParts, BitVec.toNat_ofNat]
  · rw [← BitVec.toNat_inj, toNat_high negative hc hmax]
    cases negative
    · simpa using hunsigned
    · rw [if_pos rfl, if_pos rfl, BitVec.toNat_or, hunsigned, hsign, Nat.or_comm,
        ← Nat.shiftLeft_add_eq_or_of_lt (by omega), Nat.add_assoc]
      rfl

theorem toString_ofParts (negative : Bool) {c : ℕ} {e : ℤ} (h : InRange c e) :
    toString (ofParts negative c e) = format negative (numeral 10 c 0 false) e := by
  obtain ⟨hc, hmin, hmax⟩ := h
  have hhigh := toNat_high negative hc (by omega : e ≤ 6144)
  have hlow : (ofParts negative c e)._low.toNat = c % 2 ^ 64 := by
    rw [ofParts, BitVec.toNat_ofNat]
  have hnan : ¬(ofParts negative c e).isNaN = true := by
    rw [isNaN_iff, hhigh]
    split_ifs <;> omega
  have hinf : ¬(ofParts negative c e).isInfinite = true := by
    rw [isInfinite_iff, hhigh]
    split_ifs <;> omega
  have hlarge : ¬(ofParts negative c e)._high &&& LARGE_COEFF_MASK = LARGE_COEFF_VALUE := by
    rw [large_iff, hhigh]
    split_ifs <;> omega
  have hneg : (ofParts negative c e).isNegative = negative := by
    rw [Bool.eq_iff_iff, isNegative_iff, hhigh]
    cases negative <;> simp <;> omega
  have hbiased : (((ofParts negative c e)._high >>> 49) &&& 0x3FFF).toNat = (e + 6176).toNat := by
    have hmask : ((ofParts negative c e)._high.toNat / 2 ^ 49) &&& (0x3FFF : BitVec 64).toNat =
        (ofParts negative c e)._high.toNat / 2 ^ 49 / 2 ^ 0 % 2 ^ 14 * 2 ^ 0 := and_mask _ 0 14
    rw [BitVec.toNat_and, BitVec.toNat_ushiftRight, Nat.shiftRight_eq_div_pow, hmask, hhigh]
    split_ifs <;> omega
  have hvalue : (Coefficient.fromHighLow ((ofParts negative c e)._high &&& 0x0001FFFFFFFFFFFF)
      (ofParts negative c e)._low).value = c := by
    have hmask : (ofParts negative c e)._high.toNat &&& (0x0001FFFFFFFFFFFF : BitVec 64).toNat =
        (ofParts negative c e)._high.toNat / 2 ^ 0 % 2 ^ 49 * 2 ^ 0 := and_mask _ 0 49
    rw [Coefficient.value_fromHighLow, BitVec.toNat_and, hmask, hhigh, hlow]
    split_ifs <;> omega
  have hbias : DECIMAL128_BIAS = 6176 := rfl
  have hexponent : ((e + 6176).toNat : ℤ) - DECIMAL128_BIAS = e := by omega
  have hmantissa := Coefficient.mantissa_eq (c := Coefficient.fromHighLow
    ((ofParts negative c e)._high &&& 0x0001FFFFFFFFFFFF) (ofParts negative c e)._low) (by rw [hvalue]; omega)
  rw [hvalue] at hmantissa
  rw [toString, if_neg hnan, if_neg hinf]
  simp only [if_neg hlarge, hneg, hbiased, hexponent, hmantissa]

/-! ### Literals -/

/-- The text of a sign. -/
def signText : Option Bool → List UInt8
  | none => []
  | some negative => [if negative then '-'.toUInt8 else '+'.toUInt8]

/-- An exponent: its letter, its sign and its digits. -/
structure ExponentPart where
  letter : UInt8
  sign : Option Bool
  digits : List UInt8
  isLetter : letter = 'E'.toUInt8 ∨ letter = 'e'.toUInt8
  ne_nil : digits ≠ []
  isDigit : ∀ ch ∈ digits, isDigit ch = true

/-- A literal for a finite number: `integer-part [ "." fractional-part ] [ ("E"|"e") [+-]? exp-digits ]`. -/
structure Literal where
  sign : Option Bool
  integerPart : List UInt8
  fraction : Option (List UInt8)
  exponentPart : Option ExponentPart
  isDigit : ∀ ch ∈ integerPart ++ fraction.getD [], isDigit ch = true
  ne_nil : integerPart ++ fraction.getD [] ≠ []

namespace ExponentPart

/-- The text behind the letter. -/
def rest (p : ExponentPart) : List UInt8 := signText p.sign ++ p.digits

/-- The exponent that is written. -/
def value (p : ExponentPart) : ℤ := if p.sign.getD false then -(number 10 p.digits : ℤ) else number 10 p.digits

end ExponentPart

namespace Literal

/-- The text of the fraction, with its point. -/
def fractionText (L : Literal) : List UInt8 :=
  match L.fraction with
  | none => []
  | some digits => '.'.toUInt8 :: digits

/-- The text of the exponent, with its letter. -/
def exponentText (L : Literal) : List UInt8 :=
  match L.exponentPart with
  | none => []
  | some p => p.letter :: p.rest

/-- The text behind the sign. -/
def body (L : Literal) : List UInt8 := L.integerPart ++ L.fractionText ++ L.exponentText

/-- The text of a literal. -/
def text (L : Literal) : List UInt8 := signText L.sign ++ L.body

def isNegative (L : Literal) : Bool := L.sign.getD false

def digits (L : Literal) : List UInt8 := L.integerPart ++ L.fraction.getD []

/-- The exponent for the digits without a point. -/
def scale (L : Literal) : ℤ := (L.exponentPart.map ExponentPart.value).getD 0 - (L.fraction.getD []).length

theorem isDigit_digits (L : Literal) : ∀ ch ∈ L.digits, Decimal128.isDigit ch = true := L.isDigit

/-- The number that a literal stands for, without its sign. -/
def magnitude (L : Literal) : ℚ := number 10 L.digits * 10 ^ L.scale

end Literal

/-! ### What is written is a literal -/

theorem isDigit_iff (ch : UInt8) : isDigit ch = isDigitOf 10 ch := (Coefficient.isDigit_spec ch).1

theorem isDigit_numeral (n : ℕ) : ∀ ch ∈ numeral 10 n 0 false, isDigit ch = true := fun ch hch =>
  (isDigit_iff ch).trans (isDigitOf_numeral n ch hch)

theorem numeral_ne_nil (n : ℕ) : numeral 10 n 0 false ≠ [] := by
  obtain ⟨ch, hch, -⟩ := head?_numeral 0 (by decide : 1 < 10) (by decide) false n
  intro h
  rw [h] at hch
  cases hch

theorem number_numeral (n : ℕ) : number 10 (numeral 10 n 0 false) = n := by
  have hplain : ¬((10 : ℕ) = 10 ∧ (0 : UInt8) ≠ 0) := fun h => h.2 rfl
  have h : number 10 ((places 10 n).map (digitChar false)).reverse = n := number_places (by decide) (by decide) false n
  rw [numeral]
  rwa [if_neg hplain]

theorem exponent_text (adjusted : ℤ) : ∃ p : ExponentPart, p.value = adjusted ∧
    number 10 p.digits = adjusted.natAbs ∧ 'E'.toUInt8 :: ((if adjusted ≥ 0 then ['+'.toUInt8] else []) ++ to_string adjusted) =
      p.letter :: p.rest := by
  refine ⟨⟨'E'.toUInt8, some (decide (adjusted < 0)), numeral 10 adjusted.natAbs 0 false, Or.inl rfl,
    numeral_ne_nil _, isDigit_numeral _⟩, ?_, number_numeral _, ?_⟩
  · rw [ExponentPart.value, number_numeral, Option.getD_some]
    split_ifs with hneg <;> rw [decide_eq_true_iff] at hneg <;> omega
  · rw [ExponentPart.rest, signText, to_string]
    by_cases hneg : adjusted < 0
    · simp [hneg]
    · simp [hneg, Int.not_lt.mp hneg]

theorem format_text (negative : Bool) {m : List UInt8} (hm : ∀ ch ∈ m, isDigit ch = true) (hne : m ≠ [])
    (hlen : m.length ≤ 34) {e : ℤ} (hmin : -6176 ≤ e) (hmax : e ≤ 6111) :
    ∃ L : Literal, format negative m e = L.text ∧ L.isNegative = negative ∧ L.scale = e ∧
      (∃ k, L.digits = List.replicate k '0'.toUInt8 ++ m) ∧ (L.fraction.getD []).length ≤ 40 ∧
      ∀ p ∈ L.exponentPart, number 10 p.digits ≤ 10000 := by
  have hpos := List.length_pos_of_ne_nil hne
  obtain ⟨sign, htext, hsign⟩ : ∃ sign : Option Bool,
      (if negative then ['-'.toUInt8] else []) = signText sign ∧ sign.getD false = negative := by
    cases negative
    · exact ⟨none, rfl, rfl⟩
    · exact ⟨some true, rfl, rfl⟩
  have hzero : ∀ k, ∀ ch ∈ List.replicate k '0'.toUInt8 ++ m, isDigit ch = true := by
    intro k ch hch
    rcases List.mem_append.mp hch with hch | hch
    · rw [List.eq_of_mem_replicate hch]
      decide
    · exact hm ch hch
  simp only [format]
  rw [htext]
  by_cases hplain : e ≤ 0 ∧ e + m.length - 1 ≥ -6
  · rw [if_pos hplain]
    split_ifs with hnull hpoint
    · -- an integer
      exact ⟨⟨sign, m, none, none, by simpa using hm, by simpa using hne⟩,
        by simp [Literal.text, Literal.body, Literal.fractionText, Literal.exponentText], hsign,
        by simp [Literal.scale, hnull], ⟨0, by simp [Literal.digits]⟩, by simp, by simp⟩
    · -- zeros behind the point
      refine ⟨⟨sign, ['0'.toUInt8],
        some (List.replicate (-(m.length + e)).toNat '0'.toUInt8 ++ m), none, ?_, by simp⟩, ?_, hsign, ?_,
        ⟨(-(m.length + e)).toNat + 1, by simp [Literal.digits, List.replicate_succ]⟩, ?_, by simp⟩
      · simpa [List.replicate_succ] using hzero ((-(m.length + e)).toNat + 1)
      · simp [Literal.text, Literal.body, Literal.fractionText, Literal.exponentText]
      · simp [Literal.scale]
        omega
      · simp
        omega
    · -- a point among the digits
      refine ⟨⟨sign, m.take (m.length + e).toNat, some (m.drop (m.length + e).toNat),
        none, by simpa using hm, by simpa using hne⟩, ?_, hsign, ?_, ⟨0, by simp [Literal.digits]⟩, ?_, by simp⟩
      · simp [Literal.text, Literal.body, Literal.fractionText, Literal.exponentText]
      · simp [Literal.scale]
        omega
      · simp
        omega
  · obtain ⟨p, hvalue, hnumber, hexponent⟩ := exponent_text (e + m.length - 1)
    have hle : number 10 p.digits ≤ 10000 := by
      rw [hnumber]
      omega
    rw [if_neg hplain, List.append_assoc _ _ (to_string _), List.append_assoc _ ['E'.toUInt8], List.singleton_append,
      hexponent]
    split_ifs with hfraction
    · -- a digit, a fraction and an exponent
      have hsplit : m.take 1 ++ m.drop 1 = m := List.take_append_drop 1 m
      refine ⟨⟨sign, m.take 1, some (m.drop 1), some p, by rwa [Option.getD_some, hsplit],
        by rwa [Option.getD_some, hsplit]⟩, ?_, hsign, ?_, ⟨0, hsplit⟩, ?_, by simpa using hle⟩
      · simp [Literal.text, Literal.body, Literal.fractionText, Literal.exponentText]
      · simp [Literal.scale, hvalue]
        omega
      · simp
        omega
    · -- a digit and an exponent
      have hone : m.take 1 = m := List.take_of_length_le (by omega)
      refine ⟨⟨sign, m, none, some p, by simpa using hm, by simpa using hne⟩, ?_, hsign, ?_,
        ⟨0, by simp [Literal.digits]⟩, by simp, by simpa using hle⟩
      · simp [Literal.text, Literal.body, Literal.fractionText, Literal.exponentText, hone]
      · simp [Literal.scale, hvalue]
        omega

/-! ### What is read from a literal -/

theorem stripZeros_zeros (k : ℕ) {m : List UInt8} (hne : m ≠ []) :
    stripZeros (List.replicate k '0'.toUInt8 ++ m) = stripZeros m := by
  induction k with
  | zero => rfl
  | succ k ih =>
      obtain ⟨c, t, ht⟩ := List.exists_cons_of_ne_nil (List.append_ne_nil_of_right_ne_nil (List.replicate k '0'.toUInt8) hne)
      rw [← ih, List.replicate_succ, List.cons_append, ht, stripZeros, if_pos rfl]

theorem stripZeros_spec (ds : List UInt8) : ∃ k, ds = List.replicate k '0'.toUInt8 ++ stripZeros ds := by
  fun_induction stripZeros ds with
  | case1 d digits ih =>
      obtain ⟨k, hk⟩ := ih
      exact ⟨k + 1, by rw [List.replicate_succ, List.cons_append, ← hk]⟩
  | case2 c d digits h => exact ⟨0, rfl⟩
  | case3 digits h => exact ⟨0, rfl⟩

theorem value_stripZeros {ds : List UInt8} (hds : ∀ ch ∈ ds, isDigit ch = true) (hlen : (stripZeros ds).length ≤ 34) :
    ((stripZeros ds).foldl (fun coeff c => coeff.mul10Add (BitVec.ofNat 32 (c.toNat - '0'.toNat)))
      Coefficient.clear).value = number 10 ds ∧ number 10 ds < 10 ^ 34 := by
  obtain ⟨k, hk⟩ := stripZeros_spec ds
  have hdigits : ∀ ch ∈ stripZeros ds, isDigit ch = true := fun ch hch => hds ch (by
    rw [hk]
    exact List.mem_append_right _ hch)
  have hnumber : number 10 ds = number 10 (stripZeros ds) := by
    conv_lhs => rw [hk]
    exact number_zeros k _
  have hlt : ∀ t : List UInt8, (∀ ch ∈ t, isDigit ch = true) → number 10 t < 10 ^ t.length := by
    intro t ht
    induction t using List.reverseRecOn with
    | nil => decide
    | append_singleton t ch ih =>
        rw [List.forall_mem_append, List.forall_mem_singleton] at ht
        have hone : number 10 [ch] = Hex.digitValue ch := Nat.zero_add _
        have hten := (Coefficient.digit_value ht.2).2
        have ht' := ih ht.1
        rw [number_append, hone, List.length_append, List.length_singleton, Nat.pow_one, Nat.pow_succ]
        omega
  rw [hnumber]
  exact ⟨Coefficient.value_foldl hdigits (k := 0) (by omega) (by decide),
    lt_of_lt_of_le (hlt _ hdigits) (Nat.pow_le_pow_right (by decide) hlen)⟩

theorem ne_point {c : UInt8} (h : isDigit c = true) : c ≠ '.'.toUInt8 := by
  rintro rfl
  exact absurd h (by decide)

theorem scanDigits_integer (s acc : List UInt8) (saw : Bool) {ds : List UInt8}
    (hds : ∀ ch ∈ ds, isDigit ch = true) (rest : List UInt8) :
    scanDigits s ⟨acc, 0, saw, false⟩ (ds ++ rest) =
      scanDigits s ⟨acc ++ ds, 0, saw || !ds.isEmpty, false⟩ rest := by
  induction ds generalizing acc saw with
  | nil => simp
  | cons c ds ih =>
      rw [List.forall_mem_cons] at hds
      have hzero : toInt32 0 = .ok 0 := rfl
      rw [List.cons_append, scanDigits, if_neg (ne_point hds.1), if_pos hds.1]
      simp only [Bool.false_eq_true, if_false, hzero]
      rw [ih _ _ hds.2]
      simp

/-- Digits behind the point; more than 2^31 of them are too many. -/
theorem scanDigits_fraction (s acc : List UInt8) (saw : Bool) {ds : List UInt8}
    (hds : ∀ ch ∈ ds, isDigit ch = true) (rest : List UInt8) {i : ℤ} (hmin : -2 ^ 31 ≤ i) (hmax : i ≤ 0) :
    scanDigits s ⟨acc, i, saw, true⟩ (ds ++ rest) =
      if -2 ^ 31 ≤ i - ds.length then scanDigits s ⟨acc ++ ds, i - ds.length, saw || !ds.isEmpty, true⟩ rest
      else .error .undefined := by
  induction ds generalizing acc saw i with
  | nil =>
      have hroom : -2 ^ 31 ≤ i - (([] : List UInt8).length : ℤ) := by simpa using hmin
      rw [if_pos hroom]
      simp
  | cons c ds ih =>
      rw [List.forall_mem_cons] at hds
      have hsub : i - ((c :: ds).length : ℤ) = i - 1 - ds.length := by
        rw [List.length_cons]
        omega
      rw [List.cons_append, scanDigits, if_neg (ne_point hds.1), if_pos hds.1, toInt32, hsub]
      simp only [if_true]
      by_cases hroom : -2 ^ 31 ≤ i - 1
      · have hrange : -2 ^ 31 ≤ i - 1 ∧ i - 1 < 2 ^ 31 := by omega
        simp only [if_pos hrange]
        rw [ih _ _ hds.2 hroom (by omega)]
        simp
      · have hrange : ¬(-2 ^ 31 ≤ i - 1 ∧ i - 1 < 2 ^ 31) := fun h => hroom h.1
        have hlast : ¬-2 ^ 31 ≤ i - 1 - (ds.length : ℤ) := by omega
        simp only [if_neg hrange, if_neg hlast]

theorem scanDigits_exponent (s : List UInt8) (scan : Scan) (L : Literal) :
    scanDigits s scan L.exponentText = .ok (scan, L.exponentPart.map ExponentPart.rest) := by
  rw [Literal.exponentText]
  cases L.exponentPart with
  | none => rfl
  | some p =>
      rcases p.isLetter with h | h <;> simp only [h] <;> rfl

theorem scanDigits_body (s : List UInt8) (L : Literal) :
    scanDigits s {} L.body =
      if (L.fraction.getD []).length ≤ 2 ^ 31 then
        .ok (⟨L.digits, -(L.fraction.getD []).length, true, L.fraction.isSome⟩, L.exponentPart.map ExponentPart.rest)
      else .error .undefined := by
  obtain ⟨sign, integerPart, fraction, exponentPart, hdigits, hne⟩ := L
  have hexponent := fun scan => scanDigits_exponent s scan ⟨sign, integerPart, fraction, exponentPart, hdigits, hne⟩
  have hdigits' := List.forall_mem_append.mp hdigits
  rw [Literal.body, List.append_assoc, scanDigits_integer s [] false hdigits'.1]
  cases fraction with
  | none =>
      have hsaw : (false || !integerPart.isEmpty) = true := by simpa using hne
      have hnone : ∀ t, Literal.fractionText ⟨sign, integerPart, none, exponentPart, hdigits, hne⟩ ++ t = t := fun t => rfl
      rw [hsaw, hnone, hexponent]
      simp [Literal.digits]
  | some ds =>
      have hsaw : (false || !integerPart.isEmpty || !ds.isEmpty) = true := by simpa [or_iff_not_imp_left] using hne
      have hpoint : ∀ rest, scanDigits s ⟨[] ++ integerPart, 0, false || !integerPart.isEmpty, false⟩
          ('.'.toUInt8 :: rest) =
            scanDigits s ⟨[] ++ integerPart, 0, false || !integerPart.isEmpty, true⟩ rest := fun rest => rfl
      have hds : ∀ ch ∈ ds, isDigit ch = true := hdigits'.2
      rw [Literal.fractionText, List.cons_append, hpoint, scanDigits_fraction s _ _ hds _ (by decide) le_rfl, hsaw,
        Int.zero_sub]
      by_cases hroom : ds.length ≤ 2 ^ 31
      · rw [if_pos (by omega), hexponent, Option.getD_some, if_pos hroom]
        rfl
      · rw [if_neg (by omega), Option.getD_some, if_neg hroom]

theorem sub_zero_char {c : UInt8} (h : isDigit c = true) : (c.toNat : ℤ) - '0'.toNat = Hex.digitValue c :=
  ((Coefficient.isDigit_spec c).2 h).2

theorem le_foldl_digits (ds : List UInt8) (acc : ℕ) :
    acc ≤ ds.foldl (fun acc ch => acc * 10 + Hex.digitValue ch) acc := by
  induction ds generalizing acc with
  | nil => exact le_rfl
  | cons c ds ih => exact le_trans (by omega) (ih (acc * 10 + Hex.digitValue c))

theorem scanExponent_eq (s : List UInt8) {ds : List UInt8} (hds : ∀ ch ∈ ds, isDigit ch = true) {acc : ℕ}
    (hacc : acc ≤ 1000000000) :
    scanExponent s acc ds =
      if ds.foldl (fun acc ch => acc * 10 + Hex.digitValue ch) acc ≤ 1000000000 then
        .ok (ds.foldl (fun acc ch => acc * 10 + Hex.digitValue ch) acc : ℕ)
      else .error (.rangeException (message "exponent out of range" s)) := by
  induction ds generalizing acc with
  | nil => simp [scanExponent, hacc]
  | cons c ds ih =>
      rw [List.forall_mem_cons] at hds
      have hstep : (acc : ℤ) * 10 + ((c.toNat : ℤ) - '0'.toNat) = (acc * 10 + Hex.digitValue c : ℕ) := by
        rw [sub_zero_char hds.1]
        push_cast
        rfl
      have hle := le_foldl_digits ds (acc * 10 + Hex.digitValue c)
      rw [scanExponent, if_neg (not_not_intro hds.1), List.foldl_cons]
      simp only [hstep]
      by_cases hroom : acc * 10 + Hex.digitValue c ≤ 1000000000
      · rw [if_neg (by omega), ih hds.2 hroom]
      · rw [if_pos (by omega), if_neg (by omega)]

theorem sign_append (σ : Option Bool) {c : UInt8} (hplus : c ≠ '+'.toUInt8) (hminus : c ≠ '-'.toUInt8) (t : List UInt8) :
    Decimal128.sign (signText σ ++ c :: t) = (σ.getD false, c :: t) := by
  cases σ with
  | none =>
      have hneither : ¬(c = '+'.toUInt8 ∨ c = '-'.toUInt8) := not_or.mpr ⟨hplus, hminus⟩
      exact if_neg hneither
  | some negative =>
      cases negative
      · rfl
      · rfl

theorem not_sign {c : UInt8} (h : isDigit c = true) : c ≠ '+'.toUInt8 ∧ c ≠ '-'.toUInt8 := by
  constructor <;> rintro rfl <;> exact absurd h (by decide)

theorem explicitExponent_eq (s : List UInt8) (o : Option ExponentPart) :
    explicitExponent s (o.map ExponentPart.rest) =
      if ∀ p ∈ o, number 10 p.digits ≤ 1000000000 then .ok ((o.map ExponentPart.value).getD 0)
      else .error (.rangeException (message "exponent out of range" s)) := by
  cases o with
  | none => simp [explicitExponent]
  | some p =>
      obtain ⟨c, t, ht⟩ := List.exists_cons_of_ne_nil p.ne_nil
      have hc : isDigit c = true := p.isDigit c (by
        rw [ht]
        exact List.mem_cons_self)
      have hsign : Decimal128.sign p.rest = (p.sign.getD false, p.digits) := by
        rw [ExponentPart.rest, ht]
        exact sign_append p.sign (not_sign hc).1 (not_sign hc).2 t
      have hscan : scanExponent s 0 p.digits = if number 10 p.digits ≤ 1000000000 then .ok (number 10 p.digits : ℤ)
          else .error (.rangeException (message "exponent out of range" s)) :=
        scanExponent_eq s p.isDigit (Nat.zero_le _)
      rw [Option.map_some, explicitExponent]
      simp only [hsign, if_neg p.ne_nil, hscan]
      by_cases hroom : number 10 p.digits ≤ 1000000000
      · have hall : ∀ q ∈ some p, number 10 q.digits ≤ 1000000000 := by simpa using hroom
        rw [if_pos hroom, if_pos hall]
        rfl
      · have hall : ¬∀ q ∈ some p, number 10 q.digits ≤ 1000000000 := by simpa using hroom
        rw [if_neg hroom, if_neg hall]
        rfl

/-- What is behind the sign starts with a digit or with the point. -/
theorem body_head (L : Literal) : ∃ c t, L.body = c :: t ∧ (isDigit c = true ∨ c = '.'.toUInt8) := by
  obtain ⟨sign, integerPart, fraction, exponentPart, hdigits, hne⟩ := L
  cases integerPart with
  | cons c t => exact ⟨c, _, rfl, Or.inl (hdigits c List.mem_cons_self)⟩
  | nil =>
      cases fraction with
      | none => exact absurd rfl hne
      | some ds => exact ⟨'.'.toUInt8, _, rfl, Or.inr rfl⟩

theorem fromString_literal (L : Literal) : fromString L.text = fromLiteral L.text L.isNegative L.body := by
  obtain ⟨c, t, hbody, hc⟩ := body_head L
  have hchar : c ≠ '+'.toUInt8 ∧ c ≠ '-'.toUInt8 ∧ tolower c ≠ tolower 'n'.toUInt8 ∧ tolower c ≠ tolower 'i'.toUInt8 := by
    have hall : ∀ c : UInt8, isDigit c = true ∨ c = '.'.toUInt8 → c ≠ '+'.toUInt8 ∧ c ≠ '-'.toUInt8 ∧
        tolower c ≠ tolower 'n'.toUInt8 ∧ tolower c ≠ tolower 'i'.toUInt8 := by
      apply Lib.forall_byte
      decide +kernel
    exact hall c hc
  have hnan : matchKeyword (ascii "nan") (c :: t) = none := if_pos hchar.2.2.1
  have hinfinity : matchKeyword (ascii "infinity") (c :: t) = none := if_pos hchar.2.2.2
  have hinf : matchKeyword (ascii "inf") (c :: t) = none := if_pos hchar.2.2.2
  have hne : L.text ≠ [] := by
    rw [Literal.text, hbody]
    exact List.append_ne_nil_of_right_ne_nil _ (List.cons_ne_nil c t)
  have hsign : Decimal128.sign L.text = (L.isNegative, c :: t) := by
    rw [Literal.text, hbody]
    exact sign_append L.sign hchar.1 hchar.2.1 t
  rw [fromString, if_neg hne, hbody]
  simp only [hsign, if_neg (List.cons_ne_nil c t), hnan, hinfinity, hinf]
  rfl

theorem fromString_eq_ok {L : Literal} {d : Decimal128} :
    fromString L.text = .ok d ↔
      (L.fraction.getD []).length ≤ 2 ^ 31 ∧ (∀ p ∈ L.exponentPart, number 10 p.digits ≤ 1000000000) ∧
        (stripZeros L.digits).length ≤ 34 ∧ -6143 ≤ L.scale ∧ L.scale ≤ 6144 ∧
          d = ofParts L.isNegative (number 10 L.digits) L.scale := by
  have hscale : -((L.fraction.getD []).length : ℤ) + (L.exponentPart.map ExponentPart.value).getD 0 = L.scale := by
    rw [Literal.scale]
    omega
  have hmax : DECIMAL128_EXPONENT_MAX = 6144 := rfl
  have hmin : DECIMAL128_EXPONENT_MIN = -6143 := rfl
  have hlength : DECIMAL128_MAX_DIGITS = 34 := rfl
  rw [fromString_literal, fromLiteral, scanDigits_body]
  by_cases hfraction : (L.fraction.getD []).length ≤ 2 ^ 31
  · by_cases hexponent : ∀ p ∈ L.exponentPart, number 10 p.digits ≤ 1000000000
    · simp only [if_pos hfraction, explicitExponent_eq, if_pos hexponent, bind, Except.bind, hscale, hmax, hmin, hlength]
      by_cases hrange : -2 ^ 31 ≤ L.scale ∧ L.scale < 2 ^ 31
      · simp only [toInt32, if_pos hrange, not_true, if_false, throw, throwThe, MonadExceptOf.throw]
        by_cases hdigits : (stripZeros L.digits).length ≤ 34
        · rw [if_neg (by omega)]
          by_cases hbounds : L.scale > 6144 ∨ L.scale < -6143
          · rw [if_pos hbounds]
            exact iff_of_false (by simp) fun h => by omega
          · obtain ⟨hvalue, hlt⟩ := value_stripZeros L.isDigit_digits hdigits
            have hpack := pack_eq L.isNegative (by rwa [hvalue]) (by omega : -6176 ≤ L.scale) (by omega)
            rw [hvalue] at hpack
            rw [if_neg hbounds, hpack]
            constructor
            · intro h
              exact ⟨hfraction, hexponent, hdigits, by omega, by omega, (Except.ok.inj h).symm⟩
            · rintro ⟨-, -, -, -, -, rfl⟩
              rfl
        · rw [if_pos (by omega)]
          exact iff_of_false (by simp) fun h => hdigits h.2.2.1
      · simp only [toInt32, if_neg hrange]
        exact iff_of_false (by simp) fun h => by omega
    · simp only [if_pos hfraction, explicitExponent_eq, if_neg hexponent, bind, Except.bind]
      exact iff_of_false (by simp) fun h => hexponent h.2.1
  · simp only [if_neg hfraction, bind, Except.bind]
    exact iff_of_false (by simp) fun h => hfraction h.1

/-! ### Which texts are read -/

/-- The end of the digits: the end of the text or the letter of an exponent. -/
def IsEnd (tail : List UInt8) (rest : Option (List UInt8)) : Prop :=
  match rest with
  | none => tail = []
  | some rest => ∃ letter, (letter = 'E'.toUInt8 ∨ letter = 'e'.toUInt8) ∧ tail = letter :: rest

theorem of_scanDigits_fraction {s acc text : List UInt8} {i : ℤ} {saw : Bool} {scan : Scan} {rest : Option (List UInt8)}
    (h : scanDigits s ⟨acc, i, saw, true⟩ text = .ok (scan, rest)) :
    ∃ ds tail, text = ds ++ tail ∧ (∀ ch ∈ ds, isDigit ch = true) ∧ IsEnd tail rest ∧
      scan.sawDigit = (saw || !ds.isEmpty) := by
  induction text generalizing acc i saw with
  | nil =>
      obtain ⟨rfl, rfl⟩ := Prod.mk.inj (Except.ok.inj h)
      exact ⟨[], [], rfl, by simp, rfl, by simp⟩
  | cons c text ih =>
      rw [scanDigits] at h
      simp only [if_true] at h
      split_ifs at h with hpoint hdigit hletter
      · split at h
        · cases h
        · obtain ⟨ds, tail, rfl, hds, hend, hsaw⟩ := ih h
          exact ⟨c :: ds, tail, rfl, List.forall_mem_cons.mpr ⟨hdigit, hds⟩, hend, by simp [hsaw]⟩
      · obtain ⟨rfl, rfl⟩ := Prod.mk.inj (Except.ok.inj h)
        exact ⟨[], c :: text, rfl, by simp, ⟨c, hletter, rfl⟩, by simp⟩

theorem of_scanDigits_integer {s acc text : List UInt8} {i : ℤ} {saw : Bool} {scan : Scan} {rest : Option (List UInt8)}
    (h : scanDigits s ⟨acc, i, saw, false⟩ text = .ok (scan, rest)) :
    ∃ (ds : List UInt8) (fraction : Option (List UInt8)) (tail : List UInt8),
      text = ds ++ (match fraction with | none => [] | some fs => '.'.toUInt8 :: fs) ++ tail ∧
        (∀ ch ∈ ds ++ fraction.getD [], isDigit ch = true) ∧ IsEnd tail rest ∧
          scan.sawDigit = (saw || !(ds ++ fraction.getD []).isEmpty) := by
  induction text generalizing acc i saw with
  | nil =>
      obtain ⟨rfl, rfl⟩ := Prod.mk.inj (Except.ok.inj h)
      exact ⟨[], none, [], rfl, by simp, rfl, by simp⟩
  | cons c text ih =>
      rw [scanDigits] at h
      simp only [Bool.false_eq_true, if_false] at h
      split_ifs at h with hpoint hdigit hletter
      · obtain ⟨ds, tail, rfl, hds, hend, hsaw⟩ := of_scanDigits_fraction h
        exact ⟨[], some ds, tail, by simp [hpoint], by simpa using hds, hend, by simpa using hsaw⟩
      · split at h
        · cases h
        · obtain ⟨ds, fraction, tail, rfl, hds, hend, hsaw⟩ := ih h
          exact ⟨c :: ds, fraction, tail, rfl, List.forall_mem_cons.mpr ⟨hdigit, hds⟩, hend, by simp [hsaw]⟩
      · obtain ⟨rfl, rfl⟩ := Prod.mk.inj (Except.ok.inj h)
        exact ⟨[], none, c :: text, rfl, by simp, ⟨c, hletter, rfl⟩, by simp⟩

theorem of_scanExponent {s text : List UInt8} {acc v : ℤ} (h : scanExponent s acc text = .ok v) :
    ∀ ch ∈ text, isDigit ch = true := by
  induction text generalizing acc with
  | nil => simp
  | cons c text ih =>
      rw [scanExponent] at h
      by_cases hdigit : isDigit c = true
      · simp only [hdigit, not_true, if_false] at h
        split_ifs at h
        exact List.forall_mem_cons.mpr ⟨hdigit, ih h⟩
      · simp [hdigit] at h

theorem of_sign (text : List UInt8) : ∃ σ : Option Bool, text = signText σ ++ (Decimal128.sign text).2 := by
  cases text with
  | nil => exact ⟨none, rfl⟩
  | cons c text =>
      rw [Decimal128.sign]
      split_ifs with hsign
      · rcases hsign with rfl | rfl
        · exact ⟨some false, rfl⟩
        · exact ⟨some true, rfl⟩
      · exact ⟨none, rfl⟩

theorem of_explicitExponent {s tail : List UInt8} {rest : Option (List UInt8)} {v : ℤ} (hend : IsEnd tail rest)
    (h : explicitExponent s rest = .ok v) :
    ∃ p : Option ExponentPart, tail = match p with | none => [] | some p => p.letter :: p.rest := by
  cases rest with
  | none => exact ⟨none, hend⟩
  | some rest =>
      obtain ⟨letter, hletter, rfl⟩ := hend
      obtain ⟨σ, hσ⟩ := of_sign rest
      by_cases hnil : (Decimal128.sign rest).2 = []
      · simp [explicitExponent, hnil, bind, Except.bind, throw, throwThe, MonadExceptOf.throw] at h
      · cases hscan : scanExponent s 0 (Decimal128.sign rest).2 with
        | error e => simp [explicitExponent, hnil, hscan, bind, Except.bind] at h
        | ok acc =>
            exact ⟨some ⟨letter, σ, (Decimal128.sign rest).2, hletter, hnil, of_scanExponent hscan⟩, congrArg _ hσ⟩

/-- A text that is read as a finite number is a literal. -/
theorem exists_literal {s : List UInt8} {d : Decimal128} (h : fromString s = .ok d) (hnan : d.isNaN = false)
    (hinf : d.isInfinite = false) : ∃ L : Literal, s = L.text := by
  obtain ⟨σ, hσ⟩ := of_sign s
  have hliteral : fromLiteral s (Decimal128.sign s).1 (Decimal128.sign s).2 = .ok d := by
    have hkeywords : nan.isNaN = true ∧ (⟨nan._low, nan._high ||| SIGN_MASK⟩ : Decimal128).isNaN = true ∧
        positiveInfinity.isInfinite = true ∧ negativeInfinity.isInfinite = true := by decide
    rw [fromString] at h
    split at h
    · cases h
    dsimp only at h
    split at h
    · cases h
    split at h
    · split_ifs at h
      · rw [← Except.ok.inj h, hkeywords.2.1] at hnan
        cases hnan
      · rw [← Except.ok.inj h, hkeywords.1] at hnan
        cases hnan
    · split at h
      · split_ifs at h
        · rw [← Except.ok.inj h, hkeywords.2.2.2] at hinf
          cases hinf
        · rw [← Except.ok.inj h, hkeywords.2.2.1] at hinf
          cases hinf
      · exact h
  cases hscan : scanDigits s {} (Decimal128.sign s).2 with
  | error e => simp [fromLiteral, hscan, bind, Except.bind] at hliteral
  | ok result =>
      obtain ⟨scan, rest⟩ := result
      obtain ⟨ds, fraction, tail, htext, hds, hend, hsaw⟩ := of_scanDigits_integer hscan
      have hdigit : scan.sawDigit = true := by
        by_contra hno
        simp [fromLiteral, hscan, hno, bind, Except.bind, throw, throwThe, MonadExceptOf.throw] at hliteral
      cases hexponent : explicitExponent s rest with
      | error e => simp [fromLiteral, hscan, hdigit, hexponent, bind, Except.bind] at hliteral
      | ok v =>
          obtain ⟨p, rfl⟩ := of_explicitExponent hend hexponent
          rw [hdigit] at hsaw
          refine ⟨⟨σ, ds, fraction, p, hds, by simpa using hsaw⟩, ?_⟩
          rw [hσ, htext]
          rfl

/-! ### What is written and what is read -/

/-- The text of a number stands for the same number as a literal, with the same sign. -/
def Denotes (d : Decimal128) (L : Literal) : Prop :=
  ∃ L' : Literal, toString d = L'.text ∧ L'.isNegative = L.isNegative ∧ L'.magnitude = L.magnitude

/-- A canonical number is read back from its text if its exponent is not too small. -/
theorem fromString_toString (negative : Bool) {c : ℕ} {e : ℤ} (h : InRange c e) :
    fromString (toString (ofParts negative c e)) = .ok (ofParts negative c e) ↔ -6143 ≤ e := by
  have hne := numeral_ne_nil c
  have hlen : (numeral 10 c 0 false).length ≤ 34 := length_numeral_plain le_rfl (by decide) h.coefficient_lt
  obtain ⟨L, htext, hneg, hscale, ⟨k, hdigits⟩, hfraction, hexponent⟩ :=
    format_text negative (isDigit_numeral c) hne hlen h.le_exponent h.exponent_le
  have hnumber : number 10 L.digits = c := by rw [hdigits, number_zeros, number_numeral]
  have hstrip : (stripZeros L.digits).length ≤ 34 := by
    obtain ⟨j, hj⟩ := stripZeros_spec (numeral 10 c 0 false)
    have hle := congrArg List.length hj
    rw [List.length_append] at hle
    rw [hdigits, stripZeros_zeros k hne]
    omega
  have hmax := h.exponent_le
  rw [toString_ofParts negative h, htext, fromString_eq_ok, hneg, hscale, hnumber]
  constructor
  · exact fun h => h.2.2.2.1
  · exact fun h => ⟨by omega, fun p hp => le_trans (hexponent p hp) (by decide), hstrip, h, by omega, rfl⟩

/-- What is read is canonical, and its text stands for the same number, if the exponent is not too large. -/
theorem toString_fromString {L : Literal} {d : Decimal128} (h : fromString L.text = .ok d) :
    IsCanonical d ∧ Denotes d L ↔ L.scale ≤ 6111 := by
  obtain ⟨-, -, hstrip, hmin, hmax, rfl⟩ := fromString_eq_ok.mp h
  have hlt := (value_stripZeros L.isDigit_digits hstrip).2
  constructor
  · rintro ⟨⟨negative, c, e, hrange, heq⟩, -⟩
    have hhigh := congrArg (fun d => d._high.toNat) heq
    have hc := hrange.coefficient_lt
    have he := hrange.exponent_le
    simp only [toNat_high _ hlt hmax, toNat_high _ hc (by omega : e ≤ 6144)] at hhigh
    split_ifs at hhigh <;> omega
  · intro hle
    have hrange : InRange (number 10 L.digits) L.scale := ⟨hlt, by omega, hle⟩
    have hne := numeral_ne_nil (number 10 L.digits)
    have hlen : (numeral 10 (number 10 L.digits) 0 false).length ≤ 34 := length_numeral_plain le_rfl (by decide) hlt
    obtain ⟨L', htext, hneg, hscale, ⟨k, hdigits⟩, -⟩ :=
      format_text L.isNegative (isDigit_numeral (number 10 L.digits)) hne hlen hrange.le_exponent hle
    refine ⟨⟨_, _, _, hrange, rfl⟩, L', by rw [toString_ofParts _ hrange, htext], hneg, ?_⟩
    rw [Literal.magnitude, Literal.magnitude, hscale, hdigits, number_zeros, number_numeral]

/-- **Main result.** The text of a canonical number is read back from the exponent -6143 on, and a text that is
read as a finite number is a literal, whose number is kept up to the exponent 6111. -/
theorem faithful_iff {c : ℕ} {e : ℤ} (hrange : InRange c e) {s : List UInt8} {d : Decimal128}
    (hs : fromString s = .ok d) (hnan : d.isNaN = false) (hinf : d.isInfinite = false) (negative : Bool) :
    (fromString (toString (ofParts negative c e)) = .ok (ofParts negative c e) ↔ -6143 ≤ e) ∧
      (∃ L : Literal, s = L.text) ∧ ∀ L : Literal, s = L.text → (IsCanonical d ∧ Denotes d L ↔ L.scale ≤ 6111) := by
  refine ⟨fromString_toString negative hrange, exists_literal hs hnan hinf, ?_⟩
  rintro L rfl
  exact toString_fromString hs

/-- A negative number with a fraction. -/
theorem faithful_iff_fraction :
    (fromString (toString (ofParts true 12 (-1))) = .ok (ofParts true 12 (-1)) ↔ -6143 ≤ (-1 : ℤ)) ∧
      (∃ L : Literal, ascii "-1.2" = L.text) ∧
        ∀ L : Literal, ascii "-1.2" = L.text → (IsCanonical (ofParts true 12 (-1)) ∧ Denotes (ofParts true 12 (-1)) L ↔
          L.scale ≤ 6111) :=
  faithful_iff ⟨by decide, by decide, by decide⟩ (by decide) (by decide) (by decide) true

/-- The smallest exponent is written but not read, and a large exponent is read as the number zero. -/
theorem not_faithful_exponents :
    (InRange 1 (-6176) ∧ toString (ofParts false 1 (-6176)) = ascii "1E-6176" ∧
      fromString (ascii "1E-6176") =
        .error (.rangeException (ascii "Decimal128::fromString: exponent out of range in '1E-6176'"))) ∧
    fromString (ascii "1E+6112") = .ok ⟨1, 0x6000000000000000⟩ ∧
      toString ⟨1, 0x6000000000000000⟩ = ascii "0E-6176" :=
  ⟨⟨⟨by decide, by decide, by decide⟩, by decide, by decide⟩, by decide, by decide⟩

end Decimal128

end Poco.MongoDB
