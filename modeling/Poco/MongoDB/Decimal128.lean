import Poco.Foundation.IntToStr

/-! # Decimal numbers of 128 bits

`toString` writes a number with its coefficient and its exponent, with or without the letter `E`, and
`fromString` reads such a text.  The coefficient is kept in four limbs of 32 bits, the lowest one first.

An overflow of an `Int32` has no defined behaviour; it takes more than 2^30 digits behind the point. -/

namespace Poco.MongoDB

open Poco.Foundation NumericString

/-- The members of `Decimal128`. -/
structure Decimal128 where
  _low : BitVec 64
  _high : BitVec 64
deriving DecidableEq

namespace Decimal128

export Ascii (ascii isDigit toLower)

def DECIMAL128_BIAS : ℤ := 6176

def DECIMAL128_EXPONENT_MAX : ℤ := 6144

def DECIMAL128_EXPONENT_MIN : ℤ := -6143

def DECIMAL128_MAX_DIGITS : ℕ := 34

def SIGN_MASK : BitVec 64 := 0x8000000000000000

def SPECIAL_MASK : BitVec 64 := 0x7C00000000000000

def INF_VALUE : BitVec 64 := 0x7800000000000000

def NAN_VALUE : BitVec 64 := 0x7C00000000000000

def LARGE_COEFF_MASK : BitVec 64 := 0x6000000000000000

def LARGE_COEFF_VALUE : BitVec 64 := 0x6000000000000000

/-! ### Coefficients -/

/-- `Coefficient`: its limbs. -/
structure Coefficient where
  limb0 : BitVec 32
  limb1 : BitVec 32
  limb2 : BitVec 32
  limb3 : BitVec 32

namespace Coefficient

/-- `clear`. -/
def clear : Coefficient := ⟨0, 0, 0, 0⟩

/-- `fromHighLow`. -/
def fromHighLow (coeffHigh coeffLow : BitVec 64) : Coefficient :=
  ⟨coeffLow.setWidth 32, (coeffLow >>> 32).setWidth 32, coeffHigh.setWidth 32, (coeffHigh >>> 32).setWidth 32⟩

/-- `isZero`. -/
def isZero (c : Coefficient) : Bool := c.limb0 = 0 ∧ c.limb1 = 0 ∧ c.limb2 = 0 ∧ c.limb3 = 0

/-- A round of `divmod10`: the quotient and the rest. -/
def divStep (r : BitVec 64) (limb : BitVec 32) : BitVec 32 × BitVec 64 :=
  let v := (r <<< 32) ||| limb.setWidth 64
  ((v / 10).setWidth 32, v % 10)

/-- `divmod10`. -/
def divmod10 (c : Coefficient) : Coefficient × BitVec 32 :=
  let (limb3, r) := divStep 0 c.limb3
  let (limb2, r) := divStep r c.limb2
  let (limb1, r) := divStep r c.limb1
  let (limb0, r) := divStep r c.limb0
  (⟨limb0, limb1, limb2, limb3⟩, r.setWidth 32)

/-- A round of `mul10Add`: the limb and the carry. -/
def mulStep (carry : BitVec 64) (limb : BitVec 32) : BitVec 32 × BitVec 64 :=
  let v := limb.setWidth 64 * 10 + carry
  (v.setWidth 32, v >>> 32)

/-- `mul10Add`. -/
def mul10Add (c : Coefficient) (digit : BitVec 32) : Coefficient :=
  let (limb0, carry) := mulStep (digit.setWidth 64) c.limb0
  let (limb1, carry) := mulStep carry c.limb1
  let (limb2, carry) := mulStep carry c.limb2
  let (limb3, _) := mulStep carry c.limb3
  ⟨limb0, limb1, limb2, limb3⟩

/-- `packHighLow`: the high and the low half. -/
def packHighLow (c : Coefficient) : BitVec 64 × BitVec 64 :=
  ((c.limb3.setWidth 64 <<< 32) ||| c.limb2.setWidth 64, (c.limb1.setWidth 64 <<< 32) ||| c.limb0.setWidth 64)

/-- The loop of `toString` over the digits, the last one first; a coefficient has at most 39 of them. -/
def digits : ℕ → Coefficient → List UInt8
  | 0, _ => []
  | fuel + 1, c =>
    if c.isZero then []
    else
      let (c, digit) := c.divmod10
      UInt8.ofNat ('0'.toNat + digit.toNat) :: digits fuel c

end Coefficient

/-! ### Writing -/

/-- `isNaN`. -/
def isNaN (d : Decimal128) : Bool := d._high &&& SPECIAL_MASK = NAN_VALUE

/-- `isInfinite`. -/
def isInfinite (d : Decimal128) : Bool := d._high &&& SPECIAL_MASK = INF_VALUE

/-- `isNegative`. -/
def isNegative (d : Decimal128) : Bool := d._high &&& SIGN_MASK ≠ 0

/-- `nan()`. -/
def nan : Decimal128 := ⟨0, 0x7C00000000000000⟩

/-- `positiveInfinity()`. -/
def positiveInfinity : Decimal128 := ⟨0, 0x7800000000000000⟩

/-- `negativeInfinity()`. -/
def negativeInfinity : Decimal128 := ⟨0, 0xF800000000000000⟩

/-- `std::to_string` of an `int`. -/
def to_string (v : ℤ) : List UInt8 := (if v < 0 then ['-'.toUInt8] else []) ++ numeral 10 v.natAbs 0 false

/-- The part of `toString` that writes the digits and the exponent. -/
def format (negative : Bool) (mantissa : List UInt8) (exponent : ℤ) : List UInt8 :=
  let significantDigits : ℤ := mantissa.length
  let adjusted := exponent + significantDigits - 1
  let out := if negative then ['-'.toUInt8] else []
  if exponent ≤ 0 ∧ adjusted ≥ -6 then
    if exponent = 0 then out ++ mantissa
    else
      let integerDigits := significantDigits + exponent
      if integerDigits ≤ 0 then
        out ++ ['0'.toUInt8, '.'.toUInt8] ++ List.replicate (-integerDigits).toNat '0'.toUInt8 ++ mantissa
      else out ++ mantissa.take integerDigits.toNat ++ ['.'.toUInt8] ++ mantissa.drop integerDigits.toNat
  else
    out ++ mantissa.take 1 ++ (if significantDigits > 1 then '.'.toUInt8 :: mantissa.drop 1 else []) ++
      ['E'.toUInt8] ++ (if adjusted ≥ 0 then ['+'.toUInt8] else []) ++ to_string adjusted

/-- `toString`. -/
def toString (d : Decimal128) : List UInt8 :=
  if d.isNaN then ascii "NaN"
  else if d.isInfinite then if d.isNegative then ascii "-Infinity" else ascii "Infinity"
  else
    let large := d._high &&& LARGE_COEFF_MASK = LARGE_COEFF_VALUE
    let biasedExponent := if large then (d._high >>> 47) &&& 0x3FFF else (d._high >>> 49) &&& 0x3FFF
    let coeff := if large then Coefficient.clear
      else Coefficient.fromHighLow (d._high &&& 0x0001FFFFFFFFFFFF) d._low
    let exponent := biasedExponent.toNat - DECIMAL128_BIAS
    let mantissa := if coeff.isZero then ['0'.toUInt8] else (coeff.digits 39).reverse
    format d.isNegative mantissa exponent

/-! ### Reading -/

/-- How `fromString` can end without a number. -/
inductive Stop
  | syntaxException (message : List UInt8)
  | rangeException (message : List UInt8)
  /-- The behaviour is not defined. -/
  | undefined
deriving DecidableEq

/-- The message of an exception. -/
def message (what : String) (s : List UInt8) : List UInt8 :=
  ascii "Decimal128::fromString: " ++ ascii what ++ ascii " in '" ++ s ++ ascii "'"

/-- The result of an operation on an `Int32`. -/
def toInt32 (v : ℤ) : Except Stop ℤ := if -2 ^ 31 ≤ v ∧ v < 2 ^ 31 then .ok v else .error .undefined

/-- A sign in front of a text, and whether it is negative. -/
def sign : List UInt8 → Bool × List UInt8
  | [] => (false, [])
  | c :: rest => if c = '+'.toUInt8 ∨ c = '-'.toUInt8 then (c = '-'.toUInt8, rest) else (false, c :: rest)

/-- `std::tolower` in the C locale. -/
def tolower (c : UInt8) : UInt8 := toLower c

/-- `matchKeyword`: what is behind the keyword. -/
def matchKeyword : List UInt8 → List UInt8 → Option (List UInt8)
  | [], s => some s
  | _ :: _, [] => none
  | k :: kw, c :: s => if tolower c ≠ tolower k then none else matchKeyword kw s

/-- The variables of the loop over the digits. -/
structure Scan where
  digits : List UInt8 := []
  implicitExponent : ℤ := 0
  sawDigit : Bool := false
  sawDecimalPoint : Bool := false

/-- The loop over the digits of `s`; the second result is what is behind the letter of an exponent. -/
def scanDigits (s : List UInt8) : Scan → List UInt8 → Except Stop (Scan × Option (List UInt8))
  | scan, [] => .ok (scan, none)
  | scan, c :: rest =>
    if c = '.'.toUInt8 then
      if scan.sawDecimalPoint then .error (.syntaxException (message "multiple decimal points" s))
      else scanDigits s { scan with sawDecimalPoint := true } rest
    else if isDigit c then
      match toInt32 (if scan.sawDecimalPoint then scan.implicitExponent - 1 else scan.implicitExponent) with
      | .error e => .error e
      | .ok implicitExponent =>
        scanDigits s { scan with
          sawDigit := true, digits := scan.digits ++ [c], implicitExponent := implicitExponent } rest
    else if c = 'E'.toUInt8 ∨ c = 'e'.toUInt8 then .ok (scan, some rest)
    else .error (.syntaxException (message "invalid character" s))

/-- The loop over the digits of an exponent. -/
def scanExponent (s : List UInt8) (acc : ℤ) : List UInt8 → Except Stop ℤ
  | [] => .ok acc
  | c :: rest =>
    if ¬isDigit c then .error (.syntaxException (message "invalid exponent" s))
    else
      let acc := acc * 10 + (c.toNat - '0'.toNat)
      if acc > 1000000000 then .error (.rangeException (message "exponent out of range" s)) else scanExponent s acc rest

/-- The explicit exponent. -/
def explicitExponent (s : List UInt8) : Option (List UInt8) → Except Stop ℤ
  | none => .ok 0
  | some rest => do
    let (expNegative, rest) := sign rest
    if rest = [] then throw (.syntaxException (message "missing exponent digits" s))
    let acc ← scanExponent s 0 rest
    return if expNegative then -acc else acc

/-- Leading zeros are taken away, but not the last digit. -/
def stripZeros : List UInt8 → List UInt8
  | c :: d :: digits => if c = '0'.toUInt8 then stripZeros (d :: digits) else c :: d :: digits
  | digits => digits

/-- The bits of a number. -/
def pack (negative : Bool) (coeff : Coefficient) (exponent : ℤ) : Decimal128 :=
  let (coeffHigh, coeffLow) := coeff.packHighLow
  let biasedExponent := BitVec.ofInt 64 (exponent + DECIMAL128_BIAS) &&& 0x3FFF
  let high := (biasedExponent <<< 49) ||| (coeffHigh &&& 0x0001FFFFFFFFFFFF)
  ⟨coeffLow, if negative then high ||| SIGN_MASK else high⟩

/-- The part of `fromString` for a finite number. -/
def fromLiteral (s : List UInt8) (negative : Bool) (rest : List UInt8) : Except Stop Decimal128 := do
  let (scan, rest) ← scanDigits s {} rest
  if ¬scan.sawDigit then throw (.syntaxException (message "no digits" s))
  let explicitExponent ← explicitExponent s rest
  let exponent ← toInt32 (scan.implicitExponent + explicitExponent)
  let digits := stripZeros scan.digits
  if digits.length > DECIMAL128_MAX_DIGITS then throw (.rangeException (message "more than 34 significant digits" s))
  if exponent > DECIMAL128_EXPONENT_MAX ∨ exponent < DECIMAL128_EXPONENT_MIN then
    throw (.rangeException (message "exponent out of range" s))
  let coeff := digits.foldl (fun coeff c => coeff.mul10Add (BitVec.ofNat 32 (c.toNat - '0'.toNat))) Coefficient.clear
  return pack negative coeff exponent

/-- `fromString`. -/
def fromString (s : List UInt8) : Except Stop Decimal128 :=
  if s = [] then .error (.syntaxException (ascii "Decimal128::fromString: empty string"))
  else
    let (negative, rest) := sign s
    if rest = [] then .error (.syntaxException (message "missing digits" s))
    else
      match matchKeyword (ascii "nan") rest with
      | some junk =>
        if junk ≠ [] then .error (.syntaxException (message "trailing junk after NaN" s))
        else if negative then .ok ⟨nan._low, nan._high ||| SIGN_MASK⟩ else .ok nan
      | none =>
        match (matchKeyword (ascii "infinity") rest).or (matchKeyword (ascii "inf") rest) with
        | some junk =>
          if junk ≠ [] then .error (.syntaxException (message "trailing junk after Infinity" s))
          else if negative then .ok negativeInfinity else .ok positiveInfinity
        | none => fromLiteral s negative rest

end Decimal128

end Poco.MongoDB
