import Mathlib.Algebra.Order.Group.Unbundled.Int
import Mathlib.Data.Nat.Log
import Mathlib.Tactic.Ring

/-! # Integer conversions of `Poco::Dynamic::VarHolder`

A `VarHolderImpl<F>` converts its value to another integer type with one of four functions, which
compare the value with the limits of the target, cast to the type of the value, or with a cast
alone; `convertToFP` compares the number of binary digits with those of a floating-point type.

The limits are compared rightly for each pair of types (`exact_convertTo`).  Two things go wrong: a
`long` of 64 bits that is not `Int64` is cut to 32 bits, and a number with one digit too many is
not noticed by `convertToFP` (`conversions_iff`). -/

namespace Poco.Dynamic

/-- The integer types of fixed width. -/
inductive IntType
  | Int8 | Int16 | Int32 | Int64 | UInt8 | UInt16 | UInt32 | UInt64
deriving DecidableEq, Repr

namespace IntType

/-- The width of a type. -/
def bits : IntType → ℕ
  | Int8 | UInt8 => 8
  | Int16 | UInt16 => 16
  | Int32 | UInt32 => 32
  | Int64 | UInt64 => 64

/-- `std::is_signed_v`. -/
def isSigned : IntType → Bool
  | Int8 | Int16 | Int32 | Int64 => true
  | UInt8 | UInt16 | UInt32 | UInt64 => false

/-- `std::make_unsigned_t`. -/
def makeUnsigned : IntType → IntType
  | Int8 | UInt8 => UInt8
  | Int16 | UInt16 => UInt16
  | Int32 | UInt32 => UInt32
  | Int64 | UInt64 => UInt64

/-- `std::numeric_limits<T>::min()`. -/
def min (T : IntType) : ℤ := if T.isSigned then -2 ^ (T.bits - 1) else 0

/-- `std::numeric_limits<T>::max()`. -/
def max (T : IntType) : ℤ := if T.isSigned then 2 ^ (T.bits - 1) - 1 else 2 ^ T.bits - 1

/-- The values of a type. -/
def Holds (T : IntType) (v : ℤ) : Prop := T.min ≤ v ∧ v ≤ T.max

instance (T : IntType) (v : ℤ) : Decidable (T.Holds v) := inferInstanceAs (Decidable (_ ∧ _))

/-- `static_cast<T>`. -/
def cast (T : IntType) (v : ℤ) : ℤ := if T.isSigned then v.bmod (2 ^ T.bits) else v % 2 ^ T.bits

theorem cast_of_holds {T : IntType} {v : ℤ} (h : T.Holds v) : T.cast v = v := by
  cases T <;> simp [Holds, min, max, bits, isSigned] at h <;> simp [cast, bits, isSigned] <;>
    first
    | exact Int.emod_eq_of_lt h.1 (by omega)
    | exact Int.bmod_eq_of_le_mul_two (by omega) (by omega)

/-- The largest value of a type, seen as a value of an unsigned type: itself, or the largest one of that type. -/
theorem cast_max {U : IntType} (hU : U.isSigned = false) (T : IntType) :
    U.cast T.max = if T.max ≤ U.max then T.max else U.max := by
  cases U with
  | Int8 | Int16 | Int32 | Int64 => cases hU
  | UInt8 | UInt16 | UInt32 | UInt64 => cases T <;> decide

theorem int32_holds_cast (v : ℤ) : Int32.Holds (Int32.cast v) := by
  have hlow := @Int.le_bmod v (2 ^ 32) (by decide)
  have hhigh := @Int.bmod_lt v (2 ^ 32) (by decide)
  constructor
  · exact hlow
  · change v.bmod (2 ^ 32) ≤ 2 ^ 31 - 1
    omega

end IntType

/-- The exceptions of a conversion. -/
inductive Exn
  | rangeException (text : String)
  | badCastException (text : String)
deriving DecidableEq, Repr

namespace VarHolder

/-- `VarHolder::checkUpperLimit<F, T>`. -/
def checkUpperLimit (F T : IntType) (v : ℤ) : Except Exn Unit :=
  if F.cast T.max < v then throw (.rangeException "Value too big") else pure ()

/-- `VarHolder::checkLowerLimit<F, T>`. -/
def checkLowerLimit (F T : IntType) (v : ℤ) : Except Exn Unit :=
  if v < F.cast T.min then throw (.rangeException "Value too small") else pure ()

/-- `val = _val`, also with `static_cast<T>`. -/
def assign (T : IntType) (v : ℤ) : Except Exn ℤ := pure (T.cast v)

/-- `VarHolder::convertToSmaller<F, T>` of integers. -/
def convertToSmaller (F T : IntType) (v : ℤ) : Except Exn ℤ := do
  checkUpperLimit F T v
  checkLowerLimit F T v
  assign T v

/-- `VarHolder::convertToSmallerUnsigned<F, T>`. -/
def convertToSmallerUnsigned (F T : IntType) (v : ℤ) : Except Exn ℤ := do
  checkUpperLimit F T v
  assign T v

/-- `VarHolder::convertSignedToUnsigned<F, T>`. -/
def convertSignedToUnsigned (F T : IntType) (v : ℤ) : Except Exn ℤ :=
  if v < 0 then throw (.rangeException "Value too small")
  else do
    checkUpperLimit F.makeUnsigned T (F.makeUnsigned.cast v)
    assign T v

/-- `VarHolder::convertUnsignedToSigned<F, T>`. -/
def convertUnsignedToSigned (F T : IntType) (v : ℤ) : Except Exn ℤ := do
  checkUpperLimit F T v
  assign T v

/-! ### The conversions of each holder -/

/-- `VarHolderImpl<Int8>::convert`. -/
def convertInt8 (T : IntType) (v : ℤ) : Except Exn ℤ :=
  match T with
  | .Int8 | .Int16 | .Int32 | .Int64 => assign T v
  | .UInt8 | .UInt16 | .UInt32 | .UInt64 => convertSignedToUnsigned .Int8 T v

/-- `VarHolderImpl<Int16>::convert`. -/
def convertInt16 (T : IntType) (v : ℤ) : Except Exn ℤ :=
  match T with
  | .Int8 => convertToSmaller .Int16 T v
  | .Int16 | .Int32 | .Int64 => assign T v
  | .UInt8 | .UInt16 | .UInt32 | .UInt64 => convertSignedToUnsigned .Int16 T v

/-- `VarHolderImpl<Int32>::convert`. -/
def convertInt32 (T : IntType) (v : ℤ) : Except Exn ℤ :=
  match T with
  | .Int8 | .Int16 => convertToSmaller .Int32 T v
  | .Int32 | .Int64 => assign T v
  | .UInt8 | .UInt16 | .UInt32 | .UInt64 => convertSignedToUnsigned .Int32 T v

/-- `VarHolderImpl<Int64>::convert`, and that of `VarHolderImpl<long long>`. -/
def convertInt64 (T : IntType) (v : ℤ) : Except Exn ℤ :=
  match T with
  | .Int8 | .Int16 | .Int32 => convertToSmaller .Int64 T v
  | .Int64 => assign T v
  | .UInt8 | .UInt16 | .UInt32 | .UInt64 => convertSignedToUnsigned .Int64 T v

/-- `VarHolderImpl<UInt8>::convert`. -/
def convertUInt8 (T : IntType) (v : ℤ) : Except Exn ℤ :=
  match T with
  | .Int8 | .Int16 => convertUnsignedToSigned .UInt8 T v
  | .Int32 | .Int64 => assign T v
  | .UInt8 | .UInt16 | .UInt32 | .UInt64 => assign T v

/-- `VarHolderImpl<UInt16>::convert`. -/
def convertUInt16 (T : IntType) (v : ℤ) : Except Exn ℤ :=
  match T with
  | .Int8 | .Int16 | .Int32 => convertUnsignedToSigned .UInt16 T v
  | .Int64 => assign T v
  | .UInt8 => convertToSmallerUnsigned .UInt16 T v
  | .UInt16 | .UInt32 | .UInt64 => assign T v

/-- `VarHolderImpl<UInt32>::convert`. -/
def convertUInt32 (T : IntType) (v : ℤ) : Except Exn ℤ :=
  match T with
  | .Int8 | .Int16 | .Int32 | .Int64 => convertUnsignedToSigned .UInt32 T v
  | .UInt8 | .UInt16 => convertToSmallerUnsigned .UInt32 T v
  | .UInt32 | .UInt64 => assign T v

/-- `VarHolderImpl<UInt64>::convert`, and that of `VarHolderImpl<unsigned long long>`. -/
def convertUInt64 (T : IntType) (v : ℤ) : Except Exn ℤ :=
  match T with
  | .Int8 | .Int16 | .Int32 | .Int64 => convertUnsignedToSigned .UInt64 T v
  | .UInt8 | .UInt16 | .UInt32 => convertToSmallerUnsigned .UInt64 T v
  | .UInt64 => assign T v

/-- `VarHolderImpl<long>::convert`, where `long` is like `F`. -/
def convertLong (F T : IntType) (v : ℤ) : Except Exn ℤ :=
  match T with
  | .Int8 | .Int16 => convertToSmaller F T v
  | .Int32 | .Int64 => assign T v
  | .UInt8 | .UInt16 | .UInt32 | .UInt64 => convertSignedToUnsigned F T v

/-- `VarHolderImpl<unsigned long>::convert`, where `unsigned long` is like `F`. -/
def convertUnsignedLong (F T : IntType) (v : ℤ) : Except Exn ℤ :=
  match T with
  | .Int8 | .Int16 | .Int32 | .Int64 => convertUnsignedToSigned F T v
  | .UInt8 | .UInt16 | .UInt32 => convertToSmallerUnsigned F T v
  | .UInt64 => assign T v

/-- A platform: whether `long` has 64 bits (`POCO_LONG_IS_64_BIT`), and whether it is `Int64`
(`POCO_INT64_IS_LONG`). -/
structure Platform where
  longIs64Bit : Bool
  int64IsLong : Bool
  int64_le : int64IsLong = true → longIs64Bit = true

/-- The integer types that have a holder. -/
inductive CType
  | fixed (t : IntType)
  | long | unsignedLong | longLong | unsignedLongLong
deriving DecidableEq, Repr

/-- The width and the sign of a type. -/
def CType.like (p : Platform) : CType → IntType
  | fixed t => t
  | long => if p.longIs64Bit then .Int64 else .Int32
  | unsignedLong => if p.longIs64Bit then .UInt64 else .UInt32
  | longLong => .Int64
  | unsignedLongLong => .UInt64

/-- The types that are not another name for one of fixed width: either `long` or `long long` is `Int64`. -/
def CType.Distinct (p : Platform) : CType → Prop
  | fixed _ => True
  | long | unsignedLong => p.int64IsLong = false
  | longLong | unsignedLongLong => p.int64IsLong = true

/-- `VarHolderImpl<F>::convert` to a type of fixed width. -/
def convertTo (p : Platform) (F : CType) (T : IntType) (v : ℤ) : Except Exn ℤ :=
  match F with
  | .fixed .Int8 => convertInt8 T v
  | .fixed .Int16 => convertInt16 T v
  | .fixed .Int32 => convertInt32 T v
  | .fixed .Int64 | .longLong => convertInt64 T v
  | .fixed .UInt8 => convertUInt8 T v
  | .fixed .UInt16 => convertUInt16 T v
  | .fixed .UInt32 => convertUInt32 T v
  | .fixed .UInt64 | .unsignedLongLong => convertUInt64 T v
  | .long => convertLong (CType.long.like p) T v
  | .unsignedLong => convertUnsignedLong (CType.unsignedLong.like p) T v

/-- `VarHolderImpl<F>::convert(long long&)`. -/
def convertToLongLong (F : CType) (v : ℤ) : Except Exn ℤ :=
  match F with
  | .fixed .Int8 | .fixed .Int16 | .fixed .Int32 | .fixed .Int64 | .longLong => assign .Int64 v
  | .fixed .UInt8 | .fixed .UInt16 => assign .Int64 v
  | .fixed .UInt32 => convertUnsignedToSigned .UInt32 .Int64 v
  | .fixed .UInt64 | .unsignedLongLong => convertUnsignedToSigned .UInt64 .Int64 v
  | .long | .unsignedLong => throw (.badCastException "Can not convert to long long")

/-- `VarHolderImpl<F>::convert(unsigned long long&)`. -/
def convertToUnsignedLongLong (F : CType) (v : ℤ) : Except Exn ℤ :=
  match F with
  | .fixed .Int8 => convertSignedToUnsigned .Int8 .UInt64 v
  | .fixed .Int16 => convertSignedToUnsigned .Int16 .UInt64 v
  | .fixed .Int32 => convertSignedToUnsigned .Int32 .UInt64 v
  | .fixed .Int64 | .longLong => convertSignedToUnsigned .Int64 .UInt64 v
  | .fixed .UInt8 | .fixed .UInt16 | .fixed .UInt32 | .fixed .UInt64 | .unsignedLongLong => assign .UInt64 v
  | .long | .unsignedLong => throw (.badCastException "Can not convert to unsigned long long")

/-- `VarHolderImpl<F>::convert` to each integer type. -/
def convert (p : Platform) (F T : CType) (v : ℤ) : Except Exn ℤ :=
  match T with
  | .fixed T => convertTo p F T v
  -- `VarHolder::convert(long&)` and `VarHolder::convert(unsigned long&)` go through types of 32 bits
  | .long => convertTo p F .Int32 v
  | .unsignedLong => convertTo p F .UInt32 v
  | .longLong => convertToLongLong F v
  | .unsignedLongLong => convertToUnsignedLongLong F v

/-! ### The limits -/

/-- The value when the target has it, an exception when not. -/
structure Exact (T : IntType) (v : ℤ) (r : Except Exn ℤ) : Prop where
  converted : T.Holds v → r = .ok v
  thrown : ¬T.Holds v → ∃ text, r = .error (.rangeException text)

section Limits

variable {F T : IntType} {v : ℤ}

theorem checkUpperLimit_eq (h : F.cast T.max < v ↔ T.max < v) :
    checkUpperLimit F T v = if T.max < v then throw (.rangeException "Value too big") else pure () := by
  unfold checkUpperLimit
  simp only [h]

theorem exact_assign (h : F.Holds v) (hwithin : T.min ≤ F.min ∧ F.max ≤ T.max) : Exact T v (assign T v) := by
  have hT : T.Holds v := ⟨hwithin.1.trans h.1, h.2.trans hwithin.2⟩
  refine ⟨fun _ => ?_, fun hnot => absurd hT hnot⟩
  unfold assign
  rw [IntType.cast_of_holds hT]
  rfl

/-- After the check of the upper limit, when there is nothing below the lower one. -/
theorem exact_checkUpperLimit (hlimit : F.cast T.max < v ↔ T.max < v) (hmin : T.min ≤ v) :
    Exact T v (do checkUpperLimit F T v; assign T v) := by
  rw [checkUpperLimit_eq hlimit]
  constructor
  · intro hT
    rw [if_neg (not_lt.mpr hT.2)]
    exact (exact_assign hT ⟨le_rfl, le_rfl⟩).converted hT
  · intro hT
    have hbig : T.max < v := not_le.mp fun hle => hT ⟨hmin, hle⟩
    rw [if_pos hbig]
    exact ⟨_, rfl⟩

theorem exact_convertToSmaller (hmin : F.Holds T.min) (hmax : F.Holds T.max) :
    Exact T v (convertToSmaller F T v) := by
  have hlimit : F.cast T.max < v ↔ T.max < v := by rw [IntType.cast_of_holds hmax]
  unfold convertToSmaller checkLowerLimit
  rw [checkUpperLimit_eq hlimit, IntType.cast_of_holds hmin]
  by_cases hbig : T.max < v
  · rw [if_pos hbig]
    exact ⟨fun hT => absurd hT.2 (not_le.mpr hbig), fun _ => ⟨_, rfl⟩⟩
  · rw [if_neg hbig]
    by_cases hsmall : v < T.min
    · rw [if_pos hsmall]
      exact ⟨fun hT => absurd hT.1 (not_le.mpr hsmall), fun _ => ⟨_, rfl⟩⟩
    · rw [if_neg hsmall]
      exact @exact_assign T T v ⟨not_lt.mp hsmall, not_lt.mp hbig⟩ ⟨le_rfl, le_rfl⟩

/-- A limit that an unsigned type does not have is above all its values, and so is the cast limit. -/
theorem upperLimit_of_unsigned (hF : F.isSigned = false) (h : F.Holds v) :
    F.cast T.max < v ↔ T.max < v := by
  rw [IntType.cast_max hF]
  by_cases hle : T.max ≤ F.max
  · rw [if_pos hle]
  · rw [if_neg hle]
    have hv := h.2
    constructor <;> intro hlt <;> omega

theorem exact_convertToSmallerUnsigned (hF : F.isSigned = false) (hT : T.min ≤ 0) (h : F.Holds v) :
    Exact T v (convertToSmallerUnsigned F T v) := by
  have hpos : F.min = 0 := by
    unfold IntType.min
    rw [if_neg (by simp [hF])]
  exact exact_checkUpperLimit (upperLimit_of_unsigned hF h) (hT.trans (hpos ▸ h.1))

theorem exact_convertUnsignedToSigned (hF : F.isSigned = false) (hT : T.min ≤ 0) (h : F.Holds v) :
    Exact T v (convertUnsignedToSigned F T v) :=
  exact_convertToSmallerUnsigned hF hT h

theorem exact_convertSignedToUnsigned (hT : T.isSigned = false) (h : F.Holds v) :
    Exact T v (convertSignedToUnsigned F T v) := by
  have hmin : T.min = 0 := by
    unfold IntType.min
    rw [if_neg (by simp [hT])]
  unfold convertSignedToUnsigned
  by_cases hneg : v < 0
  · rw [if_pos hneg]
    exact ⟨fun hTv => absurd (hmin ▸ hTv.1) (not_le.mpr hneg), fun _ => ⟨_, rfl⟩⟩
  · have hmax : F.max ≤ F.makeUnsigned.max := by cases F <;> decide
    have hunsigned : F.makeUnsigned.isSigned = false := by cases F <;> rfl
    have hU : F.makeUnsigned.Holds v := by
      refine ⟨?_, h.2.trans hmax⟩
      unfold IntType.min
      rw [if_neg (by simp [hunsigned])]
      omega
    rw [if_neg hneg, IntType.cast_of_holds hU]
    exact exact_checkUpperLimit (upperLimit_of_unsigned hunsigned hU) (by omega)

end Limits

/-! ### Every pair of types -/

theorem exact_convertInt8 (T : IntType) {v : ℤ} (h : IntType.Int8.Holds v) : Exact T v (convertInt8 T v) := by
  cases T with
  | Int8 | Int16 | Int32 | Int64 => exact exact_assign h (by decide)
  | UInt8 | UInt16 | UInt32 | UInt64 => exact exact_convertSignedToUnsigned rfl h

theorem exact_convertInt16 (T : IntType) {v : ℤ} (h : IntType.Int16.Holds v) :
    Exact T v (convertInt16 T v) := by
  cases T with
  | Int8 => exact exact_convertToSmaller (by decide) (by decide)
  | Int16 | Int32 | Int64 => exact exact_assign h (by decide)
  | UInt8 | UInt16 | UInt32 | UInt64 => exact exact_convertSignedToUnsigned rfl h

theorem exact_convertInt32 (T : IntType) {v : ℤ} (h : IntType.Int32.Holds v) :
    Exact T v (convertInt32 T v) := by
  cases T with
  | Int8 | Int16 => exact exact_convertToSmaller (by decide) (by decide)
  | Int32 | Int64 => exact exact_assign h (by decide)
  | UInt8 | UInt16 | UInt32 | UInt64 => exact exact_convertSignedToUnsigned rfl h

theorem exact_convertInt64 (T : IntType) {v : ℤ} (h : IntType.Int64.Holds v) :
    Exact T v (convertInt64 T v) := by
  cases T with
  | Int8 | Int16 | Int32 => exact exact_convertToSmaller (by decide) (by decide)
  | Int64 => exact exact_assign h (by decide)
  | UInt8 | UInt16 | UInt32 | UInt64 => exact exact_convertSignedToUnsigned rfl h

theorem exact_convertUInt8 (T : IntType) {v : ℤ} (h : IntType.UInt8.Holds v) :
    Exact T v (convertUInt8 T v) := by
  cases T with
  | Int8 | Int16 => exact exact_convertUnsignedToSigned rfl (by decide) h
  | Int32 | Int64 | UInt8 | UInt16 | UInt32 | UInt64 => exact exact_assign h (by decide)

theorem exact_convertUInt16 (T : IntType) {v : ℤ} (h : IntType.UInt16.Holds v) :
    Exact T v (convertUInt16 T v) := by
  cases T with
  | Int8 | Int16 | Int32 => exact exact_convertUnsignedToSigned rfl (by decide) h
  | UInt8 => exact exact_convertToSmallerUnsigned rfl (by decide) h
  | Int64 | UInt16 | UInt32 | UInt64 => exact exact_assign h (by decide)

theorem exact_convertUInt32 (T : IntType) {v : ℤ} (h : IntType.UInt32.Holds v) :
    Exact T v (convertUInt32 T v) := by
  cases T with
  | Int8 | Int16 | Int32 | Int64 => exact exact_convertUnsignedToSigned rfl (by decide) h
  | UInt8 | UInt16 => exact exact_convertToSmallerUnsigned rfl (by decide) h
  | UInt32 | UInt64 => exact exact_assign h (by decide)

theorem exact_convertUInt64 (T : IntType) {v : ℤ} (h : IntType.UInt64.Holds v) :
    Exact T v (convertUInt64 T v) := by
  cases T with
  | Int8 | Int16 | Int32 | Int64 => exact exact_convertUnsignedToSigned rfl (by decide) h
  | UInt8 | UInt16 | UInt32 => exact exact_convertToSmallerUnsigned rfl (by decide) h
  | UInt64 => exact exact_assign h (by decide)

theorem exact_convertLong {F : IntType} (hF : F = .Int32 ∨ F = .Int64) (T : IntType) {v : ℤ} (h : F.Holds v)
    (hcut : F = .Int64 → T = .Int32 → IntType.Int32.Holds v) : Exact T v (convertLong F T v) := by
  rcases hF with rfl | rfl <;> cases T with
  | Int8 | Int16 => exact exact_convertToSmaller (by decide) (by decide)
  | Int32 => first | exact exact_assign (hcut rfl rfl) (by decide) | exact exact_assign h (by decide)
  | Int64 => exact exact_assign h (by decide)
  | UInt8 | UInt16 | UInt32 | UInt64 => exact exact_convertSignedToUnsigned rfl h

theorem exact_convertUnsignedLong {F : IntType} (hF : F = .UInt32 ∨ F = .UInt64) (T : IntType) {v : ℤ}
    (h : F.Holds v) : Exact T v (convertUnsignedLong F T v) := by
  rcases hF with rfl | rfl <;> cases T with
  | Int8 | Int16 | Int32 | Int64 => exact exact_convertUnsignedToSigned rfl (by decide) h
  | UInt8 | UInt16 | UInt32 => exact exact_convertToSmallerUnsigned rfl (by decide) h
  | UInt64 => exact exact_assign h (by decide)

section Convert

variable {p : Platform} {F T : CType} {v : ℤ}

theorem like_long (p : Platform) : CType.long.like p = .Int32 ∨ CType.long.like p = .Int64 := by
  cases hp : p.longIs64Bit with
  | true => exact .inr (by simp [CType.like, hp])
  | false => exact .inl (by simp [CType.like, hp])

theorem like_unsignedLong (p : Platform) :
    CType.unsignedLong.like p = .UInt32 ∨ CType.unsignedLong.like p = .UInt64 := by
  cases hp : p.longIs64Bit with
  | true => exact .inr (by simp [CType.like, hp])
  | false => exact .inl (by simp [CType.like, hp])

/-- To the types of fixed width, all is well but for a `long` of 64 bits. -/
theorem exact_convertTo (t : IntType) (h : (F.like p).Holds v)
    (hcut : F = .long → t = .Int32 → IntType.Int32.Holds v) : Exact t v (convertTo p F t v) := by
  cases F with
  | fixed f =>
      cases f with
      | Int8 => exact exact_convertInt8 t h
      | Int16 => exact exact_convertInt16 t h
      | Int32 => exact exact_convertInt32 t h
      | Int64 => exact exact_convertInt64 t h
      | UInt8 => exact exact_convertUInt8 t h
      | UInt16 => exact exact_convertUInt16 t h
      | UInt32 => exact exact_convertUInt32 t h
      | UInt64 => exact exact_convertUInt64 t h
  | long => exact exact_convertLong (like_long p) t h fun _ => hcut rfl
  | unsignedLong => exact exact_convertUnsignedLong (like_unsignedLong p) t h
  | longLong => exact exact_convertInt64 t h
  | unsignedLongLong => exact exact_convertUInt64 t h

theorem exact_convertToLongLong (hF : F.Distinct p) (hp : p.int64IsLong = true) (h : (F.like p).Holds v) :
    Exact .Int64 v (convertToLongLong F v) := by
  cases F with
  | fixed f =>
      cases f with
      | UInt32 | UInt64 => exact exact_convertUnsignedToSigned rfl (by decide) h
      | Int8 | Int16 | Int32 | Int64 | UInt8 | UInt16 => exact exact_assign h (by dsimp only [CType.like]; decide)
  | long | unsignedLong => exact absurd (hp.symm.trans hF) (by simp)
  | longLong => exact exact_assign h (by dsimp only [CType.like]; decide)
  | unsignedLongLong => exact exact_convertUnsignedToSigned rfl (by decide) h

theorem exact_convertToUnsignedLongLong (hF : F.Distinct p) (hp : p.int64IsLong = true)
    (h : (F.like p).Holds v) : Exact .UInt64 v (convertToUnsignedLongLong F v) := by
  cases F with
  | fixed f =>
      cases f with
      | Int8 | Int16 | Int32 | Int64 => exact exact_convertSignedToUnsigned rfl h
      | UInt8 | UInt16 | UInt32 | UInt64 => exact exact_assign h (by dsimp only [CType.like]; decide)
  | long | unsignedLong => exact absurd (hp.symm.trans hF) (by simp)
  | longLong => exact exact_convertSignedToUnsigned rfl h
  | unsignedLongLong => exact exact_assign h (by dsimp only [CType.like]; decide)

/-- A result for a type, seen as one for a wider type: it is right but for the values between the two. -/
theorem exact_wider_iff {S T : IntType} {r : Except Exn ℤ} (hwithin : T.min ≤ S.min ∧ S.max ≤ T.max)
    (h : Exact S v r) : Exact T v r ↔ ¬(T.Holds v ∧ ¬S.Holds v) := by
  constructor
  · rintro hT ⟨hv, hnot⟩
    obtain ⟨text, htext⟩ := h.thrown hnot
    rw [hT.converted hv] at htext
    cases htext
  · intro hnot
    by_cases hS : S.Holds v
    · have hv : T.Holds v := ⟨hwithin.1.trans hS.1, hS.2.trans hwithin.2⟩
      exact ⟨fun _ => h.converted hS, fun hn => absurd hv hn⟩
    · exact ⟨fun hv => absurd ⟨hv, hS⟩ hnot, fun _ => h.thrown hS⟩

/-- The values that are lost, or refused, where `long` has 64 bits and is not `Int64`. -/
def Cut (p : Platform) (F T : CType) (v : ℤ) : Prop :=
  p.longIs64Bit = true ∧
    ((F = .long ∧ T = .fixed .Int32 ∧ ¬IntType.Int32.Holds v) ∨
      (T = .long ∧ IntType.Int64.Holds v ∧ ¬IntType.Int32.Holds v) ∨
      (T = .unsignedLong ∧ IntType.UInt32.max < v))

theorem exact_convert_fixed_iff {t : IntType} (hF : F.Distinct p) (h : (F.like p).Holds v) :
    Exact t v (convertTo p F t v) ↔ ¬Cut p F (.fixed t) v := by
  by_cases hcut : Cut p F (.fixed t) v
  · refine ⟨fun hexact => ?_, fun hn => absurd hcut hn⟩
    obtain ⟨hp, ⟨rfl, ht, hv⟩ | ⟨ht, -⟩ | ⟨ht, -⟩⟩ := hcut
    · obtain rfl := CType.fixed.inj ht
      obtain ⟨text, htext⟩ := hexact.thrown hv
      cases htext
    · cases ht
    · cases ht
  · refine ⟨fun _ => hcut, fun _ => exact_convertTo t h ?_⟩
    rintro rfl rfl
    by_contra hv
    cases hp : p.longIs64Bit with
    | true => exact hcut ⟨hp, .inl ⟨rfl, rfl, hv⟩⟩
    | false =>
        rw [CType.like, hp] at h
        exact hv h

/-- The conversions to `long`, through a type of 32 bits. -/
theorem exact_convert_long_iff (h : (F.like p).Holds v) :
    Exact (CType.long.like p) v (convertTo p F .Int32 v) ↔ ¬Cut p F .long v := by
  have hcut : Cut p F .long v ↔ p.longIs64Bit = true ∧ IntType.Int64.Holds v ∧ ¬IntType.Int32.Holds v := by
    simp [Cut]
  rw [hcut]
  cases hp : p.longIs64Bit with
  | false =>
      have hlike : CType.long.like p = .Int32 := by simp [CType.like, hp]
      rw [hlike]
      refine ⟨fun _ hn => absurd hn.1 (by simp), fun _ => exact_convertTo _ h ?_⟩
      rintro rfl -
      rwa [hlike] at h
  | true =>
      have hlike : CType.long.like p = .Int64 := by simp [CType.like, hp]
      rw [hlike, and_iff_right rfl]
      by_cases hlong : F = .long ∧ ¬IntType.Int32.Holds v
      · -- the value is cut off to 32 bits
        obtain ⟨rfl, hv⟩ := hlong
        rw [hlike] at h
        refine ⟨fun hexact => ?_, fun hn => absurd ⟨h, hv⟩ hn⟩
        have heq : IntType.Int32.cast v = v := Except.ok.inj (hexact.converted h)
        exact absurd (heq ▸ IntType.int32_holds_cast v) hv
      · refine exact_wider_iff (by decide) (exact_convertTo _ h ?_)
        rintro rfl -
        by_contra hv
        exact hlong ⟨rfl, hv⟩

/-- The conversions to `unsigned long`, through a type of 32 bits. -/
theorem exact_convert_unsignedLong_iff (h : (F.like p).Holds v) :
    Exact (CType.unsignedLong.like p) v (convertTo p F .UInt32 v) ↔ ¬Cut p F .unsignedLong v := by
  have hcut : Cut p F .unsignedLong v ↔ p.longIs64Bit = true ∧ IntType.UInt32.max < v := by simp [Cut]
  have hexact : Exact .UInt32 v (convertTo p F .UInt32 v) := exact_convertTo _ h fun _ ht => by cases ht
  rw [hcut]
  cases hp : p.longIs64Bit with
  | false =>
      have hlike : CType.unsignedLong.like p = .UInt32 := by simp [CType.like, hp]
      rw [hlike]
      exact ⟨fun _ hn => absurd hn.1 (by simp), fun _ => hexact⟩
  | true =>
      have hlike : CType.unsignedLong.like p = .UInt64 := by simp [CType.like, hp]
      have hmax : v ≤ IntType.UInt64.max := by
        refine h.2.trans ?_
        cases F.like p <;> decide
      have hmin : IntType.UInt64.min = 0 ∧ IntType.UInt32.min = 0 ∧ 0 ≤ IntType.UInt32.max := by decide
      rw [hlike, and_iff_right rfl, exact_wider_iff (by decide) hexact]
      unfold IntType.Holds
      rw [hmin.1, hmin.2.1]
      constructor
      · intro hn hbig
        exact hn ⟨⟨by omega, hmax⟩, fun hv => absurd hv.2 (not_le.mpr hbig)⟩
      · rintro hn ⟨hv, hnot⟩
        exact hnot ⟨hv.1, not_lt.mp hn⟩

/-- **The integer conversions are exact** but for a `long` that has 64 bits and is not `Int64`. -/
theorem exact_convert_iff (hF : F.Distinct p) (hT : T.Distinct p) (h : (F.like p).Holds v) :
    Exact (T.like p) v (convert p F T v) ↔ ¬Cut p F T v := by
  cases T with
  | fixed t => exact exact_convert_fixed_iff hF h
  | long => exact exact_convert_long_iff h
  | unsignedLong => exact exact_convert_unsignedLong_iff h
  | longLong =>
      have hcut : ¬Cut p F .longLong v := by simp [Cut]
      exact ⟨fun _ => hcut, fun _ => exact_convertToLongLong hF hT h⟩
  | unsignedLongLong =>
      have hcut : ¬Cut p F .unsignedLongLong v := by simp [Cut]
      exact ⟨fun _ => hcut, fun _ => exact_convertToUnsignedLongLong hF hT h⟩

end Convert

/-! ### Conversions to floating point -/

/-- The binary floating-point types. -/
inductive FPType
  | float | double
deriving DecidableEq, Repr

/-- `VarHolder::numTypeDigits`, which is `std::numeric_limits<T>::digits`. -/
def FPType.digits : FPType → ℕ
  | float => 24
  | double => 53

/-- `static_cast<T>` of an integer: the nearest number of that many digits, the even one of two. -/
def FPType.cast (T : FPType) (v : ℤ) : ℤ :=
  let unit := 2 ^ (Nat.log 2 v.natAbs + 1 - T.digits)
  let q := v.natAbs / unit
  let r := v.natAbs % unit
  v.sign * ((if 2 * r < unit ∨ (2 * r = unit ∧ q % 2 = 0) then q else q + 1) * unit : ℕ)

/-- The loop of `numValDigits`. -/
def shifts (magnitude : ℕ) : ℕ :=
  if magnitude / 2 = 0 then 0 else shifts (magnitude / 2) + 1
termination_by magnitude
decreasing_by omega

/-- `VarHolder::numValDigits` of an integer. -/
def numValDigits (F : IntType) (v : ℤ) : ℕ :=
  if v = 0 then 0
  else
    let U := F.makeUnsigned
    let magnitude := if v < 0 then U.cast (0 - U.cast v) else U.cast v
    shifts magnitude.toNat

/-- `VarHolder::isPrecisionLost<F, T>`. -/
def isPrecisionLost (F : IntType) (T : FPType) (v : ℤ) : Bool := T.digits < numValDigits F v

/-- `VarHolder::convertToFP<F, T>`. -/
def convertToFP (F : IntType) (T : FPType) (v : ℤ) : Except Exn ℤ :=
  if isPrecisionLost F T v then throw (.rangeException "Lost precision") else pure (T.cast v)

/-- A number of `digits` significant binary digits. -/
def Representable (digits : ℕ) (v : ℤ) : Prop := ∃ m e : ℕ, m < 2 ^ digits ∧ v.natAbs = m * 2 ^ e

theorem shifts_eq (n : ℕ) : shifts n = Nat.log 2 n := by
  induction n using Nat.strong_induction_on with
  | _ n ih =>
      rw [shifts]
      by_cases hn : n / 2 = 0
      · rw [if_pos hn, Nat.log_of_lt (by omega)]
      · rw [if_neg hn, ih _ (by omega), Nat.log_div_base, Nat.sub_add_cancel]
        exact Nat.log_pos (by decide) (by omega)

/-- The digits of a value of the type, also of the smallest one. -/
theorem numValDigits_eq {F : IntType} {v : ℤ} (h : F.Holds v) : numValDigits F v = Nat.log 2 v.natAbs := by
  unfold numValDigits
  by_cases hzero : v = 0
  · rw [if_pos hzero, hzero]
    rfl
  · rw [if_neg hzero]
    dsimp only
    rw [shifts_eq]
    congr 1
    by_cases hneg : v < 0
    · rw [if_pos hneg]
      cases F <;>
        simp [IntType.Holds, IntType.min, IntType.max, IntType.bits, IntType.isSigned, IntType.makeUnsigned,
          IntType.cast] at h ⊢ <;> omega
    · rw [if_neg hneg]
      cases F <;>
        simp [IntType.Holds, IntType.min, IntType.max, IntType.bits, IntType.isSigned, IntType.makeUnsigned,
          IntType.cast] at h ⊢ <;> omega

/-- A number with one digit too many that is odd. -/
def OneTooMany (digits : ℕ) (v : ℤ) : Prop :=
  2 ^ digits < v.natAbs ∧ v.natAbs < 2 ^ (digits + 1) ∧ v.natAbs % 2 = 1

instance (digits : ℕ) (v : ℤ) : Decidable (OneTooMany digits v) := inferInstanceAs (Decidable (_ ∧ _))

/-- **The check of `convertToFP` misses the odd numbers with one digit too many**, and only these. -/
theorem convertToFP_iff {F : IntType} (T : FPType) {v : ℤ} (h : F.Holds v) :
    (∀ x, convertToFP F T v = .ok x → Representable T.digits v) ↔ ¬OneTooMany T.digits v := by
  have hdigits : 0 < T.digits := by cases T <;> decide
  have hlost : isPrecisionLost F T v = true ↔ 2 ^ (T.digits + 1) ≤ v.natAbs := by
    rw [isPrecisionLost, decide_eq_true_eq, numValDigits_eq h]
    constructor
    · intro hlt
      have hne : v.natAbs ≠ 0 := by
        intro hzero
        rw [hzero, Nat.log_zero_right] at hlt
        omega
      exact Nat.pow_le_of_le_log hne hlt
    · intro hle
      exact Nat.le_log_of_pow_le (by decide) hle
  have hpow : 2 ^ (T.digits + 1) = 2 ^ T.digits * 2 := pow_succ 2 _
  unfold convertToFP
  constructor
  · rintro hall ⟨hlow, hhigh, hodd⟩
    have hkept : ¬isPrecisionLost F T v = true := fun hn => absurd (hlost.mp hn) (not_le.mpr hhigh)
    rw [if_neg hkept] at hall
    obtain ⟨m, e, hm, habs⟩ := hall _ rfl
    cases e with
    | zero => omega
    | succ e =>
        rw [habs, pow_succ, ← mul_assoc] at hodd
        omega
  · intro hnot x hx
    have hkept : ¬isPrecisionLost F T v = true := by
      intro hl
      rw [if_pos hl] at hx
      cases hx
    have hhigh : v.natAbs < 2 ^ (T.digits + 1) := not_le.mp fun hle => hkept (hlost.mpr hle)
    by_cases hlow : v.natAbs < 2 ^ T.digits
    · exact ⟨v.natAbs, 0, hlow, by simp⟩
    · -- an even number loses nothing
      have heven : v.natAbs % 2 = 0 := by
        by_contra hodd
        obtain ⟨k, hk⟩ := Nat.exists_eq_succ_of_ne_zero hdigits.ne'
        have hpow' : 2 ^ T.digits = 2 ^ k * 2 := by rw [hk, Nat.succ_eq_add_one, pow_succ]
        exact hnot ⟨by omega, hhigh, by omega⟩
      exact ⟨v.natAbs / 2, 1, by omega, by omega⟩

/-- **What the conversions do not notice**: a `long` of 64 bits that is cut to 32 bits, or refused, where it
is not `Int64`, and an odd number with one binary digit more than the floating-point type has. -/
theorem conversions_iff (p : Platform) (F T : CType) (S : IntType) (R : FPType) (v : ℤ) :
    (F.Distinct p → T.Distinct p → (F.like p).Holds v →
      (Exact (T.like p) v (convert p F T v) ↔ ¬Cut p F T v)) ∧
    (S.Holds v →
      ((∀ x, convertToFP S R v = .ok x → Representable R.digits v) ↔ ¬OneTooMany R.digits v)) :=
  ⟨fun hF hT h => exact_convert_iff hF hT h, fun h => convertToFP_iff R h⟩

/-- A system where `long` is `Int64`. -/
def lp64 : Platform := ⟨true, true, fun _ => rfl⟩

/-- A system where `long` has 64 bits and `Int64` is `long long`. -/
def lp64LongLong : Platform := ⟨true, false, fun h => by cases h⟩

theorem conversions_iff_limits :
    Exact .Int8 (-129) (convert lp64 (.fixed .Int16) (.fixed .Int8) (-129)) ∧
      ∀ x, convertToFP .Int32 .float 16777216 = .ok x → Representable 24 16777216 := by
  refine ⟨((conversions_iff lp64 (.fixed .Int16) (.fixed .Int8) .Int16 .float (-129)).1 trivial trivial
      (by decide)).mpr ?_,
    ((conversions_iff lp64 .long .long .Int32 .float 16777216).2 (by decide)).mpr (by decide)⟩
  simp [Cut]

/-- `2 ^ 24 + 1` becomes `2 ^ 24` in a `float`, and a `long` of 33 bits becomes `0`. -/
theorem not_conversions_exact :
    (convertToFP .Int32 .float 16777217 = .ok 16777216 ∧ ¬Representable 24 16777217) ∧
      convert lp64LongLong .long (.fixed .Int32) 4294967296 = .ok 0 := by
  have hlog : Nat.log 2 16777217 = 24 := (Nat.log_eq_iff (by decide)).mpr (by decide)
  have hholds : IntType.Int32.Holds 16777217 := by decide
  have hlost : isPrecisionLost .Int32 .float 16777217 = false := by
    rw [isPrecisionLost, numValDigits_eq hholds]
    simp [hlog, FPType.digits]
  refine ⟨⟨?_, ?_⟩, by decide⟩
  · rw [convertToFP, if_neg (by rw [hlost]; simp), FPType.cast]
    simp [hlog, FPType.digits]
    rfl
  · rintro ⟨m, e, hm, habs⟩
    change 16777217 = _ at habs
    cases e with
    | zero => omega
    | succ e =>
        rw [pow_succ, ← mul_assoc] at habs
        omega

end VarHolder

end Poco.Dynamic
