import Poco.Foundation.IntToStr

/-! # `NumberFormatter` and `NumberParser`

`NumberFormatter` puts the decimal or hexadecimal digits of an integer behind a text, and
`NumberParser::parse64` takes a number from a text.  A number of 64 bits that `formatAs` writes is read
back by `parse64` (`parse64_formatAs`). -/

namespace Poco.Foundation

open Poco.Lib NumericString

/-- `NumberFormatter::NF_MAX_INT_STRING_LEN`. -/
def NF_MAX_INT_STRING_LEN : ℕ := 32

/-- `int`. -/
def intType : IntegerType := ⟨32, true, by decide⟩

/-- `unsigned int`. -/
def unsignedType : IntegerType := ⟨32, false, by decide⟩

/-- `Int64`. -/
def int64Type : IntegerType := ⟨64, true, by decide⟩

/-- `UInt64`, which is also `std::size_t`. -/
def uint64Type : IntegerType := ⟨64, false, by decide⟩

/-- What `NumberFormatter` appends: the text of `intToStr`, if there is one. -/
def appended (T : IntegerType) (value : ℤ) (base : ℕ) : List UInt8 :=
  match intToStrBuffer T value base NF_MAX_INT_STRING_LEN false (-1) ' '.toUInt8 0 false with
  | .ok (some result) => result
  | _ => []

/-- `NumberFormatter::append(str, value)`. -/
def NumberFormatter.append (str : List UInt8) (value : ℤ) : List UInt8 := str ++ appended intType value 10

/-- `NumberFormatter::appendHex(str, value)`. -/
def NumberFormatter.appendHex (str : List UInt8) (value : ℤ) : List UInt8 :=
  str ++ appended unsignedType (value % 2 ^ 32) 16

/-- `NumberFormatter::format(value)` for an integer type. -/
def NumberFormatter.formatAs (T : IntegerType) (value : ℤ) : List UInt8 := appended T value 10

/-- `NumberParser::parse64(s)`; a text that is not a number is a `SyntaxException`. -/
def NumberParser.parse64 (s : List UInt8) : Option ℤ := strToInt int64Type s 10 ','.toUInt8

/-! ### What is appended -/

/-- The numeral of a small number has room in the buffer. -/
theorem length_numeral_plain {n base k : ℕ} (hbase : 10 ≤ base) (hk : 0 < k) (hn : n < 10 ^ k) :
    (numeral base n 0 false).length ≤ k := by
  have hlt : n < base ^ k := lt_of_lt_of_le hn (Nat.pow_le_pow_left hbase k)
  have hplain : ¬(base = 10 ∧ (0 : UInt8) ≠ 0) := fun h => h.2 rfl
  rw [numeral, List.length_reverse]
  rw [if_neg hplain, List.length_map]
  exact length_places_le (by omega) hk hlt

/-- What is appended for a number is its sign and its numeral. -/
theorem appended_eq {T : IntegerType} {v : ℤ} (hv : T.min ≤ v ∧ v ≤ T.max) {base : ℕ}
    (hbase : base = 10 ∨ base = 16) :
    appended T v base = (if v < 0 then ['-'.toUInt8] else []) ++ numeral base v.natAbs 0 false := by
  have hlen : (numeral base v.natAbs 0 false).length ≤ 20 :=
    length_numeral_plain (by omega) (by decide) (lt_trans (natAbs_lt_64 hv) (by decide))
  have hmax : NF_MAX_INT_STRING_LEN = 32 := rfl
  rw [appended, intToStrBuffer_eq hv (by omega) (by omega) _ _ _ (by omega)]
  dsimp only
  rw [paddedNumeral, if_neg (by decide)]
  have hpad : (-1 - (((if v < 0 then ['-'.toUInt8] else []).length : ℤ) +
      ((numeral base v.natAbs 0 false).length : ℤ))).toNat = 0 := by omega
  rw [hpad]
  rfl

theorem appended_natCast {T : IntegerType} {n base : ℕ} (hn : (n : ℤ) ≤ T.max) (hbase : base = 10 ∨ base = 16) :
    appended T n base = numeral base n 0 false := by
  have hmin : T.min ≤ (n : ℤ) := by
    unfold IntegerType.min
    split_ifs
    · exact le_trans (by rw [Int.neg_nonpos_iff]; positivity) (Int.natCast_nonneg n)
    · exact Int.natCast_nonneg n
  rw [appended_eq ⟨hmin, hn⟩ hbase, if_neg (by omega), Int.natAbs_natCast]
  rfl

/-! ### Numbers are read back -/

theorem isDigitOf_numeral (n : ℕ) : ∀ ch ∈ numeral 10 n 0 false, isDigitOf 10 ch = true := by
  have hplain : ¬((10 : ℕ) = 10 ∧ (0 : UInt8) ≠ 0) := fun h => h.2 rfl
  intro ch hch
  rw [numeral, List.mem_reverse] at hch
  rw [if_neg hplain] at hch
  exact isDigitOf_places (by decide) (by decide) false n ch hch

theorem formatAs_chars {T : IntegerType} {v : ℤ} (hv : T.min ≤ v ∧ v ≤ T.max) :
    ∀ ch ∈ NumberFormatter.formatAs T v, ch = '-'.toUInt8 ∨ isDigitOf 10 ch = true := by
  intro ch hch
  rw [NumberFormatter.formatAs, appended_eq hv (Or.inl rfl), List.mem_append] at hch
  rcases hch with hsign | hdigit
  · split_ifs at hsign
    · exact Or.inl (List.mem_singleton.mp hsign)
    · cases hsign
  · exact Or.inr (isDigitOf_numeral _ ch hdigit)

/-- Digits are read as the number that they stand for, with a sign. -/
theorem parse64_digits {v : ℤ} (h64 : int64Type.min ≤ v ∧ v ≤ int64Type.max) {ds : List UInt8} (hne : ds ≠ [])
    (hds : ∀ ch ∈ ds, isDigitOf 10 ch = true) (hlen : ds.length ≤ 20) (hnumber : number 10 ds = v.natAbs) :
    NumberParser.parse64 ((if v < 0 then ['-'.toUInt8] else []) ++ ds) = some v := by
  have hhead : ∃ ch ∈ ds.head?, isDigitOf 10 ch = true := by
    obtain ⟨d, t, rfl⟩ := List.exists_cons_of_ne_nil hne
    exact ⟨d, rfl, hds d List.mem_cons_self⟩
  have hsign := length_sign_le v
  have hsep : isDigitOf 10 ','.toUInt8 = false := by decide
  have hstrip : strip 10 ','.toUInt8 ds = ds := by
    have h : strip 10 ','.toUInt8 (ds ++ []) = ds ++ strip 10 ','.toUInt8 [] := strip_digits (fun _ => hsep) hds []
    have hnil : strip 10 ','.toUInt8 [] = [] := rfl
    rwa [List.append_nil, hnil, List.append_nil] at h
  rw [NumberParser.parse64, strToInt, dropWhile_sign hhead]
  refine strToIntRange_eq h64 (fun _ => rfl) (fun _ => ⟨hsep, by decide⟩) ?_ hhead ?_ ?_
  · rw [List.length_append]
    omega
  · rwa [hstrip]
  · rw [hstrip, hnumber]

theorem numeral_ten (n : ℕ) : numeral 10 n 0 false = ((places 10 n).map (digitChar false)).reverse := by
  have hplain : ¬((10 : ℕ) = 10 ∧ (0 : UInt8) ≠ 0) := fun h => h.2 rfl
  rw [numeral, if_neg hplain]

theorem number_numeral_ten (n : ℕ) : number 10 (numeral 10 n 0 false) = n := by
  rw [numeral_ten]
  exact number_places (by decide) (by decide) false n

theorem length_numeral_64 {T : IntegerType} {v : ℤ} (hv : T.min ≤ v ∧ v ≤ T.max) :
    (numeral 10 v.natAbs 0 false).length ≤ 20 :=
  length_numeral_plain le_rfl (by decide) (lt_trans (natAbs_lt_64 hv) (by decide))

/-- **Main result.** `parse64` reads back what `formatAs` writes. -/
theorem parse64_formatAs {T : IntegerType} {v : ℤ} (hv : T.min ≤ v ∧ v ≤ T.max)
    (h64 : int64Type.min ≤ v ∧ v ≤ int64Type.max) :
    NumberParser.parse64 (NumberFormatter.formatAs T v) = some v := by
  have hne : numeral 10 v.natAbs 0 false ≠ [] := by
    obtain ⟨ch, hch, -⟩ := @head?_numeral 10 0 (by decide) (by decide) false v.natAbs
    rintro hnil
    rw [hnil] at hch
    cases hch
  rw [NumberFormatter.formatAs, appended_eq hv (Or.inl rfl)]
  exact parse64_digits h64 hne (isDigitOf_numeral _) (length_numeral_64 hv) (number_numeral_ten _)

/-! ### The beginning of a number -/

/-- The first digit of a positive number is not a zero. -/
theorem number_take_pos {n j : ℕ} (hn : 0 < n) (hj : 0 < j) : 0 < number 10 ((numeral 10 n 0 false).take j) := by
  have hplaces : places 10 n = Nat.digits 10 n := if_neg hn.ne'
  have hne : Nat.digits 10 n ≠ [] := Nat.digits_ne_nil_iff_ne_zero.mpr hn.ne'
  have hlast : 0 < (Nat.digits 10 n).getLast hne := Nat.pos_of_ne_zero (Nat.getLast_digit_ne_zero 10 hn.ne')
  have hlt : (Nat.digits 10 n).getLast hne < 10 := Nat.digits_lt_base (by decide) (List.getLast_mem hne)
  obtain ⟨i, rfl⟩ := Nat.exists_eq_add_of_lt hj
  have hcons : numeral 10 n 0 false = digitChar false ((Nat.digits 10 n).getLast hne) ::
      ((Nat.digits 10 n).dropLast.map (digitChar false)).reverse := by
    rw [numeral_ten, hplaces]
    conv_lhs => rw [← List.dropLast_append_getLast hne]
    rw [List.map_append, List.reverse_append]
    rfl
  have hdigit := (digitValue_digitChar false _ (lt_of_lt_of_le hlt (by decide))).1
  rw [hcons, Nat.zero_add, List.take_succ_cons, ← List.singleton_append, number_append]
  have hone : number 10 [digitChar false ((Nat.digits 10 n).getLast hne)] = (Nat.digits 10 n).getLast hne := by
    show 0 * 10 + Hex.digitValue _ = _
    rw [Nat.zero_mul, Nat.zero_add, hdigit]
  rw [hone]
  exact Nat.add_pos_left (Nat.mul_pos hlast (Nat.pow_pos (by decide))) _

theorem number_take_le (s : List UInt8) (j : ℕ) : number 10 (s.take j) ≤ number 10 s := by
  have h := @number_append 10 (s.take j) (s.drop j)
  rw [List.take_append_drop] at h
  rw [h]
  exact le_trans (Nat.le_mul_of_pos_right _ (Nat.pow_pos (by decide))) (Nat.le_add_right _ _)

/-- The beginning of a number, behind its sign, is a number with the same sign. -/
theorem parse64_take_formatAs {T : IntegerType} {v : ℤ} (hv : T.min ≤ v ∧ v ≤ T.max)
    (h64 : int64Type.min ≤ v ∧ v ≤ int64Type.max) {j : ℕ} (hj : (if v < 0 then 1 else 0) < j) :
    ∃ w, NumberParser.parse64 ((NumberFormatter.formatAs T v).take j) = some w ∧
      (int64Type.min ≤ w ∧ w ≤ int64Type.max) ∧ (0 ≤ v → 0 ≤ w ∧ w ≤ v) ∧ (0 < v → 0 < w) := by
  have hlow : int64Type.min = -2 ^ 63 := rfl
  have hhigh : int64Type.max = 2 ^ 63 - 1 := rfl
  have hchars := isDigitOf_numeral v.natAbs
  have hlen := length_numeral_64 hv
  have hle := number_take_le (numeral 10 v.natAbs 0 false) (j - if v < 0 then 1 else 0)
  rw [number_numeral_ten] at hle
  have hpos : v ≠ 0 → 0 < number 10 ((numeral 10 v.natAbs 0 false).take (j - if v < 0 then 1 else 0)) :=
    fun h => number_take_pos (by omega) (by omega)
  have hne : (numeral 10 v.natAbs 0 false).take (j - if v < 0 then 1 else 0) ≠ [] := by
    rw [ne_eq, List.take_eq_nil_iff, not_or]
    refine ⟨by omega, fun hnil => ?_⟩
    obtain ⟨ch, hch, -⟩ := @head?_numeral 10 0 (by decide) (by decide) false v.natAbs
    rw [hnil] at hch
    cases hch
  have htake : (NumberFormatter.formatAs T v).take j = (if v < 0 then ['-'.toUInt8] else []) ++
      (numeral 10 v.natAbs 0 false).take (j - if v < 0 then 1 else 0) := by
    rw [NumberFormatter.formatAs, appended_eq hv (Or.inl rfl), List.take_append]
    split_ifs at hj ⊢ with hneg
    · rw [List.take_of_length_le (show ['-'.toUInt8].length ≤ j from hj.le)]
      rfl
    · rw [List.take_nil]
      rfl
  have hdigits : ∀ ch ∈ (numeral 10 v.natAbs 0 false).take (j - if v < 0 then 1 else 0), isDigitOf 10 ch = true :=
    fun ch h => hchars ch (List.mem_of_mem_take h)
  have hshort : ((numeral 10 v.natAbs 0 false).take (j - if v < 0 then 1 else 0)).length ≤ 20 :=
    (List.length_take_le' _ _).trans hlen
  generalize (numeral 10 v.natAbs 0 false).take (j - if v < 0 then 1 else 0) = ds at *
  rw [htake]
  by_cases hneg : v < 0
  · have hw : -(number 10 ds : ℤ) < 0 := by
      have := hpos hneg.ne
      omega
    have hread := parse64_digits (v := -(number 10 ds : ℤ)) (by omega) hne hdigits hshort (by omega)
    rw [if_pos hw] at hread
    rw [if_pos hneg]
    exact ⟨_, hread, by omega, by omega, by omega⟩
  · have hw : ¬(number 10 ds : ℤ) < 0 := by omega
    have hread := parse64_digits (v := (number 10 ds : ℤ)) (by omega) hne hdigits hshort (by omega)
    rw [if_neg hw] at hread
    rw [if_neg hneg]
    exact ⟨_, hread, by omega, by omega, fun h => by have := hpos h.ne'; omega⟩

end Poco.Foundation
