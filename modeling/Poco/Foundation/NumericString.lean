import Poco.Lib.Bytes
import Poco.Foundation.Ascii

/-! # Hexadecimal numbers

`intToStr` and `strToInt` for base 16, as `NumberFormatter::formatHex`, `NumberFormatter::appendHex` and
`NumberParser::tryParseHex` use them.  A 32-bit number is read back from its digits, whatever their
case and however many zeros are in front of them (`tryParseHex_intToStr`). -/

namespace Poco.Foundation

open Poco.Lib

namespace Hex

-- `std::isspace` is `Ascii::isSpace` in the C locale
export Ascii (isSpace isHexDigit)

/-! ### From numbers to digits -/

/-- `Impl::kDigitsUpper`. -/
def kDigitsUpper : List UInt8 := "0123456789ABCDEF".toList.map Char.toUInt8

/-- `Impl::kDigitsLower`. -/
def kDigitsLower : List UInt8 := "0123456789abcdef".toList.map Char.toUInt8

/-- The digits of `intToStr`, the last one first; a number of at most 64 bits has at most 16. -/
def digitLoop (digits : List UInt8) : ℕ → ℕ → List UInt8
  | 0, _ => []
  | fuel + 1, uval =>
      digits.getD (uval % 16) 0 :: if uval / 16 = 0 then [] else digitLoop digits fuel (uval / 16)

/-- `intToStr` of an unsigned number for base 16, filled with zeros, without a prefix. -/
def intToStr (value width : ℕ) (lowercase : Bool) : List UInt8 :=
  let result := digitLoop (if lowercase then kDigitsLower else kDigitsUpper) 16 value
  (result ++ List.replicate (width - result.length) '0'.toUInt8).reverse

/-- `NumberFormatter::formatHex`. -/
def formatHex (value width : ℕ) : List UInt8 := intToStr value width false

/-- `NumberFormatter::appendHex`, without a width. -/
def appendHex (str : List UInt8) (value : ℕ) : List UInt8 := str ++ intToStr value 0 false

/-! ### From digits to numbers -/

/-- The value of a hexadecimal digit. -/
def digitValue (ch : UInt8) : ℕ :=
  if ch ≤ '9'.toUInt8 then ch.toNat - '0'.toNat
  else if ch ≤ 'F'.toUInt8 then ch.toNat - 'A'.toNat + 10
  else ch.toNat - 'a'.toNat + 10

/-- The number that digits stand for. -/
def hexNumber (s : List UInt8) : ℕ := s.foldl (fun acc ch => acc * 16 + digitValue ch) 0

/-- `strToInt` for base 16 and a 32-bit unsigned number; `std::from_chars` must take all characters. -/
def strToInt (s : List UInt8) : Option ℕ :=
  if s = [] ∨ s.head? = some '-'.toUInt8 then none
  else
    let start := if s.head? = some '+'.toUInt8 then s.tail else s
    if start ≠ [] ∧ start.all isHexDigit ∧ hexNumber start < 2 ^ 32 then some (hexNumber start)
    else none

/-- `NumberParser::tryParseHex`. -/
def tryParseHex (s : List UInt8) : Option ℕ :=
  let rest := s.dropWhile isSpace
  if rest.length > 2 ∧ rest[0]? = some '0'.toUInt8 ∧
      (rest[1]? = some 'x'.toUInt8 ∨ rest[1]? = some 'X'.toUInt8) then
    strToInt (rest.drop 2)
  else strToInt rest

/-! ### Numbers are read back -/

section

variable {digits : List UInt8} {fuel v : ℕ}

/-- The digits of one of the two tables. -/
def IsTable (digits : List UInt8) : Prop :=
  ∀ n < 16, isHexDigit (digits.getD n 0) = true ∧ digitValue (digits.getD n 0) = n

theorem isTable_digits (lowercase : Bool) : IsTable (if lowercase then kDigitsLower else kDigitsUpper) := by
  cases lowercase
  · unfold IsTable
    decide
  · unfold IsTable
    decide

theorem isHexDigit_digitLoop (h : IsTable digits) :
    ∀ ch ∈ digitLoop digits fuel v, isHexDigit ch = true := by
  induction fuel generalizing v with
  | zero => simp [digitLoop]
  | succ fuel ih =>
      rw [digitLoop, List.forall_mem_cons]
      refine ⟨(h _ (Nat.mod_lt _ (by norm_num))).1, ?_⟩
      split_ifs
      · simp
      · exact ih

theorem digitLoop_ne_nil : digitLoop digits (fuel + 1) v ≠ [] := by simp [digitLoop]

theorem length_digitLoop {n : ℕ} (h : v < 16 ^ (n + 1)) : (digitLoop digits fuel v).length ≤ n + 1 := by
  induction fuel generalizing v n with
  | zero => simp [digitLoop]
  | succ fuel ih =>
      rw [digitLoop, List.length_cons]
      split_ifs with hzero
      · simp
      · cases n with
        | zero => omega
        | succ n =>
            have hdiv : v / 16 < 16 ^ (n + 1) := by
              rw [pow_succ] at h
              omega
            exact Nat.succ_le_succ (ih hdiv)

theorem hexNumber_snoc (s : List UInt8) (ch : UInt8) :
    hexNumber (s ++ [ch]) = hexNumber s * 16 + digitValue ch := by
  simp [hexNumber, List.foldl_append]

theorem hexNumber_digitLoop (h : IsTable digits) (hv : v < 16 ^ fuel) :
    hexNumber (digitLoop digits fuel v).reverse = v := by
  induction fuel generalizing v with
  | zero =>
      obtain rfl : v = 0 := by simpa using hv
      rfl
  | succ fuel ih =>
      have hdigit := (h (v % 16) (Nat.mod_lt _ (by norm_num))).2
      have hdiv : v / 16 < 16 ^ fuel := by
        rw [pow_succ] at hv
        omega
      rw [digitLoop, List.reverse_cons, hexNumber_snoc, hdigit]
      split_ifs with hzero
      · rw [List.reverse_nil]
        have hnil : hexNumber [] = 0 := rfl
        omega
      · rw [ih hdiv]
        omega

theorem hexNumber_zeros (n : ℕ) (s : List UInt8) :
    hexNumber (List.replicate n '0'.toUInt8 ++ s) = hexNumber s := by
  induction n with
  | zero => rfl
  | succ n ih =>
      rw [← ih, List.replicate_succ, List.cons_append, hexNumber, List.foldl_cons]
      rfl

end

theorem isSpace_of_isHexDigit {ch : UInt8} (h : isHexDigit ch = true) : isSpace ch = false := by
  have hall : ∀ ch : UInt8, (!isHexDigit ch || !isSpace ch) = true := by
    apply forall_byte
    decide +kernel
  simpa [h] using hall ch

/-- A text of hexadecimal digits is the number they stand for. -/
theorem tryParseHex_digits {s : List UInt8} (hne : s ≠ []) (hs : ∀ ch ∈ s, isHexDigit ch = true)
    (hlt : hexNumber s < 2 ^ 32) : tryParseHex s = some (hexNumber s) := by
  obtain ⟨c, t, rfl⟩ := List.exists_cons_of_ne_nil hne
  have hno : ∀ x, isHexDigit x = false → ∀ i : ℕ, (c :: t)[i]? ≠ some x := by
    intro x hx i hi
    rw [hs x (List.mem_of_getElem? hi)] at hx
    cases hx
  have hspace : (c :: t).dropWhile isSpace = c :: t := by
    rw [List.dropWhile_cons_of_neg]
    rw [isSpace_of_isHexDigit (hs c List.mem_cons_self)]
    simp
  have hminus : (c :: t).head? ≠ some '-'.toUInt8 := by
    rw [List.head?_eq_getElem?]
    exact hno _ (by decide) 0
  have hplus : (c :: t).head? ≠ some '+'.toUInt8 := by
    rw [List.head?_eq_getElem?]
    exact hno _ (by decide) 0
  have hall : (c :: t).all isHexDigit = true := List.all_eq_true.mpr hs
  rw [tryParseHex, hspace, if_neg, strToInt, if_neg (not_or.mpr ⟨hne, hminus⟩)]
  · simp only [if_neg hplus]
    rw [if_pos ⟨List.cons_ne_nil _ _, hall, hlt⟩]
  · rintro ⟨-, -, hx | hx⟩
    · exact hno _ (by decide) 1 hx
    · exact hno _ (by decide) 1 hx

theorem isHexDigit_intToStr (value width : ℕ) (lowercase : Bool) :
    ∀ ch ∈ intToStr value width lowercase, isHexDigit ch = true := by
  intro ch hch
  rw [intToStr, List.mem_reverse, List.mem_append] at hch
  rcases hch with hch | hch
  · exact isHexDigit_digitLoop (isTable_digits lowercase) ch hch
  · rw [List.eq_of_mem_replicate hch]
    decide

theorem intToStr_ne_nil (value width : ℕ) (lowercase : Bool) : intToStr value width lowercase ≠ [] := by
  rw [intToStr]
  simp [digitLoop_ne_nil]

theorem length_intToStr {value n : ℕ} (h : value < 16 ^ (n + 1)) (lowercase : Bool) :
    (intToStr value 0 lowercase).length ≤ n + 1 := by
  rw [intToStr]
  simpa using length_digitLoop h

/-- A number that is filled with zeros has as many digits as its width. -/
theorem length_intToStr_width {value n : ℕ} (h : value < 16 ^ (n + 1)) (lowercase : Bool) :
    (intToStr value (n + 1) lowercase).length = n + 1 := by
  have hle := @length_digitLoop (if lowercase then kDigitsLower else kDigitsUpper) 16 value n h
  rw [intToStr, List.length_reverse, List.length_append, List.length_replicate]
  omega

theorem hexNumber_intToStr {value : ℕ} (h : value < 2 ^ 32) (width : ℕ) (lowercase : Bool) :
    hexNumber (intToStr value width lowercase) = value := by
  rw [intToStr, List.reverse_append, List.reverse_replicate, hexNumber_zeros]
  exact hexNumber_digitLoop (isTable_digits lowercase) (h.trans (by decide))

/-- **Main result.** A 32-bit number is read back from its digits. -/
theorem tryParseHex_intToStr {value : ℕ} (h : value < 2 ^ 32) (width : ℕ) (lowercase : Bool) :
    tryParseHex (intToStr value width lowercase) = some value := by
  have hnumber := hexNumber_intToStr h width lowercase
  have hne := intToStr_ne_nil value width lowercase
  rw [tryParseHex_digits hne (isHexDigit_intToStr value width lowercase) (by rwa [hnumber]), hnumber]

end Hex

end Poco.Foundation
