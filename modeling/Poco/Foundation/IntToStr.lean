import Mathlib.Data.Nat.Digits.Lemmas
import Mathlib.Data.List.TakeWhile
import Poco.Lib.JSON
import Poco.Foundation.NumericString

/-! # `intToStr` and `strToInt`

`intToStr` writes the digits of an integer in reverse order into a buffer, base 10 with two digits at a
time and, if asked for, with separators; it then adds zeros, the sign and the fill character, and turns
the buffer around.  The text is the numeral that the documentation describes (`intToStr_eq`), and
`strToInt` reads it back for every integer type (`strToInt_intToStr`). -/

namespace Poco.Foundation

open Poco.Lib

/-- `POCO_MAX_INT_STRING_LEN`. -/
def POCO_MAX_INT_STRING_LEN : ℕ := 67

/-- The integer types from `Int8` to `UInt64`. -/
structure IntegerType where
  bits : ℕ
  signed : Bool
  bits_eq : bits = 8 ∨ bits = 16 ∨ bits = 32 ∨ bits = 64
deriving DecidableEq

namespace IntegerType

/-- `std::numeric_limits<T>::min()`. -/
def min (T : IntegerType) : ℤ := if T.signed then -2 ^ (T.bits - 1) else 0

/-- `std::numeric_limits<T>::max()`. -/
def max (T : IntegerType) : ℤ := if T.signed then 2 ^ (T.bits - 1) - 1 else 2 ^ T.bits - 1

/-- The values of a type. -/
def Value (T : IntegerType) : Type := { v : ℤ // T.min ≤ v ∧ v ≤ T.max }

end IntegerType

/-- `RangeException`. -/
inductive RangeException
  | rangeException
deriving DecidableEq, Repr

namespace NumericString

/-! ### `intToStr` -/

/-- `Impl::kDigitPairs`. -/
def kDigitPairs : List UInt8 :=
  ("00010203040506070809" ++ "10111213141516171819" ++ "20212223242526272829" ++
    "30313233343536373839" ++ "40414243444546474849" ++ "50515253545556575859" ++
    "60616263646566676869" ++ "70717273747576777879" ++ "80818283848586878889" ++
    "90919293949596979899").toList.map Char.toUInt8

/-- The digits of the last one or two places, with a separator between them if three are complete. -/
def lastDigits (thSep : UInt8) (uval thCount : ℕ) : List UInt8 :=
  if uval ≥ 10 then
    kDigitPairs.getD (uval * 2 + 1) 0 ::
      (if thSep ≠ 0 ∧ thCount + 1 = 3 then [thSep] else []) ++ [kDigitPairs.getD (uval * 2) 0]
  else [UInt8.ofNat ('0'.toNat + uval)]

/-- The loops for base 10, with a separator (`thSep`) or without one: what is written, the last place
first. -/
def pairLoop (thSep : UInt8) (uval thCount : ℕ) : List UInt8 :=
  if uval ≥ 100 then
    let q := uval / 100
    let r := uval - q * 100
    let sep₁ := thSep ≠ 0 ∧ thCount + 1 = 3
    let thCount := if sep₁ then 0 else thCount + 1
    let sep₂ := thSep ≠ 0 ∧ thCount + 1 = 3 ∧ q ≠ 0
    let thCount := if sep₂ then 0 else thCount + 1
    kDigitPairs.getD (r * 2 + 1) 0 :: (if sep₁ then [thSep] else []) ++
      kDigitPairs.getD (r * 2) 0 :: (if sep₂ then [thSep] else []) ++ pairLoop thSep q thCount
  else lastDigits thSep uval thCount
termination_by uval
decreasing_by omega

/-- The loop for the other bases: `digit` is the last digit, and `next` takes it away.  A number of at
most 64 bits has at most 64 digits. -/
def digitLoop (digits : List UInt8) (digit next : ℕ → ℕ) : ℕ → ℕ → List UInt8
  | 0, _ => []
  | fuel + 1, uval =>
      digits.getD (digit uval) 0 ::
        if next uval = 0 then [] else digitLoop digits digit next fuel (next uval)

/-- The `switch` on a base that is a power of two. -/
def shiftOf (base : ℕ) : ℕ :=
  if base = 2 then 1 else if base = 4 then 2 else if base = 8 then 3 else if base = 16 then 4 else 0

/-- Phase 2: the digits, the last place first. -/
def digitsOf (base : ℕ) (thSep : UInt8) (lowercase : Bool) (uval : ℕ) : List UInt8 :=
  if base = 10 then pairLoop thSep uval 0
  else
    let digits := if lowercase then Hex.kDigitsLower else Hex.kDigitsUpper
    if base &&& (base - 1) = 0 then
      let shift := shiftOf base
      let mask := 1 <<< shift - 1
      digitLoop digits (· &&& mask) (· >>> shift) 64 uval
    else digitLoop digits (fun uval => uval - uval / base * base) (· / base) 64 uval

/-- Phase 1: the magnitude, computed with the unsigned type. -/
def magnitude (T : IntegerType) (value : ℤ) : ℕ :=
  if value < 0 then ((0 - value % 2 ^ T.bits) % 2 ^ T.bits).toNat else value.toNat

/-- `intToStr` with a buffer of `capacity` characters: the text that is in the buffer behind the call,
or no text if the base is rejected. -/
def intToStrBuffer (T : IntegerType) (value : ℤ) (base capacity : ℕ) (pfx : Bool) (width : ℤ)
    (fill thSep : UInt8) (lowercase : Bool) : Except RangeException (Option (List UInt8)) :=
  if base < 2 ∨ base > 0x10 then .ok none
  else if width ≥ capacity then .error .rangeException
  else
    let negative := value < 0
    let ptr := digitsOf base thSep lowercase (magnitude T value)
    let w := width - (if negative then 1 else 0) - (if pfx ∧ base = 8 then 1 else 0) -
      (if pfx ∧ base = 16 then 2 else 0)
    let ptr := if fill = '0'.toUInt8 then ptr ++ List.replicate (w - ptr.length).toNat '0'.toUInt8 else ptr
    let ptr := ptr ++ if pfx ∧ base = 8 then ['0'.toUInt8]
      else if pfx ∧ base = 16 then ['x'.toUInt8, '0'.toUInt8] else []
    let ptr := ptr ++ if negative then ['-'.toUInt8] else []
    let ptr := if fill ≠ '0'.toUInt8 then ptr ++ List.replicate (width - ptr.length).toNat fill else ptr
    if ptr.length ≥ capacity then .error .rangeException else .ok (some ptr.reverse)

/-- `intToStr` with a `std::string`: the result, and the string. -/
def intToStr (T : IntegerType) (number : ℤ) (base : ℕ) (pfx : Bool) (width : ℤ) (fill thSep : UInt8)
    (lowercase : Bool) : Except RangeException (Bool × List UInt8) :=
  match intToStrBuffer T number base POCO_MAX_INT_STRING_LEN pfx width fill thSep lowercase with
  | .error e => .error e
  | .ok none => .ok (false, List.replicate POCO_MAX_INT_STRING_LEN 0)
  | .ok (some text) => .ok (true, text)

/-! ### `strToInt` -/

/-- `std::errc` as `std::from_chars` uses it. -/
inductive Errc
  | invalid_argument
  | result_out_of_range
deriving DecidableEq, Repr

/-- A digit of the base. -/
def isDigitOf (base : ℕ) (ch : UInt8) : Bool :=
  match hexDigit? ch with
  | some d => d < base
  | none => false

/-- The number that digits stand for. -/
def number (base : ℕ) (s : List UInt8) : ℕ := s.foldl (fun acc ch => acc * base + Hex.digitValue ch) 0

/-- `std::from_chars` for a base up to 16: the number, and the text behind its digits. -/
def from_chars (T : IntegerType) (base : ℕ) (s : List UInt8) : Except Errc (ℤ × List UInt8) :=
  let minus := T.signed ∧ s.head? = some '-'.toUInt8
  let s := if minus then s.tail else s
  let digits := s.takeWhile (isDigitOf base)
  let value : ℤ := if minus then -(number base digits : ℤ) else number base digits
  if digits = [] then .error .invalid_argument
  else if T.min ≤ value ∧ value ≤ T.max then .ok (value, s.drop digits.length)
  else .error .result_out_of_range

/-- `strToInt` for a range of characters: the number if the result is true. -/
def strToIntRange (T : IntegerType) (s : List UInt8) (base : ℕ) (thSep : UInt8) : Option ℤ :=
  if s = [] then none
  else if s.head? = some '-'.toUInt8 ∧ (base ≠ 10 ∨ T.signed = false) then none
  else
    let start := if s.head? = some '+'.toUInt8 then s.tail else s
    if start = [] then none
    else
      match from_chars T base start with
      | .error _ => none
      | .ok (value, []) => some value
      | .ok (_, _ :: _) =>
          if thSep = 0 ∨ base ≠ 10 then none
          else
            let cleaned := start.filter (· ≠ thSep)
            if cleaned.length > POCO_MAX_INT_STRING_LEN - 1 then none
            else if cleaned = [] then none
            else
              match from_chars T base cleaned with
              | .ok (value, []) => some value
              | _ => none

/-- `strToInt` for a `std::string`. -/
def strToInt (T : IntegerType) (str : List UInt8) (base : ℕ) (thSep : UInt8) : Option ℤ :=
  strToIntRange T (str.dropWhile Hex.isSpace) base thSep

/-! ### The numeral that is meant -/

/-- The digits of a number, the last place first; zero has one digit. -/
def places (base n : ℕ) : List ℕ := if n = 0 then [0] else Nat.digits base n

/-- The character of a digit. -/
def digitChar (lowercase : Bool) (d : ℕ) : UInt8 :=
  UInt8.ofNat (if d < 10 then '0'.toNat + d else if lowercase then 'a'.toNat + d - 10 else 'A'.toNat + d - 10)

/-- Groups of three, with a separator between them. -/
def groups {α : Type} (sep : α) : List α → List α
  | a :: b :: c :: d :: s => a :: b :: c :: sep :: groups sep (d :: s)
  | s => s

/-- The digits of the numeral, the first place first. -/
def numeral (base n : ℕ) (thSep : UInt8) (lowercase : Bool) : List UInt8 :=
  let digits := (places base n).map (digitChar lowercase)
  (if base = 10 ∧ thSep ≠ 0 then groups thSep digits else digits).reverse

/-- The numeral with its sign, padded to the width. -/
def paddedNumeral (base : ℕ) (v width : ℤ) (fill thSep : UInt8) (lowercase : Bool) : List UInt8 :=
  let sign := if v < 0 then ['-'.toUInt8] else []
  let digits := numeral base v.natAbs thSep lowercase
  let pad := List.replicate (width - (sign.length + digits.length)).toNat fill
  if fill = '0'.toUInt8 then sign ++ pad ++ digits else pad ++ sign ++ digits

/-! ### Digits -/

section

variable {b n : ℕ}

theorem places_eq (hb : 1 < b) (n : ℕ) :
    places b n = n % b :: if n / b = 0 then [] else places b (n / b) := by
  unfold places
  by_cases hn : n = 0
  · subst hn
    rw [if_pos rfl, Nat.zero_mod, Nat.zero_div, if_pos rfl]
  · rw [if_neg hn, Nat.digits_def' hb (by omega)]
    split_ifs with hdiv
    · rw [hdiv, Nat.digits_zero]
    · rfl

theorem places_ne_nil (hb : 1 < b) (n : ℕ) : places b n ≠ [] := by
  rw [places_eq hb]
  exact List.cons_ne_nil _ _

theorem lt_of_mem_places (hb : 1 < b) : ∀ d ∈ places b n, d < b := by
  unfold places
  split_ifs
  · rw [List.forall_mem_singleton]
    omega
  · exact fun d hd => Nat.digits_lt_base hb hd

theorem length_places_le {k : ℕ} (hb : 1 < b) (hk : 0 < k) (hn : n < b ^ k) : (places b n).length ≤ k := by
  unfold places
  split_ifs
  · exact hk
  · exact (Nat.digits_length_le_iff hb n).mpr hn

theorem places_pair (hn : 100 ≤ n) : places 10 n = n % 10 :: n / 10 % 10 :: places 10 (n / 100) := by
  rw [places_eq (by decide), if_neg (by omega), places_eq (by decide), Nat.div_div_eq_div_mul,
    if_neg (by omega)]

theorem digitLoop_eq {digits : List UInt8} {digit next : ℕ → ℕ} (hb : 1 < b) (hdigit : ∀ x, digit x = x % b)
    (hnext : ∀ x, next x = x / b) {fuel : ℕ} (hn : n < b ^ fuel) :
    digitLoop digits digit next fuel n = if fuel = 0 then [] else (places b n).map fun d => digits.getD d 0 := by
  induction fuel generalizing n with
  | zero => rfl
  | succ fuel ih =>
      have hdiv : n / b < b ^ fuel := Nat.div_lt_of_lt_mul (by rwa [Nat.pow_succ'] at hn)
      rw [digitLoop, places_eq hb, hdigit, hnext, if_neg (Nat.succ_ne_zero fuel), List.map_cons, ih hdiv]
      split_ifs with hzero hfuel
      · rfl
      · subst hfuel
        rw [Nat.pow_zero, Nat.lt_one_iff] at hdiv
        exact absurd hdiv hzero
      · rfl

end

/-! ### Base 10 -/

theorem kDigitPairs_flatMap : kDigitPairs =
    (List.range 100).flatMap fun r => [UInt8.ofNat (0x30 + r / 10), UInt8.ofNat (0x30 + r % 10)] := by
  unfold kDigitPairs
  rw [String.toList_append, String.toList_append, String.toList_append, String.toList_append, String.toList_append,
    String.toList_append, String.toList_append, String.toList_append, String.toList_append]
  decide +kernel

theorem getElem?_flatMap_pair {α β : Type} (f g : α → β) (l : List α) (i : ℕ) :
    (l.flatMap fun a => [f a, g a])[i * 2]? = l[i]?.map f ∧
      (l.flatMap fun a => [f a, g a])[i * 2 + 1]? = l[i]?.map g := by
  induction l generalizing i with
  | nil => exact ⟨rfl, rfl⟩
  | cons a l ih =>
      cases i with
      | zero => exact ⟨rfl, rfl⟩
      | succ i =>
          rw [List.flatMap_cons, Nat.add_one_mul]
          exact ih i

theorem kDigitPairs_eq (lowercase : Bool) (r : ℕ) (hr : r < 100) :
    kDigitPairs.getD (r * 2 + 1) 0 = digitChar lowercase (r % 10) ∧
      kDigitPairs.getD (r * 2) 0 = digitChar lowercase (r / 10) := by
  have hpair := getElem?_flatMap_pair (fun r => UInt8.ofNat (0x30 + r / 10)) (fun r => UInt8.ofNat (0x30 + r % 10))
    (List.range 100) r
  rw [List.getElem?_range hr] at hpair
  rw [kDigitPairs_flatMap, List.getD_eq_getElem?_getD, List.getD_eq_getElem?_getD, hpair.1, hpair.2, digitChar,
    digitChar, if_pos (by omega), if_pos (by omega)]
  exact ⟨rfl, rfl⟩

/-- As `groups`, where `k` digits of the first group are already there. -/
def groupsFrom {α : Type} (sep : α) : ℕ → List α → List α
  | _, [] => []
  | _, [d] => [d]
  | k, d :: e :: s =>
      d :: if k + 1 = 3 then sep :: groupsFrom sep 0 (e :: s) else groupsFrom sep (k + 1) (e :: s)

theorem groupsFrom_zero {α : Type} (sep : α) (s : List α) : groupsFrom sep 0 s = groups sep s := by
  fun_induction groups sep s with
  | case1 a b c d s ih =>
      rw [← ih]
      rfl
  | case2 s h =>
      match s, h with
      | [], _ => rfl
      | [_], _ => rfl
      | [_, _], _ => rfl
      | [_, _, _], _ => rfl
      | a :: b :: c :: d :: s, h => exact absurd rfl (h a b c d s)

theorem lastDigits_eq (lowercase : Bool) {thSep : UInt8} (hsep : thSep ≠ 0) {uval : ℕ} (h : uval < 100) (k : ℕ) :
    lastDigits thSep uval k = groupsFrom thSep k ((places 10 uval).map (digitChar lowercase)) := by
  obtain ⟨hlow, hhigh⟩ := kDigitPairs_eq lowercase uval h
  unfold lastDigits
  split_ifs with hten hthree
  · rw [places_eq (by decide), if_neg (by omega), places_eq (by decide), if_pos (by omega), hlow, hhigh,
      Nat.mod_eq_of_lt (show uval / 10 < 10 by omega)]
    rw [List.map_cons, List.map_cons, List.map_nil, groupsFrom, if_pos hthree.2]
    rfl
  · have hk : ¬(k + 1 = 3) := fun h' => hthree ⟨hsep, h'⟩
    rw [places_eq (by decide), if_neg (by omega), places_eq (by decide), if_pos (by omega), hlow, hhigh,
      Nat.mod_eq_of_lt (show uval / 10 < 10 by omega)]
    rw [List.map_cons, List.map_cons, List.map_nil, groupsFrom, if_neg hk]
    rfl
  · rw [places_eq (by decide), if_pos (by omega), Nat.mod_eq_of_lt (show uval < 10 by omega), List.map_cons,
      List.map_nil, groupsFrom, digitChar, if_pos (by omega)]

theorem pair_digits (lowercase : Bool) (uval : ℕ) :
    kDigitPairs.getD ((uval - uval / 100 * 100) * 2 + 1) 0 = digitChar lowercase (uval % 10) ∧
      kDigitPairs.getD ((uval - uval / 100 * 100) * 2) 0 = digitChar lowercase (uval / 10 % 10) := by
  obtain ⟨hlow, hhigh⟩ := kDigitPairs_eq lowercase (uval - uval / 100 * 100) (by omega)
  have hmod : (uval - uval / 100 * 100) % 10 = uval % 10 := by omega
  have hdiv : (uval - uval / 100 * 100) / 10 = uval / 10 % 10 := by omega
  rw [hlow, hhigh, hmod, hdiv]
  exact ⟨rfl, rfl⟩

theorem pairLoop_eq (lowercase : Bool) {thSep : UInt8} (hsep : thSep ≠ 0) (uval k : ℕ) :
    pairLoop thSep uval k = groupsFrom thSep k ((places 10 uval).map (digitChar lowercase)) := by
  fun_induction pairLoop thSep uval k with
  | case1 uval k hge q r sep₁ k₁ sep₂ k₂ ih =>
      obtain ⟨hlow, hhigh⟩ := pair_digits lowercase uval
      have hq : q ≠ 0 := by
        show uval / 100 ≠ 0
        omega
      obtain ⟨e, s, hrest⟩ := List.exists_cons_of_ne_nil (places_ne_nil (b := 10) (by decide) q)
      rw [hlow, hhigh, ih, places_pair hge, List.map_cons, List.map_cons]
      show _ = groupsFrom thSep k (_ :: _ :: (places 10 q).map (digitChar lowercase))
      rw [hrest, List.map_cons, groupsFrom]
      by_cases hk : k + 1 = 3
      · have h₁ : sep₁ := ⟨hsep, hk⟩
        have hk₁ : k₁ = 0 := if_pos h₁
        have h₂ : ¬sep₂ := fun h => by
          have := h.2.1
          omega
        have hk₂ : k₂ = 1 := by
          show (if sep₂ then 0 else k₁ + 1) = 1
          rw [if_neg h₂, hk₁]
        rw [if_pos h₁, if_neg h₂, if_pos hk, hk₂, groupsFrom, if_neg (by decide)]
        rfl
      · have h₁ : ¬sep₁ := fun h => hk h.2
        have hk₁ : k₁ = k + 1 := if_neg h₁
        rw [if_neg h₁, if_neg hk, groupsFrom]
        by_cases hk' : k + 1 + 1 = 3
        · have h₂ : sep₂ := ⟨hsep, by omega, hq⟩
          have hk₂ : k₂ = 0 := if_pos h₂
          rw [if_pos h₂, if_pos hk', hk₂]
          rfl
        · have h₂ : ¬sep₂ := fun h => hk' (by have := h.2.1; omega)
          have hk₂ : k₂ = k + 1 + 1 := by
            show (if sep₂ then 0 else k₁ + 1) = _
            rw [if_neg h₂, hk₁]
          rw [if_neg h₂, if_neg hk', hk₂]
          rfl
  | case2 uval k hlt => exact lastDigits_eq lowercase hsep (by omega) k

/-- Without a separator nothing comes between the digits. -/
theorem pairLoop_zero (lowercase : Bool) (uval k : ℕ) :
    pairLoop 0 uval k = (places 10 uval).map (digitChar lowercase) := by
  fun_induction pairLoop 0 uval k with
  | case1 uval k hge q r sep₁ k₁ sep₂ k₂ ih =>
      obtain ⟨hlow, hhigh⟩ := pair_digits lowercase uval
      have h₁ : ¬sep₁ := fun h => h.1 rfl
      have h₂ : ¬sep₂ := fun h => h.1 rfl
      rw [hlow, hhigh, ih, places_pair hge, if_neg h₁, if_neg h₂]
      rfl
  | case2 uval k hlt =>
      obtain ⟨hlow, hhigh⟩ := kDigitPairs_eq lowercase uval (by omega)
      have hno : ¬((0 : UInt8) ≠ 0 ∧ k + 1 = 3) := fun h => h.1 rfl
      unfold lastDigits
      rw [if_neg hno, hlow, hhigh, places_eq (by decide)]
      split_ifs with hten hzero hzero
      · omega
      · rw [places_eq (by decide), if_pos (by omega), Nat.mod_eq_of_lt (show uval / 10 < 10 by omega)]
        rfl
      · rw [List.map_singleton, digitChar, if_pos (Nat.mod_lt _ (by decide)),
          Nat.mod_eq_of_lt (show uval < 10 by omega)]
      · omega

theorem getD_digits (lowercase : Bool) : ∀ d < 16,
    (if lowercase then Hex.kDigitsLower else Hex.kDigitsUpper).getD d 0 = digitChar lowercase d := by
  cases lowercase
  · decide
  · decide

theorem digitsOf_shift {base k : ℕ} (hbase : base = 2 ^ k) (hshift : 0 < k) (hle : k ≤ 4)
    (hof : shiftOf base = k) (hten : base ≠ 10) (thSep : UInt8) (lowercase : Bool) {n : ℕ}
    (hn : n < 2 ^ 64) :
    digitsOf base thSep lowercase n = (numeral base n thSep lowercase).reverse := by
  have hone : 1 < base := hbase ▸ Nat.one_lt_two_pow (by omega)
  have hsixteen : base ≤ 16 := hbase ▸ Nat.pow_le_pow_right (by decide) hle
  have hpow : base &&& (base - 1) = 0 := by
    rw [hbase, Nat.and_two_pow_sub_one_eq_mod, Nat.mod_self]
  have hmask : ∀ x, x &&& (1 <<< k - 1) = x % base := by
    intro x
    rw [Nat.one_shiftLeft, Nat.and_two_pow_sub_one_eq_mod, hbase]
  have hnext : ∀ x, x >>> k = x / base := by
    intro x
    rw [Nat.shiftRight_eq_div_pow, hbase]
  have hfuel : n < base ^ 64 := lt_of_lt_of_le hn (Nat.pow_le_pow_left hone 64)
  have hno : ¬(base = 10 ∧ thSep ≠ 0) := fun h => hten h.1
  rw [digitsOf, if_neg hten, if_pos hpow, hof, digitLoop_eq hone hmask hnext hfuel, if_neg (by decide),
    numeral, if_neg hno, List.reverse_reverse]
  apply List.map_congr_left
  intro d hd
  exact getD_digits lowercase d (lt_of_lt_of_le (lt_of_mem_places hone d hd) hsixteen)

theorem digitsOf_eq {base : ℕ} (hbase : base = 2 ∨ base = 8 ∨ base = 10 ∨ base = 16) (thSep : UInt8)
    (lowercase : Bool) {n : ℕ} (hn : n < 2 ^ 64) :
    digitsOf base thSep lowercase n = (numeral base n thSep lowercase).reverse := by
  rcases hbase with rfl | rfl | rfl | rfl
  · exact digitsOf_shift (k := 1) rfl (by decide) (by decide) rfl (by decide) thSep lowercase hn
  · exact digitsOf_shift (k := 3) rfl (by decide) (by decide) rfl (by decide) thSep lowercase hn
  · rw [digitsOf, if_pos rfl, numeral, List.reverse_reverse]
    by_cases hsep : thSep = 0
    · rw [hsep, if_neg (fun h => h.2 rfl), pairLoop_zero lowercase]
    · rw [if_pos ⟨rfl, hsep⟩, pairLoop_eq lowercase hsep, groupsFrom_zero]
  · exact digitsOf_shift (k := 4) rfl (by decide) (by decide) rfl (by decide) thSep lowercase hn

/-! ### The text -/

theorem natAbs_lt {T : IntegerType} {v : ℤ} (h : T.min ≤ v ∧ v ≤ T.max) : v.natAbs < 2 ^ T.bits := by
  obtain ⟨hmin, hmax⟩ := h
  unfold IntegerType.min IntegerType.max at *
  rcases T.bits_eq with hb | hb | hb | hb <;> rw [hb] at hmin hmax ⊢ <;> split_ifs at hmin hmax <;> omega

theorem natAbs_lt_64 {T : IntegerType} {v : ℤ} (h : T.min ≤ v ∧ v ≤ T.max) : v.natAbs < 2 ^ 64 := by
  refine lt_of_lt_of_le (natAbs_lt h) (Nat.pow_le_pow_right (by decide) ?_)
  rcases T.bits_eq with hb | hb | hb | hb <;> omega

theorem magnitude_eq {T : IntegerType} {v : ℤ} (h : T.min ≤ v ∧ v ≤ T.max) : magnitude T v = v.natAbs := by
  have hlt := natAbs_lt h
  unfold magnitude
  split_ifs with hneg
  · rcases T.bits_eq with hb | hb | hb | hb <;> rw [hb] at hlt ⊢ <;> omega
  · omega

theorem length_groups_le {α : Type} (sep : α) (s : List α) : (groups sep s).length ≤ 2 * s.length := by
  fun_induction groups sep s with
  | case1 a b c d s ih =>
      simp only [List.length_cons] at ih ⊢
      omega
  | case2 s h => omega

theorem length_numeral_le {base : ℕ} (hbase : base = 2 ∨ base = 8 ∨ base = 10 ∨ base = 16) (thSep : UInt8)
    (lowercase : Bool) {n : ℕ} (hn : n < 2 ^ 64) : (numeral base n thSep lowercase).length ≤ 64 := by
  have hone : 1 < base := by omega
  rw [numeral, List.length_reverse]
  split_ifs with hten
  · have hplaces : (places base n).length ≤ 20 := length_places_le hone (by decide) (by rw [hten.1]; omega)
    have hgroups := length_groups_le thSep ((places base n).map (digitChar lowercase))
    rw [List.length_map] at hgroups
    omega
  · rw [List.length_map]
    exact length_places_le hone (by decide) (lt_of_lt_of_le hn (Nat.pow_le_pow_left hone 64))

theorem length_sign_le (v : ℤ) : (if v < 0 then ['-'.toUInt8] else []).length ≤ 1 := by
  split_ifs <;> decide

/-- The text in a buffer that is large enough is the numeral with its sign, padded to the width. -/
theorem intToStrBuffer_eq {T : IntegerType} {v : ℤ} (hv : T.min ≤ v ∧ v ≤ T.max) {base capacity : ℕ}
    (hbase : base = 2 ∨ base = 8 ∨ base = 10 ∨ base = 16) {width : ℤ} (hwidth : width < capacity)
    (fill thSep : UInt8) (lowercase : Bool)
    (hlen : (numeral base v.natAbs thSep lowercase).length + 1 < capacity) :
    intToStrBuffer T v base capacity false width fill thSep lowercase =
      .ok (some (paddedNumeral base v width fill thSep lowercase)) := by
  rw [intToStrBuffer, if_neg (by omega), if_neg (by omega), magnitude_eq hv,
    digitsOf_eq hbase _ _ (natAbs_lt_64 hv)]
  unfold paddedNumeral
  generalize numeral base v.natAbs thSep lowercase = digits at hlen ⊢
  have hsign : (if v < 0 then ['-'.toUInt8] else []).length = if v < 0 then 1 else 0 := by
    split_ifs <;> rfl
  have hrev : (if v < 0 then ['-'.toUInt8] else []).reverse = if v < 0 then ['-'.toUInt8] else [] := by
    split_ifs <;> rfl
  have hone := length_sign_le v
  simp only [Bool.false_eq_true, false_and, if_false, List.append_nil, Int.sub_zero, ne_eq, ite_not,
    List.length_append, List.length_reverse]
  generalize (if v < 0 then ['-'.toUInt8] else []) = sign at *
  by_cases hfill : fill = '0'.toUInt8
  · subst hfill
    have hzeros : (width - (if v < 0 then 1 else 0) - (digits.length : ℤ)).toNat =
        (width - ((sign.length : ℤ) + digits.length)).toNat := by
      rw [hsign]
      split_ifs <;> omega
    simp only [if_true, hzeros]
    rw [if_neg]
    · rw [List.reverse_append, List.reverse_append, List.reverse_reverse, List.reverse_replicate, hrev,
        List.append_assoc]
    · rw [List.length_append, List.length_append, List.length_reverse, List.length_replicate]
      omega
  · have hpad : (width - ((digits.reverse.length + sign.length : ℕ) : ℤ)).toNat =
        (width - ((sign.length : ℤ) + digits.length)).toNat := by
      rw [List.length_reverse]
      omega
    simp only [if_neg hfill, hpad]
    rw [if_neg]
    · rw [List.reverse_append, List.reverse_append, List.reverse_reverse, List.reverse_replicate, hrev,
        List.append_assoc]
    · rw [List.length_append, List.length_append, List.length_reverse, List.length_replicate]
      omega

/-- The text is the numeral with its sign, padded to the width. -/
theorem intToStr_eq {T : IntegerType} {v : ℤ} (hv : T.min ≤ v ∧ v ≤ T.max) {base : ℕ}
    (hbase : base = 2 ∨ base = 8 ∨ base = 10 ∨ base = 16) {width : ℤ} (hwidth : width < POCO_MAX_INT_STRING_LEN)
    (fill thSep : UInt8) (lowercase : Bool) :
    intToStr T v base false width fill thSep lowercase =
      .ok (true, paddedNumeral base v width fill thSep lowercase) := by
  have hlen := length_numeral_le hbase thSep lowercase (natAbs_lt_64 hv)
  have hmax : POCO_MAX_INT_STRING_LEN = 67 := rfl
  rw [intToStr, intToStrBuffer_eq hv hbase hwidth fill thSep lowercase (by omega)]

/-! ### The text is read back -/

section

variable {base : ℕ}

theorem number_append (s t : List UInt8) : number base (s ++ t) = number base s * base ^ t.length + number base t := by
  induction t using List.reverseRecOn with
  | nil => simp [number]
  | append_singleton t ch ih =>
      have hsnoc : ∀ u : List UInt8, number base (u ++ [ch]) = number base u * base + Hex.digitValue ch := by
        intro u
        simp [number, List.foldl_append]
      rw [← List.append_assoc, hsnoc, hsnoc, ih, List.length_append, List.length_singleton, Nat.pow_succ]
      ring

theorem number_zeros (k : ℕ) (s : List UInt8) :
    number base (List.replicate k '0'.toUInt8 ++ s) = number base s := by
  induction k with
  | zero => rfl
  | succ k ih =>
      have hzero : number base ['0'.toUInt8] = 0 := by
        show 0 * base + Hex.digitValue '0'.toUInt8 = 0
        rw [Nat.zero_mul]
        decide
      rw [List.replicate_succ, List.cons_append, ← List.singleton_append, number_append, hzero, Nat.zero_mul,
        Nat.zero_add, ih]

theorem digitValue_digitChar (lowercase : Bool) : ∀ d < 16,
    Hex.digitValue (digitChar lowercase d) = d ∧ hexDigit? (digitChar lowercase d) = some d := by
  cases lowercase
  · decide
  · decide

theorem number_reverse (lowercase : Bool) {l : List ℕ} (hl : ∀ d ∈ l, d < 16) :
    number base (l.map (digitChar lowercase)).reverse = Nat.ofDigits base l := by
  induction l with
  | nil => rfl
  | cons d l ih =>
      rw [List.forall_mem_cons] at hl
      have hone : number base [digitChar lowercase d] = d := by
        show 0 * base + Hex.digitValue (digitChar lowercase d) = d
        rw [Nat.zero_mul, Nat.zero_add, (digitValue_digitChar lowercase d hl.1).1]
      rw [List.map_cons, List.reverse_cons, number_append, ih hl.2, hone, Nat.ofDigits_cons,
        List.length_singleton, Nat.pow_one, Nat.mul_comm, Nat.add_comm]

/-- The digits without separators stand for the number. -/
theorem number_places (hone : 1 < base) (hle : base ≤ 16) (lowercase : Bool) (n : ℕ) :
    number base ((places base n).map (digitChar lowercase)).reverse = n := by
  rw [number_reverse lowercase fun d hd => lt_of_lt_of_le (lt_of_mem_places hone d hd) hle]
  unfold places
  split_ifs with hn
  · rw [hn]
    rfl
  · exact Nat.ofDigits_digits base n

theorem isDigitOf_places (hone : 1 < base) (hle : base ≤ 16) (lowercase : Bool) (n : ℕ) :
    ∀ ch ∈ (places base n).map (digitChar lowercase), isDigitOf base ch = true := by
  rw [List.forall_mem_map]
  intro d hd
  have hlt := lt_of_mem_places hone d hd
  rw [isDigitOf, (digitValue_digitChar lowercase d (by omega)).2]
  exact decide_eq_true hlt

/-- `std::from_chars` on a sign, digits and something else. -/
theorem from_chars_digits {T : IntegerType} {neg : Prop} [Decidable neg] {ds rest : List UInt8}
    (hsign : neg → T.signed = true)
    (hne : ds ≠ []) (hds : ∀ ch ∈ ds, isDigitOf base ch = true)
    (hrest : ∀ ch ∈ rest.head?, isDigitOf base ch = false)
    (hrange : T.min ≤ (if neg then -(number base ds : ℤ) else number base ds) ∧
      (if neg then -(number base ds : ℤ) else number base ds) ≤ T.max) :
    from_chars T base ((if neg then ['-'.toUInt8] else []) ++ (ds ++ rest)) =
      .ok (if neg then -(number base ds : ℤ) else number base ds, rest) := by
  have hminus : isDigitOf base '-'.toUInt8 = false := rfl
  have hhead : (ds ++ rest).head? ≠ some '-'.toUInt8 := by
    obtain ⟨d, ds', rfl⟩ := List.exists_cons_of_ne_nil hne
    intro h
    have hd := hds d List.mem_cons_self
    rw [Option.some.inj h, hminus] at hd
    cases hd
  have htake : (ds ++ rest).takeWhile (isDigitOf base) = ds := by
    rw [List.takeWhile_append_of_pos hds]
    cases rest with
    | nil => rw [List.takeWhile_nil, List.append_nil]
    | cons ch rest =>
        rw [List.takeWhile_cons_of_neg (by rw [hrest ch rfl]; decide), List.append_nil]
  by_cases hneg : neg
  · simp only [if_pos hneg] at hrange ⊢
    have hboth : T.signed = true ∧ ('-'.toUInt8 :: (ds ++ rest)).head? = some '-'.toUInt8 :=
      ⟨hsign hneg, rfl⟩
    rw [List.singleton_append]
    unfold from_chars
    simp only [if_pos hboth, List.tail_cons, htake]
    rw [if_neg hne, if_pos hrange, List.drop_left]
  · simp only [if_neg hneg, List.nil_append] at hrange ⊢
    have hnone : ¬(T.signed = true ∧ (ds ++ rest).head? = some '-'.toUInt8) := fun h => hhead h.2
    unfold from_chars
    simp only [if_neg hnone, htake]
    rw [if_neg hne, if_pos hrange, List.drop_left]

/-- What `strToInt` takes away from the digits. -/
def strip (base : ℕ) (thSep : UInt8) (s : List UInt8) : List UInt8 :=
  if base = 10 ∧ thSep ≠ 0 then s.filter (· ≠ thSep) else s

/-- With a number, a type has the smaller ones with the same sign. -/
theorem number_le_of_range {T : IntegerType} {neg : Prop} [Decidable neg] {n k : ℕ}
    (hn : T.min ≤ (if neg then -(n : ℤ) else n) ∧ (if neg then -(n : ℤ) else n) ≤ T.max) (hk : k ≤ n) :
    T.min ≤ (if neg then -(k : ℤ) else k) ∧ (if neg then -(k : ℤ) else k) ≤ T.max := by
  have hmin : T.min ≤ 0 := by
    unfold IntegerType.min
    split_ifs
    · rw [Int.neg_nonpos_iff]
      positivity
    · exact le_rfl
  have hmax : 0 ≤ T.max := by
    unfold IntegerType.max
    rcases T.bits_eq with hb | hb | hb | hb <;> rw [hb] <;> split_ifs <;> decide
  split_ifs at hn ⊢ <;> omega

theorem signed_of_neg {T : IntegerType} {v : ℤ} (hv : T.min ≤ v ∧ v ≤ T.max) (hneg : v < 0) : T.signed = true := by
  by_contra hsigned
  have hmin : T.min = 0 := if_neg hsigned
  omega

theorem strip_digits {thSep : UInt8} (hsep : base = 10 → isDigitOf 10 thSep = false) {ds : List UInt8}
    (hds : ∀ ch ∈ ds, isDigitOf base ch = true) (rest : List UInt8) :
    strip base thSep (ds ++ rest) = ds ++ strip base thSep rest := by
  unfold strip
  split_ifs with h
  · have hkeep : ds.filter (· ≠ thSep) = ds := by
      rw [List.filter_eq_self]
      intro ch hch
      rw [decide_eq_true_eq]
      rintro rfl
      have hdigit := hds ch hch
      rw [h.1, hsep h.1] at hdigit
      cases hdigit
    rw [List.filter_append, hkeep]
  · rfl

theorem signed_natAbs (v : ℤ) : (if v < 0 then -(v.natAbs : ℤ) else v.natAbs) = v := by
  split_ifs <;> omega

/-- The two attempts of `strToInt` behind a plus. -/
def readStart (T : IntegerType) (start : List UInt8) (base : ℕ) (thSep : UInt8) : Option ℤ :=
  if start = [] then none
  else
    match from_chars T base start with
    | .error _ => none
    | .ok (value, []) => some value
    | .ok (_, _ :: _) =>
        if thSep = 0 ∨ base ≠ 10 then none
        else
          let cleaned := start.filter (· ≠ thSep)
          if cleaned.length > POCO_MAX_INT_STRING_LEN - 1 then none
          else if cleaned = [] then none
          else
            match from_chars T base cleaned with
            | .ok (value, []) => some value
            | _ => none

theorem strToIntRange_readStart (T : IntegerType) (s : List UInt8) (base : ℕ) (thSep : UInt8) :
    strToIntRange T s base thSep =
      if s = [] then none
      else if s.head? = some '-'.toUInt8 ∧ (base ≠ 10 ∨ T.signed = false) then none
      else readStart T (if s.head? = some '+'.toUInt8 then s.tail else s) base thSep := rfl

theorem base_pos_of_isDigitOf {ch : UInt8} (h : isDigitOf base ch = true) : 0 < base := by
  rcases Nat.eq_zero_or_pos base with rfl | hpos
  · unfold isDigitOf at h
    split at h <;> simp at h
  · exact hpos

theorem filter_sign {thSep : UInt8} (hten : base = 10 ∧ thSep ≠ 0) (hminus : thSep ≠ '-'.toUInt8) {neg : Prop}
    [Decidable neg] (s : List UInt8) :
    ((if neg then ['-'.toUInt8] else []) ++ s).filter (· ≠ thSep) =
      (if neg then ['-'.toUInt8] else []) ++ strip base thSep s := by
  have hkeep : (if neg then ['-'.toUInt8] else []).filter (· ≠ thSep) = if neg then ['-'.toUInt8] else [] := by
    split_ifs
    · rw [List.filter_eq_self, List.forall_mem_singleton, decide_eq_true_eq]
      exact hminus.symm
    · rfl
  rw [List.filter_append, hkeep, strip, if_pos hten]

theorem readStart_eq {T : IntegerType} {neg : Prop} [Decidable neg] {n : ℕ}
    (hrange : T.min ≤ (if neg then -(n : ℤ) else n) ∧ (if neg then -(n : ℤ) else n) ≤ T.max)
    (hsign : neg → T.signed = true) {thSep : UInt8}
    (hsep : base = 10 → isDigitOf 10 thSep = false ∧ thSep ≠ '-'.toUInt8) {s : List UInt8}
    (hfits : (∀ ch ∈ s, isDigitOf base ch = true) ∨
      ((if neg then ['-'.toUInt8] else []) ++ strip base thSep s).length ≤ POCO_MAX_INT_STRING_LEN - 1)
    (hhead : ∃ ch ∈ s.head?, isDigitOf base ch = true)
    (hstrip : ∀ ch ∈ strip base thSep s, isDigitOf base ch = true)
    (hnumber : number base (strip base thSep s) = n) :
    readStart T ((if neg then ['-'.toUInt8] else []) ++ s) base thSep =
      some (if neg then -(n : ℤ) else n) := by
  obtain ⟨d, hd, hdigit⟩ := hhead
  have hs : s ≠ [] := by
    rintro rfl
    cases hd
  have hnil : (if neg then ['-'.toUInt8] else []) ++ s ≠ [] := by
    rw [ne_eq, List.append_eq_nil_iff]
    exact fun h => hs h.2
  -- the first attempt stops at the first separator
  have hsplit : s.takeWhile (isDigitOf base) ++ s.dropWhile (isDigitOf base) = s :=
    List.takeWhile_append_dropWhile
  have hds : ∀ ch ∈ s.takeWhile (isDigitOf base), isDigitOf base ch = true := fun ch h => List.mem_takeWhile_imp h
  have hne : s.takeWhile (isDigitOf base) ≠ [] := by
    obtain ⟨c, t, rfl⟩ := List.exists_cons_of_ne_nil hs
    obtain rfl : c = d := Option.some.inj hd
    rw [List.takeWhile_cons_of_pos hdigit]
    exact List.cons_ne_nil _ _
  have hrest : ∀ ch ∈ (s.dropWhile (isDigitOf base)).head?, isDigitOf base ch = false := by
    intro ch hch
    have h := List.head?_dropWhile_not (isDigitOf base) s
    rw [Option.mem_def.mp hch] at h
    simpa using h
  generalize s.takeWhile (isDigitOf base) = ds at hsplit hds hne
  generalize s.dropWhile (isDigitOf base) = rest at hsplit hrest
  subst hsplit
  have hdstrip := strip_digits (fun h => (hsep h).1) hds rest
  rw [hdstrip] at hnumber hstrip hfits
  have hle : number base ds ≤ n := by
    rw [← hnumber, number_append]
    exact le_trans (Nat.le_mul_of_pos_right _ (Nat.pow_pos (base_pos_of_isDigitOf hdigit))) (Nat.le_add_right _ _)
  have hfirst := from_chars_digits hsign hne hds hrest (number_le_of_range hrange hle)
  unfold readStart
  rw [if_neg hnil, hfirst]
  cases rest with
  | nil =>
      have hall : strip base thSep [] = [] := by
        unfold strip
        split_ifs <;> rfl
      rw [hall, List.append_nil] at hnumber
      dsimp only
      rw [hnumber]
  | cons c rest =>
      have hc : isDigitOf base c = false := hrest c rfl
      have hten : base = 10 ∧ thSep ≠ 0 := by
        by_contra hno
        have hmem : c ∈ ds ++ strip base thSep (c :: rest) := by
          rw [strip, if_neg hno]
          simp
        rw [hstrip c hmem] at hc
        cases hc
      have hcleaned : ((if neg then ['-'.toUInt8] else []) ++ (ds ++ c :: rest)).filter (· ≠ thSep) =
          (if neg then ['-'.toUInt8] else []) ++ (ds ++ strip base thSep (c :: rest) ++ []) := by
        rw [filter_sign hten (hsep hten.1).2, hdstrip, List.append_nil]
      have hsecond : from_chars T base
            ((if neg then ['-'.toUInt8] else []) ++ (ds ++ strip base thSep (c :: rest) ++ [])) =
          .ok (if neg then -(n : ℤ) else n, []) := by
        rw [← hnumber]
        refine from_chars_digits hsign (fun h => hne (List.append_eq_nil_iff.mp h).1) hstrip
          (fun ch h => by cases h) ?_
        rw [hnumber]
        exact hrange
      have hshort : ¬(((if neg then ['-'.toUInt8] else []) ++
          (ds ++ strip base thSep (c :: rest) ++ [])).length > POCO_MAX_INT_STRING_LEN - 1) := by
        rcases hfits with hall | hlen
        · rw [hall c (List.mem_append_right _ List.mem_cons_self)] at hc
          cases hc
        · rwa [List.append_nil, not_lt]
      have hsome : (if neg then ['-'.toUInt8] else []) ++ (ds ++ strip base thSep (c :: rest) ++ []) ≠ [] := by
        rw [ne_eq, List.append_eq_nil_iff, List.append_eq_nil_iff, List.append_eq_nil_iff]
        exact fun h => hne h.2.1.1
      have hno : ¬(thSep = 0 ∨ base ≠ 10) := by
        rw [not_or, not_not]
        exact ⟨hten.2, hten.1⟩
      dsimp only
      rw [if_neg hno, hcleaned, if_neg hshort, if_neg hsome, hsecond]

theorem length_strip_le (thSep : UInt8) (s : List UInt8) : (strip base thSep s).length ≤ s.length := by
  unfold strip
  split_ifs
  · exact List.length_filter_le _ _
  · exact le_rfl

/-- What the range function reads of a sign and digits, the minus only in base 10. -/
theorem strToIntRange_eq {T : IntegerType} {v : ℤ} (hv : T.min ≤ v ∧ v ≤ T.max) (hbase : v < 0 → base = 10)
    {thSep : UInt8} (hsep : base = 10 → isDigitOf 10 thSep = false ∧ thSep ≠ '-'.toUInt8)
    {s : List UInt8} (hlen : ((if v < 0 then ['-'.toUInt8] else []) ++ s).length ≤ 66)
    (hhead : ∃ ch ∈ s.head?, isDigitOf base ch = true)
    (hstrip : ∀ ch ∈ strip base thSep s, isDigitOf base ch = true)
    (hnumber : number base (strip base thSep s) = v.natAbs) :
    strToIntRange T ((if v < 0 then ['-'.toUInt8] else []) ++ s) base thSep = some v := by
  have hother : ∀ ch, isDigitOf base ch = false → s.head? ≠ some ch := by
    obtain ⟨d, hd, hdigit⟩ := hhead
    intro ch hch h
    rw [Option.mem_def.mp hd] at h
    rw [Option.some.inj h, hch] at hdigit
    cases hdigit
  have hnil : (if v < 0 then ['-'.toUInt8] else []) ++ s ≠ [] := by
    rw [ne_eq, List.append_eq_nil_iff]
    rintro ⟨-, rfl⟩
    obtain ⟨d, hd, -⟩ := hhead
    cases hd
  have hminus : ¬(((if v < 0 then ['-'.toUInt8] else []) ++ s).head? = some '-'.toUInt8 ∧
      (base ≠ 10 ∨ T.signed = false)) := by
    rintro ⟨h, hbad⟩
    by_cases hneg : v < 0
    · rw [hbase hneg, signed_of_neg hv hneg] at hbad
      simp at hbad
    · rw [if_neg hneg, List.nil_append] at h
      exact hother _ rfl h
  have hplus : ¬(((if v < 0 then ['-'.toUInt8] else []) ++ s).head? = some '+'.toUInt8) := by
    split_ifs
    · intro h
      cases h
    · exact hother _ rfl
  have hfits : ((if v < 0 then ['-'.toUInt8] else []) ++ strip base thSep s).length ≤
      POCO_MAX_INT_STRING_LEN - 1 := by
    have hle := @length_strip_le base thSep s
    have hmax : POCO_MAX_INT_STRING_LEN = 67 := rfl
    rw [List.length_append] at hlen ⊢
    omega
  rw [strToIntRange_readStart, if_neg hnil, if_neg hminus, if_neg hplus,
    readStart_eq (by rwa [signed_natAbs]) (signed_of_neg hv) hsep (Or.inr hfits) hhead hstrip hnumber,
    signed_natAbs]

theorem filter_groups {sep : UInt8} {l : List UInt8} (hl : ∀ ch ∈ l, ch ≠ sep) :
    (groups sep l).filter (· ≠ sep) = l := by
  fun_induction groups sep l with
  | case1 a b c d s ih =>
      simp only [List.forall_mem_cons] at hl
      have hrest := ih (by simpa using hl.2.2.2)
      rw [List.filter_cons, if_pos (decide_eq_true hl.1), List.filter_cons, if_pos (decide_eq_true hl.2.1),
        List.filter_cons, if_pos (decide_eq_true hl.2.2.1), List.filter_cons, if_neg (by simp), hrest]
  | case2 s h =>
      rw [List.filter_eq_self]
      intro ch hch
      exact decide_eq_true (hl ch hch)

/-- The digits are those of the number, also with separators. -/
theorem strip_numeral {thSep : UInt8} (hone : 1 < base) (hle : base ≤ 16)
    (hsep : base = 10 → isDigitOf 10 thSep = false) (lowercase : Bool) (n : ℕ) :
    strip base thSep (numeral base n thSep lowercase) =
      ((places base n).map (digitChar lowercase)).reverse := by
  rw [strip, numeral]
  split_ifs with h
  · rw [List.filter_reverse, filter_groups]
    rintro ch hch rfl
    have hdigit := isDigitOf_places hone hle lowercase n ch hch
    rw [h.1, hsep h.1] at hdigit
    cases hdigit
  · rfl

theorem getLast?_groups {α : Type} (sep : α) (l : List α) : (groups sep l).getLast? = l.getLast? := by
  fun_induction groups sep l with
  | case1 a b c d s ih =>
      obtain ⟨e, t, hgroups⟩ : ∃ e t, groups sep (d :: s) = e :: t := by
        cases hg : groups sep (d :: s) with
        | nil =>
            rw [hg, List.getLast?_nil, List.getLast?_cons] at ih
            cases ih
        | cons e t => exact ⟨e, t, rfl⟩
      rw [hgroups] at ih ⊢
      rw [List.getLast?_cons_cons, List.getLast?_cons_cons, List.getLast?_cons_cons, List.getLast?_cons_cons, ih,
        List.getLast?_cons_cons, List.getLast?_cons_cons, List.getLast?_cons_cons]
  | case2 s h => rfl

theorem head?_numeral (thSep : UInt8) (hone : 1 < base) (hle : base ≤ 16) (lowercase : Bool) (n : ℕ) :
    ∃ ch ∈ (numeral base n thSep lowercase).head?, isDigitOf base ch = true := by
  have hdigits := isDigitOf_places hone hle lowercase n
  have hhead : (numeral base n thSep lowercase).head? = ((places base n).map (digitChar lowercase)).getLast? := by
    rw [numeral, List.head?_reverse]
    split_ifs
    · exact getLast?_groups thSep _
    · rfl
  have hne : (places base n).map (digitChar lowercase) ≠ [] := by
    rw [ne_eq, List.map_eq_nil_iff]
    exact places_ne_nil hone n
  rw [hhead, List.getLast?_eq_some_getLast hne]
  exact ⟨_, rfl, hdigits _ (List.getLast_mem hne)⟩

theorem isSpace_of_isDigitOf {ch : UInt8} (h : isDigitOf base ch = true) : Hex.isSpace ch = false := by
  have hall : ∀ ch : UInt8, ((hexDigit? ch).isSome && Hex.isSpace ch) = false := by
    apply forall_byte
    decide +kernel
  have hsome : (hexDigit? ch).isSome = true := by
    unfold isDigitOf at h
    split at h
    · rename_i heq
      rw [heq]
      rfl
    · cases h
  have := hall ch
  rwa [hsome, Bool.true_and] at this

/-- A text that begins with a digit or the minus sign has no spaces in front. -/
theorem dropWhile_sign {v : ℤ} {s : List UInt8} (hhead : ∃ ch ∈ s.head?, isDigitOf base ch = true) :
    ((if v < 0 then ['-'.toUInt8] else []) ++ s).dropWhile Hex.isSpace =
      (if v < 0 then ['-'.toUInt8] else []) ++ s := by
  obtain ⟨d, hd, hdigit⟩ := hhead
  split_ifs
  · rfl
  · cases s with
    | nil => cases hd
    | cons c t =>
        obtain rfl : c = d := Option.some.inj hd
        rw [List.nil_append, List.dropWhile_cons_of_neg (by rw [isSpace_of_isDigitOf hdigit]; decide)]

end

end NumericString

end Poco.Foundation
