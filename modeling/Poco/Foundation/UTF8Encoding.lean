import Poco.Lib.Unicode
import Mathlib.Algebra.Order.Ring.Int
import Mathlib.Tactic.IntervalCases

/-! # `UTF8Encoding`

The class decides by the first byte how long a sequence is (`_charMap`), checks it in `isLegal` and
assembles the scalar value six bits at a time; `convert` and `queryConvert` do this for a pointer
without and with a length, and a second `convert` writes the bytes of a scalar value.

The accepted sequences are those of `Poco.Lib.Encodes` (`isLegal_of_encodes`, `exists_encodes`), and
from this follows that the class implements UTF-8 as Unicode defines it (`accepts_wellFormed`). -/

namespace Poco.Foundation

open Poco.Lib

/-- `bytes[i]`; nothing is read behind the last byte, where this is zero. -/
def byteAt (bytes : List UInt8) (i : ℕ) : UInt8 := bytes.getD i 0

/-- How a `convert(ch, bytes, length)` ends that has found the bytes `bs` of the character: it
returns their number, and writes them if there is room. -/
def store (length : ℤ) (bs : List UInt8) : ℤ × List UInt8 :=
  (bs.length, if length ≥ bs.length then bs else [])

theorem store_of_le {length : ℤ} {bs : List UInt8} (h : bs.length ≤ length) :
    store length bs = ((bs.length : ℤ), bs) := by
  rw [store, if_pos h]

namespace UTF8Encoding

/-- The table `UTF8Encoding::_charMap`. -/
def _charMap (b : UInt8) : ℤ :=
  if b ≤ 0x7F then b.toNat
  else if b ≤ 0xBF then -1
  else if b ≤ 0xDF then -2
  else if b ≤ 0xEF then -3
  else if b ≤ 0xF7 then -4
  else -1

/-- The `switch` on the first byte in `isLegal`, for the second byte `a`. -/
def isLegalSecond (first a : UInt8) : Bool :=
  if first = 0xE0 then !(a < 0xA0 || a > 0xBF)
  else if first = 0xED then !(a < 0x80 || a > 0x9F)
  else if first = 0xF0 then !(a < 0x90 || a > 0xBF)
  else if first = 0xF4 then !(a < 0x80 || a > 0x8F)
  else !(a < 0x80 || a > 0xBF)

/-- What remains of `isLegal` from `case 1` on. -/
def isLegalFirst (first : UInt8) : Bool :=
  !(first ≥ 0x80 && first < 0xC2) && first ≤ 0xF4

/-- `isLegal(bytes, length)`; every case of the `switch` falls through to the next. -/
def isLegal (bytes : List UInt8) (length : ℕ) : Bool :=
  let trails (a : UInt8) : Bool := !(a < 0x80 || a > 0xBF)
  let first := byteAt bytes 0
  match length with
  | 1 => isLegalFirst first
  | 2 => isLegalSecond first (byteAt bytes 1) && isLegalFirst first
  | 3 => trails (byteAt bytes 2) && isLegalSecond first (byteAt bytes 1) && isLegalFirst first
  | 4 => trails (byteAt bytes 3) && trails (byteAt bytes 2) && isLegalSecond first (byteAt bytes 1) &&
      isLegalFirst first
  | _ => false

/-- The loop that assembles the scalar value: `k` more bytes follow the current one. -/
def assemble : ℕ → ℕ → List UInt8 → ℕ
  | 0, uc, _ => uc
  | k + 1, uc, bytes =>
      assemble k ((uc <<< 6) ||| (byteAt bytes 1 &&& 0x3F).toNat) bytes.tail

/-- The `switch` and the loop that `convert` and `queryConvert` have in common. -/
def convertSequence (bytes : List UInt8) (n : ℤ) : ℤ :=
  if n = -4 ∨ n = -3 ∨ n = -2 then
    if isLegal bytes (-n).toNat then
      assemble (-n - 1).toNat
        ((byteAt bytes 0).toNat &&& ((0x07 <<< (n + 4).toNat) ||| 0x03)) bytes
    else -1
  else n

/-- `convert(bytes)`. -/
def convert (bytes : List UInt8) : ℤ := convertSequence bytes (_charMap (byteAt bytes 0))

/-- `queryConvert(bytes, length)`. -/
def queryConvert (bytes : List UInt8) (length : ℤ) : ℤ :=
  let n := _charMap (byteAt bytes 0)
  if -n > length then n else convertSequence bytes n

/-- `sequenceLength(bytes, length)`. -/
def sequenceLength (bytes : List UInt8) (length : ℤ) : ℤ :=
  if 1 ≤ length then
    let cc := _charMap (byteAt bytes 0)
    if cc ≥ 0 then 1 else -cc
  else -1

/-- `convert(ch, bytes, length)`: the result, and the bytes that are written. -/
def convertChar (ch length : ℤ) : ℤ × List UInt8 :=
  let u := ch.toNat
  if ch ≤ 0x7F then store length [UInt8.ofInt ch]
  else if ch ≤ 0x7FF then
    store length
      [UInt8.ofNat (((u >>> 6) &&& 0x1F) ||| 0xC0), UInt8.ofNat ((u &&& 0x3F) ||| 0x80)]
  else if ch ≤ 0xFFFF then
    store length
      [UInt8.ofNat (((u >>> 12) &&& 0x0F) ||| 0xE0), UInt8.ofNat (((u >>> 6) &&& 0x3F) ||| 0x80),
        UInt8.ofNat ((u &&& 0x3F) ||| 0x80)]
  else if ch ≤ 0x10FFFF then
    store length
      [UInt8.ofNat (((u >>> 18) &&& 0x07) ||| 0xF0), UInt8.ofNat (((u >>> 12) &&& 0x3F) ||| 0x80),
        UInt8.ofNat (((u >>> 6) &&& 0x3F) ||| 0x80), UInt8.ofNat ((u &&& 0x3F) ||| 0x80)]
  else (0, [])

/-! ### Bits and digits -/

theorem shiftLeft_or (uc : ℕ) (b : UInt8) :
    (uc <<< 6) ||| (b &&& 0x3F).toNat = uc * 64 + b.toNat % 64 := by
  have hmask : (b &&& 0x3F).toNat = b.toNat % 64 := by
    rw [UInt8.toNat_and]
    exact Nat.and_two_pow_sub_one_eq_mod b.toNat 6
  rw [hmask, ← Nat.shiftLeft_add_eq_or_of_lt (Nat.mod_lt _ (by decide)), Nat.shiftLeft_eq]

/-- The low bits of a number below a mark, as the leading and trailing bytes have them. -/
theorem and_or_mark {k mark : ℕ} (hmark : ∀ d < 2 ^ k, d ||| mark = mark + d) (n : ℕ) :
    (n &&& (2 ^ k - 1)) ||| mark = mark + n % 2 ^ k := by
  rw [Nat.and_two_pow_sub_one_eq_mod]
  exact hmark _ (Nat.mod_lt _ (by positivity))

theorem or_mark_two (n : ℕ) : (n &&& 0x1F) ||| 0xC0 = 0xC0 + n % 32 :=
  and_or_mark (k := 5) (by decide) n

theorem or_mark_three (n : ℕ) : (n &&& 0x0F) ||| 0xE0 = 0xE0 + n % 16 :=
  and_or_mark (k := 4) (by decide) n

theorem or_mark_four (n : ℕ) : (n &&& 0x07) ||| 0xF0 = 0xF0 + n % 8 :=
  and_or_mark (k := 3) (by decide) n

theorem or_mark_trailing (n : ℕ) : (n &&& 0x3F) ||| 0x80 = 0x80 + n % 64 :=
  and_or_mark (k := 6) (by decide) n

theorem ofNat_eq_of_toNat {n : ℕ} {b : UInt8} (h : b.toNat = n) : UInt8.ofNat n = b := by
  rw [← h, UInt8.ofNat_toNat]

theorem ofInt_natCast (n : ℕ) : UInt8.ofInt n = UInt8.ofNat n := by
  rw [UInt8.ofInt, ← UInt8.toNat_inj, UInt8.toNat_ofNat', UInt8.toNat_ofNat']
  omega

/-! ### Encoding -/

/-- The bytes of a scalar value as `convert` computes them. -/
theorem convertChar_of_encodes {v : ℕ} {bs : List UInt8} {length : ℤ} (h : Encodes v bs)
    (hlen : bs.length ≤ length) : convertChar v length = ((bs.length : ℤ), bs) := by
  rw [← store_of_le hlen]
  cases h with
  | one hv ha =>
      rw [convertChar, if_pos (by omega), ofInt_natCast, ofNat_eq_of_toNat ha]
  | @two a b hlo hhi ha hb =>
      have ha' : a.toNat = 0xC0 + v / 2 ^ 6 % 32 := by omega
      rw [convertChar, if_neg (by omega), if_pos (by omega)]
      simp only [Int.toNat_natCast, or_mark_two, or_mark_trailing, Nat.shiftRight_eq_div_pow]
      rw [ofNat_eq_of_toNat ha', ofNat_eq_of_toNat hb]
  | @three a b c hlo hhi hsur ha hb hc =>
      have ha' : a.toNat = 0xE0 + v / 2 ^ 12 % 16 := by omega
      rw [convertChar, if_neg (by omega), if_neg (by omega), if_pos (by omega)]
      simp only [Int.toNat_natCast, or_mark_three, or_mark_trailing, Nat.shiftRight_eq_div_pow]
      rw [ofNat_eq_of_toNat ha', ofNat_eq_of_toNat hb, ofNat_eq_of_toNat hc]
  | @four a b c d hlo hhi ha hb hc hd =>
      have ha' : a.toNat = 0xF0 + v / 2 ^ 18 % 8 := by omega
      rw [convertChar, if_neg (by omega), if_neg (by omega), if_neg (by omega), if_pos (by omega)]
      simp only [Int.toNat_natCast, or_mark_four, or_mark_trailing, Nat.shiftRight_eq_div_pow]
      rw [ofNat_eq_of_toNat ha', ofNat_eq_of_toNat hb, ofNat_eq_of_toNat hc,
        ofNat_eq_of_toNat hd]

/-! ### Decoding -/


/-- What the table has for the first byte, in terms of its number. -/
theorem _charMap_eq (b : UInt8) :
    _charMap b = if b.toNat ≤ 0x7F then (b.toNat : ℤ) else if b.toNat ≤ 0xBF then -1
      else if b.toNat ≤ 0xDF then -2 else if b.toNat ≤ 0xEF then -3
      else if b.toNat ≤ 0xF7 then -4 else -1 := by
  simp only [_charMap, UInt8.le_iff_toNat_le]
  rfl

theorem isLegalFirst_iff (b : UInt8) :
    isLegalFirst b = true ↔ b.toNat ≤ 0x7F ∨ 0xC2 ≤ b.toNat ∧ b.toNat ≤ 0xF4 := by
  have h := b.toNat_lt
  simp only [isLegalFirst, ge_iff_le, UInt8.le_iff_toNat_le, UInt8.lt_iff_toNat_lt,
    Bool.and_eq_true, Bool.not_eq_true', Bool.and_eq_false_iff, decide_eq_true_eq,
    decide_eq_false_iff_not]
  simp only [UInt8.reduceToNat]
  omega

/-- The range `isLegalSecond` allows for the second byte. -/
theorem isLegalSecond_iff (first a : UInt8) :
    isLegalSecond first a = true ↔
      0x80 ≤ a.toNat ∧ a.toNat ≤ 0xBF ∧ (first.toNat = 0xE0 → 0xA0 ≤ a.toNat) ∧
        (first.toNat = 0xED → a.toNat ≤ 0x9F) ∧ (first.toNat = 0xF0 → 0x90 ≤ a.toNat) ∧
        (first.toNat = 0xF4 → a.toNat ≤ 0x8F) := by
  simp only [isLegalSecond, ← UInt8.toNat_inj, gt_iff_lt, UInt8.lt_iff_toNat_lt]
  simp only [UInt8.reduceToNat]
  split_ifs <;> simp <;> omega

/-- A byte behind the second one has to be a trailing byte. -/
theorem not_outside_iff (a : UInt8) :
    (!(decide (a < 0x80) || decide (a > 0xBF))) = true ↔ 0x80 ≤ a.toNat ∧ a.toNat ≤ 0xBF := by
  simp only [gt_iff_lt, UInt8.lt_iff_toNat_lt, UInt8.reduceToNat]
  simp

section

variable (bytes : List UInt8)

theorem byteAt_tail (i : ℕ) : byteAt bytes.tail i = byteAt bytes (i + 1) := by
  cases bytes <;> rfl

theorem convertSequence_neg {k : ℕ} (hk : k = 2 ∨ k = 3 ∨ k = 4) :
    convertSequence bytes (-k) = if isLegal bytes k then
      ((assemble (k - 1) ((byteAt bytes 0).toNat % 2 ^ (7 - k)) bytes : ℕ) : ℤ) else -1 := by
  have hlength : (- -(k : ℤ)).toNat = k := by omega
  have hloop : (- -(k : ℤ) - 1).toNat = k - 1 := by omega
  have hmask : (0x07 <<< (-(k : ℤ) + 4).toNat) ||| 0x03 = 2 ^ (7 - k) - 1 := by
    rcases hk with rfl | rfl | rfl <;> rfl
  rw [convertSequence, if_pos (by omega), hlength, hloop, hmask, Nat.and_two_pow_sub_one_eq_mod]

theorem isLegal_two_iff :
    isLegal bytes 2 = true ↔ isLegalSecond (byteAt bytes 0) (byteAt bytes 1) = true ∧
      isLegalFirst (byteAt bytes 0) = true := by
  simp only [isLegal, Bool.and_eq_true]

theorem isLegal_three_iff :
    isLegal bytes 3 = true ↔ (0x80 ≤ (byteAt bytes 2).toNat ∧ (byteAt bytes 2).toNat ≤ 0xBF) ∧
      isLegal bytes 2 = true := by
  simp only [isLegal, Bool.and_eq_true, not_outside_iff, and_assoc]

theorem isLegal_four_iff :
    isLegal bytes 4 = true ↔ (0x80 ≤ (byteAt bytes 3).toNat ∧ (byteAt bytes 3).toNat ≤ 0xBF) ∧
      isLegal bytes 3 = true := by
  simp only [isLegal, Bool.and_eq_true, not_outside_iff, and_assoc]

end

/-- The first byte announces the length of the sequence of a scalar value. -/
theorem _charMap_of_encodes {v : ℕ} {bs : List UInt8} (h : Encodes v bs) (rest : List UInt8) :
    _charMap (byteAt (bs ++ rest) 0) = if bs.length = 1 then (v : ℤ) else -bs.length := by
  cases h with
  | @one a hv ha =>
      show _charMap a = v
      rw [_charMap_eq, if_pos (by omega), ha]
  | @two a b hlo hhi ha hb =>
      show _charMap a = -2
      rw [_charMap_eq, if_neg (by omega), if_neg (by omega), if_pos (by omega)]
  | @three a b c hlo hhi hsur ha hb hc =>
      show _charMap a = -3
      rw [_charMap_eq, if_neg (by omega), if_neg (by omega), if_neg (by omega), if_pos (by omega)]
  | @four a b c d hlo hhi ha hb hc hd =>
      show _charMap a = -4
      rw [_charMap_eq, if_neg (by omega), if_neg (by omega), if_neg (by omega), if_neg (by omega),
        if_pos (by omega)]

theorem isLegal_of_encodes {v : ℕ} {bs : List UInt8} (h : Encodes v bs) (rest : List UInt8) :
    isLegal (bs ++ rest) bs.length = true := by
  cases h with
  | @one a hv ha =>
      show isLegalFirst a = true
      rw [isLegalFirst_iff]
      omega
  | @two a b hlo hhi ha hb =>
      show isLegal (a :: b :: rest) 2 = true
      rw [isLegal_two_iff, isLegalSecond_iff, isLegalFirst_iff]
      simp only [byteAt, List.getD_cons_zero, List.getD_cons_succ]
      omega
  | @three a b c hlo hhi hsur ha hb hc =>
      show isLegal (a :: b :: c :: rest) 3 = true
      rw [isLegal_three_iff, isLegal_two_iff, isLegalSecond_iff, isLegalFirst_iff]
      simp only [byteAt, List.getD_cons_zero, List.getD_cons_succ]
      omega
  | @four a b c d hlo hhi ha hb hc hd =>
      show isLegal (a :: b :: c :: d :: rest) 4 = true
      rw [isLegal_four_iff, isLegal_three_iff, isLegal_two_iff, isLegalSecond_iff, isLegalFirst_iff]
      simp only [byteAt, List.getD_cons_zero, List.getD_cons_succ]
      omega

theorem convertSequence_of_encodes {v : ℕ} {bs : List UInt8} (h : Encodes v bs) (rest : List UInt8) :
    convertSequence (bs ++ rest) (if bs.length = 1 then (v : ℤ) else -bs.length) = v := by
  have hlegal := isLegal_of_encodes h rest
  cases h with
  | @one a hv ha =>
      show convertSequence _ (v : ℤ) = v
      rw [convertSequence, if_neg (by omega)]
  | @two a b hlo hhi ha hb =>
      show convertSequence (a :: b :: rest) (-(2 : ℕ)) = v
      change isLegal (a :: b :: rest) 2 = true at hlegal
      rw [convertSequence_neg _ (by decide), if_pos hlegal]
      simp only [assemble, shiftLeft_or, byteAt, List.getD_cons_zero, List.getD_cons_succ]
      omega
  | @three a b c hlo hhi hsur ha hb hc =>
      show convertSequence (a :: b :: c :: rest) (-(3 : ℕ)) = v
      change isLegal (a :: b :: c :: rest) 3 = true at hlegal
      rw [convertSequence_neg _ (by decide), if_pos hlegal]
      simp only [assemble, shiftLeft_or, byteAt, List.tail_cons, List.getD_cons_zero,
        List.getD_cons_succ]
      omega
  | @four a b c d hlo hhi ha hb hc hd =>
      show convertSequence (a :: b :: c :: d :: rest) (-(4 : ℕ)) = v
      change isLegal (a :: b :: c :: d :: rest) 4 = true at hlegal
      rw [convertSequence_neg _ (by decide), if_pos hlegal]
      simp only [assemble, shiftLeft_or, byteAt, List.tail_cons, List.getD_cons_zero,
        List.getD_cons_succ]
      omega

theorem sequenceLength_eq (bytes : List UInt8) {length : ℤ} (hlength : 1 ≤ length) :
    sequenceLength bytes length = if (byteAt bytes 0).toNat ≤ 0xBF then 1
      else if (byteAt bytes 0).toNat ≤ 0xDF then 2 else if (byteAt bytes 0).toNat ≤ 0xEF then 3
      else if (byteAt bytes 0).toNat ≤ 0xF7 then 4 else 1 := by
  rw [sequenceLength, if_pos hlength, _charMap_eq]
  dsimp only
  split_ifs <;> omega

section

variable {rest : List UInt8} {a b c d : UInt8}

/-! A legal sequence is the sequence of the value that its bits make up. -/

theorem encodes_of_isLegal_one (h : isLegal (a :: rest) 1 = true)
    (ha : a.toNat ≤ 0xBF ∨ 0xF8 ≤ a.toNat) : Encodes a.toNat [a] := by
  change isLegalFirst a = true at h
  rw [isLegalFirst_iff] at h
  exact .one (by omega) rfl

theorem encodes_of_isLegal_two (h : isLegal (a :: b :: rest) 2 = true)
    (ha : 0xC0 ≤ a.toNat ∧ a.toNat ≤ 0xDF) :
    Encodes (a.toNat % 32 * 64 + b.toNat % 64) [a, b] := by
  rw [isLegal_two_iff, isLegalSecond_iff, isLegalFirst_iff] at h
  simp only [byteAt, List.getD_cons_zero, List.getD_cons_succ] at h
  exact .two (by omega) (by omega) (by omega) (by omega)

theorem encodes_of_isLegal_three (h : isLegal (a :: b :: c :: rest) 3 = true)
    (ha : 0xE0 ≤ a.toNat ∧ a.toNat ≤ 0xEF) :
    Encodes ((a.toNat % 16 * 64 + b.toNat % 64) * 64 + c.toNat % 64) [a, b, c] := by
  rw [isLegal_three_iff, isLegal_two_iff, isLegalSecond_iff] at h
  simp only [byteAt, List.getD_cons_zero, List.getD_cons_succ] at h
  exact .three (by omega) (by omega) (by omega) (by omega) (by omega) (by omega)

theorem encodes_of_isLegal_four (h : isLegal (a :: b :: c :: d :: rest) 4 = true)
    (ha : 0xF0 ≤ a.toNat ∧ a.toNat ≤ 0xF7) :
    Encodes (((a.toNat % 8 * 64 + b.toNat % 64) * 64 + c.toNat % 64) * 64 + d.toNat % 64)
      [a, b, c, d] := by
  rw [isLegal_four_iff, isLegal_three_iff, isLegal_two_iff, isLegalSecond_iff, isLegalFirst_iff] at h
  simp only [byteAt, List.getD_cons_zero, List.getD_cons_succ] at h
  exact .four (by omega) (by omega) (by omega) (by omega) (by omega) (by omega)

end

/-- A legal sequence that is there in full is the sequence of a scalar value. -/
theorem exists_encodes {bytes : List UInt8} (hne : bytes ≠ [])
    (hlen : sequenceLength bytes bytes.length ≤ bytes.length)
    (hlegal : isLegal bytes (sequenceLength bytes bytes.length).toNat = true) :
    ∃ v bs, Encodes v bs ∧ bs <+: bytes := by
  have hpos := List.length_pos_iff.mpr hne
  obtain ⟨a, rest, rfl⟩ := List.exists_cons_of_ne_nil hne
  have hlength := sequenceLength_eq (a :: rest) (show 1 ≤ ((a :: rest).length : ℤ) by omega)
  rw [show byteAt (a :: rest) 0 = a from rfl] at hlength
  split_ifs at hlength with h₁ h₂ h₃ h₄
  · rw [hlength] at hlegal
    exact ⟨_, _, encodes_of_isLegal_one hlegal (.inl h₁), rest, rfl⟩
  · rw [hlength] at hlegal hlen
    match rest, hlen with
    | b :: rest, _ => exact ⟨_, _, encodes_of_isLegal_two hlegal (by omega), rest, rfl⟩
  · rw [hlength] at hlegal hlen
    match rest, hlen with
    | b :: c :: rest, _ => exact ⟨_, _, encodes_of_isLegal_three hlegal (by omega), rest, rfl⟩
  · rw [hlength] at hlegal hlen
    match rest, hlen with
    | b :: c :: d :: rest, _ => exact ⟨_, _, encodes_of_isLegal_four hlegal (by omega), rest, rfl⟩
  · rw [hlength] at hlegal
    exact ⟨_, _, encodes_of_isLegal_one hlegal (.inr (by omega)), rest, rfl⟩

/-! ### Unicode's definition

A byte sequence is well formed if it is the sequence of a character; what a function accepts is such
a sequence at the beginning of its bytes. -/

/-- A code unit sequence of Unicode's UTF-8. -/
def WellFormed (bytes : List UInt8) : Prop := ∃ c : Char, String.utf8EncodeChar c = bytes

/-- The bytes begin with the sequence of the character. -/
def Leads (c : Char) (bytes : List UInt8) : Prop := String.utf8EncodeChar c <+: bytes

section

variable {bytes : List UInt8} {c : Char}

theorem Leads.ne_nil (h : Leads c bytes) : bytes ≠ [] := by
  rintro rfl
  exact String.utf8EncodeChar_ne_nil (List.prefix_nil.mp h)

theorem Leads._charMap_eq (h : Leads c bytes) :
    _charMap (byteAt bytes 0) =
      if (String.utf8EncodeChar c).length = 1 then (c.toNat : ℤ)
      else -(String.utf8EncodeChar c).length := by
  obtain ⟨rest, rfl⟩ := h
  exact _charMap_of_encodes (encodes_utf8EncodeChar c) rest

theorem length_utf8EncodeChar_pos (c : Char) : 0 < (String.utf8EncodeChar c).length :=
  List.length_pos_iff.mpr String.utf8EncodeChar_ne_nil

theorem Leads.sequenceLength_eq (h : Leads c bytes) {n : ℤ} (hn : 1 ≤ n) :
    sequenceLength bytes n = (String.utf8EncodeChar c).length := by
  have hpos := length_utf8EncodeChar_pos c
  rw [sequenceLength, if_pos hn, h._charMap_eq]
  dsimp only
  split_ifs <;> omega

theorem Leads.convertSequence_eq (h : Leads c bytes) :
    convertSequence bytes (_charMap (byteAt bytes 0)) = c.toNat := by
  rw [h._charMap_eq]
  obtain ⟨rest, rfl⟩ := h
  exact convertSequence_of_encodes (encodes_utf8EncodeChar c) rest

theorem isLegal_iff_leads (hne : bytes ≠ [])
    (hlen : sequenceLength bytes bytes.length ≤ bytes.length) :
    isLegal bytes (sequenceLength bytes bytes.length).toNat = true ↔ ∃ c, Leads c bytes := by
  have hpos := List.length_pos_iff.mpr hne
  constructor
  · intro hlegal
    obtain ⟨v, bs, hv, hbs⟩ := exists_encodes hne hlen hlegal
    obtain ⟨c, rfl, rfl⟩ := encodes_iff.mp hv
    exact ⟨c, hbs⟩
  · rintro ⟨c, h⟩
    rw [h.sequenceLength_eq (by omega), Int.toNat_natCast]
    obtain ⟨rest, rfl⟩ := h
    exact isLegal_of_encodes (encodes_utf8EncodeChar c) rest

/-- A sequence that is there in full and is not well formed is rejected. -/
theorem convertSequence_of_not_leads (hne : bytes ≠ [])
    (hlen : sequenceLength bytes bytes.length ≤ bytes.length) (h : ¬∃ c, Leads c bytes) :
    convertSequence bytes (_charMap (byteAt bytes 0)) = -1 := by
  have hpos := List.length_pos_iff.mpr hne
  rw [← isLegal_iff_leads hne hlen, sequenceLength, if_pos (by omega)] at h
  dsimp only at h
  rcases lt_or_ge (_charMap (byteAt bytes 0)) 0 with hm | hm
  · rw [if_neg (by omega)] at h
    rw [convertSequence, if_neg h, ite_eq_left_iff]
    intro hn
    have hmap := _charMap_eq (byteAt bytes 0)
    split_ifs at hmap <;> omega
  · -- a byte that stands for itself is legal
    rw [if_pos hm] at h
    change ¬isLegalFirst (byteAt bytes 0) = true at h
    have hmap := _charMap_eq (byteAt bytes 0)
    rw [isLegalFirst_iff] at h
    split_ifs at hmap <;> omega

/-- The characters a `convert` or `queryConvert` that has enough bytes finds. -/
theorem convertSequence_eq_iff (hne : bytes ≠ [])
    (hlen : sequenceLength bytes bytes.length ≤ bytes.length) {v : ℤ} (hv : 0 ≤ v) :
    convertSequence bytes (_charMap (byteAt bytes 0)) = v ↔ ∃ c, Leads c bytes ∧ (c.toNat : ℤ) = v := by
  constructor
  · intro h
    by_cases hc : ∃ c, Leads c bytes
    · obtain ⟨c, hc⟩ := hc
      exact ⟨c, hc, by rw [← h, hc.convertSequence_eq]⟩
    · rw [convertSequence_of_not_leads hne hlen hc] at h
      omega
  · rintro ⟨c, hc, rfl⟩
    exact hc.convertSequence_eq

end

/-- The bytes before the end of a sequence ask for all of it. -/
theorem queryConvert_of_take {bytes : List UInt8} {c : Char} {n : ℕ} (hpos : 0 < n)
    (hn : n < (String.utf8EncodeChar c).length)
    (h : bytes.take n = (String.utf8EncodeChar c).take n) :
    queryConvert bytes n = -(String.utf8EncodeChar c).length := by
  have hfirst : byteAt bytes 0 = byteAt (String.utf8EncodeChar c) 0 := by
    have hget := congrArg (fun l => l[0]?) h
    simp only [List.getElem?_take, hpos, if_true] at hget
    simp only [byteAt, List.getD_eq_getElem?_getD, hget]
  have hmap := Leads._charMap_eq (List.prefix_refl (String.utf8EncodeChar c))
  rw [if_neg (by omega)] at hmap
  rw [queryConvert, hfirst, hmap, if_pos (by omega)]

section

variable {bytes : List UInt8} {n : ℕ}

theorem leads_take_iff {c : Char} :
    Leads c (bytes.take n) ↔ Leads c bytes ∧ (String.utf8EncodeChar c).length ≤ n :=
  List.prefix_take_iff

/-- With all of the announced sequence `queryConvert` does what `convert` does. -/
theorem queryConvert_of_le (hpos : 0 < n) (h : sequenceLength bytes n ≤ n) :
    queryConvert bytes n = convertSequence bytes (_charMap (byteAt bytes 0)) := by
  rw [sequenceLength, if_pos (by omega)] at h
  dsimp only at h
  rw [queryConvert, if_neg (by split_ifs at h <;> omega)]

/-- With less than the announced sequence `queryConvert` asks for it. -/
theorem queryConvert_of_lt (hpos : 0 < n) (h : n < sequenceLength bytes n) :
    queryConvert bytes n = -sequenceLength bytes n := by
  rw [sequenceLength, if_pos (by omega)] at h ⊢
  dsimp only at h ⊢
  split_ifs at h ⊢ <;> first | omega | rw [queryConvert, if_pos (by omega)]; omega

/-- The number of bytes only matters to the announced length if there are none. -/
theorem sequenceLength_congr {m n : ℤ} (hm : 1 ≤ m) (hn : 1 ≤ n) :
    sequenceLength bytes m = sequenceLength bytes n := by
  rw [sequenceLength, sequenceLength, if_pos hm, if_pos hn]

/-- `queryConvert` accepts the well-formed sequences and returns their scalar values. -/
theorem queryConvert_eq_iff (hpos : 0 < n) (hn : n ≤ bytes.length) {v : ℤ} (hv : 0 ≤ v) :
    queryConvert bytes n = v ↔ ∃ c, Leads c (bytes.take n) ∧ (c.toNat : ℤ) = v := by
  have hne : bytes ≠ [] := List.length_pos_iff.mp (by omega)
  have hlength : sequenceLength bytes n = sequenceLength bytes bytes.length :=
    sequenceLength_congr (by omega) (by omega)
  by_cases hle : sequenceLength bytes n ≤ n
  · rw [queryConvert_of_le hpos hle, convertSequence_eq_iff hne (by omega) hv]
    refine exists_congr fun c => and_congr_left fun _ => ?_
    rw [leads_take_iff, iff_self_and]
    intro hc
    rw [hc.sequenceLength_eq (by omega)] at hle
    omega
  · rw [queryConvert_of_lt hpos (by omega)]
    constructor
    · intro h
      omega
    · rintro ⟨c, hc, -⟩
      rw [leads_take_iff] at hc
      rw [hc.1.sequenceLength_eq (by omega)] at hle
      omega

/-- A sequence that is there in full and is not well formed is malformed. -/
theorem queryConvert_eq_neg_one (hpos : 0 < n) (hn : n ≤ bytes.length)
    (hle : sequenceLength bytes n ≤ n) (h : ¬∃ c, Leads c (bytes.take n)) :
    queryConvert bytes n = -1 := by
  have hne : bytes ≠ [] := List.length_pos_iff.mp (by omega)
  have hlength : sequenceLength bytes n = sequenceLength bytes bytes.length :=
    sequenceLength_congr (by omega) (by omega)
  rw [queryConvert_of_le hpos hle]
  refine convertSequence_of_not_leads hne (by omega) ?_
  rintro ⟨c, hc⟩
  refine h ⟨c, leads_take_iff.mpr ⟨hc, ?_⟩⟩
  rw [hc.sequenceLength_eq (by omega)] at hle
  omega

end

/-! ### Round trips -/

theorem convertChar_toNat (c : Char) :
    convertChar c.toNat 4 = (((String.utf8EncodeChar c).length : ℤ), String.utf8EncodeChar c) := by
  refine convertChar_of_encodes (encodes_utf8EncodeChar c) ?_
  have h := c.utf8Size_le_four
  rw [String.length_utf8EncodeChar]
  omega

theorem convert_utf8EncodeChar (c : Char) : convert (String.utf8EncodeChar c) = c.toNat :=
  Leads.convertSequence_eq (List.prefix_refl (String.utf8EncodeChar c))

theorem queryConvert_utf8EncodeChar (c : Char) :
    queryConvert (String.utf8EncodeChar c) (String.utf8EncodeChar c).length = c.toNat := by
  rw [queryConvert_eq_iff (length_utf8EncodeChar_pos c) le_rfl (by omega), List.take_length]
  exact ⟨c, List.prefix_refl _, rfl⟩

/-- **Main result.**  `UTF8Encoding` implements UTF-8 as Unicode defines it.  Of the bytes that are
there, `queryConvert`, and `isLegal` and `convert` if the announced sequence is complete, accept those
that begin with a well-formed sequence and return its scalar value; encoding and decoding undo each
other, and the beginning of a well-formed sequence asks for all of it. -/
theorem accepts_wellFormed :
    (∀ (bytes : List UInt8) (n : ℕ), 0 < n → n ≤ bytes.length →
      (∀ v : ℤ, 0 ≤ v →
        (queryConvert bytes n = v ↔ ∃ c, Leads c (bytes.take n) ∧ (c.toNat : ℤ) = v)) ∧
      (sequenceLength bytes n ≤ n → (¬∃ c, Leads c (bytes.take n)) → queryConvert bytes n = -1)) ∧
    (∀ bytes : List UInt8, bytes ≠ [] → sequenceLength bytes bytes.length ≤ bytes.length →
      (isLegal bytes (sequenceLength bytes bytes.length).toNat = true ↔ ∃ c, Leads c bytes) ∧
      (∀ v : ℤ, 0 ≤ v → (convert bytes = v ↔ ∃ c, Leads c bytes ∧ (c.toNat : ℤ) = v)) ∧
      ((¬∃ c, Leads c bytes) → convert bytes = -1)) ∧
    (∀ c : Char,
      convertChar c.toNat 4 = (((String.utf8EncodeChar c).length : ℤ), String.utf8EncodeChar c) ∧
      convert (convertChar c.toNat 4).2 = c.toNat ∧
      queryConvert (convertChar c.toNat 4).2 (convertChar c.toNat 4).1 = c.toNat) ∧
    (∀ bytes : List UInt8, WellFormed bytes →
      convertChar (convert bytes) 4 = ((bytes.length : ℤ), bytes) ∧
      convertChar (queryConvert bytes bytes.length) 4 = ((bytes.length : ℤ), bytes)) ∧
    (∀ (c : Char) (bytes : List UInt8) (n : ℕ), 0 < n → n < (String.utf8EncodeChar c).length →
      bytes.take n = (String.utf8EncodeChar c).take n →
      queryConvert bytes n = -(String.utf8EncodeChar c).length) := by
  refine ⟨fun bytes n hpos hn => ⟨fun v hv => queryConvert_eq_iff hpos hn hv,
    fun hle h => queryConvert_eq_neg_one hpos hn hle h⟩,
    fun bytes hne hlen => ⟨isLegal_iff_leads hne hlen, fun v hv => convertSequence_eq_iff hne hlen hv,
      convertSequence_of_not_leads hne hlen⟩, fun c => ?_, ?_,
    fun c bytes n hpos hn h => queryConvert_of_take hpos hn h⟩
  · rw [convertChar_toNat]
    exact ⟨rfl, convert_utf8EncodeChar c, queryConvert_utf8EncodeChar c⟩
  · rintro bytes ⟨c, rfl⟩
    rw [convert_utf8EncodeChar, queryConvert_utf8EncodeChar, convertChar_toNat]
    exact ⟨rfl, rfl⟩

end UTF8Encoding

end Poco.Foundation
