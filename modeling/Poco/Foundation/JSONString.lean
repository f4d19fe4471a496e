import Poco.Lib.JSON
import Poco.Foundation.UTF8String

/-! # `toJSON`

A string is written as JSON in one of two ways: with `UTF8::escape`, or byte by byte, where only the
characters that have to be escaped go through `UTF8::escape`.  Both give a string of RFC 8259 with the
characters of the text as its value (`toJSON_jsonString`). -/

namespace Poco.Foundation

open Poco.Lib

/-- `JSON_PRESERVE_KEY_ORDER`. -/
def JSON_PRESERVE_KEY_ORDER : UInt32 := 1

/-- `JSON_ESCAPE_UNICODE`. -/
def JSON_ESCAPE_UNICODE : UInt32 := 2

/-- `JSON_WRAP_STRINGS`. -/
def JSON_WRAP_STRINGS : UInt32 := 4

/-- `JSON_LOWERCASE_HEX`. -/
def JSON_LOWERCASE_HEX : UInt32 := 8

namespace JSONString

open UTF8

/-- What is written between the quotation marks. -/
def writeBody (value : List UInt8) (escapeAllUnicode lowerCaseHex : Bool) : List UInt8 :=
  if escapeAllUnicode then escapeRange value true lowerCaseHex
  else
    value.flatMap fun b =>
      if b ≤ 31 ∨ b = 0x22 ∨ b = 0x5C then escapeRange [b] true lowerCaseHex else [b]

/-- `writeString`: what is written. -/
def writeString (value : List UInt8) (options : UInt32) : List UInt8 :=
  let wrap : Bool := options &&& JSON_WRAP_STRINGS ≠ 0
  let escapeAllUnicode : Bool := options &&& JSON_ESCAPE_UNICODE ≠ 0
  let lowerCaseHex : Bool := options &&& JSON_LOWERCASE_HEX ≠ 0
  if value.length = 0 then (if wrap then text "\"\"" else [])
  else
    (if wrap then text "\"" else []) ++ writeBody value escapeAllUnicode lowerCaseHex ++
      if wrap then text "\"" else []

end JSONString

/-- `toJSON(value, options)`, also what the `toJSON` with a stream writes. -/
def toJSON (value : List UInt8) (options : UInt32) : List UInt8 := JSONString.writeString value options

namespace JSONString

/-! ### Digits -/

theorem hexDigit?_eq {b : UInt8} (h : Hex.isHexDigit b = true) : hexDigit? b = some (Hex.digitValue b) := by
  have hall : ∀ b : UInt8, Hex.isHexDigit b = true → hexDigit? b = some (Hex.digitValue b) := by
    apply forall_byte
    decide +kernel
  exact hall b h

theorem hexQuad_intToStr {v : ℕ} (hv : v < 2 ^ 16) (lowerCaseHex : Bool) :
    HexQuad (Hex.intToStr v 4 lowerCaseHex) v := by
  have hlen : (Hex.intToStr v 4 lowerCaseHex).length = 4 :=
    Hex.length_intToStr_width (n := 3) (show v < 16 ^ 4 by omega) lowerCaseHex
  have hdigits := Hex.isHexDigit_intToStr v 4 lowerCaseHex
  have hvalue : Hex.hexNumber (Hex.intToStr v 4 lowerCaseHex) = v := Hex.hexNumber_intToStr (by omega) _ _
  generalize Hex.intToStr v 4 lowerCaseHex = ds at *
  obtain ⟨a, b, c, d, rfl⟩ := List.length_eq_four.mp hlen
  simp only [List.forall_mem_cons] at hdigits
  rw [← hvalue]
  have hquad := HexQuad.mk (hexDigit?_eq hdigits.1) (hexDigit?_eq hdigits.2.1) (hexDigit?_eq hdigits.2.2.1)
    (hexDigit?_eq hdigits.2.2.2.1)
  simpa [Hex.hexNumber] using hquad

theorem jsonChar_appendHex4 {c : Char} (h : c.toNat < 2 ^ 16) (lowerCaseHex : Bool) :
    JSONChar (UTF8.appendHex4 c.toNat lowerCaseHex) c := by
  have htext : UTF8.text "\\u" = [0x5C, 0x75] := by decide
  rw [UTF8.appendHex4, htext]
  exact .unicode (hexQuad_intToStr h lowerCaseHex)

theorem jsonChar_pair {ds ds' : List UInt8} {c : Char} {hi lo : ℕ} (hds : HexQuad ds (hi + 0xD800))
    (hds' : HexQuad ds' (lo + 0xDC00)) (hhi : hi < 2 ^ 10) (hlo : lo < 2 ^ 10)
    (hc : c.toNat = hi * 2 ^ 10 + lo + 0x10000) : JSONChar ([0x5C, 0x75] ++ ds ++ ([0x5C, 0x75] ++ ds')) c :=
  .surrogates hds hds' hhi hlo hc

theorem jsonChar_surrogates {c : Char} {hi lo : ℕ} (hhi : hi < 2 ^ 10) (hlo : lo < 2 ^ 10)
    (hc : c.toNat = hi * 2 ^ 10 + lo + 0x10000) (lowerCaseHex : Bool) :
    JSONChar
      (UTF8.appendHex4 (hi + 0xD800) lowerCaseHex ++ UTF8.appendHex4 (lo + 0xDC00) lowerCaseHex) c := by
  have htext : UTF8.text "\\u" = [0x5C, 0x75] := by decide
  rw [UTF8.appendHex4, UTF8.appendHex4, htext]
  exact jsonChar_pair (hexQuad_intToStr (by omega) _) (hexQuad_intToStr (by omega) _) hhi hlo hc

/-! ### Characters -/

/-- The escapes of the ASCII characters, checked one by one. -/
def standsFor (n : ℕ) : List UInt8 → Bool
  | [b] => b.toNat = n && 0x20 ≤ n && n ≠ 0x22 && n ≠ 0x5C
  | [b, e] => b = 0x5C && shortEscapes.contains (e, Char.ofNat n)
  | s => s = UTF8.appendHex4 n false || s = UTF8.appendHex4 n true

theorem standsFor_escapeChar (lowerCaseHex : Bool) {n : ℕ} (hn : n < 0x80) :
    standsFor n (UTF8.escapeChar true lowerCaseHex (UInt32.ofNat n)) = true := by
  have hcontrol : ∀ n < 0x20, standsFor n (UTF8.escapeChar true lowerCaseHex (UInt32.ofNat n)) = true := by
    cases lowerCaseHex
    · decide
    · decide
  have hother : n < 0x20 ∨ n = 0x22 ∨ n = 0x2F ∨ n = 0x5C ∨ n = 0x7F ∨
      0x20 ≤ n ∧ n < 0x7F ∧ n ≠ 0x22 ∧ n ≠ 0x2F ∧ n ≠ 0x5C := by omega
  rcases hother with h | rfl | rfl | rfl | rfl | ⟨hlow, hhigh, hquote, hslash, hback⟩
  · exact hcontrol n h
  · cases lowerCaseHex <;> decide
  · cases lowerCaseHex <;> decide
  · cases lowerCaseHex <;> decide
  · cases lowerCaseHex <;> decide
  · have hbyte : (UInt8.ofNat n).toNat = n := by
      rw [UInt8.toNat_ofNat']
      omega
    rw [UTF8.escapeChar_printable _ _ hlow hhigh hquote hslash hback]
    simp only [standsFor, Bool.and_eq_true, decide_eq_true_eq, hbyte]
    exact ⟨⟨⟨trivial, hlow⟩, hquote⟩, hback⟩

theorem utf8EncodeChar_ascii {c : Char} (h : c.toNat < 0x80) :
    String.utf8EncodeChar c = [UInt8.ofNat c.toNat] := by
  refine (encodes_utf8EncodeChar c).unique (.one (by omega) ?_)
  rw [UInt8.toNat_ofNat']
  omega

theorem jsonChar_of_standsFor {s : List UInt8} {c : Char} (hc : c.toNat < 0x80)
    (h : standsFor c.toNat s = true) : JSONChar s c := by
  fun_cases standsFor c.toNat s with
  | case1 b =>
      simp only [standsFor, Bool.and_eq_true, decide_eq_true_eq] at h
      obtain ⟨⟨⟨hb, hlow⟩, hquote⟩, hback⟩ := h
      have hbyte : [b] = String.utf8EncodeChar c := by
        rw [utf8EncodeChar_ascii hc, ← hb, UInt8.ofNat_toNat]
      rw [hbyte]
      refine .unescaped hlow ?_ ?_
      · rintro rfl
        exact hquote rfl
      · rintro rfl
        exact hback rfl
  | case2 b e =>
      simp only [standsFor, Bool.and_eq_true, decide_eq_true_eq, List.contains_iff_mem, Char.ofNat_toNat] at h
      obtain ⟨rfl, he⟩ := h
      exact .short he
  | case3 s h₁ h₂ =>
      rw [standsFor] at h
      · rw [Bool.or_eq_true, decide_eq_true_eq, decide_eq_true_eq] at h
        rcases h with rfl | rfl
        · exact jsonChar_appendHex4 (by omega) false
        · exact jsonChar_appendHex4 (by omega) true
      · exact h₁
      · exact h₂

/-- `UTF8::escape` writes a character in a way that is allowed in a string. -/
theorem jsonChar_escapeChar (lowerCaseHex : Bool) (c : Char) :
    JSONChar (UTF8.escapeChar true lowerCaseHex (UInt32.ofNat c.toNat)) c := by
  obtain ⟨hle, hsur⟩ := toNat_scalar c
  have hnat : (UInt32.ofNat c.toNat).toNat = c.toNat := by
    rw [UInt32.toNat_ofNat']
    omega
  by_cases hascii : c.toNat < 0x80
  · exact jsonChar_of_standsFor hascii (standsFor_escapeChar lowerCaseHex hascii)
  · rw [UTF8.escapeChar_of_ge _ _ (by omega), hnat]
    split_ifs with hbmp
    · exact jsonChar_appendHex4 (by omega) lowerCaseHex
    · exact jsonChar_surrogates (by omega) (by omega) (by omega) lowerCaseHex

/-! ### Byte by byte -/

/-- What is written for a byte if not all characters are escaped. -/
def writeByte (lowerCaseHex : Bool) (b : UInt8) : List UInt8 :=
  if b ≤ 31 ∨ b = 0x22 ∨ b = 0x5C then UTF8.escapeRange [b] true lowerCaseHex else [b]

theorem writeByte_of_ge {lowerCaseHex : Bool} {b : UInt8} (h : 0x80 ≤ b.toNat) :
    writeByte lowerCaseHex b = [b] := by
  have hplain : ¬(b ≤ 31 ∨ b = 0x22 ∨ b = 0x5C) := by
    rw [UInt8.le_iff_toNat_le, ← UInt8.toNat_inj, ← UInt8.toNat_inj]
    simp only [UInt8.reduceToNat]
    omega
  rw [writeByte, if_neg hplain]

theorem escapeRange_singleton {b : UInt8} (lowerCaseHex : Bool) :
    UTF8.escapeRange [b] true lowerCaseHex = UTF8.escapeChar true lowerCaseHex (UInt32.ofNat b.toNat) := by
  have hch : b.toUInt32 - UTF8.offsetsFromUTF8.getD 0 0 = UInt32.ofNat b.toNat := by
    show b.toUInt32 - 0 = _
    rw [UInt32.sub_zero, ← UInt32.toNat_inj, UInt8.toNat_toUInt32, UInt32.toNat_ofNat']
    have := b.toNat_lt
    omega
  show UTF8.escapeChar true lowerCaseHex (b.toUInt32 - UTF8.offsetsFromUTF8.getD 0 0) ++ [] = _
  rw [hch, List.append_nil]

theorem jsonChar_writeByte (lowerCaseHex : Bool) (c : Char) :
    JSONChar ((String.utf8EncodeChar c).flatMap (writeByte lowerCaseHex)) c := by
  by_cases hascii : c.toNat < 0x80
  · have hnat : (UInt8.ofNat c.toNat).toNat = c.toNat := by
      rw [UInt8.toNat_ofNat']
      omega
    rw [utf8EncodeChar_ascii hascii, List.flatMap_singleton, writeByte]
    split_ifs with hesc
    · rw [escapeRange_singleton, hnat]
      exact jsonChar_escapeChar lowerCaseHex c
    · rw [UInt8.le_iff_toNat_le, ← UInt8.toNat_inj, ← UInt8.toNat_inj, hnat] at hesc
      simp only [UInt8.reduceToNat] at hesc
      rw [← utf8EncodeChar_ascii hascii]
      refine .unescaped (by omega) ?_ ?_
      · rintro rfl
        exact hesc (.inr (.inl rfl))
      · rintro rfl
        exact hesc (.inr (.inr rfl))
  · have hplain : (String.utf8EncodeChar c).flatMap (writeByte lowerCaseHex) = String.utf8EncodeChar c := by
      have henc := encodes_utf8EncodeChar c
      generalize String.utf8EncodeChar c = bs at henc ⊢
      cases henc with
      | one hv => omega
      | two hlo hhi ha hb =>
          simp only [List.flatMap_cons, List.flatMap_nil]
          rw [writeByte_of_ge (by omega), writeByte_of_ge (by omega)]
          rfl
      | three hlo hhi hsur ha hb hc =>
          simp only [List.flatMap_cons, List.flatMap_nil]
          rw [writeByte_of_ge (by omega), writeByte_of_ge (by omega), writeByte_of_ge (by omega)]
          rfl
      | four hlo hhi ha hb hc hd =>
          simp only [List.flatMap_cons, List.flatMap_nil]
          rw [writeByte_of_ge (by omega), writeByte_of_ge (by omega), writeByte_of_ge (by omega),
            writeByte_of_ge (by omega)]
          rfl
    rw [hplain]
    refine .unescaped (by omega) ?_ ?_
    · rintro rfl
      exact hascii (by decide)
    · rintro rfl
      exact hascii (by decide)

/-! ### Strings -/

/-- What is written for a character. -/
def writeChar (escapeAllUnicode lowerCaseHex : Bool) (c : Char) : List UInt8 :=
  if escapeAllUnicode then UTF8.escapeChar true lowerCaseHex (UInt32.ofNat c.toNat)
  else (String.utf8EncodeChar c).flatMap (writeByte lowerCaseHex)

theorem jsonChar_writeChar (escapeAllUnicode lowerCaseHex : Bool) (c : Char) :
    JSONChar (writeChar escapeAllUnicode lowerCaseHex c) c := by
  unfold writeChar
  split_ifs
  · exact jsonChar_escapeChar lowerCaseHex c
  · exact jsonChar_writeByte lowerCaseHex c

theorem writeBody_utf8 (cs : List Char) (escapeAllUnicode lowerCaseHex : Bool) :
    writeBody (UTF8.utf8 cs) escapeAllUnicode lowerCaseHex =
      cs.flatMap (writeChar escapeAllUnicode lowerCaseHex) := by
  cases escapeAllUnicode
  · show (UTF8.utf8 cs).flatMap (writeByte lowerCaseHex) = _
    rw [UTF8.utf8, List.flatMap_assoc]
    rfl
  · exact UTF8.escapeLoop_utf8 true lowerCaseHex le_rfl

/-- The text with its quotation marks, also that of the empty string. -/
theorem toJSON_utf8 {options : UInt32} (h : options &&& JSON_WRAP_STRINGS ≠ 0) (cs : List Char) :
    toJSON (UTF8.utf8 cs) options =
      0x22 :: cs.flatMap (writeChar (options &&& JSON_ESCAPE_UNICODE ≠ 0)
        (options &&& JSON_LOWERCASE_HEX ≠ 0)) ++ [0x22] := by
  have hquote : UTF8.text "\"" = [0x22] := by decide
  rw [toJSON, writeString, if_pos (decide_eq_true h), if_pos (decide_eq_true h), writeBody_utf8, hquote]
  split_ifs with hempty
  · cases cs with
    | nil =>
        show UTF8.text "\"\"" = [0x22, 0x22]
        decide
    | cons c cs =>
        have hne : (UTF8.utf8 (c :: cs)).length ≠ 0 := by
          rw [UTF8.utf8_cons, List.length_append]
          have := String.length_utf8EncodeChar c
          have := c.utf8Size_pos
          omega
        exact absurd hempty hne
  · rfl

end JSONString

/-- **Main result.**  `toJSON` with `JSON_WRAP_STRINGS`, and with or without any other option, writes the
text as a string of RFC 8259 with the value of the text. -/
theorem toJSON_jsonString (cs : List Char) {options : UInt32} (h : options &&& JSON_WRAP_STRINGS ≠ 0) :
    JSONString (toJSON (UTF8.utf8 cs) options) cs := by
  rw [JSONString.toJSON_utf8 h]
  exact jsonString_flatMap (JSONString.jsonChar_writeChar _ _) cs

theorem toJSON_jsonString_escaped :
    JSONString (toJSON (UTF8.utf8 ['a', '"', '€']) (JSON_WRAP_STRINGS ||| JSON_ESCAPE_UNICODE))
      ['a', '"', '€'] :=
  toJSON_jsonString ['a', '"', '€'] (by decide)

end Poco.Foundation
