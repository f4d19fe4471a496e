import Mathlib.Data.List.Forall2
import Poco.Lib.Bytes
import Poco.Lib.Unicode

/-! # Strings of RFC 8259

A string of a JSON text in UTF-8 is a sequence of characters between quotation marks.  A character may
be written as it is, unless it is a control character, a quotation mark or a backslash, with a backslash
and a letter, or with the hexadecimal number of its UTF-16 code units (`JSONChar`). -/

namespace Poco.Lib

/-- The value of a hexadecimal digit. -/
def hexDigit? (b : UInt8) : Option ℕ :=
  if 0x30 ≤ b ∧ b ≤ 0x39 then some (b.toNat - 0x30)
  else if 0x41 ≤ b ∧ b ≤ 0x46 then some (b.toNat - 0x41 + 10)
  else if 0x61 ≤ b ∧ b ≤ 0x66 then some (b.toNat - 0x61 + 10)
  else none

/-- Four hexadecimal digits and their number. -/
inductive HexQuad : List UInt8 → ℕ → Prop
  | mk {a b c d : UInt8} {p q r s : ℕ} : hexDigit? a = some p → hexDigit? b = some q →
      hexDigit? c = some r → hexDigit? d = some s →
      HexQuad [a, b, c, d] (((p * 16 + q) * 16 + r) * 16 + s)

/-- The characters that have an escape of two characters, by the second one. -/
def shortEscapes : List (UInt8 × Char) :=
  [(0x22, '"'), (0x5C, '\\'), (0x2F, '/'), (0x62, Char.ofNat 0x08), (0x66, Char.ofNat 0x0C), (0x6E, '\n'),
    (0x72, '\r'), (0x74, '\t')]

/-- `bs` is a way to write the character `c` in a string. -/
inductive JSONChar : List UInt8 → Char → Prop
  | unescaped {c : Char} : 0x20 ≤ c.toNat → c ≠ '"' → c ≠ '\\' → JSONChar (String.utf8EncodeChar c) c
  | short {e : UInt8} {c : Char} : (e, c) ∈ shortEscapes → JSONChar [0x5C, e] c
  | unicode {ds : List UInt8} {c : Char} : HexQuad ds c.toNat → JSONChar (0x5C :: 0x75 :: ds) c
  | surrogates {ds ds' : List UInt8} {hi lo : ℕ} {c : Char} : HexQuad ds (hi + 0xD800) →
      HexQuad ds' (lo + 0xDC00) → hi < 2 ^ 10 → lo < 2 ^ 10 →
      c.toNat = hi * 2 ^ 10 + lo + 0x10000 → JSONChar (0x5C :: 0x75 :: ds ++ 0x5C :: 0x75 :: ds') c

/-- `bs` is a string with the value `cs`. -/
def JSONString (bs : List UInt8) (cs : List Char) : Prop :=
  ∃ parts, List.Forall₂ JSONChar parts cs ∧ bs = 0x22 :: parts.flatten ++ [0x22]

/-- A string whose characters are each written in some way. -/
theorem jsonString_flatMap {f : Char → List UInt8} (h : ∀ c, JSONChar (f c) c) (cs : List Char) :
    JSONString (0x22 :: cs.flatMap f ++ [0x22]) cs := by
  refine ⟨cs.map f, ?_, by rw [List.flatMap_def]⟩
  induction cs with
  | nil => exact .nil
  | cons c cs ih => exact .cons (h c) ih

end Poco.Lib
