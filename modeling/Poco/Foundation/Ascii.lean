import Mathlib.Data.Nat.Notation

/-! # ASCII

The bytes of ASCII texts, and the functions of `Ascii` for bytes and, in `OfChar`, for characters. -/

namespace Poco.Foundation

namespace Ascii

/-! ### Bytes -/

/-- The byte of an ASCII character. -/
def chr (c : Char) : UInt8 := UInt8.ofNat c.toNat

/-- The bytes of an ASCII text. -/
def ascii (text : String) : List UInt8 := text.toList.map chr

/-- `Ascii::isSpace`. -/
def isSpace (ch : UInt8) : Bool := (9 ≤ ch && ch ≤ 13) || ch == 32

/-- `Ascii::isDigit`. -/
def isDigit (ch : UInt8) : Bool := '0'.toUInt8 ≤ ch && ch ≤ '9'.toUInt8

/-- `Ascii::isHexDigit`. -/
def isHexDigit (ch : UInt8) : Bool :=
  isDigit ch || ('A'.toUInt8 ≤ ch && ch ≤ 'F'.toUInt8) || ('a'.toUInt8 ≤ ch && ch ≤ 'f'.toUInt8)

/-- `Ascii::toLower`. -/
def toLower (ch : UInt8) : UInt8 := if 65 ≤ ch && ch ≤ 90 then ch ||| 0x20 else ch

/-! ### Characters -/

namespace OfChar

/-- `Ascii::isSpace`. -/
def isSpace (ch : Char) : Bool := (9 ≤ ch.toNat && ch.toNat ≤ 13) || ch.toNat == 32

/-- `Ascii::isPunct`. -/
def isPunct (ch : Char) : Bool :=
  (33 ≤ ch.toNat && ch.toNat ≤ 47) || (58 ≤ ch.toNat && ch.toNat ≤ 64) ||
    (91 ≤ ch.toNat && ch.toNat ≤ 96) || (123 ≤ ch.toNat && ch.toNat ≤ 126)

end OfChar

end Ascii

end Poco.Foundation
