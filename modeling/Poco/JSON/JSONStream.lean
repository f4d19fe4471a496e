import Poco.Foundation.UTF8String
import Poco.Foundation.Ascii

/-! # `pdjson`

The tokenizer under the JSON parser.  `json_next` reads one token, and knows by a stack of the open containers,
each with the number of the strings and values in it, which tokens may stand where. -/

namespace Poco.JSON.Pdjson

open Poco.Lib Poco.Foundation

/-- `enum json_type` without `JSON_DONE` and `JSON_ERROR`; strings and numbers come with what `json_get_string`
returns behind them. -/
inductive Token
  | null
  | true_
  | false_
  | number (str : List UInt8)
  | string (str : List UInt8)
  | object
  | objectEnd
  | array
  | arrayEnd
deriving DecidableEq, Repr

/-- `json_stack::type`. -/
inductive ContainerType
  | array
  | object
deriving DecidableEq, Repr

/-- `json_stream`: what is left of the source, and the stack of types and counts, the top first. -/
structure JSONStream where
  source : List UInt8
  ntokens : ℕ
  stack : List (ContainerType × ℕ)

/-- What `json_next` returns: `JSON_DONE`, `JSON_ERROR` with its message, or a token. -/
inductive Next
  | done
  | error (errmsg : List UInt8)
  | token (t : Token) (json : JSONStream)

namespace JSONStream

/-- A part that has been read and what is behind it, or an error message. -/
abbrev Reads := Except (List UInt8) (List UInt8 × List UInt8)

/-- A message about a byte. -/
def about (before : String) (c : UInt8) (behind : String) : List UInt8 := UTF8.text before ++ c :: UTF8.text behind

/-! ### Literals, strings and numbers -/

/-- `is_match`: what is behind the pattern. -/
def isMatch : List UInt8 → List UInt8 → Except (List UInt8) (List UInt8)
  | [], source => .ok source
  | p :: pattern, c :: source =>
      if p = c then isMatch pattern source
      else .error (UTF8.text "expected '" ++ p :: about "' instead of byte '" c "'")
  | p :: _, [] => .error (about "expected '" p "' instead of end of text")

/-- `hexchar`. -/
def hexchar (c : UInt8) : Option ℕ :=
  if '0'.toUInt8 ≤ c ∧ c ≤ '9'.toUInt8 then some (c.toNat - '0'.toNat)
  else if 'a'.toUInt8 ≤ c ∧ c ≤ 'f'.toUInt8 then some (c.toNat - 'a'.toNat + 10)
  else if 'A'.toUInt8 ≤ c ∧ c ≤ 'F'.toUInt8 then some (c.toNat - 'A'.toNat + 10)
  else none

/-- `read_unicode_cp` with some of the digits left. -/
def readUnicodeCp : ℕ → ℕ → List UInt8 → Except (List UInt8) (ℕ × List UInt8)
  | 0, cp, source => .ok (cp, source)
  | _ + 1, _, [] => .error (UTF8.text "unterminated string literal in Unicode")
  | left + 1, cp, c :: source =>
      match hexchar c with
      | none => .error (about "invalid escape Unicode byte '" c "'")
      | some hc => readUnicodeCp left (cp + hc * 16 ^ left) source

/-- `encode_utf8`. -/
def encodeUtf8 (c : ℕ) : Except (List UInt8) (List UInt8) :=
  if c < 0x80 then .ok [UInt8.ofNat c]
  else if c < 0x800 then .ok [UInt8.ofNat (0xC0 + c / 64 % 32), UInt8.ofNat (0x80 + c % 64)]
  else if c < 0x10000 then
    if 0xD800 ≤ c ∧ c ≤ 0xDFFF then .error (UTF8.text "invalid codepoint " ++ Hex.intToStr c 6 true)
    else .ok [UInt8.ofNat (0xE0 + c / 4096 % 16), UInt8.ofNat (0x80 + c / 64 % 64), UInt8.ofNat (0x80 + c % 64)]
  else if c < 0x110000 then
    .ok [UInt8.ofNat (0xF0 + c / 262144 % 8), UInt8.ofNat (0x80 + c / 4096 % 64),
      UInt8.ofNat (0x80 + c / 64 % 64), UInt8.ofNat (0x80 + c % 64)]
  else .error (UTF8.text "unable to encode " ++ Hex.intToStr c 6 true ++ UTF8.text " as UTF-8")

/-- The lower portion of a surrogate pair with the higher portion `h`. -/
def readSurrogate (h : ℕ) : List UInt8 → Except (List UInt8) (ℕ × List UInt8)
  | [] => .error (UTF8.text "unterminated string literal in Unicode")
  | c :: source =>
      if c ≠ '\\'.toUInt8 then
        .error (about "invalid continuation for surrogate pair '" c "', expected '\\'")
      else
        match source with
        | [] => .error (UTF8.text "unterminated string literal in Unicode")
        | c :: source =>
            if c ≠ 'u'.toUInt8 then .error (about "invalid continuation for surrogate pair '" c "', expected 'u'")
            else do
              let (l, source) ← readUnicodeCp 4 0 source
              if l < 0xDC00 ∨ l > 0xDFFF then
                .error (UTF8.text "surrogate pair continuation " ++ UTF8.appendHex4 l true ++
                  UTF8.text " out of range (dc00-dfff)")
              else .ok ((h - 0xD800) * 0x400 + (l - 0xDC00) + 0x10000, source)

/-- The code point of `read_unicode`. -/
def readCodepoint (source : List UInt8) : Except (List UInt8) (ℕ × List UInt8) := do
  let (cp, source) ← readUnicodeCp 4 0 source
  if 0xD800 ≤ cp ∧ cp ≤ 0xDBFF then readSurrogate cp source
  else if 0xDC00 ≤ cp ∧ cp ≤ 0xDFFF then .error (UTF8.text "dangling surrogate " ++ UTF8.appendHex4 cp true)
  else .ok (cp, source)

/-- `read_unicode`. -/
def readUnicode (source : List UInt8) : Reads := do
  let (cp, source) ← readCodepoint source
  let bytes ← encodeUtf8 cp
  return (bytes, source)

/-- The codes of `read_escaped` and their characters. -/
def codes : List (UInt8 × UInt8) :=
  [('\\'.toUInt8, '\\'.toUInt8), ('b'.toUInt8, 0x08), ('f'.toUInt8, 0x0C), ('n'.toUInt8, 0x0A), ('r'.toUInt8, 0x0D),
    ('t'.toUInt8, 0x09), ('/'.toUInt8, '/'.toUInt8), ('"'.toUInt8, '"'.toUInt8)]

/-- `read_escaped`. -/
def readEscaped : List UInt8 → Reads
  | [] => .error (UTF8.text "unterminated string literal in escape")
  | c :: source =>
      if c = 'u'.toUInt8 then readUnicode source
      else
        match codes.lookup c with
        | some b => .ok ([b], source)
        | none => .error (about "invalid escaped byte '" c "'")

/-- `utf8_seq_length`. -/
def utf8SeqLength (u : UInt8) : ℕ :=
  if u < 0x80 then 1
  else if u ≤ 0xC1 then 0
  else if u ≤ 0xDF then 2
  else if u ≤ 0xEF then 3
  else if u ≤ 0xF4 then 4
  else 0

/-- `is_legal_utf8` for a sequence of at least two bytes, as the lead requires: which second bytes it allows,
and continuation bytes behind it. -/
def isLegalUtf8 : List UInt8 → Bool
  | lead :: a :: behind =>
      behind.all (fun b => 0x80 ≤ b && b ≤ 0xBF) &&
        (if lead = 0xE0 then 0xA0 ≤ a && a ≤ 0xBF
        else if lead = 0xED then 0x80 ≤ a && a ≤ 0x9F
        else if lead = 0xF0 then 0x90 ≤ a && a ≤ 0xBF
        else if lead = 0xF4 then 0x80 ≤ a && a ≤ 0x8F
        else 0x80 ≤ a && a ≤ 0xBF) && !(0x80 ≤ lead && lead < 0xC2) && lead ≤ 0xF4
  | _ => false

/-- `read_utf8`; a byte that is missing is that of `EOF`. -/
def readUtf8 (c : UInt8) (source : List UInt8) : Reads :=
  let count := utf8SeqLength c
  if count = 0 then .error (UTF8.text "invalid UTF-8 character")
  else
    let buffer := c :: (source.take (count - 1) ++ List.replicate (count - 1 - source.length) 0xFF)
    if isLegalUtf8 buffer then .ok (buffer, source.drop (count - 1)) else .error (UTF8.text "invalid UTF-8 text")

/-- `char_needs_escaping` for a byte below 128. -/
def charNeedsEscaping (c : UInt8) : Bool := c < 0x20 || c = 0x22 || c = 0x5C

/-- The character of `read_string` that begins with `c`. -/
def readCharacter (c : UInt8) (source : List UInt8) : Reads :=
  if c = '\\'.toUInt8 then readEscaped source
  else if 0x80 ≤ c then readUtf8 c source
  else if charNeedsEscaping c then .error (UTF8.text "unescaped control character in string")
  else .ok ([c], source)

/-- The loop of `read_string`; every round takes at least one byte. -/
def readStringLoop : ℕ → List UInt8 → Reads
  | _, [] => .error (UTF8.text "unterminated string literal")
  | 0, _ => .error (UTF8.text "unterminated string literal")
  | left + 1, c :: source =>
      if c = '"'.toUInt8 then .ok ([], source)
      else do
        let (bytes, source) ← readCharacter c source
        let (string, source) ← readStringLoop left source
        return (bytes ++ string, source)

/-- `read_string`. -/
def readString (source : List UInt8) : Reads := readStringLoop source.length source

/-- `is_digit`. -/
def isDigit (c : UInt8) : Bool := Ascii.isDigit c

/-- `read_digits`. -/
def readDigits (source : List UInt8) : Reads :=
  match source.takeWhile isDigit, source with
  | [], [] => .error (UTF8.text "expected digit instead of end of text")
  | [], c :: _ => .error (about "expected digit instead of byte '" c "'")
  | digits, source => .ok (digits, source.dropWhile isDigit)

/-- The decimals of `read_number`. -/
def readDecimals : List UInt8 → Reads
  | c :: source =>
      if c = '.'.toUInt8 then do
        let (digits, source) ← readDigits source
        return (c :: digits, source)
      else .ok ([], c :: source)
  | [] => .ok ([], [])

/-- The exponent of `read_number` behind its letter. -/
def readExponentDigits : List UInt8 → Reads
  | [] => .error (UTF8.text "unexpected end of text in number")
  | c :: source =>
      if c = '+'.toUInt8 ∨ c = '-'.toUInt8 then do
        let (digits, source) ← readDigits source
        return (c :: digits, source)
      else if isDigit c then readDigits (c :: source)
      else .error (about "unexpected byte '" c "' in number")

/-- The exponent of `read_number`. -/
def readExponent : List UInt8 → Reads
  | c :: source =>
      if c = 'e'.toUInt8 ∨ c = 'E'.toUInt8 then do
        let (digits, source) ← readExponentDigits source
        return (c :: digits, source)
      else .ok ([], c :: source)
  | [] => .ok ([], [])

/-- `read_number` from a digit on. -/
def readUnsigned (c : UInt8) (source : List UInt8) : Reads := do
  let (digits, source) :=
    if c ≠ '0'.toUInt8 then (source.takeWhile isDigit, source.dropWhile isDigit) else ([], source)
  let (decimals, source) ← readDecimals source
  let (exponent, source) ← readExponent source
  return (c :: (digits ++ decimals ++ exponent), source)

/-- `read_number`. -/
def readNumber (c : UInt8) (source : List UInt8) : Reads :=
  if c = '-'.toUInt8 then
    match source with
    | [] => .error (UTF8.text "unexpected end of text in number")
    | d :: source =>
        if isDigit d then do
          let (number, source) ← readUnsigned d source
          return (c :: number, source)
        else .error (about "unexpected byte '" d "' in number")
  else readUnsigned c source

/-! ### Tokens -/

/-- `json_isspace`. -/
def isSpace (c : UInt8) : Bool := c = 0x09 || c = 0x0A || c = 0x0D || c = 0x20

/-- A token behind which the source goes on. -/
def token (json : JSONStream) (t : Token) (source : List UInt8) : Next := .token t { json with source := source }

/-- A literal. -/
def literal (json : JSONStream) (pattern : String) (t : Token) (source : List UInt8) : Next :=
  match isMatch (UTF8.text pattern) source with
  | .ok source => json.token t source
  | .error errmsg => .error errmsg

/-- A string or number. -/
def scalar (json : JSONStream) (t : List UInt8 → Token) : Reads → Next
  | .ok (str, source) => json.token (t str) source
  | .error errmsg => .error errmsg

/-- `push`. -/
def push (json : JSONStream) (type : ContainerType) : JSONStream := { json with stack := (type, 0) :: json.stack }

/-- `read_value(json, next(json))`. -/
def readValue (json : JSONStream) : Next :=
  let json := { json with ntokens := json.ntokens + 1 }
  match json.source.dropWhile isSpace with
  | [] => .error (UTF8.text "unexpected end of text")
  | c :: source =>
      if c = 0x7B then (json.push .object).token .object source
      else if c = '['.toUInt8 then (json.push .array).token .array source
      else if c = '"'.toUInt8 then json.scalar .string (readString source)
      else if c = 'n'.toUInt8 then json.literal "ull" .null source
      else if c = 'f'.toUInt8 then json.literal "alse" .false_ source
      else if c = 't'.toUInt8 then json.literal "rue" .true_ source
      else if isDigit c ∨ c = '-'.toUInt8 then json.scalar .number (readNumber c source)
      else .error (about "unexpected byte '" c "' in value")

/-- The name of a member, which is counted. -/
def readName (json : JSONStream) (count : ℕ) (stack : List (ContainerType × ℕ)) (errmsg : List UInt8) : Next :=
  match readValue { json with stack := (.object, count) :: stack } with
  | .token (.string str) json => .token (.string str) { json with stack := (.object, count + 1) :: stack }
  | .error e => .error e
  | _ => .error errmsg

/-- `json_next` in an array. -/
def nextInArray (json : JSONStream) (count : ℕ) (stack : List (ContainerType × ℕ)) : Next :=
  match json.source.dropWhile isSpace with
  | [] => .error (UTF8.text "unexpected end of text")
  | c :: source =>
      if c = ']'.toUInt8 then .token .arrayEnd { json with source := source, stack := stack }
      else if count = 0 then readValue { json with stack := (.array, 1) :: stack }
      else if c = ','.toUInt8 then readValue { json with source := source, stack := (.array, count + 1) :: stack }
      else .error (about "unexpected byte '" c "'")

/-- `json_next` in an object. -/
def nextInObject (json : JSONStream) (count : ℕ) (stack : List (ContainerType × ℕ)) : Next :=
  if count = 0 then
    match json.source.dropWhile isSpace with
    | [] => .error (UTF8.text "unexpected end of text")
    | c :: source =>
        if c = 0x7D then .token .objectEnd { json with source := source, stack := stack }
        else json.readName 0 stack (UTF8.text "expected member name or '\x7d'")
  else if count % 2 = 0 then
    match json.source.dropWhile isSpace with
    | [] => .error (UTF8.text "expected ',' or '\x7d' after member value")
    | c :: source =>
        if c ≠ ','.toUInt8 ∧ c ≠ 0x7D then .error (UTF8.text "expected ',' or '\x7d' after member value")
        else if c = 0x7D then .token .objectEnd { json with source := source, stack := stack }
        else readName { json with source := source } count stack (UTF8.text "expected member name")
  else
    match json.source.dropWhile isSpace with
    | [] => .error (UTF8.text "expected ':' after member name")
    | c :: source =>
        if c ≠ ':'.toUInt8 then .error (UTF8.text "expected ':' after member name")
        else readValue { json with source := source, stack := (.object, count + 1) :: stack }

/-- `json_next` without streaming. -/
def jsonNext (json : JSONStream) : Next :=
  match json.stack with
  | [] =>
      if json.ntokens > 0 then
        match json.source.dropWhile isSpace with
        | [] => .done
        | c :: _ => .error (about "expected end of text instead of byte '" c "'")
      else json.readValue
  | (.array, count) :: stack => json.nextInArray count stack
  | (.object, count) :: stack => json.nextInObject count stack

end JSONStream

end Poco.JSON.Pdjson
