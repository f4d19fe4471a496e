import Mathlib.Data.List.DropRight
import Poco.Foundation.DateTimeFormatter

/-! # `DateTimeParser`

`DateTimeParser::parse` walks through a format and a text at the same time.  The iterator into the
text is the part of the text that is still to be read, and stands in the state with the numbers read
so far.  The regular expressions of `DateTimeFormat::isValid` are a parameter. -/

namespace Poco.Foundation

/-- `SyntaxException`, with its text. -/
structure SyntaxException where
  text : List Char
deriving DecidableEq, Repr

namespace DateTimeParser

open Ascii.OfChar DateTimeFormat

/-! ### Reading numbers -/

/-- `skipNonDigits`. -/
def skipNonDigits (it : List Char) : List Char := it.dropWhile fun c => !c.isDigit

/-- `skipDigits`. -/
def skipDigits (it : List Char) : List Char := it.dropWhile Char.isDigit

/-- `std::stoi` of a text of digits: `none` for a number that is not an `int`. -/
def stoi (number : List Char) : Option ℤ :=
  let n := Nat.ofDigitChars 10 number 0
  if n < 2 ^ 31 then some n else none

/-- The exceptions of `parse`. -/
def invalid (dtStr : List Char) (reason : List Char) : SyntaxException :=
  ⟨"Invalid DateTimeString: ".toList ++ dtStr ++ reason⟩

/-- The number that `parseNumberN` and `parse_number` have found. -/
def numberOf (dtStr number : List Char) : Except SyntaxException ℤ :=
  if number = [] then .error (invalid dtStr ", No number found to parse".toList)
  else match stoi number with
    | some n => .ok n
    | none => .error (invalid dtStr (", invalid number: ".toList ++ number))

/-- `parseNumberN`: the number, and the rest of the text. -/
def parseNumberN (dtStr it : List Char) (n : ℕ) : Except SyntaxException (ℤ × List Char) := do
  let number := (it.take n).takeWhile Char.isDigit
  let value ← numberOf dtStr number
  return (value, it.drop number.length)

/-- `parse_number`. -/
def parse_number (dtStr it : List Char) : Except SyntaxException (ℤ × List Char) := do
  let number := it.takeWhile Char.isDigit
  let value ← numberOf dtStr number
  return (value, it.drop number.length)

/-- `parseFractionalN`. -/
def parseFractionalN (dtStr it : List Char) (n : ℕ) : Except SyntaxException (ℤ × List Char) := do
  let number := (it.take n).takeWhile Char.isDigit
  if number = [] then return (0, it)
  let value ← numberOf dtStr number
  return (value * 10 ^ (n - number.length), it.drop number.length)

/-! ### Reading names -/

structure Zone where
  designator : List Char
  timeZoneDifferential : ℤ
  allowsDifference : Bool
deriving DecidableEq, Repr

def zones : List Zone :=
  [⟨"Z".toList, 0, true⟩,
    ⟨"UT".toList, 0, true⟩,
    ⟨"GMT".toList, 0, true⟩,
    ⟨"BST".toList, 1 * 3600, false⟩,
    ⟨"IST".toList, 1 * 3600, false⟩,
    ⟨"WET".toList, 0, false⟩,
    ⟨"WEST".toList, 1 * 3600, false⟩,
    ⟨"CET".toList, 1 * 3600, false⟩,
    ⟨"CEST".toList, 2 * 3600, false⟩,
    ⟨"EET".toList, 2 * 3600, false⟩,
    ⟨"EEST".toList, 3 * 3600, false⟩,
    ⟨"MSK".toList, 3 * 3600, false⟩,
    ⟨"MSD".toList, 4 * 3600, false⟩,
    ⟨"NST".toList, -3 * 3600 - 1800, false⟩,
    ⟨"NDT".toList, -2 * 3600 - 1800, false⟩,
    ⟨"AST".toList, -4 * 3600, false⟩,
    ⟨"ADT".toList, -3 * 3600, false⟩,
    ⟨"EST".toList, -5 * 3600, false⟩,
    ⟨"EDT".toList, -4 * 3600, false⟩,
    ⟨"CST".toList, -6 * 3600, false⟩,
    ⟨"CDT".toList, -5 * 3600, false⟩,
    ⟨"MST".toList, -7 * 3600, false⟩,
    ⟨"MDT".toList, -6 * 3600, false⟩,
    ⟨"PST".toList, -8 * 3600, false⟩,
    ⟨"PDT".toList, -7 * 3600, false⟩,
    ⟨"AKST".toList, -9 * 3600, false⟩,
    ⟨"AKDT".toList, -8 * 3600, false⟩,
    ⟨"HST".toList, -10 * 3600, false⟩,
    ⟨"AEST".toList, 10 * 3600, false⟩,
    ⟨"AEDT".toList, 11 * 3600, false⟩,
    ⟨"ACST".toList, 9 * 3600 + 1800, false⟩,
    ⟨"ACDT".toList, 10 * 3600 + 1800, false⟩,
    ⟨"AWST".toList, 8 * 3600, false⟩,
    ⟨"AWDT".toList, 9 * 3600, false⟩]

/-- A number of hours or minutes in a time zone. -/
def parseZoneNumber (it : List Char) (what : String) (limit : ℤ) :
    Except SyntaxException (ℤ × List Char) :=
  match parseNumberN [] it 2 with
  | .error _ => .error ⟨"Timezone invalid number: ".toList ++ what.toList⟩
  | .ok (n, it) =>
      if n < 0 ∨ n > limit then
        .error ⟨"Timezone difference ".toList ++ what.toList ++ " out of range".toList⟩
      else .ok (n, it)

/-- The difference to a time zone, if there is one, is added to `tzd`. -/
def parseDifference (zone : Option Zone) (tzd : ℤ) (it : List Char) :
    Except SyntaxException (ℤ × List Char) :=
  match it with
  | [] => .ok (tzd, [])
  | c :: it' =>
      if c = '+' ∨ c = '-' then do
        if let some zone := zone then
          if !zone.allowsDifference then
            throw ⟨"Timezone does not allow difference ".toList ++ zone.designator⟩
        let sign : ℤ := if c = '+' then 1 else -1
        let (hours, it) ← parseZoneNumber it' "hours" 23
        let it := if it.head? = some ':' then it.tail else it
        let (minutes, it) ← parseZoneNumber it "minutes" 59
        return (tzd + sign * (hours * 3600 + minutes * 60), it)
      else .ok (tzd, it)

/-- `parseTZD`. -/
def parseTZD (it : List Char) : Except SyntaxException (ℤ × List Char) :=
  let it := it.dropWhile isSpace
  let designator := (it.take 4).takeWhile Char.isAlpha
  if designator = [] then parseDifference none 0 it
  else match zones.find? fun zone => designator = zone.designator with
    | none => .error ⟨"Unknown timezone designator ".toList ++ designator⟩
    | some zone =>
        parseDifference (some zone) zone.timeZoneDifferential (it.drop designator.length)

/-- `SyntaxException(msg, arg)`. -/
def withArgument (msg : String) (arg : List Char) : SyntaxException :=
  ⟨if arg = [] then msg.toList else msg.toList ++ ": ".toList ++ arg⟩

/-- The loops of `parseMonth` and `parseAMPM`: the letters, and the rest of the text. -/
def parseName (it : List Char) : List Char × List Char :=
  let it := it.dropWhile fun c => isSpace c || isPunct c
  (it.takeWhile Char.isAlpha, it.dropWhile Char.isAlpha)

/-- A name with a capital letter in front. -/
def capitalize : List Char → List Char
  | [] => []
  | c :: name => c.toUpper :: name.map Char.toLower

/-- `parseMonth`. -/
def parseMonth (it : List Char) : Except SyntaxException (ℤ × List Char) :=
  let (name, it) := parseName it
  let month := capitalize name
  if month.length < 3 then
    .error (withArgument "Month name must be at least three characters long" month)
  else match MONTH_NAMES.findIdx? fun name => month.isPrefixOf name with
    | some i => .ok (i + 1, it)
    | none => .error (withArgument "Not a valid month name" month)

/-- `parseAMPM`. -/
def parseAMPM (it : List Char) (hour : ℤ) : Except SyntaxException (ℤ × List Char) :=
  let (name, it) := parseName it
  let ampm := name.map Char.toUpper
  if ampm = "AM".toList then .ok (if hour = 12 then 0 else hour, it)
  else if ampm = "PM".toList then .ok (if hour < 12 then hour + 12 else hour, it)
  else .error (withArgument "Not a valid AM/PM designator" ampm)

/-! ### `parse` -/

/-- The variables of `parse`. -/
structure State where
  it : List Char
  year : ℤ
  month : ℤ
  day : ℤ
  hour : ℤ
  minute : ℤ
  second : ℤ
  millis : ℤ
  micros : ℤ
  tzd : ℤ
  dayParsed : Bool
  monthParsed : Bool
deriving DecidableEq, Repr

/-- `fmtHasFracSpec`. -/
def fmtHasFracSpec : List Char → Bool
  | '%' :: n :: fmt => n = 'c' || n = 'i' || n = 'F' || n = 's' || fmtHasFracSpec (n :: fmt)
  | _ :: fmt => fmtHasFracSpec fmt
  | [] => false

/-- The century of a year of two digits. -/
def century (year : ℤ) : ℤ := if year ≥ 69 then year + 1900 else year + 2000

/-- The optional fraction behind `%S`. -/
def skipFraction (dtStr : List Char) (fracSpec : Bool) (it : List Char) :
    Except SyntaxException (List Char) :=
  match it with
  | [] => .ok []
  | c :: it' =>
      if !fracSpec ∧ (c = '.' ∨ c = ',') then
        if (it'.head?.map Char.isDigit).getD false then .ok (skipDigits it')
        else .error (invalid dtStr ", missing fractional digits".toList)
      else .ok it

/-- The fraction behind the seconds of `%s`: milliseconds and microseconds, if there is one. -/
def parseFraction (dtStr it : List Char) : Except SyntaxException (Option (ℤ × ℤ) × List Char) :=
  match it with
  | [] => .ok (none, [])
  | c :: it' =>
      if c = '.' ∨ c = ',' then do
        if (it'.head?.map fun c => !c.isDigit).getD false then
          throw (invalid dtStr ", missing millisecond".toList)
        let (millis, it) ← parseFractionalN dtStr it' 3
        let (micros, it) ← parseFractionalN dtStr it 3
        return (some (millis, micros), skipDigits it)
      else .ok (none, it)

/-- The cases of the `switch` in `parse`. -/
def directive (dtStr : List Char) (fracSpec : Bool) (c : Char) (s : State) :
    Except SyntaxException State :=
  if c = 'w' ∨ c = 'W' then
    .ok { s with it := (s.it.dropWhile isSpace).dropWhile Char.isAlpha }
  else if c = 'b' ∨ c = 'B' then do
    let (month, it) ← parseMonth s.it
    return { s with it := it, month := month, monthParsed := true }
  else if c = 'd' ∨ c = 'e' ∨ c = 'f' then do
    let (day, it) ← parseNumberN dtStr (skipNonDigits s.it) 2
    return { s with it := it, day := day, dayParsed := true }
  else if c = 'm' ∨ c = 'n' ∨ c = 'o' then do
    let (month, it) ← parseNumberN dtStr (skipNonDigits s.it) 2
    return { s with it := it, month := month, monthParsed := true }
  else if c = 'y' then do
    let (year, it) ← parseNumberN dtStr (skipNonDigits s.it) 2
    return { s with it := it, year := century year }
  else if c = 'Y' then do
    let (year, it) ← parseNumberN dtStr (skipNonDigits s.it) 4
    return { s with it := it, year := year }
  else if c = 'r' then do
    let (year, it) ← parse_number dtStr (skipNonDigits s.it)
    return { s with it := it, year := if year < 1000 then century year else year }
  else if c = 'H' ∨ c = 'h' then do
    let (hour, it) ← parseNumberN dtStr (skipNonDigits s.it) 2
    return { s with it := it, hour := hour }
  else if c = 'a' ∨ c = 'A' then do
    let (hour, it) ← parseAMPM s.it s.hour
    return { s with it := it, hour := hour }
  else if c = 'M' then do
    let (minute, it) ← parseNumberN dtStr (skipNonDigits s.it) 2
    return { s with it := it, minute := minute }
  else if c = 'S' then do
    let (second, it) ← parseNumberN dtStr (skipNonDigits s.it) 2
    let it ← skipFraction dtStr fracSpec it
    return { s with it := it, second := second }
  else if c = 's' then do
    let (second, it) ← parseNumberN dtStr (skipNonDigits s.it) 2
    let (fraction, it) ← parseFraction dtStr it
    let (millis, micros) := fraction.getD (s.millis, s.micros)
    return { s with it := it, second := second, millis := millis, micros := micros }
  else if c = 'i' then do
    let (millis, it) ← parseNumberN dtStr (skipNonDigits s.it) 3
    return { s with it := it, millis := millis }
  else if c = 'c' then do
    let (millis, it) ← parseNumberN dtStr (skipNonDigits s.it) 2
    return { s with it := it, millis := millis * 10 }
  else if c = 'F' then do
    let (millis, it) ← parseNumberN dtStr (skipNonDigits s.it) 3
    let (micros, it) ← parseNumberN dtStr it 3
    return { s with it := skipDigits it, millis := millis, micros := micros }
  else if c = 'z' ∨ c = 'Z' then do
    let (tzd, it) ← parseTZD s.it
    return { s with it := it, tzd := tzd }
  else .ok s

/-- The loop over the format. -/
def loop (dtStr : List Char) (fracSpec : Bool) : List Char → State → Except SyntaxException State
  | [], s => .ok s
  | ['%'], s => .ok s
  | '%' :: c :: fmt, s =>
      if s.it = [] then .ok s
      else do loop dtStr fracSpec fmt (← directive dtStr fracSpec c s)
  | c :: fmt, s =>
      if s.it = [] then .ok s
      else if isSpace c then
        -- once the white space of the text is skipped, more white space in the format skips nothing
        loop dtStr fracSpec fmt { s with it := s.it.dropWhile isSpace }
      else if s.it.head? = some c then loop dtStr fracSpec fmt { s with it := s.it.tail }
      else loop dtStr fracSpec fmt s

/-- `Poco::trim`. -/
def trim (str : List Char) : List Char := (str.dropWhile isSpace).rdropWhile isSpace

/-- The state before the loop. -/
def initial (str : List Char) : State := ⟨str, 0, 0, 0, 0, 0, 0, 0, 0, 0, false, false⟩

/-- The fields that are found, where a month and a day that are not in the format are 1. -/
def State.fields (s : State) : Fields where
  year := s.year
  month := if s.monthParsed then s.month else 1
  day := if s.dayParsed then s.day else 1
  hour := s.hour
  minute := s.minute
  second := s.second
  millisecond := s.millis
  microsecond := s.micros

/-- `assign`; the check in `parse` excludes its failures, of which the text of the exception is kept. -/
def assign (f : Fields) : Except SyntaxException DateTime :=
  match DateTime.create f with
  | .ok d => .ok d
  | .error (.throws e) => .error ⟨e.text.toList⟩
  | .error .undefined => .error ⟨[]⟩

/-- `DateTimeParser::parse`: the date and time, and the time zone differential. -/
def parse (isValid : List Char → Bool) (fmt dtStr : List Char) :
    Except SyntaxException (DateTime × ℤ) :=
  let str := trim dtStr
  if fmt = [] ∨ str = [] then .error (invalid dtStr [])
  else if hasFormat fmt && !isValid str then .error (invalid dtStr [])
  else do
    let s ← loop dtStr (fmtHasFracSpec fmt) fmt (initial str)
    if s.it.dropWhile isSpace ≠ [] then
      throw (invalid dtStr ", unexpected trailing characters".toList)
    if DateTime.isValid s.fields then
      let d ← assign s.fields
      return (d, s.tzd)
    else throw ⟨"date/time component out of range".toList⟩

end DateTimeParser

end Poco.Foundation
