import Poco.Foundation.Ascii
import Poco.Foundation.DateTime

/-! # `DateTimeFormatter`

The formats of dates and times, and the texts that `DateTimeFormatter` writes.  A text is a list of
characters.  The functions of `Ascii` are those of `Char`, except for white space and punctuation
(`Ascii.OfChar`). -/

namespace Poco.Foundation

/-! ### `NumberFormatter` -/

namespace NumberFormatter

/-- `intToStr` in base 10.  Zeros are filled in behind the sign, other characters before it. -/
def intToStr (value : ℤ) (width : ℤ) (fill : Char) : List Char :=
  let digits := Nat.toDigits 10 value.natAbs
  let sign := if value < 0 then ['-'] else []
  if fill = '0' then
    let width := if value < 0 then width - 1 else width
    sign ++ digits.leftpad width.toNat '0'
  else (sign ++ digits).leftpad width.toNat fill

/-- `NumberFormatter::append(str, value)`: the text appended. -/
def format (value : ℤ) : List Char := intToStr value (-1) ' '

/-- `NumberFormatter::append(str, value, width)`. -/
def formatWidth (value width : ℤ) : List Char := intToStr value width ' '

/-- `NumberFormatter::append0`. -/
def format0 (value width : ℤ) : List Char := intToStr value width '0'

end NumberFormatter

/-! ### `DateTimeFormat` -/

namespace DateTimeFormat

def ISO8601_FORMAT : List Char := "%Y-%m-%dT%H:%M:%S%z".toList

def ISO8601_FRAC_FORMAT : List Char := "%Y-%m-%dT%H:%M:%s%z".toList

def RFC822_FORMAT : List Char := "%w, %e %b %y %H:%M:%S %Z".toList

def RFC1123_FORMAT : List Char := "%w, %e %b %Y %H:%M:%S %Z".toList

def HTTP_FORMAT : List Char := "%w, %d %b %Y %H:%M:%S %Z".toList

def RFC850_FORMAT : List Char := "%W, %e-%b-%y %H:%M:%S %Z".toList

def RFC1036_FORMAT : List Char := "%W, %e %b %y %H:%M:%S %Z".toList

def ASCTIME_FORMAT : List Char := "%w %b %f %H:%M:%S %Y".toList

def SORTABLE_FORMAT : List Char := "%Y-%m-%d %H:%M:%S".toList

def FORMAT_LIST : List (List Char) :=
  [ISO8601_FORMAT, ISO8601_FRAC_FORMAT, RFC822_FORMAT, RFC1123_FORMAT, HTTP_FORMAT, RFC850_FORMAT,
    RFC1036_FORMAT, ASCTIME_FORMAT, SORTABLE_FORMAT]

def WEEKDAY_NAMES : List (List Char) :=
  ["Sunday".toList, "Monday".toList, "Tuesday".toList, "Wednesday".toList, "Thursday".toList,
    "Friday".toList, "Saturday".toList]

def MONTH_NAMES : List (List Char) :=
  ["January".toList, "February".toList, "March".toList, "April".toList, "May".toList, "June".toList,
    "July".toList, "August".toList, "September".toList, "October".toList, "November".toList,
    "December".toList]

/-- `DateTimeFormat::hasFormat`. -/
def hasFormat (fmt : List Char) : Bool := FORMAT_LIST.contains fmt

end DateTimeFormat

/-! ### Members of `DateTime` that are formatted -/

namespace DateTime

/-- `dayOfWeek`. -/
def dayOfWeek (d : DateTime) : ℤ := ⌊toJulianDay d._utcTime + 1.5⌋.tmod 7

/-- `hourAMPM`. -/
def hourAMPM (d : DateTime) : ℤ :=
  if d._fields.hour < 1 then 12
  else if d._fields.hour > 12 then d._fields.hour - 12
  else d._fields.hour

/-- `isAM`. -/
def isAM (d : DateTime) : Bool := d._fields.hour < 12

end DateTime

/-! ### `DateTimeFormatter` -/

namespace DateTimeFormatter

open NumberFormatter DateTimeFormat

/-- The differential that stands for universal time. -/
def UTC : ℤ := 0xFFFF

/-- The sign, hours and minutes of a time zone differential, with `sep` between them. -/
def tzdText (timeZoneDifferential : ℤ) (sep : List Char) : List Char :=
  if timeZoneDifferential ≥ 0 then
    '+' :: (format0 (timeZoneDifferential.tdiv 3600) 2 ++ sep ++
      format0 ((timeZoneDifferential.tmod 3600).tdiv 60) 2)
  else
    '-' :: (format0 ((-timeZoneDifferential).tdiv 3600) 2 ++ sep ++
      format0 (((-timeZoneDifferential).tmod 3600).tdiv 60) 2)

/-- `tzdISO`. -/
def tzdISO (timeZoneDifferential : ℤ) : List Char :=
  if timeZoneDifferential ≠ UTC then tzdText timeZoneDifferential [':'] else ['Z']

/-- `tzdRFC`. -/
def tzdRFC (timeZoneDifferential : ℤ) : List Char :=
  if timeZoneDifferential ≠ UTC then tzdText timeZoneDifferential [] else "GMT".toList

/-- The cases of the `switch` in `append`. -/
def directive (d : DateTime) (timeZoneDifferential : ℤ) (c : Char) : List Char :=
  let f := d._fields
  match c with
  | 'w' => (WEEKDAY_NAMES.getD d.dayOfWeek.toNat []).take 3
  | 'W' => WEEKDAY_NAMES.getD d.dayOfWeek.toNat []
  | 'b' => (MONTH_NAMES.getD (f.month - 1).toNat []).take 3
  | 'B' => MONTH_NAMES.getD (f.month - 1).toNat []
  | 'd' => format0 f.day 2
  | 'e' => format f.day
  | 'f' => formatWidth f.day 2
  | 'm' => format0 f.month 2
  | 'n' => format f.month
  | 'o' => formatWidth f.month 2
  | 'y' => format0 (f.year.tmod 100) 2
  | 'Y' => format0 f.year 4
  | 'H' => format0 f.hour 2
  | 'h' => format0 d.hourAMPM 2
  | 'a' => if d.isAM then "am".toList else "pm".toList
  | 'A' => if d.isAM then "AM".toList else "PM".toList
  | 'M' => format0 f.minute 2
  | 'S' => format0 f.second 2
  | 's' => format0 f.second 2 ++ '.' :: format0 (f.millisecond * 1000 + f.microsecond) 6
  | 'i' => format0 f.millisecond 3
  | 'c' => format0 (f.millisecond.tdiv 10) 2
  | 'F' => format0 (f.millisecond * 1000 + f.microsecond) 6
  | 'z' => tzdISO timeZoneDifferential
  | 'Z' => tzdRFC timeZoneDifferential
  | c => [c]

/-- `DateTimeFormatter::append`: the text that is appended. -/
def format (d : DateTime) (timeZoneDifferential : ℤ) : List Char → List Char
  | [] => []
  | ['%'] => []
  | '%' :: c :: fmt => directive d timeZoneDifferential c ++ format d timeZoneDifferential fmt
  | c :: fmt => c :: format d timeZoneDifferential fmt

end DateTimeFormatter

end Poco.Foundation
