import Mathlib.Data.Rat.Floor
import Mathlib.Tactic.Linarith
import Mathlib.Tactic.FieldSimp
import Mathlib.Tactic.Ring
import Mathlib.Tactic.NormNum
import Mathlib.Tactic.Positivity
import Mathlib.Tactic.IntervalCases

/-! # `DateTime`

A `DateTime` keeps a point in time twice: as a number of 100 nanoseconds since the Gregorian
reform, and as the fields of the calendar.  The fields are computed from the number by way of the
Julian day, and then corrected from the number itself.

The floating point numbers of the source are rational numbers here, so that its arithmetic is
exact; the conversion to an integer type cuts the fraction off.  A field is kept as a `short`, to
which an `int` is narrowed.  What the language leaves undefined (an `int` or an `Int64` that
overflows, a conversion out of the range of `Int64`, a read beyond the table of the months) is a
failure of its own.  The time of a valid date is defined (`computeUtcTime_of_valid`). -/

namespace Poco.Foundation

/-! ### Conversions of numbers -/

/-- The conversion of an integer to `short`. -/
def short (x : ℤ) : ℤ := (x + 2 ^ 15) % 2 ^ 16 - 2 ^ 15

/-- The conversion of a floating point number to an integer. -/
def truncate (x : ℚ) : ℤ := if 0 ≤ x then ⌊x⌋ else ⌈x⌉

theorem short_of_bounds {x : ℤ} (h : -2 ^ 15 ≤ x) (h' : x < 2 ^ 15) : short x = x := by
  rw [short]
  omega

theorem truncate_intCast (x : ℤ) : truncate x = x := by
  rw [truncate]
  split <;> simp

/-! ### `Timestamp` and `Timespan` -/

namespace Timestamp

/-- The time of the Unix epoch in 100 nanoseconds since the Gregorian reform. -/
def epoch : ℤ := 0x01b21dd2 * 2 ^ 32 + 0x13814000

/-- `Timestamp::utcTime`, for a time in microseconds since the epoch. -/
def utcTime (ts : ℤ) : ℤ := ts * 10 + epoch

/-- `Timestamp::fromUtcTime`. -/
def fromUtcTime (val : ℤ) : ℤ := (val - epoch).tdiv 10

end Timestamp

namespace Timespan

def MILLISECONDS : ℤ := 1000

def SECONDS : ℤ := 1000 * MILLISECONDS

def MINUTES : ℤ := 60 * SECONDS

def HOURS : ℤ := 60 * MINUTES

def DAYS : ℤ := 24 * HOURS

/-- `Timespan::hours()`. -/
def hours (span : ℤ) : ℤ := (span.tdiv HOURS).tmod 24

/-- `Timespan::minutes()`. -/
def minutes (span : ℤ) : ℤ := (span.tdiv MINUTES).tmod 60

/-- `Timespan::seconds()`. -/
def seconds (span : ℤ) : ℤ := (span.tdiv SECONDS).tmod 60

/-- `Timespan::milliseconds()`. -/
def milliseconds (span : ℤ) : ℤ := (span.tdiv MILLISECONDS).tmod 1000

/-- `Timespan::microseconds()`. -/
def microseconds (span : ℤ) : ℤ := span.tmod 1000

end Timespan

/-! ### The members of `DateTime` -/

/-- The fields of the calendar. -/
structure Fields where
  year : ℤ
  month : ℤ
  day : ℤ
  hour : ℤ
  minute : ℤ
  second : ℤ
  millisecond : ℤ
  microsecond : ℤ
deriving DecidableEq, Repr

/-- `DateTime`: the time, and the fields, which are of type `short`. -/
structure DateTime where
  _utcTime : ℤ
  _fields : Fields
deriving DecidableEq, Repr

/-- `InvalidArgumentException`, with its text. -/
structure InvalidArgumentException where
  text : String
deriving DecidableEq, Repr

namespace DateTime

/-- Why there is no `DateTime`: an exception, or a computation that the language leaves undefined. -/
inductive Failure where
  | throws (e : InvalidArgumentException)
  | undefined
deriving DecidableEq, Repr

/-- The result of an operation on numbers of type `int`. -/
def int (x : ℤ) : Except Failure ℤ := if -2 ^ 31 ≤ x ∧ x < 2 ^ 31 then .ok x else .error .undefined

/-- The result of an operation on numbers of type `Int64`, or of a conversion to it. -/
def int64 (x : ℤ) : Except Failure ℤ := if -2 ^ 63 ≤ x ∧ x < 2 ^ 63 then .ok x else .error .undefined

theorem int_of_bounds {x : ℤ} (h : -2 ^ 31 ≤ x) (h' : x < 2 ^ 31) : int x = .ok x := if_pos ⟨h, h'⟩

theorem int64_of_bounds {x : ℤ} (h : -2 ^ 63 ≤ x) (h' : x < 2 ^ 63) : int64 x = .ok x := if_pos ⟨h, h'⟩

/-- `isLeapYear`. -/
def isLeapYear (year : ℤ) : Bool :=
  year.tmod 4 = 0 && (year.tmod 100 != 0 || year.tmod 400 == 0)

/-- `daysOfMonth`. -/
def daysOfMonth (year month : ℤ) : ℤ :=
  if month = 2 ∧ isLeapYear year then 29
  else if month < 1 ∨ month > 12 then 0
  else [0, 31, 28, 31, 30, 31, 30, 31, 31, 30, 31, 30, 31].getD month.toNat 0

/-- `isValid`. -/
def isValid (f : Fields) : Bool :=
  (f.year ≥ -4713 && f.year ≤ 9999) && (f.month ≥ 1 && f.month ≤ 12) &&
    (f.day ≥ 1 && f.day ≤ daysOfMonth f.year f.month) && (f.hour ≥ 0 && f.hour ≤ 23) &&
    (f.minute ≥ 0 && f.minute ≤ 59) && (f.second ≥ 0 && f.second ≤ 60) &&
    (f.millisecond ≥ 0 && f.millisecond ≤ 999) && (f.microsecond ≥ 0 && f.microsecond ≤ 999)

/-- The text of the exception of `checkValid`. -/
def invalidText (f : Fields) : String :=
  let last := daysOfMonth f.year f.month
  s!"Date time is {f.year}-{f.month}-{f.day}T{f.hour}:{f.minute}:{f.second}.{f.millisecond}.{f.microsecond}\n" ++
    "Valid values:\n-4713 <= year <= 9999\n1 <= month <= 12\n" ++
    s!"1 <= day <=  {last}\n" ++
    "0 <= hour <= 23\n0 <= minute <= 59\n0 <= second <= 60\n0 <= millisecond <= 999\n" ++
    "0 <= microsecond <= 999"

/-- `checkValid`. -/
def checkValid (f : Fields) : Except InvalidArgumentException Unit :=
  if isValid f then .ok () else .error ⟨invalidText f⟩

/-- `toJulianDay(utcTime)`. -/
def toJulianDay (utcTime : ℤ) : ℚ := utcTime / 864000000000 + 2299160.5

/-- `toUtcTime`. -/
def toUtcTime (julianDay : ℚ) : Except Failure ℤ := int64 (truncate ((julianDay - 2299160.5) * 864000000000))

/-- The table `lookup`, read at a month. -/
def lookup (month : ℤ) : Except Failure ℤ :=
  if month < 0 then .error .undefined
  else match [-91, -60, -30, 0, 31, 61, 92, 122, 153, 184, 214, 245, 275, 306, 337][month.toNat]? with
    | some days => .ok days
    | none => .error .undefined

/-- `toJulianDay` of a date and time. -/
def julianDayOf (year month day hour minute second millisecond microsecond : ℤ) : Except Failure ℚ := do
  let minutes ← int ((← int (hour * 60)) + minute)
  let seconds ← int ((← int (minutes * 60)) + second)
  let dday : ℚ := day + (((seconds : ℚ) * 1000 + millisecond) * 1000 + microsecond) / 86400000000
  let year ← if month < 3 then int (year - 1) else pure year
  let days ← lookup (if month < 3 then month + 12 else month)
  let years ← int (365 * year)
  let dyear : ℚ := year
  return dday + days + years + ⌊dyear / 4⌋ - ⌊dyear / 100⌋ + ⌊dyear / 400⌋ + 1721118.5

/-- `checkLimit`. -/
def checkLimit (lower higher limit : ℤ) : ℤ × ℤ :=
  if lower ≥ limit then (short (lower.tmod limit), short (higher + short (lower.tdiv limit)))
  else (lower, higher)

/-- `normalize`. -/
def normalize (f : Fields) : Fields :=
  let (microsecond, millisecond) := checkLimit f.microsecond f.millisecond 1000
  let (millisecond, second) := checkLimit millisecond f.second 1000
  let (second, minute) := checkLimit second f.minute 60
  let (minute, hour) := checkLimit minute f.hour 60
  let (hour, day) := checkLimit hour f.day 24
  let (year, month, day) :=
    if day > daysOfMonth f.year f.month then
      let day := short (day - daysOfMonth f.year f.month)
      if f.month + 1 > 12 then (f.year + 1, f.month + 1 - 12, day) else (f.year, f.month + 1, day)
    else (f.year, f.month, day)
  ⟨year, month, day, hour, minute, second, millisecond, microsecond⟩

/-- The lines of `computeGregorian` for a field of the time of day: the field, and what is left. -/
def takeField (r limit : ℚ) : ℤ × ℚ :=
  let r := r * limit
  (short ⌊r⌋, r - ⌊r⌋)

/-- `computeGregorian`. -/
def computeGregorian (julianDay : ℚ) : Fields :=
  let z : ℤ := ⌊julianDay - 1721118.5⌋
  let r : ℚ := julianDay - 1721118.5 - z
  let g : ℚ := z - 0.25
  let a : ℤ := ⌊g / 36524.25⌋
  let b : ℤ := a - ⌊(a : ℚ) / 4⌋
  let year := short ⌊(b + g) / 365.25⌋
  let c : ℤ := b + z - ⌊365.25 * (year : ℚ)⌋
  let month := short ⌊(5 * c + 456 : ℚ) / 153⌋
  let dday : ℚ := c - ⌊(153.0 * month - 457 : ℚ) / 5⌋ + r
  let day := short (truncate dday)
  let (year, month) := if month > 12 then (year + 1, month - 12) else (year, month)
  let (hour, r) := takeField r 24
  let (minute, r) := takeField r 60
  let (second, r) := takeField r 60
  let (millisecond, r) := takeField r 1000
  let microsecond := short (truncate (r * 1000 + 0.5))
  normalize ⟨year, month, day, hour, minute, second, millisecond, microsecond⟩

/-- The corrections of the date in `computeDaytime`; `hour` is the hour of the day by the clock. -/
def correctDate (f : Fields) (hour : ℤ) : Fields :=
  if hour = 23 ∧ f.hour = 0 then
    let day := f.day - 1
    if day = 0 then
      let (year, month) := if f.month - 1 = 0 then (f.year - 1, 12) else (f.year, f.month - 1)
      { f with year := year, month := month, day := short (daysOfMonth year month) }
    else { f with day := day }
  else if hour = 0 ∧ f.hour = 23 then
    let day := f.day + 1
    if day > daysOfMonth f.year f.month then
      let (year, month) := if f.month + 1 > 12 then (f.year + 1, 1) else (f.year, f.month + 1)
      { f with year := year, month := month, day := 1 }
    else { f with day := day }
  else f

/-- `computeDaytime`. -/
def computeDaytime (utcTime : ℤ) (f : Fields) : Fields :=
  let ut := if utcTime < 0 then utcTime + 86400 * 1000 * 1000 * 10 * 1600 * 365 else utcTime
  let span := ut.tdiv 10
  let hour := Timespan.hours span
  { correctDate f hour with
    hour := short hour
    minute := short (Timespan.minutes span)
    second := short (Timespan.seconds span)
    millisecond := short (Timespan.milliseconds span)
    microsecond := short (Timespan.microseconds span) }

/-- The fields of a time. -/
def fieldsOf (utcTime : ℤ) : Fields := computeDaytime utcTime (computeGregorian (toJulianDay utcTime))

/-- A time, with its fields. -/
def ofUtc (utcTime : ℤ) : Except Failure DateTime := do
  (checkValid (fieldsOf utcTime)).mapError .throws
  return ⟨utcTime, fieldsOf utcTime⟩

/-- `DateTime(utcTime, diff)`. -/
def ofUtcTime (utcTime diff : ℤ) : Except Failure DateTime := do
  ofUtc (← int64 (utcTime + (← int64 (diff * 10))))

/-- `DateTime(timestamp)`. -/
def ofTimestamp (timestamp : ℤ) : Except Failure DateTime := do
  ofUtc (← int64 ((← int64 (timestamp * 10)) + Timestamp.epoch))

/-- The arguments, as the fields keep them. -/
def narrow (f : Fields) : Fields :=
  ⟨short f.year, short f.month, short f.day, short f.hour, short f.minute, short f.second,
    short f.millisecond, short f.microsecond⟩

/-- The time that is computed from the arguments: the sum of the products of an `int` is an `Int64`, ten
times it may not be. -/
def computeUtcTime (f : Fields) : Except Failure ℤ := do
  let day ← toUtcTime (← julianDayOf f.year f.month f.day 0 0 0 0 0)
  let time ← int64 (10 * (f.hour * Timespan.HOURS + f.minute * Timespan.MINUTES + f.second * Timespan.SECONDS +
    f.millisecond * Timespan.MILLISECONDS + f.microsecond))
  int64 (day + time)

/-- `DateTime(year, month, day, hour, minute, second, millisecond, microsecond)`. -/
def create (f : Fields) : Except Failure DateTime := do
  (checkValid (narrow f)).mapError .throws
  return ⟨← computeUtcTime f, narrow f⟩

/-- `utcTime()`. -/
def utcTime (d : DateTime) : ℤ := d._utcTime

/-- `timestamp()`. -/
def timestamp (d : DateTime) : ℤ := Timestamp.fromUtcTime d._utcTime

/-! ### The number of a day -/

/-- The number of a day, counted from the first of March of the year 0, for the `n`th day of a year
that begins with March. -/
def dayNumber (year n : ℤ) : ℤ := 365 * year + year / 4 - year / 100 + year / 400 + n

/-- The days of the year before a month, in a year that begins with March. -/
def daysBefore (month : ℤ) : ℤ := (153 * month - 457).tdiv 5

theorem lookup_eq {month : ℤ} (h0 : 0 ≤ month) (h14 : month ≤ 14) : lookup month = .ok (daysBefore month) := by
  interval_cases month <;> rfl

/-- Whether the February at the end of a year that begins with March has 29 days. -/
def EndsLeap (year : ℤ) : Prop := (year + 1) % 4 = 0 ∧ ((year + 1) % 100 ≠ 0 ∨ (year + 1) % 400 = 0)

/-- `n` is a day of a year that begins with March. -/
def DayOfYear (year n : ℤ) : Prop := 1 ≤ n ∧ n ≤ 366 ∧ (n = 366 → EndsLeap year)

theorem dayNumber_eq (year n : ℤ) :
    dayNumber year n =
      36524 * (year / 100) + year / 100 / 4 + 365 * (year % 100) + year % 100 / 4 + n := by
  rw [dayNumber]
  omega

theorem EndsLeap.mod {year : ℤ} (h : EndsLeap year) :
    year % 100 % 4 = 3 ∧ (year % 100 = 99 → year / 100 % 4 = 3) := by
  obtain ⟨h4, h100⟩ := h
  constructor
  · omega
  · intro h99
    have hzero : (year + 1) % 100 = 0 := by omega
    have h400 := h100.resolve_left fun hne => hne hzero
    omega

theorem century_dayNumber {year n : ℤ} (h : DayOfYear year n) :
    (4 * dayNumber year n - 1) / 146097 = year / 100 := by
  obtain ⟨h1, h2, h3⟩ := h
  have hleap := fun h => (h3 h).mod
  rw [dayNumber_eq]
  generalize hC : year / 100 = C at *
  generalize hy : year % 100 = y at *
  have hy' : 0 ≤ y ∧ y < 100 := by omega
  omega

theorem year_dayNumber {year n : ℤ} (h : DayOfYear year n) :
    (4 * (year / 100 - year / 100 / 4) + 4 * dayNumber year n - 1) / 1461 = year := by
  obtain ⟨h1, h2, h3⟩ := h
  have hleap := fun h => (h3 h).mod
  rw [dayNumber_eq]
  generalize hC : year / 100 = C at *
  generalize hy : year % 100 = y at *
  have hy' : 0 ≤ y ∧ y < 100 := by omega
  omega

theorem day_dayNumber (year n : ℤ) :
    year / 100 - year / 100 / 4 + dayNumber year n - 1461 * year / 4 = n := by
  rw [dayNumber_eq]
  omega

/-! ### The inverse of the number of a day -/

theorem floor_of_eq {x : ℚ} {a : ℤ} {b : ℕ} (h : x = a / b) : ⌊x⌋ = a / b := by
  rw [h, Rat.floor_intCast_div_natCast]

/-- The whole part is the field, and the fraction is left. -/
theorem takeField_eq {r k : ℚ} (field : ℤ) {q m : ℤ} (h : r * k = field + q / m) (h0 : 0 ≤ q) (hq : q < m) :
    takeField r k = (short field, (q : ℚ) / m) := by
  have hfrac : ⌊(q : ℚ) / m⌋ = 0 := by
    have hm : (0 : ℚ) < m := Int.cast_pos.mpr (by omega)
    rw [Int.floor_eq_zero_iff]
    exact ⟨div_nonneg (Int.cast_nonneg h0) hm.le, (div_lt_one hm).mpr (Int.cast_lt.mpr hq)⟩
  simp only [takeField, h, Int.floor_intCast_add, hfrac, add_zero, add_sub_cancel_left]

/-- The microseconds of a time of day. -/
def timeOfDay (f : Fields) : ℤ :=
  (((f.hour * 60 + f.minute) * 60 + f.second) * 1000 + f.millisecond) * 1000 + f.microsecond

/-- A time of day, within the limits of its fields. -/
def IsTimeOfDay (f : Fields) : Prop :=
  (0 ≤ f.hour ∧ f.hour ≤ 23) ∧ (0 ≤ f.minute ∧ f.minute ≤ 59) ∧ (0 ≤ f.second ∧ f.second ≤ 59) ∧
    (0 ≤ f.millisecond ∧ f.millisecond ≤ 999) ∧ (0 ≤ f.microsecond ∧ f.microsecond ≤ 999)

theorem IsTimeOfDay.timeOfDay_lt {f : Fields} (h : IsTimeOfDay f) :
    0 ≤ timeOfDay f ∧ timeOfDay f < 86400000000 := by
  obtain ⟨h0, h1, h2, h3, h4⟩ := h
  rw [timeOfDay]
  omega

/-- The time of day that `computeGregorian` finds, `k` times 100 nanoseconds after a microsecond: it
rounds to the nearest microsecond. -/
theorem takeFields_eq {f : Fields} (hf : IsTimeOfDay f) {k : ℤ} (hk0 : 0 ≤ k) (hk : k < 10) :
    ∃ r1 r2 r3 r4 : ℚ, takeField (((10 * timeOfDay f + k : ℤ) : ℚ) / 864000000000) 24 = (f.hour, r1) ∧
      takeField r1 60 = (f.minute, r2) ∧ takeField r2 60 = (f.second, r3) ∧
      takeField r3 1000 = (f.millisecond, r4) ∧
      short (truncate (r4 * 1000 + 0.5)) = f.microsecond + (k + 5) / 10 := by
  obtain ⟨⟨h0, h23⟩, ⟨m0, m59⟩, ⟨s0, s59⟩, ⟨ms0, ms999⟩, us0, us999⟩ := hf
  have hshort {x : ℤ} (h0 : 0 ≤ x) (h1 : x ≤ 1000) : short x = x :=
    short_of_bounds (by omega) (by omega)
  refine ⟨(10 * (((f.minute * 60 + f.second) * 1000 + f.millisecond) * 1000 + f.microsecond) + k : ℤ) /
      (36000000000 : ℤ),
    (10 * ((f.second * 1000 + f.millisecond) * 1000 + f.microsecond) + k : ℤ) / (600000000 : ℤ),
    (10 * (f.millisecond * 1000 + f.microsecond) + k : ℤ) / (10000000 : ℤ),
    (10 * f.microsecond + k : ℤ) / (10000 : ℤ), ?_, ?_, ?_, ?_, ?_⟩
  · rw [timeOfDay, takeField_eq f.hour, hshort h0 (by omega)]
    · push_cast
      ring
    · omega
    · omega
  · rw [takeField_eq f.minute, hshort m0 (by omega)]
    · push_cast
      ring
    · omega
    · omega
  · rw [takeField_eq f.second, hshort s0 (by omega)]
    · push_cast
      ring
    · omega
    · omega
  · rw [takeField_eq f.millisecond, hshort ms0 (by omega)]
    · push_cast
      ring
    · omega
    · omega
  · have hr : ((10 * f.microsecond + k : ℤ) : ℚ) / (10000 : ℤ) * 1000 + 0.5 =
        (f.microsecond : ℤ) + ((k + 5 : ℤ) : ℚ) / (10 : ℕ) := by
      push_cast
      ring
    have hpos : (0 : ℚ) ≤ f.microsecond := by exact_mod_cast us0
    have hk5 : (0 : ℚ) ≤ ((k + 5 : ℤ) : ℚ) / (10 : ℕ) := by
      have : (0 : ℚ) ≤ ((k + 5 : ℤ) : ℚ) := by exact_mod_cast (by omega : 0 ≤ k + 5)
      positivity
    rw [hr, truncate, if_pos (add_nonneg hpos hk5), Int.floor_intCast_add, floor_of_eq rfl]
    exact hshort (by omega) (by omega)

/-- The date that `computeGregorian` finds for a day, month and year counted from March. -/
theorem computeGregorian_eq {year n : ℤ} {f : Fields} {k : ℤ} (hn : DayOfYear year n) (hf : IsTimeOfDay f)
    (hk0 : 0 ≤ k) (hk : k < 10) (hlow : -2 ^ 15 ≤ year) (hhigh : year < 2 ^ 15) :
    computeGregorian (dayNumber year n + 1721118.5 + ((10 * timeOfDay f + k : ℤ) : ℚ) / 864000000000) =
      normalize { f with
        year := if (5 * n + 456) / 153 > 12 then year + 1 else year
        month := if (5 * n + 456) / 153 > 12 then (5 * n + 456) / 153 - 12 else (5 * n + 456) / 153
        day := n - (153 * ((5 * n + 456) / 153) - 457) / 5
        microsecond := f.microsecond + (k + 5) / 10 } := by
  obtain ⟨r1, r2, r3, r4, hhour, hminute, hsecond, hmilli, hmicro⟩ := takeFields_eq hf hk0 hk
  have ht := hf.timeOfDay_lt
  generalize hN : dayNumber year n = N
  obtain ⟨T, hT⟩ : ∃ T, 10 * timeOfDay f + k = T := ⟨_, rfl⟩
  rw [hT] at hhour ⊢
  have hx : (N : ℚ) + 1721118.5 + (T : ℚ) / 864000000000 - 1721118.5 = N + (T : ℚ) / 864000000000 := by
    ring
  have hfrac : ⌊(T : ℚ) / 864000000000⌋ = 0 := by
    rw [floor_of_eq (a := T) (b := 864000000000) (by norm_num)]
    omega
  have hz : ⌊(N : ℚ) + (T : ℚ) / 864000000000⌋ = N := by
    rw [Int.floor_intCast_add, hfrac, add_zero]
  have hr : (N : ℚ) + (T : ℚ) / 864000000000 - N = (T : ℚ) / 864000000000 := by ring
  have ha : ⌊((N : ℚ) - 0.25) / 36524.25⌋ = year / 100 := by
    rw [← century_dayNumber hn, hN]
    apply floor_of_eq (b := 146097)
    push_cast
    ring
  have ha4 : ⌊((year / 100 : ℤ) : ℚ) / 4⌋ = year / 100 / 4 := floor_of_eq (b := 4) rfl
  have hyear : ⌊(((year / 100 - year / 100 / 4 : ℤ) : ℚ) + (N - 0.25)) / 365.25⌋ = year := by
    conv_rhs => rw [← year_dayNumber hn, hN]
    apply floor_of_eq (b := 1461)
    push_cast
    ring
  have hdays : ⌊(365.25 : ℚ) * year⌋ = 1461 * year / 4 := by
    apply floor_of_eq (b := 4)
    push_cast
    ring
  have hc : year / 100 - year / 100 / 4 + N - 1461 * year / 4 = n := by
    rw [← hN]
    exact day_dayNumber year n
  have hmonth : ⌊((5 : ℚ) * n + 456) / 153⌋ = (5 * n + 456) / 153 := by
    apply floor_of_eq (b := 153)
    push_cast
    ring
  generalize hM : (5 * n + 456) / 153 = M at *
  have hlook : ⌊((153.0 : ℚ) * M - 457) / 5⌋ = (153 * M - 457) / 5 := by
    apply floor_of_eq (b := 5)
    norm_num
  obtain ⟨hn1, hn2, -⟩ := hn
  have hday : truncate ((n : ℚ) - ((153 * M - 457) / 5 : ℤ) + (T : ℚ) / 864000000000) =
      n - (153 * M - 457) / 5 := by
    have hpos : 0 ≤ n - (153 * M - 457) / 5 := by omega
    have hT0 : (0 : ℚ) ≤ (T : ℚ) / 864000000000 := by
      have : (0 : ℚ) ≤ T := by exact_mod_cast (by omega : 0 ≤ T)
      positivity
    have hcast : (n : ℚ) - ((153 * M - 457) / 5 : ℤ) = ((n - (153 * M - 457) / 5 : ℤ) : ℚ) := by
      push_cast
      ring
    have hpos' : (0 : ℚ) ≤ ((n - (153 * M - 457) / 5 : ℤ) : ℚ) := by exact_mod_cast hpos
    rw [hcast, truncate, if_pos (by linarith), Int.floor_intCast_add, hfrac, add_zero]
  have hyearShort : short year = year := short_of_bounds (by omega) (by omega)
  have hmonthShort : short M = M := short_of_bounds (by omega) (by omega)
  have hdayShort : short (n - (153 * M - 457) / 5) = n - (153 * M - 457) / 5 :=
    short_of_bounds (by omega) (by omega)
  rw [computeGregorian]
  simp only [hx, hz, hr, ha, ha4, hyear, hyearShort, hdays, hc, hmonth, hmonthShort, hlook, hday,
    hdayShort, hhour, hminute, hsecond, hmilli, hmicro]
  split
  · rfl
  · rfl

/-! ### Round trip -/

/-- The year that begins with March, for a date. -/
def marchYear (f : Fields) : ℤ := if f.month < 3 then f.year - 1 else f.year

/-- The month, where January and February are at the end of the year. -/
def marchMonth (f : Fields) : ℤ := if f.month < 3 then f.month + 12 else f.month

/-- A valid date and time in the years 0 to 9999, without a leap second. -/
def Supported (f : Fields) : Prop := isValid f = true ∧ 0 ≤ f.year ∧ f.second ≤ 59

theorem isLeapYear_iff (year : ℤ) : isLeapYear year = true ↔ EndsLeap (year - 1) := by
  have htmod (k : ℤ) : year.tmod k = 0 ↔ year % k = 0 := by
    rw [← Int.dvd_iff_tmod_eq_zero, Int.dvd_iff_emod_eq_zero]
  simp [isLeapYear, EndsLeap, htmod]

theorem daysOfMonth_le (year month : ℤ) : daysOfMonth year month ≤ 31 := by
  rw [daysOfMonth]
  split_ifs with hleap hmonth
  · decide
  · decide
  · have h1 : 1 ≤ month := by omega
    have h12 : month ≤ 12 := by omega
    interval_cases month <;> decide

theorem daysOfMonth_ge (year : ℤ) {month : ℤ} (h1 : 1 ≤ month) (h12 : month ≤ 12) :
    28 ≤ daysOfMonth year month := by
  rw [daysOfMonth]
  split_ifs with hleap hmonth
  · decide
  · omega
  · interval_cases month <;> decide

/-- A date of the calendar, in any year, and a time of day. -/
structure IsDate (f : Fields) : Prop where
  month : 1 ≤ f.month ∧ f.month ≤ 12
  day : 1 ≤ f.day ∧ f.day ≤ daysOfMonth f.year f.month
  time : IsTimeOfDay f

theorem Supported.date {f : Fields} (h : Supported f) :
    0 ≤ f.year ∧ f.year ≤ 9999 ∧ 1 ≤ f.month ∧ f.month ≤ 12 ∧ 1 ≤ f.day ∧
      f.day ≤ daysOfMonth f.year f.month := by
  obtain ⟨hvalid, hyear, -⟩ := h
  simp only [isValid, Bool.and_eq_true, decide_eq_true_eq] at hvalid
  omega

theorem Supported.time {f : Fields} (h : Supported f) : IsTimeOfDay f := by
  obtain ⟨hvalid, -, hsecond⟩ := h
  simp only [isValid, Bool.and_eq_true, decide_eq_true_eq] at hvalid
  rw [IsTimeOfDay]
  omega

theorem Supported.isDate {f : Fields} (h : Supported f) : IsDate f := by
  obtain ⟨-, -, hm0, hm1, hday⟩ := h.date
  exact ⟨⟨hm0, hm1⟩, hday, h.time⟩

/-- The place of a date in the year that begins with March. -/
theorem IsDate.march {f : Fields} (h : IsDate f) :
    DayOfYear (marchYear f) (daysBefore (marchMonth f) + f.day) ∧
      (5 * (daysBefore (marchMonth f) + f.day) + 456) / 153 = marchMonth f ∧
      daysBefore (marchMonth f) + f.day - (153 * marchMonth f - 457) / 5 = f.day := by
  obtain ⟨⟨hm0, hm1⟩, ⟨hd0, hd1⟩, -⟩ := h
  have hleap := isLeapYear_iff f.year
  obtain ⟨year, month, day, hour, minute, second, millisecond, microsecond⟩ := f
  simp only [marchYear, marchMonth, DayOfYear] at *
  by_cases hfeb : month = 2
  · subst hfeb
    rcases hl : isLeapYear year with _ | _
    · simp [daysOfMonth, hl] at hd1
      simp [daysBefore]
      omega
    · simp [daysOfMonth, hl] at hd1
      simp [daysBefore, hleap.mp hl]
      omega
  · interval_cases month <;> simp [daysOfMonth, daysBefore] at hfeb hd1 ⊢ <;> omega

/-- The number of the day of a date. -/
def dayNumberOf (f : Fields) : ℤ := dayNumber (marchYear f) (daysBefore (marchMonth f) + f.day)

theorem Supported.dayNumberOf_ge {f : Fields} (h : Supported f) : -365 ≤ dayNumberOf f := by
  obtain ⟨hy0, -⟩ := h.date
  obtain ⟨⟨hn, -⟩, -⟩ := h.isDate.march
  have hyear : -1 ≤ marchYear f := by
    rw [marchYear]
    split <;> omega
  rw [dayNumberOf, dayNumber]
  omega

/-- The time of a date and a time of day. -/
def utcTimeOf (f : Fields) : ℤ := (dayNumberOf f - 578042) * 864000000000 + 10 * timeOfDay f

theorem julianDayOf_of_valid {f : Fields} (h : isValid f = true) :
    julianDayOf f.year f.month f.day 0 0 0 0 0 = .ok (dayNumberOf f + 1721118.5) := by
  have h4 (year : ℤ) : ⌊(year : ℚ) / 4⌋ = year / 4 := floor_of_eq (b := 4) rfl
  have h100 (year : ℤ) : ⌊(year : ℚ) / 100⌋ = year / 100 := floor_of_eq (b := 100) rfl
  have h400 (year : ℤ) : ⌊(year : ℚ) / 400⌋ = year / 400 := floor_of_eq (b := 400) rfl
  have hzero : int 0 = .ok 0 := int_of_bounds (by decide) (by decide)
  simp only [isValid, Bool.and_eq_true, decide_eq_true_eq] at h
  rw [julianDayOf, dayNumberOf, marchYear, marchMonth, dayNumber]
  by_cases hm : f.month < 3
  · simp only [if_pos hm, zero_mul, add_zero, hzero, int_of_bounds (by omega : -2 ^ 31 ≤ f.year - 1) (by omega),
      lookup_eq (by omega : 0 ≤ f.month + 12) (by omega),
      int_of_bounds (by omega : -2 ^ 31 ≤ 365 * (f.year - 1)) (by omega), h4, h100, h400, bind, Except.bind, pure,
      Except.pure]
    congr 1
    push_cast
    ring
  · simp only [if_neg hm, zero_mul, add_zero, hzero, lookup_eq (by omega : 0 ≤ f.month) (by omega),
      int_of_bounds (by omega : -2 ^ 31 ≤ 365 * f.year) (by omega), h4, h100, h400, bind, Except.bind, pure,
      Except.pure]
    congr 1
    push_cast
    ring

theorem dayNumberOf_bounds {f : Fields} (h : isValid f = true) :
    -1722000 ≤ dayNumberOf f ∧ dayNumberOf f ≤ 3653000 := by
  simp only [isValid, Bool.and_eq_true, decide_eq_true_eq] at h
  have hdate : IsDate { f with second := 0 } :=
    ⟨⟨by simp only; omega, by simp only; omega⟩, ⟨by simp only; omega, by simp only; omega⟩,
      by simp only [IsTimeOfDay]; omega⟩
  obtain ⟨⟨hn1, hn2, -⟩, -⟩ := hdate.march
  have hyear : -4714 ≤ marchYear f ∧ marchYear f ≤ 9999 := by
    rw [marchYear]
    split <;> omega
  change 1 ≤ daysBefore (marchMonth f) + f.day at hn1
  change daysBefore (marchMonth f) + f.day ≤ 366 at hn2
  rw [dayNumberOf, dayNumber]
  omega

theorem timeOfDay_bounds {f : Fields} (h : isValid f = true) : 0 ≤ timeOfDay f ∧ timeOfDay f < 86401000000 := by
  simp only [isValid, Bool.and_eq_true, decide_eq_true_eq] at h
  rw [timeOfDay]
  omega

theorem utcTimeOf_bounds {f : Fields} (h : isValid f = true) :
    -2000000000000000000 < utcTimeOf f ∧ utcTimeOf f < 2700000000000000000 := by
  have hdays := dayNumberOf_bounds h
  have htime := timeOfDay_bounds h
  rw [utcTimeOf]
  omega

theorem computeUtcTime_of_valid {f : Fields} (h : isValid f = true) : computeUtcTime f = .ok (utcTimeOf f) := by
  have hday : truncate (((dayNumberOf f : ℚ) + 1721118.5 - 2299160.5) * 864000000000) =
      (dayNumberOf f - 578042) * 864000000000 := by
    rw [← truncate_intCast ((dayNumberOf f - 578042) * 864000000000)]
    congr 1
    push_cast
    ring
  have htime : 10 * (f.hour * Timespan.HOURS + f.minute * Timespan.MINUTES + f.second * Timespan.SECONDS +
      f.millisecond * Timespan.MILLISECONDS + f.microsecond) = 10 * timeOfDay f := by
    simp only [timeOfDay, Timespan.HOURS, Timespan.MINUTES, Timespan.SECONDS, Timespan.MILLISECONDS]
    ring
  obtain ⟨hdays0, hdays1⟩ := dayNumberOf_bounds h
  obtain ⟨htime0, htime1⟩ := timeOfDay_bounds h
  obtain ⟨hlow, hhigh⟩ := utcTimeOf_bounds h
  rw [computeUtcTime, julianDayOf_of_valid h]
  simp only [toUtcTime, hday, htime, int64_of_bounds (by omega : -2 ^ 63 ≤ (dayNumberOf f - 578042) * 864000000000)
    (by omega), int64_of_bounds (by omega : -2 ^ 63 ≤ 10 * timeOfDay f) (by omega), bind, Except.bind]
  rw [utcTimeOf] at hlow hhigh ⊢
  exact int64_of_bounds (by omega) (by omega)

theorem toJulianDay_utcTimeOf (f : Fields) (k : ℤ) :
    toJulianDay (utcTimeOf f + k) =
      dayNumberOf f + 1721118.5 + ((10 * timeOfDay f + k : ℤ) : ℚ) / 864000000000 := by
  rw [toJulianDay, utcTimeOf]
  push_cast
  ring

theorem computeGregorian_utcTimeOf {f : Fields} (h : IsDate f) {k : ℤ} (hk0 : 0 ≤ k) (hk : k < 10)
    (hlow : -2 ^ 15 < f.year) (hhigh : f.year < 2 ^ 15) :
    computeGregorian (toJulianDay (utcTimeOf f + k)) =
      normalize { f with microsecond := f.microsecond + (k + 5) / 10 } := by
  obtain ⟨hm0, hm1⟩ := h.month
  obtain ⟨hn, hmonth, hday⟩ := h.march
  have hbounds : -2 ^ 15 ≤ marchYear f ∧ marchYear f < 2 ^ 15 := by
    rw [marchYear]
    split <;> omega
  have hdate : (if marchMonth f > 12 then marchYear f + 1 else marchYear f) = f.year ∧
      (if marchMonth f > 12 then marchMonth f - 12 else marchMonth f) = f.month := by
    rw [marchMonth, marchYear]
    by_cases hm : f.month < 3
    · simp only [if_pos hm]
      rw [if_pos (by omega), if_pos (by omega)]
      omega
    · simp only [if_neg hm]
      rw [if_neg (by omega), if_neg (by omega)]
      omega
  rw [toJulianDay_utcTimeOf, dayNumberOf, computeGregorian_eq hn h.time hk0 hk hbounds.1 hbounds.2,
    hmonth, hday, hdate.1, hdate.2]

/-! ### The next day -/

/-- The date of the fields. -/
def date (f : Fields) : ℤ × ℤ × ℤ := (f.year, f.month, f.day)

/-- The next day. -/
def nextDay (f : Fields) : Fields :=
  if f.day + 1 > daysOfMonth f.year f.month then
    if f.month + 1 > 12 then { f with year := f.year + 1, month := 1, day := 1 }
    else { f with month := f.month + 1, day := 1 }
  else { f with day := f.day + 1 }

theorem checkLimit_eq {lower higher limit : ℤ} (h0 : 0 ≤ lower) (hle : lower ≤ limit) (hpos : 0 < limit)
    (hlimit : limit ≤ 1000) (hhigher : 0 ≤ higher ∧ higher ≤ 1000) :
    checkLimit lower higher limit = (lower % limit, higher + lower / limit) := by
  rw [checkLimit]
  by_cases h : lower ≥ limit
  · obtain rfl : lower = limit := le_antisymm hle h
    rw [if_pos h, Int.tmod_self, Int.tdiv_self hpos.ne', Int.emod_self, Int.ediv_self hpos.ne',
      short_of_bounds (x := 0) (by decide) (by decide), short_of_bounds (x := 1) (by decide) (by decide),
      short_of_bounds (by omega) (by omega)]
  · rw [if_neg h, Int.emod_eq_of_lt h0 (by omega), Int.ediv_eq_zero_of_lt h0 (by omega), add_zero]

/-- A microsecond more is carried to the hour, and from there to the next day. -/
theorem date_normalize {f : Fields} (h : IsDate f) {c : ℤ} (h0 : 0 ≤ c) (h1 : c ≤ 1) :
    let g := normalize { f with microsecond := f.microsecond + c }
    f.hour = 23 ∧ g.hour = 0 ∧ date g = date (nextDay f) ∨
      date g = date f ∧ (f.hour = 23 → g.hour = 23) ∧ (f.hour = 0 → g.hour ≤ 1) := by
  obtain ⟨hm0, hm1⟩ := h.month
  obtain ⟨hd0, hd1⟩ := h.day
  obtain ⟨hhour, hminute, hsecond, hmilli, hmicro⟩ := h.time
  have hmax := daysOfMonth_le f.year f.month
  have hmicros : checkLimit (f.microsecond + c) f.millisecond 1000 =
      ((f.microsecond + c) % 1000, f.millisecond + (f.microsecond + c) / 1000) :=
    checkLimit_eq (by omega) (by omega) (by decide) (by decide) (by omega)
  obtain ⟨ms, hms⟩ : ∃ ms, f.millisecond + (f.microsecond + c) / 1000 = ms := ⟨_, rfl⟩
  have hmillis : checkLimit ms f.second 1000 = (ms % 1000, f.second + ms / 1000) :=
    checkLimit_eq (by omega) (by omega) (by decide) (by decide) (by omega)
  obtain ⟨s, hs⟩ : ∃ s, f.second + ms / 1000 = s := ⟨_, rfl⟩
  have hseconds : checkLimit s f.minute 60 = (s % 60, f.minute + s / 60) :=
    checkLimit_eq (by omega) (by omega) (by decide) (by decide) (by omega)
  obtain ⟨m, hm⟩ : ∃ m, f.minute + s / 60 = m := ⟨_, rfl⟩
  have hminutes : checkLimit m f.hour 60 = (m % 60, f.hour + m / 60) :=
    checkLimit_eq (by omega) (by omega) (by decide) (by decide) (by omega)
  obtain ⟨H, hH⟩ : ∃ H, f.hour + m / 60 = H := ⟨_, rfl⟩
  have hhours : checkLimit H f.day 24 = (H % 24, f.day + H / 24) :=
    checkLimit_eq (by omega) (by omega) (by decide) (by decide) (by omega)
  simp only [normalize, hmicros, hms, hmillis, hs, hseconds, hm, hminutes, hH, hhours]
  have hcarry : f.hour ≤ H ∧ H ≤ f.hour + 1 := by omega
  by_cases h24 : H = 24
  · left
    subst h24
    refine ⟨by omega, rfl, ?_⟩
    have hone : f.day + 24 / 24 = f.day + 1 := by omega
    rw [hone, date, date, nextDay]
    by_cases hlast : f.day + 1 > daysOfMonth f.year f.month
    · have hfirst : short (f.day + 1 - daysOfMonth f.year f.month) = 1 := by
        rw [short_of_bounds (by omega) (by omega)]
        omega
      rw [if_pos hlast, if_pos hlast, hfirst]
      by_cases h12 : f.month + 1 > 12
      · rw [if_pos h12, if_pos h12, show f.month + 1 - 12 = 1 by omega]
      · rw [if_neg h12, if_neg h12]
    · rw [if_neg hlast, if_neg hlast]
  · right
    have hzero : f.day + H / 24 = f.day := by omega
    rw [hzero, if_neg (by omega)]
    exact ⟨rfl, by omega, by omega⟩

theorem date_correctDate_nextDay {f g : Fields} (h : IsDate f) (hg : g.hour = 0)
    (hdate : date g = date (nextDay f)) : date (correctDate g 23) = date f := by
  obtain ⟨hm0, hm1⟩ := h.month
  obtain ⟨hd0, hd1⟩ := h.day
  have hmax := daysOfMonth_le f.year f.month
  unfold correctDate
  rw [if_pos ⟨rfl, hg⟩]
  unfold nextDay at hdate
  by_cases hlast : f.day + 1 > daysOfMonth f.year f.month
  · have hday : short (daysOfMonth f.year f.month) = f.day := by
      rw [short_of_bounds (by omega) (by omega)]
      omega
    rw [if_pos hlast] at hdate
    by_cases h12 : f.month + 1 > 12
    · have hmonth : f.month = 12 := by omega
      rw [if_pos h12] at hdate
      simp only [date, Prod.mk.injEq] at hdate
      simp only [hdate, sub_self, if_true, add_sub_cancel_right]
      rw [hmonth] at hday
      simp only [date, hday, hmonth]
    · rw [if_neg h12] at hdate
      simp only [date, Prod.mk.injEq] at hdate
      simp only [hdate, sub_self, if_true, add_sub_cancel_right, if_neg (by omega : ¬f.month = 0), date, hday]
  · rw [if_neg hlast] at hdate
    simp only [date, Prod.mk.injEq] at hdate
    simp only [hdate, add_sub_cancel_right, if_neg (by omega : ¬f.day = 0), date]

theorem dayNumberOf_nextDay {f : Fields} (h : IsDate f) : dayNumberOf (nextDay f) = dayNumberOf f + 1 := by
  obtain ⟨⟨hm0, hm1⟩, ⟨hd0, hd1⟩, -⟩ := h
  have hleap := isLeapYear_iff f.year
  obtain ⟨year, month, day, hour, minute, second, millisecond, microsecond⟩ := f
  simp only at *
  by_cases hlast : day + 1 > daysOfMonth year month
  · obtain rfl : day = daysOfMonth year month := by omega
    by_cases hfeb : month = 2
    · subst hfeb
      unfold nextDay
      rcases hl : isLeapYear year with _ | _
      · simp only [hl, Bool.false_eq_true, false_iff, EndsLeap] at hleap
        simp [daysOfMonth, hl, dayNumberOf, marchYear, marchMonth, daysBefore, dayNumber]
        omega
      · simp [hl, EndsLeap] at hleap
        simp [daysOfMonth, hl, dayNumberOf, marchYear, marchMonth, daysBefore, dayNumber]
        omega
    · unfold nextDay
      interval_cases month <;>
        simp [daysOfMonth, dayNumberOf, marchYear, marchMonth, daysBefore, dayNumber] at hfeb ⊢ <;> omega
  · rw [nextDay, if_neg hlast, dayNumberOf, dayNumberOf, dayNumber, dayNumber, marchYear, marchYear,
      marchMonth, marchMonth]
    simp only
    omega

theorem IsDate.next {f : Fields} (h : IsDate f) : IsDate (nextDay f) := by
  obtain ⟨⟨hm0, hm1⟩, ⟨hd0, hd1⟩, htime⟩ := h
  unfold nextDay
  by_cases hlast : f.day + 1 > daysOfMonth f.year f.month
  · rw [if_pos hlast]
    by_cases h12 : f.month + 1 > 12
    · rw [if_pos h12]
      have hdays := daysOfMonth_ge (f.year + 1) (le_refl 1) (by decide)
      exact ⟨⟨le_rfl, by norm_num⟩, ⟨le_rfl, le_trans (by norm_num) hdays⟩, htime⟩
    · rw [if_neg h12]
      have hdays := daysOfMonth_ge f.year (by omega : 1 ≤ f.month + 1) (by omega)
      exact ⟨⟨by simp only; omega, by simp only; omega⟩, ⟨le_rfl, le_trans (by norm_num) hdays⟩, htime⟩
  · rw [if_neg hlast]
    exact ⟨⟨hm0, hm1⟩, ⟨by simp only; omega, by simp only; omega⟩, htime⟩

/-- The clock and the date after `normalize` agree on the day. -/
theorem date_correctDate {f g : Fields} (h : IsDate f)
    (hg : f.hour = 23 ∧ g.hour = 0 ∧ date g = date (nextDay f) ∨
      date g = date f ∧ (f.hour = 23 → g.hour = 23) ∧ (f.hour = 0 → g.hour ≤ 1)) :
    date (correctDate g f.hour) = date f := by
  rcases hg with ⟨h23, h0, hdate⟩ | ⟨hdate, h23, h0⟩
  · rw [h23]
    exact date_correctDate_nextDay h h0 hdate
  · rw [correctDate, if_neg (by omega), if_neg (by omega), hdate]

theorem clock_eq {f : Fields} (h : IsTimeOfDay f) {days k : ℤ} (hdays : 0 ≤ days) (hk0 : 0 ≤ k) (hk : k < 10) :
    let span := (days * 864000000000 + 10 * timeOfDay f + k).tdiv 10
    Timespan.hours span = f.hour ∧ Timespan.minutes span = f.minute ∧
      Timespan.seconds span = f.second ∧ Timespan.milliseconds span = f.millisecond ∧
      Timespan.microseconds span = f.microsecond := by
  intro span
  have ht := h.timeOfDay_lt
  obtain ⟨h0, h1, h2, h3, h4⟩ := h
  have hspan : span = days * 86400000000 + timeOfDay f := by
    simp only [span]
    rw [Int.tdiv_eq_ediv_of_nonneg (by omega)]
    omega
  have hpos : 0 ≤ span := by omega
  have hdiv {k m : ℤ} (hk : 0 ≤ k) : (span.tdiv k).tmod m = span / k % m := by
    rw [Int.tdiv_eq_ediv_of_nonneg hpos,
      Int.tmod_eq_emod_of_nonneg (Int.ediv_nonneg hpos hk)]
  simp only [Timespan.hours, Timespan.minutes, Timespan.seconds, Timespan.milliseconds,
    Timespan.microseconds, Timespan.HOURS, Timespan.MINUTES, Timespan.SECONDS, Timespan.MILLISECONDS]
  rw [hdiv (by decide), hdiv (by decide), hdiv (by decide), hdiv (by decide),
    Int.tmod_eq_emod_of_nonneg hpos, hspan, timeOfDay]
  omega

/-- From 584000 days before the reform on, the fields are those of the calendar and the clock. -/
theorem fields_eq {f : Fields} (h : IsDate f) {k : ℤ} (hk0 : 0 ≤ k) (hk : k < 10) (hlow : -2 ^ 15 < f.year)
    (hhigh : f.year < 2 ^ 15) (hshift : -5958 ≤ dayNumberOf f) :
    computeDaytime (utcTimeOf f + k) (computeGregorian (toJulianDay (utcTimeOf f + k))) = f := by
  obtain ⟨days, hdays, hut⟩ : ∃ days, 0 ≤ days ∧ (if utcTimeOf f + k < 0 then
      utcTimeOf f + k + 86400 * 1000 * 1000 * 10 * 1600 * 365 else utcTimeOf f + k) =
        days * 864000000000 + 10 * timeOfDay f + k := by
    have ht := h.time.timeOfDay_lt
    rw [utcTimeOf]
    split
    · exact ⟨dayNumberOf f - 578042 + 584000, by omega, by ring⟩
    · exact ⟨dayNumberOf f - 578042, by omega, rfl⟩
  obtain ⟨hhour, hminute, hsecond, hmilli, hmicro⟩ := clock_eq h.time hdays hk0 hk
  have hdate := date_correctDate h (date_normalize h (c := (k + 5) / 10) (by omega) (by omega))
  rw [computeGregorian_utcTimeOf h hk0 hk hlow hhigh]
  generalize normalize { f with microsecond := f.microsecond + (k + 5) / 10 } = g at hdate ⊢
  have hshort {x : ℤ} (h0 : 0 ≤ x) (h1 : x ≤ 999) : short x = x :=
    short_of_bounds (by omega) (by omega)
  obtain ⟨h0, h1, h2, h3, h4⟩ := h.time
  simp only [date, Prod.mk.injEq] at hdate
  simp only [computeDaytime, hut, hhour, hminute, hsecond, hmilli, hmicro, hdate]
  rw [hshort (by omega) (by omega : f.hour ≤ 999), hshort (by omega) (by omega : f.minute ≤ 999),
    hshort (by omega) (by omega : f.second ≤ 999), hshort (by omega) (by omega : f.millisecond ≤ 999),
    hshort (by omega) (by omega : f.microsecond ≤ 999)]

theorem ofUtc_of_supported {f : Fields} (h : Supported f) :
    ofUtc (utcTimeOf f) = .ok ⟨utcTimeOf f, f⟩ := by
  obtain ⟨hy0, hy1, -⟩ := h.date
  have hlow := h.dayNumberOf_ge
  have hfields := fields_eq h.isDate (le_refl 0) (by decide) (by omega) (by omega) (by omega)
  rw [add_zero] at hfields
  rw [ofUtc, fieldsOf, hfields, checkValid, if_pos h.1]
  rfl

/-! ### Order -/

theorem dayNumber_lt_of_year {year year' n n' : ℤ} (hn : DayOfYear year n) (hn' : DayOfYear year' n')
    (h : year < year') : dayNumber year n < dayNumber year' n' := by
  obtain ⟨h1, h2, h3⟩ := hn
  obtain ⟨h1', h2', -⟩ := hn'
  have hleap := fun h => (h3 h).mod
  rw [dayNumber_eq, dayNumber_eq]
  omega

/-- Dates in the order of the calendar have increasing numbers. -/
theorem dayNumberOf_lt {f g : Fields} (hf : IsDate f) (hg : IsDate g)
    (h : [f.year, f.month, f.day] < [g.year, g.month, g.day]) : dayNumberOf f < dayNumberOf g := by
  obtain ⟨hn, hmonth, -⟩ := hf.march
  obtain ⟨hn', hmonth', -⟩ := hg.march
  obtain ⟨hm0, hm1⟩ := hf.month
  obtain ⟨hm0', hm1'⟩ := hg.month
  have hmarch : marchYear f < marchYear g ∨ marchYear f = marchYear g ∧
      (marchMonth f < marchMonth g ∨ marchMonth f = marchMonth g ∧ f.day < g.day) := by
    simp only [List.cons_lt_cons_iff, List.lt_irrefl, and_false, or_false] at h
    simp only [marchYear, marchMonth]
    split_ifs <;> omega
  rw [dayNumberOf, dayNumberOf]
  rcases hmarch with hlt | ⟨heq, hlt⟩
  · exact dayNumber_lt_of_year hn hn' hlt
  · -- a later month has later days, by the formula that gives the month of a day
    have hday : daysBefore (marchMonth f) + f.day < daysBefore (marchMonth g) + g.day := by
      rcases hlt with hlt | ⟨heq, hlt⟩
      · omega
      · rw [heq]
        omega
    rw [heq, dayNumber, dayNumber]
    omega

theorem timeOfDay_lt_of_lt {f g : Fields} (hf : IsTimeOfDay f) (hg : IsTimeOfDay g)
    (h : [f.hour, f.minute, f.second, f.millisecond, f.microsecond] <
      [g.hour, g.minute, g.second, g.millisecond, g.microsecond]) : timeOfDay f < timeOfDay g := by
  obtain ⟨h0, h1, h2, h3, h4⟩ := hf
  obtain ⟨h0', h1', h2', h3', h4'⟩ := hg
  simp only [List.cons_lt_cons_iff, List.lt_irrefl, and_false, or_false] at h
  rw [timeOfDay, timeOfDay]
  omega

/-- The fields in the order in which dates are compared. -/
def toList (f : Fields) : List ℤ :=
  [f.year, f.month, f.day, f.hour, f.minute, f.second, f.millisecond, f.microsecond]

theorem utcTimeOf_lt {f g : Fields} (hf : IsDate f) (hg : IsDate g) (h : toList f < toList g) :
    utcTimeOf f < utcTimeOf g := by
  have htf := hf.time.timeOfDay_lt
  have htg := hg.time.timeOfDay_lt
  rw [utcTimeOf, utcTimeOf]
  have hsplit : [f.year, f.month, f.day] < [g.year, g.month, g.day] ∨
      dayNumberOf f = dayNumberOf g ∧
        [f.hour, f.minute, f.second, f.millisecond, f.microsecond] <
          [g.hour, g.minute, g.second, g.millisecond, g.microsecond] := by
    rw [toList, toList] at h
    rcases List.cons_lt_cons_iff.mp h with h | ⟨hy, h⟩
    · exact Or.inl (List.cons_lt_cons_iff.mpr (Or.inl h))
    · rcases List.cons_lt_cons_iff.mp h with h | ⟨hm, h⟩
      · left
        rw [hy, List.cons_lt_cons_iff, List.cons_lt_cons_iff]
        exact Or.inr ⟨rfl, Or.inl h⟩
      · rcases List.cons_lt_cons_iff.mp h with h | ⟨hd, h⟩
        · left
          rw [hy, hm]
          simpa [List.cons_lt_cons_iff] using h
        · right
          refine ⟨?_, h⟩
          rw [dayNumberOf, dayNumberOf, marchYear, marchYear, marchMonth, marchMonth, hy, hm, hd]
  rcases hsplit with h | ⟨heq, h⟩
  · have := dayNumberOf_lt hf hg h
    omega
  · have := timeOfDay_lt_of_lt hf.time hg.time h
    omega

theorem narrow_of_isValid {f : Fields} (h : isValid f = true) : narrow f = f := by
  have hdays := daysOfMonth_le f.year f.month
  simp only [isValid, Bool.and_eq_true, decide_eq_true_eq] at h
  have hshort {x : ℤ} (h0 : -4713 ≤ x) (h1 : x ≤ 9999) : short x = x :=
    short_of_bounds (by omega) (by omega)
  rw [narrow, hshort (by omega) (by omega : f.year ≤ 9999), hshort (by omega) (by omega : f.month ≤ 9999),
    hshort (by omega) (by omega : f.day ≤ 9999), hshort (by omega) (by omega : f.hour ≤ 9999),
    hshort (by omega) (by omega : f.minute ≤ 9999), hshort (by omega) (by omega : f.second ≤ 9999),
    hshort (by omega) (by omega : f.millisecond ≤ 9999), hshort (by omega) (by omega : f.microsecond ≤ 9999)]

/-- The fields of a valid date and time are kept, also those of a leap second. -/
theorem create_of_valid {f : Fields} (h : isValid f = true) : create f = .ok ⟨utcTimeOf f, f⟩ := by
  rw [create, narrow_of_isValid h, checkValid, if_pos h, computeUtcTime_of_valid h]
  rfl

/-- A time within the limits of `Int64` is given with its difference. -/
theorem ofUtcTime_of_bounds {utcTime diff : ℤ} (h : -2 ^ 63 ≤ diff * 10 ∧ diff * 10 < 2 ^ 63)
    (hsum : -2 ^ 63 ≤ utcTime + diff * 10 ∧ utcTime + diff * 10 < 2 ^ 63) :
    ofUtcTime utcTime diff = ofUtc (utcTime + diff * 10) := by
  rw [ofUtcTime, int64_of_bounds h.1 h.2]
  simp only [bind, Except.bind, int64_of_bounds hsum.1 hsum.2]

theorem ofTimestamp_of_bounds {timestamp : ℤ} (h : -2 ^ 63 ≤ timestamp * 10 ∧ timestamp * 10 < 2 ^ 63)
    (hsum : Timestamp.utcTime timestamp < 2 ^ 63) :
    ofTimestamp timestamp = ofUtc (Timestamp.utcTime timestamp) := by
  rw [Timestamp.utcTime, Timestamp.epoch] at hsum ⊢
  rw [ofTimestamp, int64_of_bounds h.1 h.2, Timestamp.epoch]
  simp only [bind, Except.bind, int64_of_bounds (by omega : -2 ^ 63 ≤ timestamp * 10 + _) hsum]

/-- A time in whole microseconds is the same as a timestamp. -/
theorem utcTime_fromUtcTime (f : Fields) :
    Timestamp.utcTime (Timestamp.fromUtcTime (utcTimeOf f)) = utcTimeOf f := by
  have hdvd : (10 : ℤ) ∣ utcTimeOf f - Timestamp.epoch := by
    rw [utcTimeOf, Timestamp.epoch]
    omega
  rw [Timestamp.utcTime, Timestamp.fromUtcTime, Int.tdiv_mul_cancel hdvd, sub_add_cancel]

/-! ### Every time has a date -/

/-- Every day has a place in a year that begins with March. -/
theorem exists_dayNumber (N : ℤ) : ∃ year n, DayOfYear year n ∧ dayNumber year n = N := by
  -- the century, and the day in it; then the year of the century
  obtain ⟨a, m, hN, hm1, hm2, hm3⟩ : ∃ a m : ℤ, N = 36524 * a + a / 4 + m ∧ 1 ≤ m ∧ m ≤ 36525 ∧
      (m = 36525 → a % 4 = 3) := by
    refine ⟨(4 * N - 1) / 146097, N - 36524 * ((4 * N - 1) / 146097) - (4 * N - 1) / 146097 / 4, ?_⟩
    omega
  obtain ⟨y, n, hm, hy0, hy1, hn1, hn2, hn3⟩ : ∃ y n : ℤ, m = 365 * y + y / 4 + n ∧ 0 ≤ y ∧ y < 100 ∧
      1 ≤ n ∧ n ≤ 366 ∧ (n = 366 → y % 4 = 3) := by
    refine ⟨(4 * m - 1) / 1461, m - 365 * ((4 * m - 1) / 1461) - (4 * m - 1) / 1461 / 4, ?_⟩
    omega
  have hcentury : (100 * a + y) / 100 = a := by omega
  have hyear : (100 * a + y) % 100 = y := by omega
  refine ⟨100 * a + y, n, ⟨hn1, hn2, ?_⟩, ?_⟩
  · intro h366
    have h4 := hn3 h366
    have ha : y = 99 → a % 4 = 3 := by omega
    rw [EndsLeap]
    omega
  · rw [dayNumber_eq, hcentury, hyear]
    omega

theorem exists_date (N : ℤ) :
    ∃ year month day : ℤ, (1 ≤ month ∧ month ≤ 12) ∧ (1 ≤ day ∧ day ≤ daysOfMonth year month) ∧
      ∀ f : Fields, f.year = year → f.month = month → f.day = day → dayNumberOf f = N := by
  obtain ⟨year, n, ⟨hn1, hn2, hn3⟩, hN⟩ := exists_dayNumber N
  obtain ⟨M, hM⟩ : ∃ M, M = (5 * n + 456) / 153 := ⟨_, rfl⟩
  have hM3 : 3 ≤ M := by omega
  have hM14 : M ≤ 14 := by omega
  by_cases h12 : M ≤ 12
  · refine ⟨year, M, n - daysBefore M, ⟨by omega, h12⟩, ?_, ?_⟩
    · interval_cases M <;> simp [daysOfMonth, daysBefore] <;> omega
    · intro f hy hm hd
      rw [dayNumberOf, marchYear, marchMonth, hm, hy, hd, if_neg (by omega), if_neg (by omega), ← hN]
      congr 1
      omega
  · refine ⟨year + 1, M - 12, n - daysBefore M, ⟨by omega, by omega⟩, ?_, ?_⟩
    · have hleap := isLeapYear_iff (year + 1)
      rw [add_sub_cancel_right] at hleap
      obtain rfl | rfl : M = 13 ∨ M = 14 := by omega
      · simp [daysOfMonth, daysBefore]
        omega
      · by_cases h366 : n = 366
        · simp [daysOfMonth, daysBefore, hleap.mpr (hn3 h366)]
          omega
        · have h28 : 28 ≤ daysOfMonth (year + 1) 2 := daysOfMonth_ge (year + 1) (by decide) (by decide)
          simp [daysBefore]
          omega
    · intro f hy hm hd
      rw [dayNumberOf, marchYear, marchMonth, hm, hy, hd, if_pos (by omega), if_pos (by omega), ← hN]
      congr 1
      · omega
      · rw [sub_add_cancel]
        omega

/-- Every time is the time of a date and a time of day, and less than a microsecond. -/
theorem exists_isDate (utcTime : ℤ) : ∃ f k, IsDate f ∧ 0 ≤ k ∧ k < 10 ∧ utcTimeOf f + k = utcTime := by
  obtain ⟨days, micros, k, hsplit, hm0, hm1, hk0, hk⟩ : ∃ days micros k : ℤ,
      utcTime = (days - 578042) * 864000000000 + 10 * micros + k ∧ 0 ≤ micros ∧ micros < 86400000000 ∧
        0 ≤ k ∧ k < 10 :=
    ⟨utcTime / 864000000000 + 578042, utcTime % 864000000000 / 10, utcTime % 10, by omega, by omega,
      by omega, by omega, by omega⟩
  obtain ⟨year, month, day, hmonth, hday, hnumber⟩ := exists_date days
  refine ⟨⟨year, month, day, micros / 3600000000, micros / 60000000 % 60, micros / 1000000 % 60,
    micros / 1000 % 1000, micros % 1000⟩, k, ⟨hmonth, hday, ?_⟩, hk0, hk, ?_⟩
  · simp only [IsTimeOfDay]
    omega
  · rw [utcTimeOf, hnumber _ rfl rfl rfl, timeOfDay, hsplit]
    simp only
    omega

theorem IsDate.year_le_iff {f : Fields} (h : IsDate f) (year : ℤ) :
    f.year ≤ year ↔ dayNumberOf f ≤ dayNumber year 306 := by
  obtain ⟨hn, hmonth, -⟩ := h.march
  obtain ⟨hm0, hm1⟩ := h.month
  have hlast : DayOfYear year 306 := ⟨by decide, by decide, fun h => absurd h (by decide)⟩
  have hcases : marchYear f < f.year ∧ marchYear f = f.year - 1 ∧ 306 < daysBefore (marchMonth f) + f.day ∨
      marchYear f = f.year ∧ daysBefore (marchMonth f) + f.day ≤ 306 := by
    by_cases hfeb : f.month < 3
    · have hyear : marchYear f = f.year - 1 := if_pos hfeb
      have hmarch : marchMonth f = f.month + 12 := if_pos hfeb
      omega
    · have hyear : marchYear f = f.year := if_neg hfeb
      have hmarch : marchMonth f = f.month := if_neg hfeb
      omega
  rw [dayNumberOf]
  generalize daysBefore (marchMonth f) + f.day = n at *
  constructor
  · intro hle
    rcases lt_or_eq_of_le (by omega : marchYear f ≤ year) with hlt | heq
    · exact (dayNumber_lt_of_year hn hlast hlt).le
    · rw [heq, dayNumber, dayNumber]
      omega
  · intro hle
    by_contra hgt
    rcases lt_or_eq_of_le (by omega : year ≤ marchYear f) with hlt | heq
    · exact absurd (dayNumber_lt_of_year hlast hn hlt) (by omega)
    · rw [heq, dayNumber, dayNumber] at hle
      omega

/-- The first and the last microsecond of the years 0 to 9999. -/
def InYears (utcTime : ℤ) : Prop :=
  utcTimeOf ⟨0, 1, 1, 0, 0, 0, 0, 0⟩ ≤ utcTime ∧ utcTime ≤ utcTimeOf ⟨9999, 12, 31, 23, 59, 59, 999, 999⟩

/-- Every microsecond of these years is the time of a date and a time of day. -/
theorem exists_supported {utcTime : ℤ} (h : InYears utcTime) (hmicro : 10 ∣ utcTime) :
    ∃ f, Supported f ∧ utcTimeOf f = utcTime := by
  obtain ⟨hlow, hhigh⟩ := h
  obtain ⟨f, k, hf, hk0, hk, htime⟩ := exists_isDate utcTime
  have ht := hf.time.timeOfDay_lt
  rw [utcTimeOf] at hlow hhigh htime
  obtain rfl : k = 0 := by omega
  have hfirst : dayNumberOf ⟨0, 1, 1, 0, 0, 0, 0, 0⟩ = -59 := by decide
  have hlast : dayNumberOf ⟨9999, 12, 31, 23, 59, 59, 999, 999⟩ = 3652365 := by decide
  rw [hfirst, timeOfDay] at hlow
  rw [hlast, timeOfDay] at hhigh
  simp only at hlow hhigh
  have hyear : 0 ≤ f.year ∧ f.year ≤ 9999 := by
    have h0 := hf.year_le_iff (-1)
    have h9999 := hf.year_le_iff 9999
    rw [dayNumber] at h0 h9999
    omega
  obtain ⟨⟨hm0, hm1⟩, ⟨hd0, hd1⟩, hday⟩ := hf
  refine ⟨f, ⟨?_, hyear.1, by rw [IsTimeOfDay] at hday; omega⟩, by rw [utcTimeOf, ← htime, add_zero]⟩
  rw [IsTimeOfDay] at hday
  simp only [isValid, Bool.and_eq_true, decide_eq_true_eq]
  omega

/-- The fields are valid and describe the time, cut off to microseconds. -/
structure Describes (d : DateTime) : Prop where
  valid : isValid d._fields = true
  low : utcTimeOf d._fields ≤ d._utcTime
  high : d._utcTime < utcTimeOf d._fields + 10

theorem describes_create {f : Fields} (h : isValid f = true) : ∃ d, create f = .ok d ∧ Describes d :=
  ⟨_, create_of_valid h, h, le_rfl, lt_add_of_pos_right _ (by decide)⟩

theorem describes_ofTimestamp {timestamp : ℤ} (h : InYears (Timestamp.utcTime timestamp)) :
    ∃ d, ofTimestamp timestamp = .ok d ∧ Describes d := by
  have hmicro : (10 : ℤ) ∣ Timestamp.utcTime timestamp := by
    rw [Timestamp.utcTime, Timestamp.epoch]
    omega
  obtain ⟨f, hf, htime⟩ := exists_supported h hmicro
  refine ⟨⟨utcTimeOf f, f⟩, ?_, hf.1, le_rfl, lt_add_of_pos_right _ (by decide)⟩
  have hbounds := utcTimeOf_bounds hf.1
  rw [htime, Timestamp.utcTime, Timestamp.epoch] at hbounds
  rw [ofTimestamp_of_bounds (by omega) (by rw [Timestamp.utcTime, Timestamp.epoch]; omega), ← htime]
  exact ofUtc_of_supported hf

/-! ### Main result -/

/-- **Main result.**  In exact arithmetic a date and time in the years 0 to 9999 comes back from its
time and from its timestamp, and times are in the order of the fields. -/
theorem calendar_round_trip :
    (∀ f, Supported f → ∃ d, create f = .ok d ∧ d._fields = f ∧ ofUtcTime d.utcTime 0 = .ok d ∧
      ofTimestamp d.timestamp = .ok d) ∧
    ∀ f g d e, Supported f → Supported g → create f = .ok d → create g = .ok e →
      toList f < toList g → d.utcTime < e.utcTime := by
  constructor
  · intro f hf
    have hbounds := utcTimeOf_bounds hf.1
    refine ⟨⟨utcTimeOf f, f⟩, create_of_valid hf.1, rfl, ?_, ?_⟩
    · show ofUtcTime (utcTimeOf f) 0 = _
      rw [ofUtcTime_of_bounds (by decide) (by omega), zero_mul, add_zero]
      exact ofUtc_of_supported hf
    · have hback := utcTime_fromUtcTime f
      have htimes := hback
      rw [Timestamp.utcTime, Timestamp.epoch] at htimes
      show ofTimestamp (Timestamp.fromUtcTime (utcTimeOf f)) = _
      rw [ofTimestamp_of_bounds (by omega) (by omega), hback]
      exact ofUtc_of_supported hf
  · intro f g d e hf hg hd he hlt
    rw [create_of_valid hf.1] at hd
    rw [create_of_valid hg.1] at he
    obtain rfl := Except.ok.inj hd
    obtain rfl := Except.ok.inj he
    exact utcTimeOf_lt hf.isDate hg.isDate hlt

/-- The last microsecond of a leap day. -/
theorem calendar_round_trip_leap_day :
    ∃ d, create ⟨2000, 2, 29, 23, 59, 59, 999, 999⟩ = .ok d ∧
      d._fields = ⟨2000, 2, 29, 23, 59, 59, 999, 999⟩ ∧ ofUtcTime d.utcTime 0 = .ok d ∧
      ofTimestamp d.timestamp = .ok d :=
  calendar_round_trip.1 _ ⟨by decide, by decide, by decide⟩

end DateTime

end Poco.Foundation
