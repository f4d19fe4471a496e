import Poco.Foundation.DateTime

/-! # Arithmetic of `DateTime`

The operators of `DateTime` add to the time and compute the fields again.  `computeDaytime` takes
the time of day from the time, and moves a time before the reform 584000 days into the future first.
For an earlier time the clock runs backwards: all its fields are negative or zero, and `checkValid`
refuses them, except at midnight (`isValid_fields_iff`).

The members that change an object write its time and fields, cut off to `short`, before they check
them, so that an exception leaves an object that is not valid.  The time is computed from the
arguments themselves; where that is not defined, neither is the call. -/

namespace Poco.Foundation

namespace DateTime

/-! ### Members -/

/-- `operator + (span)`, for a span in microseconds. -/
def add (d : DateTime) (span : ℤ) : Except Failure DateTime := ofUtcTime d._utcTime span

/-- `operator - (span)`. -/
def sub (d : DateTime) (span : ℤ) : Except Failure DateTime := ofUtcTime d._utcTime (-span)

/-- `operator - (dateTime)`. -/
def minus (d e : DateTime) : ℤ := (d._utcTime - e._utcTime).tdiv 10

/-- `operator ==`. -/
def equals (d e : DateTime) : Bool := d._utcTime == e._utcTime

/-- What becomes of a member that changes an object: it returns or throws, with the object as it is then. -/
inductive Outcome where
  | returns (d : DateTime)
  | throws (e : InvalidArgumentException) (d : DateTime)
  | undefined
deriving DecidableEq, Repr

/-- The end of these members: a time that is defined is written with its fields, and the object is checked
as it is. -/
def written (utcTime : Except Failure ℤ) (fields : ℤ → Fields) : Outcome :=
  match utcTime with
  | .ok utcTime =>
      match checkValid (fields utcTime) with
      | .ok () => .returns ⟨utcTime, fields utcTime⟩
      | .error e => .throws e ⟨utcTime, fields utcTime⟩
  | .error _ => .undefined

/-- `assign`. -/
def assign (_ : DateTime) (f : Fields) : Outcome := written (computeUtcTime f) fun _ => narrow f

/-- `operator +=`. -/
def addAssign (d : DateTime) (span : ℤ) : Outcome :=
  written (do int64 (d._utcTime + (← int64 (span * 10)))) fieldsOf

/-- `operator -=`. -/
def subAssign (d : DateTime) (span : ℤ) : Outcome :=
  written (do int64 (d._utcTime - (← int64 (span * 10)))) fieldsOf

/-- `makeUTC`, for a difference in seconds. -/
def makeUTC (d : DateTime) (tzd : ℤ) : Outcome := subAssign d (tzd * Timespan.SECONDS)

/-- `makeLocal`. -/
def makeLocal (d : DateTime) (tzd : ℤ) : Outcome := addAssign d (tzd * Timespan.SECONDS)

/-! ### The clock before the first day of the shift -/

/-- Where the shift of `computeDaytime` begins: 584000 days before the reform. -/
def shifted : ℤ := -504576000000000000

/-- A negative span has fields that are negative or zero. -/
theorem clock_neg {m : ℤ} (hm : 0 ≤ m) :
    Timespan.hours (-m) = -(m / 3600000000 % 24) ∧ Timespan.minutes (-m) = -(m / 60000000 % 60) ∧
      Timespan.seconds (-m) = -(m / 1000000 % 60) ∧ Timespan.milliseconds (-m) = -(m / 1000 % 1000) ∧
      Timespan.microseconds (-m) = -(m % 1000) := by
  have hdiv {k l : ℤ} (hk : 0 ≤ k) : ((-m).tdiv k).tmod l = -(m / k % l) := by
    rw [Int.neg_tdiv, Int.neg_tmod, Int.tdiv_eq_ediv_of_nonneg hm,
      Int.tmod_eq_emod_of_nonneg (Int.ediv_nonneg hm hk)]
  refine ⟨hdiv (by decide), hdiv (by decide), hdiv (by decide), hdiv (by decide), ?_⟩
  rw [Timespan.microseconds, Int.neg_tmod, Int.tmod_eq_emod_of_nonneg hm]

/-- The fields of a time before the shift; `m` are the microseconds that it is before. -/
theorem computeDaytime_early {utcTime : ℤ} (h : utcTime < shifted) (g : Fields) :
    let m := (shifted - utcTime) / 10
    computeDaytime utcTime g = { correctDate g (-(m / 3600000000 % 24)) with
      hour := -(m / 3600000000 % 24)
      minute := -(m / 60000000 % 60)
      second := -(m / 1000000 % 60)
      millisecond := -(m / 1000 % 1000)
      microsecond := -(m % 1000) } := by
  intro m
  rw [shifted] at h
  have hm : m = (-504576000000000000 - utcTime) / 10 := rfl
  have hspan : (utcTime + 86400 * 1000 * 1000 * 10 * 1600 * 365).tdiv 10 = -m := by
    rw [hm, ← Int.tdiv_eq_ediv_of_nonneg (by omega), ← Int.neg_tdiv]
    congr 1
    ring
  obtain ⟨hhour, hminute, hsecond, hmilli, hmicro⟩ := clock_neg (by omega : 0 ≤ m)
  have hshort {x : ℤ} (h0 : 0 ≤ x) (h1 : x ≤ 999) : short (-x) = -x :=
    short_of_bounds (by omega) (by omega)
  simp only [computeDaytime, if_pos (by omega : utcTime < 0), hspan, hhour, hminute, hsecond, hmilli, hmicro]
  rw [hshort (by omega) (by omega : m / 3600000000 % 24 ≤ 999), hshort (by omega) (by omega : m / 60000000 % 60 ≤ 999),
    hshort (by omega) (by omega : m / 1000000 % 60 ≤ 999), hshort (by omega) (by omega : m / 1000 % 1000 ≤ 999),
    hshort (by omega) (by omega : m % 1000 ≤ 999)]

/-- A time before the shift has valid fields only at midnight, to the microsecond. -/
theorem midnight_of_isValid {utcTime : ℤ} (h : utcTime < shifted) {g : Fields}
    (hvalid : isValid (computeDaytime utcTime g) = true) : -utcTime % 864000000000 < 10 := by
  rw [computeDaytime_early h] at hvalid
  simp only [isValid, Bool.and_eq_true, decide_eq_true_eq] at hvalid
  rw [shifted] at h hvalid
  obtain ⟨m, hm⟩ : ∃ m, (-504576000000000000 - utcTime) / 10 = m := ⟨_, rfl⟩
  rw [hm] at hvalid
  have hday : m % 86400000000 = 0 := by omega
  omega

/-- The first moment of a date. -/
def startOfDay (f : Fields) : Fields :=
  { f with hour := 0, minute := 0, second := 0, millisecond := 0, microsecond := 0 }

theorem startOfDay_spec {f g : Fields} (h : IsDate f) (hdate : date g = date f) :
    IsDate (startOfDay g) ∧ utcTimeOf (startOfDay g) = (dayNumberOf f - 578042) * 864000000000 := by
  simp only [date, Prod.mk.injEq] at hdate
  obtain ⟨hy, hm, hd⟩ := hdate
  obtain ⟨hmonth, hday, -⟩ := h
  refine ⟨⟨?_, ?_, ?_⟩, ?_⟩
  · rw [startOfDay, hm]
    exact hmonth
  · rw [startOfDay, hm, hy, hd]
    exact hday
  · simp [IsTimeOfDay, startOfDay]
  · rw [utcTimeOf, timeOfDay, dayNumberOf, dayNumberOf, marchYear, marchMonth, marchYear, marchMonth,
      startOfDay, hy, hm, hd]
    ring

/-- At hour 0 by the clock, the fields of 23 hours get the next day. -/
theorem date_correctDate_zero {f g : Fields} (hg : g.hour = 23) (hdate : date g = date f) :
    date (correctDate g 0) = date (nextDay f) := by
  simp only [date, Prod.mk.injEq] at hdate
  obtain ⟨hy, hm, hd⟩ := hdate
  rw [correctDate, if_neg (by omega), if_pos ⟨rfl, hg⟩, nextDay, hy, hm, hd]
  by_cases hlast : f.day + 1 > daysOfMonth f.year f.month
  · rw [if_pos hlast, if_pos hlast]
    by_cases h12 : f.month + 1 > 12
    · rw [if_pos h12, if_pos h12]
      rfl
    · rw [if_neg h12, if_neg h12]
      rfl
  · rw [if_neg hlast, if_neg hlast]
    rfl

/-- At midnight the fields are those of the day that begins there. -/
theorem fieldsOf_midnight {f : Fields} (h : IsDate f) {k : ℤ} (hk0 : 0 ≤ k) (hk : k < 10)
    (hlow : -2 ^ 15 < f.year) (hhigh : f.year < 2 ^ 15) (hearly : utcTimeOf f + k < shifted)
    (hmidnight : -(utcTimeOf f + k) % 864000000000 < 10) :
    IsDate (fieldsOf (utcTimeOf f + k)) ∧ utcTimeOf (fieldsOf (utcTimeOf f + k)) =
      utcTimeOf f + k + -(utcTimeOf f + k) % 864000000000 := by
  have ht := h.time.timeOfDay_lt
  have hearly' := hearly
  rw [utcTimeOf] at hmidnight hearly'
  rw [shifted] at hearly'
  have hday : (shifted - (utcTimeOf f + k)) / 10 % 86400000000 = 0 := by
    rw [utcTimeOf, shifted]
    omega
  have hcarry := date_normalize h (c := (k + 5) / 10) (by omega) (by omega)
  rw [fieldsOf, computeGregorian_utcTimeOf h hk0 hk hlow hhigh, computeDaytime_early hearly]
  generalize normalize { f with microsecond := f.microsecond + (k + 5) / 10 } = g at hcarry ⊢
  generalize (shifted - (utcTimeOf f + k)) / 10 = m at hday ⊢
  obtain ⟨h0, h1, h2, h3, h4⟩ : m / 3600000000 % 24 = 0 ∧ m / 60000000 % 60 = 0 ∧ m / 1000000 % 60 = 0 ∧
      m / 1000 % 1000 = 0 ∧ m % 1000 = 0 := by omega
  simp only [h0, h1, h2, h3, h4, neg_zero]
  by_cases hfirst : timeOfDay f + k = 0
  · have hhour : f.hour = 0 := by
      obtain ⟨h0, h1, h2, h3, h4⟩ := h.time
      rw [timeOfDay] at hfirst
      omega
    obtain ⟨hdate, -, hg⟩ := hcarry.resolve_left fun hc => by omega
    have hkeep : correctDate g 0 = g := by
      rw [correctDate, if_neg (by omega), if_neg (by omega)]
    obtain ⟨hstart, htime⟩ := startOfDay_spec h hdate
    rw [hkeep]
    refine ⟨hstart, htime.trans ?_⟩
    rw [utcTimeOf]
    omega
  · have hhour : f.hour = 23 := by
      obtain ⟨h0, h1, h2, h3, h4⟩ := h.time
      rw [timeOfDay] at hmidnight hfirst
      omega
    have hdate : date (correctDate g 0) = date (nextDay f) := by
      rcases hcarry with ⟨-, hg, hdate⟩ | ⟨hdate, hg, -⟩
      · rw [correctDate, if_neg (by omega), if_neg (by omega), hdate]
      · exact date_correctDate_zero (hg hhour) hdate
    obtain ⟨hstart, htime⟩ := startOfDay_spec h.next hdate
    refine ⟨hstart, htime.trans ?_⟩
    rw [dayNumberOf_nextDay h, utcTimeOf]
    omega

/-! ### The times that have valid fields -/

theorem isValid_iff_of_isDate {f : Fields} (h : IsDate f) :
    isValid f = true ↔ -4713 ≤ f.year ∧ f.year ≤ 9999 := by
  obtain ⟨⟨hm0, hm1⟩, ⟨hd0, hd1⟩, htime⟩ := h
  rw [IsTimeOfDay] at htime
  simp only [isValid, Bool.and_eq_true, decide_eq_true_eq]
  omega

/-- The time is the clock's own: after the shift, or at midnight. -/
def OnClock (utcTime : ℤ) : Prop := shifted ≤ utcTime ∨ utcTime % 864000000000 = 0

/-- The times that a `DateTime` accepts: before the year 10000, and before the shift only less than a
microsecond before a midnight of the years from -4713 on. -/
def Accepted (utcTime : ℤ) : Prop :=
  utcTime < utcTimeOf ⟨10000, 1, 1, 0, 0, 0, 0, 0⟩ ∧
    (shifted ≤ utcTime ∨
      utcTimeOf ⟨-4713, 1, 1, 0, 0, 0, 0, 0⟩ - 10 < utcTime ∧ -utcTime % 864000000000 < 10)

theorem utcTimeOf_10000 : utcTimeOf ⟨10000, 1, 1, 0, 0, 0, 0, 0⟩ = 2656215936000000000 := by
  rw [utcTimeOf]
  decide

theorem utcTimeOf_4713 : utcTimeOf ⟨-4713, 1, 1, 0, 0, 0, 0, 0⟩ = -1986757632000000000 := by
  rw [utcTimeOf]
  decide

/-- The first day of the year 10000 and of the year -4713 as bounds of dates. -/
theorem IsDate.bounds {f : Fields} (h : IsDate f) :
    (f.year ≤ 9999 ↔ dayNumberOf f ≤ 3652365) ∧ (-4713 ≤ f.year ↔ -1721446 ≤ dayNumberOf f) ∧
      (f.year < 2 ^ 15 ↔ dayNumberOf f ≤ 11968206) ∧ (-2 ^ 15 < f.year ↔ -11967960 < dayNumberOf f) := by
  have h1 := h.year_le_iff 9999
  have h2 := h.year_le_iff (-4714)
  have h3 := h.year_le_iff 32767
  have h4 := h.year_le_iff (-32768)
  rw [dayNumber] at h1 h2 h3 h4
  omega

/-- The fields of a time are those of a date from the shift on. -/
theorem fieldsOf_shifted {utcTime : ℤ} (hlow : shifted ≤ utcTime) (hhigh : utcTime < 2 ^ 63) :
    IsDate (fieldsOf utcTime) ∧ utcTimeOf (fieldsOf utcTime) ≤ utcTime ∧
      utcTime < utcTimeOf (fieldsOf utcTime) + 10 := by
  obtain ⟨f, k, hf, hk0, hk, rfl⟩ := exists_isDate utcTime
  have ht := hf.time.timeOfDay_lt
  have hbounds := hf.bounds
  have htime : utcTimeOf f = (dayNumberOf f - 578042) * 864000000000 + 10 * timeOfDay f := rfl
  rw [shifted] at hlow
  have hfields : fieldsOf (utcTimeOf f + k) = f :=
    fields_eq hf hk0 hk (by omega) (by omega) (by omega)
  rw [hfields]
  exact ⟨hf, by omega, by omega⟩

theorem isValid_fields_iff {utcTime : ℤ} (h : -2 ^ 63 ≤ utcTime ∧ utcTime < 2 ^ 63) :
    isValid (fieldsOf utcTime) = true ↔ Accepted utcTime := by
  rw [Accepted, utcTimeOf_10000, utcTimeOf_4713]
  by_cases hlow : shifted ≤ utcTime
  · obtain ⟨hf, hle, hlt⟩ := fieldsOf_shifted hlow h.2
    have ht := hf.time.timeOfDay_lt
    have hbounds := hf.bounds
    rw [shifted] at *
    rw [utcTimeOf] at hle hlt
    rw [isValid_iff_of_isDate hf]
    omega
  · have hneg : utcTime < 2656215936000000000 := by
      rw [shifted] at hlow
      omega
    rw [and_iff_right hneg, or_iff_right hlow]
    by_cases hmid : -utcTime % 864000000000 < 10
    · obtain ⟨f, k, hf, hk0, hk, rfl⟩ := exists_isDate utcTime
      have hbounds := hf.bounds
      have htime : utcTimeOf f = (dayNumberOf f - 578042) * 864000000000 + 10 * timeOfDay f := rfl
      have ht := hf.time.timeOfDay_lt
      obtain ⟨hg, hmidnight⟩ := fieldsOf_midnight hf hk0 hk (by omega) (by omega) (by omega) hmid
      have hgbounds := hg.bounds
      have hgt := hg.time.timeOfDay_lt
      rw [isValid_iff_of_isDate hg, and_iff_left hmid]
      generalize utcTimeOf f + k = t at *
      rw [shifted] at hlow
      rw [utcTimeOf] at hmidnight
      omega
    · exact ⟨fun hvalid => absurd (midnight_of_isValid (not_le.mp hlow) hvalid) hmid,
        fun hacc => absurd hacc.2 hmid⟩

theorem ofUtc_ok_iff {utcTime : ℤ} (h : -2 ^ 63 ≤ utcTime ∧ utcTime < 2 ^ 63) {d : DateTime} :
    ofUtc utcTime = .ok d ↔ Accepted utcTime ∧ d = ⟨utcTime, fieldsOf utcTime⟩ := by
  rw [← isValid_fields_iff h, ofUtc, checkValid]
  split
  · rename_i hvalid
    rw [and_iff_right hvalid]
    exact ⟨fun hd => (Except.ok.inj hd).symm, fun hd => hd ▸ rfl⟩
  · rename_i hvalid
    constructor
    · intro hd
      cases hd
    · exact fun hd => absurd hd.1 hvalid

/-! ### Sums -/

/-- The documented range of times: from noon of -4713-11-24 to the last microsecond of the year 9999. -/
def InRange (utcTime : ℤ) : Prop :=
  utcTimeOf ⟨-4713, 11, 24, 12, 0, 0, 0, 0⟩ ≤ utcTime ∧
    utcTime ≤ utcTimeOf ⟨9999, 12, 31, 23, 59, 59, 999, 999⟩

theorem inRange_iff {utcTime : ℤ} :
    InRange utcTime ↔ -1986474672000000000 ≤ utcTime ∧ utcTime ≤ 2656215935999999990 := by
  have hfirst : utcTimeOf ⟨-4713, 11, 24, 12, 0, 0, 0, 0⟩ = -1986474672000000000 := by
    rw [utcTimeOf]
    decide
  have hlast : utcTimeOf ⟨9999, 12, 31, 23, 59, 59, 999, 999⟩ = 2656215935999999990 := by
    rw [utcTimeOf]
    decide
  rw [InRange, hfirst, hlast]

theorem InRange.accepted_iff {utcTime : ℤ} (h : InRange utcTime) :
    Accepted utcTime ↔ shifted ≤ utcTime ∨ -utcTime % 864000000000 < 10 := by
  obtain ⟨hlow, hhigh⟩ := inRange_iff.mp h
  rw [Accepted, utcTimeOf_10000, utcTimeOf_4713]
  omega

theorem ofUtcTime_ok_iff {utcTime diff : ℤ} (h : InRange utcTime) (hsum : InRange (utcTime + diff * 10))
    {d : DateTime} : ofUtcTime utcTime diff = .ok d ↔
      Accepted (utcTime + diff * 10) ∧ d = ⟨utcTime + diff * 10, fieldsOf (utcTime + diff * 10)⟩ := by
  have hlow := inRange_iff.mp h
  have hhigh := inRange_iff.mp hsum
  rw [ofUtcTime_of_bounds (by omega) (by omega), ofUtc_ok_iff (by omega)]

/-- The fields are valid, without a leap second, and those of the time, cut off to microseconds. -/
structure Denotes (f : Fields) (utcTime : ℤ) : Prop where
  valid : isValid f = true
  second : f.second ≤ 59
  low : utcTimeOf f ≤ utcTime
  high : utcTime < utcTimeOf f + 10

theorem InRange.denotes_iff {utcTime : ℤ} (h : InRange utcTime) :
    Denotes (fieldsOf utcTime) utcTime ↔ OnClock utcTime := by
  have hbounds := inRange_iff.mp h
  have hvalid := isValid_fields_iff (by omega : -2 ^ 63 ≤ utcTime ∧ utcTime < 2 ^ 63)
  rw [h.accepted_iff] at hvalid
  by_cases hlow : shifted ≤ utcTime
  · obtain ⟨hf, hle, hlt⟩ := fieldsOf_shifted hlow (by omega)
    have hsecond := hf.time.2.2.1.2
    exact ⟨fun _ => Or.inl hlow, fun _ => ⟨hvalid.mpr (Or.inl hlow), hsecond, hle, hlt⟩⟩
  · rw [OnClock, or_iff_right hlow]
    rw [or_iff_right hlow] at hvalid
    have hmidnight (hmid : -utcTime % 864000000000 < 10) : IsDate (fieldsOf utcTime) ∧
        utcTimeOf (fieldsOf utcTime) = utcTime + -utcTime % 864000000000 := by
      obtain ⟨f, k, hf, hk0, hk, rfl⟩ := exists_isDate utcTime
      have hfbounds := hf.bounds
      have ht := hf.time.timeOfDay_lt
      have htime : utcTimeOf f = (dayNumberOf f - 578042) * 864000000000 + 10 * timeOfDay f := rfl
      exact fieldsOf_midnight hf hk0 hk (by omega) (by omega) (by omega) hmid
    constructor
    · intro hd
      have hmid := hvalid.mp hd.valid
      have htime := (hmidnight hmid).2
      have hle := hd.low
      omega
    · intro hmid
      obtain ⟨hdate, htime⟩ := hmidnight (by omega)
      exact ⟨hvalid.mpr (by omega), hdate.time.2.2.1.2, by omega, by omega⟩

/-- The sum with a span is the time after it, taken back by the span and by the date. -/
def Inverts (d : DateTime) (span : ℤ) : Prop :=
  ∃ e, d.add span = .ok e ∧ Denotes e._fields (d._utcTime + span * 10) ∧
    (∃ c, e.sub span = .ok c ∧ c.equals d = true) ∧ e.minus d = span

theorem inverts_iff_denotes {d : DateTime} {span : ℤ} (h : InRange d._utcTime)
    (hsum : InRange (d._utcTime + span * 10)) :
    Inverts d span ↔ Accepted d._utcTime ∧ Denotes (fieldsOf (d._utcTime + span * 10)) (d._utcTime + span * 10) := by
  have hback : d._utcTime + span * 10 + -span * 10 = d._utcTime := by ring
  have hminus (f : Fields) : minus ⟨d._utcTime + span * 10, f⟩ d = span := by
    rw [minus, add_sub_cancel_left]
    exact Int.mul_tdiv_cancel span (by decide)
  constructor
  · rintro ⟨e, he, hdenotes, ⟨c, hc, -⟩, -⟩
    rw [add, ofUtcTime_ok_iff h hsum] at he
    obtain ⟨-, rfl⟩ := he
    rw [sub, ofUtcTime_ok_iff hsum (hback.symm ▸ h), hback] at hc
    exact ⟨hc.1, hdenotes⟩
  · rintro ⟨hacc, hdenotes⟩
    refine ⟨⟨d._utcTime + span * 10, _⟩, ?_, hdenotes, ⟨⟨d._utcTime, fieldsOf d._utcTime⟩, ?_, ?_⟩, hminus _⟩
    · have hbounds := inRange_iff.mp hsum
      rw [add, ofUtcTime_ok_iff h hsum]
      exact ⟨(isValid_fields_iff (by omega)).mp hdenotes.valid, rfl⟩
    · rw [sub, ofUtcTime_ok_iff hsum (hback.symm ▸ h), hback]
      exact ⟨hacc, rfl⟩
    · exact beq_self_eq_true _

/-- **Main result.**  In the documented range, a sum is what it should be exactly when its time is on
the clock and the date itself can be made again from its time: both are after the shift, or at
midnight. -/
theorem inverts_iff {d : DateTime} {span : ℤ} (h : InRange d._utcTime)
    (hsum : InRange (d._utcTime + span * 10)) :
    Inverts d span ↔ (shifted ≤ d._utcTime ∨ -d._utcTime % 864000000000 < 10) ∧
      OnClock (d._utcTime + span * 10) := by
  rw [inverts_iff_denotes h hsum, hsum.denotes_iff, h.accepted_iff]

/-- One second after noon, before and after the reform. -/
theorem inverts_iff_noon :
    Inverts ⟨utcTimeOf ⟨1000, 1, 1, 12, 0, 0, 0, 0⟩, ⟨1000, 1, 1, 12, 0, 0, 0, 0⟩⟩ 1000000 := by
  have htime : utcTimeOf ⟨1000, 1, 1, 12, 0, 0, 0, 0⟩ = -183908880000000000 := by
    rw [utcTimeOf]
    decide
  rw [htime]
  refine (inverts_iff ?_ ?_).mpr ⟨by decide, Or.inl (by decide)⟩
  · rw [inRange_iff]
    decide
  · rw [inRange_iff]
    decide

/-- The clock before the shift: the sum is refused. -/
theorem not_inverts_early :
    ∃ d, create ⟨-100, 1, 1, 12, 0, 0, 0, 0⟩ = .ok d ∧ InRange d._utcTime ∧
      InRange (d._utcTime + 1000000 * 10) ∧ ¬Inverts d 1000000 := by
  have htime : utcTimeOf ⟨-100, 1, 1, 12, 0, 0, 0, 0⟩ = -531035568000000000 := by
    rw [utcTimeOf]
    decide
  have hd : InRange (-531035568000000000) := by
    rw [inRange_iff]
    decide
  have hsum : InRange (-531035568000000000 + 1000000 * 10) := by
    rw [inRange_iff]
    decide
  refine ⟨⟨-531035568000000000, ⟨-100, 1, 1, 12, 0, 0, 0, 0⟩⟩, ?_, hd, hsum, fun h => ?_⟩
  · rw [← htime]
    exact create_of_valid (by decide)
  · have hclock := hsum.denotes_iff.mp ((inverts_iff_denotes hd hsum).mp h).2
    revert hclock
    rw [OnClock, shifted]
    decide

/-! ### Members that change an object -/

/-- A call of a member that changes an object. -/
inductive Call where
  | assign (f : Fields)
  | addAssign (span : ℤ)
  | subAssign (span : ℤ)
  | makeUTC (tzd : ℤ)
  | makeLocal (tzd : ℤ)

/-- The outcome of a call. -/
def run (d : DateTime) : Call → Outcome
  | .assign f => d.assign f
  | .addAssign span => d.addAssign span
  | .subAssign span => d.subAssign span
  | .makeUTC tzd => d.makeUTC tzd
  | .makeLocal tzd => d.makeLocal tzd

/-- The time that a call computes. -/
def newTime (d : DateTime) : Call → Except Failure ℤ
  | .assign f => computeUtcTime f
  | .addAssign span => do int64 (d._utcTime + (← int64 (span * 10)))
  | .subAssign span => do int64 (d._utcTime - (← int64 (span * 10)))
  | .makeUTC tzd => do int64 (d._utcTime - (← int64 (tzd * Timespan.SECONDS * 10)))
  | .makeLocal tzd => do int64 (d._utcTime + (← int64 (tzd * Timespan.SECONDS * 10)))

/-- The fields that it writes with the time. -/
def newFields : Call → ℤ → Fields
  | .assign f => fun _ => narrow f
  | _ => fieldsOf

/-- A call is exact and atomic: it is defined, `assign` succeeds for valid arguments only and keeps them,
and a call that throws does not change the object. -/
structure Exact (d : DateTime) (call : Call) : Prop where
  defined : run d call ≠ .undefined
  succeeds : ∀ f, call = .assign f → ((∃ e, run d call = .returns e) ↔ isValid f = true)
  keeps : ∀ f e, call = .assign f → run d call = .returns e → e._fields = f
  atomic : ∀ e after, run d call = .throws e after → after = d

/-- The call writes valid fields: the arguments are valid, or the new time is. -/
def Fits (d : DateTime) : Call → Prop
  | .assign f => isValid f = true
  | call => ∃ utcTime, newTime d call = .ok utcTime ∧ Accepted utcTime

/-- The object is already the one that the call writes, and not valid: an earlier call has failed. -/
def Left (d : DateTime) (call : Call) : Prop :=
  isValid d._fields = false ∧ newTime d call = .ok d._utcTime ∧ d._fields = newFields call d._utcTime

theorem run_eq_written (d : DateTime) (call : Call) : run d call = written (newTime d call) (newFields call) := by
  cases call <;> rfl

theorem written_of_valid {utcTime : ℤ} {fields : ℤ → Fields} (h : isValid (fields utcTime) = true) :
    written (.ok utcTime) fields = .returns ⟨utcTime, fields utcTime⟩ := by
  simp only [written, checkValid, if_pos h]

theorem written_of_not_valid {utcTime : ℤ} {fields : ℤ → Fields} (h : isValid (fields utcTime) = false) :
    written (.ok utcTime) fields = .throws ⟨invalidText (fields utcTime)⟩ ⟨utcTime, fields utcTime⟩ := by
  simp only [written, checkValid, h, Bool.false_eq_true, if_false]

theorem int64_eq_ok {x y : ℤ} (h : int64 x = .ok y) : -2 ^ 63 ≤ y ∧ y < 2 ^ 63 := by
  rw [int64] at h
  split at h
  · rename_i hx
    obtain rfl := Except.ok.inj h
    exact hx
  · cases h

theorem newTime_bounds {d : DateTime} {call : Call} (h : ∀ f, call ≠ .assign f) {utcTime : ℤ}
    (htime : newTime d call = .ok utcTime) : -2 ^ 63 ≤ utcTime ∧ utcTime < 2 ^ 63 := by
  have hbind {x : Except Failure ℤ} {k : ℤ → ℤ} (hx : (do int64 (k (← x))) = Except.ok utcTime) :
      -2 ^ 63 ≤ utcTime ∧ utcTime < 2 ^ 63 := by
    cases x with
    | ok y => exact int64_eq_ok hx
    | error e => cases hx
  cases call with
  | assign f => exact absurd rfl (h f)
  | addAssign span => exact hbind htime
  | subAssign span => exact hbind htime
  | makeUTC tzd => exact hbind htime
  | makeLocal tzd => exact hbind htime

/-- A call is defined and leaves the object alone when it throws, just when it writes valid fields or what the
object already holds. -/
theorem atomic_iff (d : DateTime) (call : Call) :
    (run d call ≠ .undefined ∧ ∀ e after, run d call = .throws e after → after = d) ↔
      (∃ utcTime, newTime d call = .ok utcTime ∧ isValid (newFields call utcTime) = true) ∨ Left d call := by
  rw [run_eq_written, Left]
  cases newTime d call with
  | error e =>
      constructor
      · exact fun h => absurd rfl h.1
      · rintro (⟨utcTime, hok, -⟩ | ⟨-, hok, -⟩) <;> cases hok
  | ok utcTime =>
      cases hvalid : isValid (newFields call utcTime) with
      | true =>
          rw [written_of_valid hvalid]
          refine ⟨fun _ => Or.inl ⟨utcTime, rfl, hvalid⟩, fun _ => ⟨nofun, nofun⟩⟩
      | false =>
          rw [written_of_not_valid hvalid]
          constructor
          · rintro ⟨-, hatomic⟩
            obtain rfl := hatomic _ _ rfl
            exact Or.inr ⟨hvalid, rfl, rfl⟩
          · rintro (⟨other, hok, hv⟩ | ⟨-, hok, hfields⟩)
            · obtain rfl := Except.ok.inj hok
              rw [hvalid] at hv
              cases hv
            · obtain rfl := Except.ok.inj hok
              refine ⟨nofun, fun e after hthrows => ?_⟩
              obtain ⟨-, rfl⟩ := Outcome.throws.inj hthrows
              rw [← hfields]

theorem exact_assign_iff (d : DateTime) (f : Fields) :
    Exact d (.assign f) ↔ isValid f = true ∨ Left d (.assign f) := by
  have hatomic := atomic_iff d (.assign f)
  constructor
  · intro h
    rcases hatomic.mp ⟨h.defined, h.atomic⟩ with ⟨utcTime, htime, hvalid⟩ | hleft
    · refine Or.inl ((h.succeeds f rfl).mp ⟨⟨utcTime, narrow f⟩, ?_⟩)
      rw [run_eq_written, htime, written_of_valid hvalid]
      rfl
    · exact Or.inr hleft
  · rintro (hvalid | hleft)
    · have hrun : run d (.assign f) = .returns ⟨utcTimeOf f, f⟩ := by
        show written (computeUtcTime f) (fun _ => narrow f) = _
        rw [computeUtcTime_of_valid hvalid, narrow_of_isValid hvalid]
        exact written_of_valid hvalid
      refine ⟨by rw [hrun]; nofun, ?_, ?_, by rw [hrun]; nofun⟩
      · rintro g ⟨⟩
        exact ⟨fun _ => hvalid, fun _ => ⟨_, hrun⟩⟩
      · rintro g e ⟨⟩ he
        rw [hrun] at he
        obtain rfl := Outcome.returns.inj he
        rfl
    · obtain ⟨hdefined, hthrows⟩ := hatomic.mpr (Or.inr hleft)
      obtain ⟨hinvalid, htime, hfields⟩ := hleft
      have hrun : ∀ e, run d (.assign f) ≠ .returns e := by
        rw [run_eq_written, htime, written_of_not_valid (hfields ▸ hinvalid)]
        nofun
      refine ⟨hdefined, ?_, fun g e _ he => absurd he (hrun e), hthrows⟩
      rintro g ⟨⟩
      refine ⟨fun ⟨e, he⟩ => absurd he (hrun e), fun hvalid => ?_⟩
      have hkept : d._fields = f := hfields.trans (narrow_of_isValid hvalid)
      rw [hkept, hvalid] at hinvalid
      cases hinvalid

theorem exact_add_iff (d : DateTime) {call : Call} (h : ∀ f, call ≠ .assign f) (hfields : newFields call = fieldsOf) :
    Exact d call ↔ (∃ utcTime, newTime d call = .ok utcTime ∧ Accepted utcTime) ∨ Left d call := by
  have hatomic := atomic_iff d call
  have hvalid : (∃ utcTime, newTime d call = .ok utcTime ∧ isValid (newFields call utcTime) = true) ↔
      ∃ utcTime, newTime d call = .ok utcTime ∧ Accepted utcTime := by
    refine exists_congr fun utcTime => and_congr_right fun htime => ?_
    rw [hfields, isValid_fields_iff (newTime_bounds h htime)]
  rw [hvalid] at hatomic
  rw [← hatomic]
  exact ⟨fun hexact => ⟨hexact.defined, hexact.atomic⟩,
    fun ⟨hdefined, hthrows⟩ => ⟨hdefined, fun f hf => absurd hf (h f), fun f _ hf => absurd hf (h f), hthrows⟩⟩

/-- **Main result.**  The members that change an object are exact and atomic exactly when what they
write is valid, or is what the object already holds. -/
theorem exact_iff (d : DateTime) (call : Call) : Exact d call ↔ Fits d call ∨ Left d call := by
  cases call with
  | assign f => exact exact_assign_iff d f
  | addAssign span => exact exact_add_iff d (fun f hf => nomatch hf) rfl
  | subAssign span => exact exact_add_iff d (fun f hf => nomatch hf) rfl
  | makeUTC tzd => exact exact_add_iff d (fun f hf => nomatch hf) rfl
  | makeLocal tzd => exact exact_add_iff d (fun f hf => nomatch hf) rfl

/-- A day that `short` cuts off to 1 is accepted, and the second after the last one changes the object that
refuses it. -/
theorem not_exact_narrowed :
    (∃ d f e, isValid f = false ∧ run d (.assign f) = .returns e ∧ e._fields.day = 1 ∧ ¬Exact d (.assign f)) ∧
    ∃ d e after, isValid d._fields = true ∧ run d (.addAssign 1000000) = .throws e after ∧
      after._utcTime = d._utcTime + 10000000 ∧ ¬Exact d (.addAssign 1000000) := by
  constructor
  · have hnot : isValid ⟨2000, 1, 65537, 0, 0, 0, 0, 0⟩ = false := by decide
    have hrun : run ⟨0, ⟨1582, 10, 15, 0, 0, 0, 0, 0⟩⟩ (.assign ⟨2000, 1, 65537, 0, 0, 0, 0, 0⟩) =
        .returns ⟨188282880000000000, ⟨2000, 1, 1, 0, 0, 0, 0, 0⟩⟩ := by decide +kernel
    refine ⟨_, _, _, hnot, hrun, rfl, fun h => ?_⟩
    have hvalid := (h.succeeds _ rfl).mp ⟨_, hrun⟩
    rw [hnot] at hvalid
    cases hvalid
  · have hnot : isValid (fieldsOf 2656215936000000000) = false := by
      rw [Bool.eq_false_iff, Ne, isValid_fields_iff (by decide), Accepted, utcTimeOf_10000]
      exact fun h => absurd h.1 (lt_irrefl _)
    have hrun : run ⟨2656215935990000000, ⟨9999, 12, 31, 23, 59, 59, 0, 0⟩⟩ (.addAssign 1000000) =
        .throws ⟨invalidText (fieldsOf 2656215936000000000)⟩ ⟨2656215936000000000, fieldsOf 2656215936000000000⟩ :=
      written_of_not_valid hnot
    refine ⟨_, _, _, by decide, hrun, rfl, fun h => ?_⟩
    have hsame := congrArg DateTime._utcTime (h.atomic _ _ hrun)
    exact absurd hsame (by decide)

end DateTime

end Poco.Foundation
