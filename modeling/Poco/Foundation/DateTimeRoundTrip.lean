import Poco.Foundation.DateTimeParser
import Poco.Lib.Segments

/-! # Dates and times from texts

What `DateTimeFormatter` writes in one of the standard formats is read back by `DateTimeParser`.
The proof follows the format: every directive of the parser reads what the directive of the
formatter has written (`directive_reads`), provided that what follows cannot be taken for a part of
it (`follows`).  The parser skips white space before every directive, so that the space in front of
a day of one digit does not matter. -/

namespace Poco.Foundation

namespace DateTimeParser

open Ascii.OfChar DateTimeFormat NumberFormatter Poco.Lib

/-! ### Characters -/

theorem isDigit_eq_false_of_isSpace {c : Char} (h : isSpace c = true) : c.isDigit = false := by
  simp only [isSpace, Bool.or_eq_true, Bool.and_eq_true, decide_eq_true_eq, beq_iff_eq] at h
  rw [Bool.eq_false_iff]
  intro hd
  have hd' : 48 ≤ c.toNat ∧ c.toNat ≤ 57 := Char.isDigit_iff_toNat.mp hd
  omega

theorem isSpace_eq_false_of_isDigit {c : Char} (h : c.isDigit = true) : isSpace c = false := by
  rw [Bool.eq_false_iff]
  intro hs
  rw [isDigit_eq_false_of_isSpace hs] at h
  cases h

/-! ### Numbers -/

/-- A text of digits, and its value. -/
structure Numeral (text : List Char) (value : ℤ) : Prop where
  digits : ∀ c ∈ text, c.isDigit = true
  ne_nil : text ≠ []
  value_eq : (Nat.ofDigitChars 10 text 0 : ℤ) = value

theorem Numeral.noHead {text : List Char} {value : ℤ} (h : Numeral text value) {p : Char → Bool}
    (hp : ∀ c, c.isDigit = true → p c = false) (rest : List Char) : NoHead p (text ++ rest) := by
  cases text with
  | nil => exact absurd rfl h.ne_nil
  | cons c text => exact noHead_cons (hp c (h.digits c List.mem_cons_self))

theorem numeral_toDigits (n : ℕ) : Numeral (Nat.toDigits 10 n) n where
  digits := fun _ hc => Nat.isDigit_of_mem_toDigits (by decide) (by decide) hc
  ne_nil := Nat.toDigits_ne_nil
  value_eq := by rw [Nat.ofDigitChars_ten_toDigits]

theorem Numeral.leftpad {text : List Char} {value : ℤ} (h : Numeral text value) (width : ℕ) :
    Numeral (text.leftpad width '0') value := by
  rw [List.leftpad]
  refine ⟨?_, ?_, ?_⟩
  · intro c hc
    rcases List.mem_append.mp hc with hc | hc
    · rw [List.eq_of_mem_replicate hc]
      rfl
    · exact h.digits c hc
  · simp [h.ne_nil]
  · rw [Nat.ofDigitChars_append, Nat.ofDigitChars_replicate_zero, Nat.mul_zero, h.value_eq]

theorem intToStr_natCast (n : ℕ) (width : ℤ) (fill : Char) :
    intToStr n width fill = (Nat.toDigits 10 n).leftpad width.toNat fill := by
  have hneg : ¬((n : ℤ) < 0) := by omega
  simp only [intToStr, if_neg hneg, List.nil_append, Int.natAbs_natCast]
  split
  case isTrue h => rw [h]
  case isFalse => rfl

theorem numeral_format0 (value width : ℤ) (n : ℕ) (hwidth : (n : ℤ) = width) (h0 : 0 ≤ value)
    (hn : 0 < n) (hlt : value < 10 ^ n) :
    Numeral (format0 value width) value ∧ (format0 value width).length = n := by
  obtain ⟨v, rfl⟩ := Int.eq_ofNat_of_zero_le h0
  have hlen : (Nat.toDigits 10 v).length ≤ n := by
    rw [Nat.length_toDigits_le_iff (by decide) hn]
    exact_mod_cast hlt
  rw [format0, intToStr_natCast, ← hwidth, Int.toNat_natCast]
  exact ⟨(numeral_toDigits v).leftpad n, by simp [List.leftpad, hlen]⟩

theorem numeral_format (value : ℤ) (width : ℕ) (h0 : 0 ≤ value) (hwidth : 0 < width)
    (hlt : value < 10 ^ width) :
    Numeral (NumberFormatter.format value) value ∧
      (NumberFormatter.format value).length ≤ width := by
  obtain ⟨n, rfl⟩ := Int.eq_ofNat_of_zero_le h0
  have htext : NumberFormatter.format n = Nat.toDigits 10 n := by
    simp [NumberFormatter.format, intToStr_natCast, List.leftpad]
  rw [htext]
  refine ⟨numeral_toDigits n, ?_⟩
  rw [Nat.length_toDigits_le_iff (by decide) hwidth]
  exact_mod_cast hlt

theorem formatWidth_eq (value width : ℤ) (h0 : 0 ≤ value) :
    ∃ k, formatWidth value width = List.replicate k ' ' ++ NumberFormatter.format value := by
  obtain ⟨n, rfl⟩ := Int.eq_ofNat_of_zero_le h0
  refine ⟨width.toNat - (Nat.toDigits 10 n).length, ?_⟩
  simp [formatWidth, NumberFormatter.format, intToStr_natCast, List.leftpad]

/-- The digits of a number of at most `n` digits, where no digit can follow that would belong to it. -/
theorem takeWhile_take_append {text rest : List Char} {value : ℤ} {n : ℕ} (h : Numeral text value)
    (hlen : text.length ≤ n) (hrest : text.length = n ∨ NoHead Char.isDigit rest) :
    ((text ++ rest).take n).takeWhile Char.isDigit = text := by
  rw [List.take_append, List.take_of_length_le hlen]
  rcases hrest with hrest | hrest
  · rw [hrest, Nat.sub_self, List.take_zero, List.append_nil,
      List.takeWhile_eq_self_iff.mpr h.digits]
  · refine takeWhile_append_of_noHead h.digits ?_
    intro c hc
    rw [List.head?_take] at hc
    split at hc
    · cases hc
    · exact hrest c hc

theorem Numeral.numberOf_eq {text : List Char} {value : ℤ} (h : Numeral text value)
    (hvalue : value < 2 ^ 31) (dtStr : List Char) : numberOf dtStr text = .ok value := by
  have hstoi : stoi text = some value := by
    have hv := h.value_eq
    simp only [stoi]
    rw [if_pos (by omega), hv]
  simp only [numberOf, h.ne_nil, if_false, hstoi]

theorem parseNumberN_append {text rest : List Char} {value : ℤ} {n : ℕ} (h : Numeral text value)
    (hlen : text.length ≤ n) (hrest : text.length = n ∨ NoHead Char.isDigit rest)
    (hvalue : value < 2 ^ 31) (dtStr : List Char) :
    parseNumberN dtStr (text ++ rest) n = .ok (value, rest) := by
  simp only [parseNumberN, takeWhile_take_append h hlen hrest, h.numberOf_eq hvalue, List.drop_left]
  rfl

theorem parseFractionalN_append {text rest : List Char} {value : ℤ} {n : ℕ} (h : Numeral text value)
    (hlen : text.length = n) (hvalue : value < 2 ^ 31) (dtStr : List Char) :
    parseFractionalN dtStr (text ++ rest) n = .ok (value, rest) := by
  subst hlen
  simp only [parseFractionalN, takeWhile_take_append h le_rfl (Or.inl rfl), h.ne_nil, if_false,
    h.numberOf_eq hvalue, List.drop_left, Nat.sub_self]
  simp [bind, Except.bind, pure, Except.pure]

theorem skipNonDigits_append {front text rest : List Char} {value : ℤ} (h : Numeral text value)
    (hfront : ∀ c ∈ front, isSpace c = true) :
    skipNonDigits (front ++ (text ++ rest)) = text ++ rest := by
  refine dropWhile_append_of_noHead ?_ (h.noHead (by simp) rest)
  intro c hc
  simp [isDigit_eq_false_of_isSpace (hfront c hc)]

theorem ofDigitChars_lt {text : List Char} (h : ∀ c ∈ text, c.isDigit = true) :
    Nat.ofDigitChars 10 text 0 < 10 ^ text.length := by
  induction text with
  | nil => simp
  | cons c text ih =>
      have hc : 48 ≤ c.toNat ∧ c.toNat ≤ 57 := Char.isDigit_iff_toNat.mp (h c List.mem_cons_self)
      have hlt := ih fun c hc => h c (List.mem_cons_of_mem _ hc)
      have hzero : '0'.toNat = 48 := rfl
      rw [Nat.ofDigitChars_cons, Nat.ofDigitChars_eq_ofDigitChars_zero, List.length_cons, pow_succ,
        hzero]
      have hdigit : 10 * 0 + (c.toNat - 48) ≤ 9 := by omega
      have hmul := Nat.mul_le_mul_left (10 ^ text.length) hdigit
      omega

/-- A number of `k + m` digits is a number of `k` digits and one of `m` digits. -/
theorem Numeral.split {text : List Char} {high low : ℤ} {k m : ℕ}
    (h : Numeral text (high * 10 ^ m + low)) (hlen : text.length = k + m) (hk : 0 < k) (hm : 0 < m)
    (h0 : 0 ≤ low) (hlow : low < 10 ^ m) :
    ∃ front back, text = front ++ back ∧ front.length = k ∧ back.length = m ∧ Numeral front high ∧
      Numeral back low := by
  have hsplit := List.take_append_drop k text
  have hfront : (text.take k).length = k := by
    rw [List.length_take]
    omega
  have hback : (text.drop k).length = m := by
    rw [List.length_drop]
    omega
  have hdigits : (∀ c ∈ text.take k, c.isDigit = true) ∧ ∀ c ∈ text.drop k, c.isDigit = true :=
    ⟨fun c hc => h.digits c (List.mem_of_mem_take hc), fun c hc => h.digits c (List.mem_of_mem_drop hc)⟩
  have hlt := ofDigitChars_lt hdigits.2
  have hvalue := h.value_eq
  rw [← hsplit, Nat.ofDigitChars_append, Nat.ofDigitChars_eq_ofDigitChars_zero, hback] at hvalue
  rw [hback] at hlt
  -- both sides are a quotient and a remainder for `10 ^ m`
  have hpos : (0 : ℤ) < 10 ^ m := by positivity
  have hlt' : (Nat.ofDigitChars 10 (text.drop k) 0 : ℤ) < 10 ^ m := by exact_mod_cast hlt
  push_cast at hvalue
  have hquot : (Nat.ofDigitChars 10 (text.take k) 0 : ℤ) = high := by
    have h1 := Int.add_mul_ediv_left (Nat.ofDigitChars 10 (text.drop k) 0 : ℤ)
      (Nat.ofDigitChars 10 (text.take k) 0 : ℤ) hpos.ne'
    have h2 := Int.add_mul_ediv_left low high hpos.ne'
    rw [Int.ediv_eq_zero_of_lt (by omega) hlt', zero_add] at h1
    rw [Int.ediv_eq_zero_of_lt h0 hlow, zero_add] at h2
    rw [← h1, ← h2, add_comm, hvalue, mul_comm high, add_comm]
  refine ⟨_, _, hsplit.symm, hfront, hback, ⟨hdigits.1, ?_, hquot⟩, ⟨hdigits.2, ?_, ?_⟩⟩
  · exact List.ne_nil_of_length_pos (by omega)
  · exact List.ne_nil_of_length_pos (by omega)
  · rw [hquot, mul_comm] at hvalue
    omega

/-! ### Names -/

/-- A name is read up to the first character that is no letter. -/
theorem parseName_append {front name rest : List Char} (hfront : ∀ c ∈ front, isSpace c = true)
    (hname : ∀ c ∈ name, c.isAlpha = true)
    (hhead : NoHead (fun c => isSpace c || isPunct c) (name ++ rest))
    (hrest : NoHead Char.isAlpha rest) : parseName (front ++ (name ++ rest)) = (name, rest) := by
  have hskip : (front ++ (name ++ rest)).dropWhile (fun c => isSpace c || isPunct c) = name ++ rest :=
    dropWhile_append_of_noHead (fun c hc => by simp [hfront c hc]) hhead
  simp only [parseName, hskip, takeWhile_append_of_noHead hname hrest,
    dropWhile_append_of_noHead hname hrest]

theorem month_name : ∀ i < 12, ∀ name, name = (MONTH_NAMES.getD i []).take 3 →
    name.all Char.isAlpha = true ∧ NoHead (fun c => isSpace c || isPunct c) name ∧ name ≠ [] ∧
      ¬(capitalize name).length < 3 ∧
      (MONTH_NAMES.findIdx? fun month => (capitalize name).isPrefixOf month) = some i := by
  intro i hi name hname
  subst hname
  interval_cases i <;> refine ⟨by decide, ?_, by decide, by decide, by decide⟩ <;>
    exact noHead_cons (by decide)

theorem parseMonth_append {front rest : List Char} {month : ℤ} (h1 : 1 ≤ month) (h12 : month ≤ 12)
    (hfront : ∀ c ∈ front, isSpace c = true) (hrest : NoHead Char.isAlpha rest) :
    parseMonth (front ++ ((MONTH_NAMES.getD (month - 1).toNat []).take 3 ++ rest)) =
      .ok (month, rest) := by
  obtain ⟨hname, hhead, hne, hlen, hfind⟩ :=
    month_name (month - 1).toNat (by omega) _ rfl
  have hhead' : NoHead (fun c => isSpace c || isPunct c)
      ((MONTH_NAMES.getD (month - 1).toNat []).take 3 ++ rest) := by
    intro c hc
    rw [List.head?_append_of_ne_nil _ hne] at hc
    exact hhead c hc
  simp only [parseMonth, parseName_append hfront (List.all_eq_true.mp hname) hhead' hrest, if_neg hlen, hfind]
  congr 2
  omega

theorem weekday_name : ∀ i < 7, ∀ name,
    name = (WEEKDAY_NAMES.getD i []).take 3 ∨ name = WEEKDAY_NAMES.getD i [] →
      name.all Char.isAlpha = true ∧ NoHead isSpace name ∧ name ≠ [] := by
  intro i hi name hname
  rcases hname with rfl | rfl <;> interval_cases i <;> refine ⟨by decide, ?_, by decide⟩ <;>
    exact noHead_cons (by decide)

/-! ### Time zones -/

theorem parseZoneNumber_append {text rest : List Char} {value limit : ℤ} (h : Numeral text value)
    (hlen : text.length = 2) (h0 : 0 ≤ value) (hlimit : value ≤ limit) (hlarge : limit < 100)
    (what : String) : parseZoneNumber (text ++ rest) what limit = .ok (value, rest) := by
  have hbad : ¬(value < 0 ∨ value > limit) := by omega
  simp only [parseZoneNumber, parseNumberN_append h hlen.le (Or.inl hlen) (by omega) [], if_neg hbad]

theorem parseDifference_append {hours minutes rest sep : List Char} {h m : ℤ} {c : Char}
    (hc : c = '+' ∨ c = '-') (hsep : sep = [] ∨ sep = [':']) (hhours : Numeral hours h)
    (hhours' : hours.length = 2) (hminutes : Numeral minutes m) (hminutes' : minutes.length = 2)
    (h0 : 0 ≤ h) (h23 : h ≤ 23) (m0 : 0 ≤ m) (m59 : m ≤ 59) :
    parseDifference none 0 (c :: (hours ++ sep ++ minutes) ++ rest) =
      .ok ((if c = '+' then 1 else -1) * (h * 3600 + m * 60), rest) := by
  have hsplit : hours ++ sep ++ minutes ++ rest = hours ++ (sep ++ (minutes ++ rest)) := by simp
  have hcolon : (if (sep ++ (minutes ++ rest)).head? = some ':' then (sep ++ (minutes ++ rest)).tail
      else sep ++ (minutes ++ rest)) = minutes ++ rest := by
    rcases hsep with rfl | rfl
    · have hhead : (minutes ++ rest).head? ≠ some ':' := by
        intro hhead
        have := hminutes.noHead (p := fun c => c = ':') (by
          intro c hc
          rw [decide_eq_false_iff_not]
          rintro rfl
          cases hc) rest ':' hhead
        simp at this
      rw [List.nil_append, if_neg hhead]
    · rfl
  simp only [List.cons_append, hsplit, parseDifference, if_pos hc]
  simp only [bind, Except.bind, pure, Except.pure,
    parseZoneNumber_append hhours hhours' h0 h23 (by omega) "hours", hcolon,
    parseZoneNumber_append hminutes hminutes' m0 m59 (by omega) "minutes", zero_add]

/-- A time zone differential that can be written: whole minutes, less than a day. -/
structure WritableZone (tzd : ℤ) : Prop where
  minutes : 60 ∣ tzd
  low : -86400 < tzd
  high : tzd < 86400

theorem WritableZone.text_eq {tzd : ℤ} (h : WritableZone tzd) (sep : List Char) :
    ∃ c hours minutes hh mm, DateTimeFormatter.tzdText tzd sep = c :: (hours ++ sep ++ minutes) ∧
      (c = '+' ∨ c = '-') ∧ (Numeral hours hh ∧ hours.length = 2) ∧
      (Numeral minutes mm ∧ minutes.length = 2) ∧ (0 ≤ hh ∧ hh ≤ 23) ∧ (0 ≤ mm ∧ mm ≤ 59) ∧
      (if c = '+' then 1 else -1) * (hh * 3600 + mm * 60) = tzd := by
  have hnumbers {t : ℤ} (ht0 : 0 ≤ t) (ht : t < 86400) :
      (0 ≤ t.tdiv 3600 ∧ t.tdiv 3600 ≤ 23) ∧
        (0 ≤ (t.tmod 3600).tdiv 60 ∧ (t.tmod 3600).tdiv 60 ≤ 59) ∧
        (60 ∣ t → t.tdiv 3600 * 3600 + (t.tmod 3600).tdiv 60 * 60 = t) := by
    rw [Int.tdiv_eq_ediv_of_nonneg ht0, Int.tmod_eq_emod_of_nonneg ht0,
      Int.tdiv_eq_ediv_of_nonneg (by omega)]
    omega
  obtain ⟨h60, hlow, hhigh⟩ := h
  by_cases hpos : tzd ≥ 0
  · obtain ⟨hh, hm, htzd⟩ := hnumbers hpos hhigh
    refine ⟨'+', _, _, _, _, ?_, Or.inl rfl, numeral_format0 _ 2 2 rfl hh.1 (by decide) (by omega),
      numeral_format0 _ 2 2 rfl hm.1 (by decide) (by omega), hh, hm, ?_⟩
    · simp [DateTimeFormatter.tzdText, if_pos hpos]
    · simp [htzd h60]
  · obtain ⟨hh, hm, htzd⟩ := hnumbers (t := -tzd) (by omega) (by omega)
    refine ⟨'-', _, _, _, _, ?_, Or.inr rfl, numeral_format0 _ 2 2 rfl hh.1 (by decide) (by omega),
      numeral_format0 _ 2 2 rfl hm.1 (by decide) (by omega), hh, hm, ?_⟩
    · simp [DateTimeFormatter.tzdText, if_neg hpos]
    · rw [if_neg (by decide), htzd (by omega)]
      ring

theorem parseTZD_append {front rest sep : List Char} {tzd : ℤ} (hsep : sep = [] ∨ sep = [':'])
    (hz : WritableZone tzd) (hfront : ∀ c ∈ front, isSpace c = true) :
    parseTZD (front ++ (DateTimeFormatter.tzdText tzd sep ++ rest)) = .ok (tzd, rest) := by
  obtain ⟨c, hours, minutes, hh, mm, htext, hc, hhours, hminutes, hhb, hmb, htzd⟩ := hz.text_eq sep
  have hsign : isSpace c = false ∧ c.isAlpha = false := by
    rcases hc with rfl | rfl <;> decide
  rw [htext]
  have hskip : (front ++ (c :: (hours ++ sep ++ minutes) ++ rest)).dropWhile isSpace =
      c :: (hours ++ sep ++ minutes) ++ rest :=
    dropWhile_append_of_noHead hfront (noHead_cons hsign.1)
  have hdesignator : ((c :: (hours ++ sep ++ minutes) ++ rest).take 4).takeWhile Char.isAlpha = [] := by
    simp [hsign.2]
  simp only [parseTZD, hskip, hdesignator, if_true]
  rw [parseDifference_append hc hsep hhours.1 hhours.2 hminutes.1 hminutes.2 hhb.1 hhb.2 hmb.1 hmb.2,
    htzd]

/-! ### Directives -/

/-- The directives of the standard formats. -/
def isDirective (c : Char) : Bool :=
  ['w', 'W', 'b', 'd', 'e', 'f', 'm', 'y', 'Y', 'H', 'M', 'S', 's', 'z', 'Z'].contains c

/-- The character `x` can follow what the directive `c` has written. -/
def stops (c x : Char) : Bool :=
  if c = 'w' ∨ c = 'W' ∨ c = 'b' then !x.isAlpha
  else if c = 'e' ∨ c = 'f' ∨ c = 's' then !x.isDigit
  else if c = 'S' then x ≠ '.' && x ≠ ','
  else true

/-- What a directive has to find. -/
def effect (d : DateTime) (tzd : ℤ) (c : Char) (s : State) : State :=
  let f := d._fields
  match c with
  | 'b' | 'm' => { s with month := f.month, monthParsed := true }
  | 'd' | 'e' | 'f' => { s with day := f.day, dayParsed := true }
  | 'y' => { s with year := century (f.year.tmod 100) }
  | 'Y' => { s with year := f.year }
  | 'H' => { s with hour := f.hour }
  | 'M' => { s with minute := f.minute }
  | 'S' => { s with second := f.second }
  | 's' => { s with second := f.second, millis := f.millisecond, micros := f.microsecond }
  | 'z' | 'Z' => { s with tzd := tzd }
  | _ => s

/-- A date and time that can be written. -/
structure Writable (d : DateTime) : Prop where
  valid : DateTime.isValid d._fields = true
  year : 0 ≤ d._fields.year
  weekday : 0 ≤ d.dayOfWeek ∧ d.dayOfWeek < 7

theorem WritableZone.ne_UTC {tzd : ℤ} (h : WritableZone tzd) : tzd ≠ DateTimeFormatter.UTC := by
  have := h.minutes
  rw [DateTimeFormatter.UTC]
  omega

theorem WritableZone.reads {tzd : ℤ} (h : WritableZone tzd) {front sep : List Char}
    (hsep : sep = [] ∨ sep = [':']) (hfront : ∀ c ∈ front, isSpace c = true) (rest : List Char) :
    (DateTimeFormatter.tzdText tzd sep).dropWhile isSpace = DateTimeFormatter.tzdText tzd sep ∧
      DateTimeFormatter.tzdText tzd sep ≠ [] ∧
      parseTZD (front ++ (DateTimeFormatter.tzdText tzd sep ++ rest)) = .ok (tzd, rest) := by
  obtain ⟨c, hours, minutes, -, -, htext, hc, -⟩ := h.text_eq sep
  have hspace : isSpace c = false := by
    rcases hc with rfl | rfl <;> rfl
  refine ⟨?_, ?_, parseTZD_append hsep h hfront⟩
  · rw [htext]
    exact (noHead_cons hspace).dropWhile
  · rw [htext]
    exact List.cons_ne_nil _ _

theorem Writable.bounds {d : DateTime} (h : Writable d) :
    (0 ≤ d._fields.year ∧ d._fields.year ≤ 9999) ∧ (1 ≤ d._fields.month ∧ d._fields.month ≤ 12) ∧
      (1 ≤ d._fields.day ∧ d._fields.day ≤ 31) ∧ (0 ≤ d._fields.hour ∧ d._fields.hour ≤ 23) ∧
      (0 ≤ d._fields.minute ∧ d._fields.minute ≤ 59) ∧
      (0 ≤ d._fields.second ∧ d._fields.second ≤ 60) ∧
      (0 ≤ d._fields.millisecond ∧ d._fields.millisecond ≤ 999) ∧
      (0 ≤ d._fields.microsecond ∧ d._fields.microsecond ≤ 999) := by
  have hvalid := h.valid
  have hyear := h.year
  simp only [DateTime.isValid, Bool.and_eq_true, decide_eq_true_eq] at hvalid
  have hdays := DateTime.daysOfMonth_le d._fields.year d._fields.month
  omega

theorem number_reads {front text : List Char} {value : ℤ} {n : ℕ} (h : Numeral text value)
    (hlen : text.length ≤ n) (rest : List Char) (hrest : text.length = n ∨ NoHead Char.isDigit rest)
    (hvalue : value < 2 ^ 31) (dtStr : List Char) (hfront : ∀ c ∈ front, isSpace c = true) :
    text.dropWhile isSpace = text ∧ text ≠ [] ∧
      parseNumberN dtStr (skipNonDigits (front ++ (text ++ rest))) n = .ok (value, rest) := by
  refine ⟨?_, h.ne_nil, ?_⟩
  · have hhead := h.noHead (p := isSpace) (fun c => isSpace_eq_false_of_isDigit) []
    rw [List.append_nil] at hhead
    exact hhead.dropWhile
  · rw [skipNonDigits_append h hfront, parseNumberN_append h hlen hrest hvalue]

theorem format0_reads {front : List Char} (value width : ℤ) (n : ℕ) (hwidth : (n : ℤ) = width)
    (h0 : 0 ≤ value) (hn : 0 < n) (hlt : value < 10 ^ n) (hvalue : value < 2 ^ 31)
    (rest dtStr : List Char) (hfront : ∀ c ∈ front, isSpace c = true) :
    (format0 value width).dropWhile isSpace = format0 value width ∧ format0 value width ≠ [] ∧
      parseNumberN dtStr (skipNonDigits (front ++ (format0 value width ++ rest))) n =
        .ok (value, rest) := by
  obtain ⟨hnum, hlen⟩ := numeral_format0 value width n hwidth h0 hn hlt
  exact number_reads hnum hlen.le rest (Or.inl hlen) hvalue dtStr hfront

theorem parseFraction_append {text rest : List Char} {high low : ℤ}
    (h : Numeral text (high * 10 ^ 3 + low)) (hlen : text.length = 3 + 3) (h0 : 0 ≤ low)
    (hlow : low < 1000) (hhigh : high < 1000) (hrest : NoHead Char.isDigit rest) (dtStr : List Char) :
    parseFraction dtStr ('.' :: text ++ rest) = .ok (some (high, low), rest) := by
  obtain ⟨front, back, rfl, hfront, hback, hfrontNum, hbackNum⟩ :=
    h.split hlen (by decide) (by decide) h0 hlow
  have hdigit : ((front ++ back ++ rest).head?.map fun c => !c.isDigit).getD false = false := by
    rw [List.append_assoc]
    have hhead := hfrontNum.noHead (p := fun c => !c.isDigit) (by simp) (back ++ rest)
    cases hh : (front ++ (back ++ rest)).head? with
    | none => rfl
    | some c => simpa using hhead c hh
  simp only [List.cons_append, parseFraction, hdigit]
  rw [List.append_assoc]
  simp only [bind, Except.bind, pure, Except.pure, true_or, if_true, Bool.false_eq_true, if_false,
    parseFractionalN_append hfrontNum hfront (by omega), parseFractionalN_append hbackNum hback (by omega)]
  rw [skipDigits, hrest.dropWhile]

theorem noHead_of_stops {c : Char} {rest : List Char} {p : Char → Bool}
    (hrest : ∀ x ∈ rest.head?, stops c x = true) (hp : ∀ x, stops c x = true → p x = false) :
    NoHead p rest := fun x hx => hp x (hrest x hx)

theorem name_skipped {front name rest : List Char} (hfront : ∀ c ∈ front, isSpace c = true)
    (hname : ∀ c ∈ name, c.isAlpha = true) (hhead : NoHead isSpace name) (hne : name ≠ [])
    (hrest : NoHead Char.isAlpha rest) :
    ((front ++ (name.dropWhile isSpace ++ rest)).dropWhile isSpace).dropWhile Char.isAlpha = rest := by
  have hhead' : NoHead isSpace (name ++ rest) := by
    intro c hc
    rw [List.head?_append_of_ne_nil _ hne] at hc
    exact hhead c hc
  rw [hhead.dropWhile, dropWhile_append_of_noHead hfront hhead', dropWhile_append_of_noHead hname hrest]

/-- A fraction that the format does not have is not skipped. -/
theorem skipFraction_of_stops {rest : List Char} (hrest : ∀ x ∈ rest.head?, stops 'S' x = true)
    (dtStr : List Char) (fracSpec : Bool) : skipFraction dtStr fracSpec rest = .ok rest := by
  cases rest with
  | nil => rfl
  | cons x rest =>
      have hx : x ≠ '.' ∧ x ≠ ',' := by simpa [stops] using hrest x (by simp)
      simp [skipFraction, hx.1, hx.2]

theorem seconds_read {front rest : List Char} {second high low : ℤ} (h0 : 0 ≤ second)
    (h60 : second ≤ 60) (hh0 : 0 ≤ high) (hhigh : high ≤ 999) (hl0 : 0 ≤ low) (hlow : low ≤ 999)
    (hfront : ∀ c ∈ front, isSpace c = true) (hrest : NoHead Char.isDigit rest) (dtStr : List Char) :
    ∃ it, parseNumberN dtStr (skipNonDigits (front ++
        (format0 second 2 ++ '.' :: (format0 (high * 1000 + low) 6 ++ rest)))) 2 = .ok (second, it) ∧
      parseFraction dtStr it = .ok (some (high, low), rest) := by
  obtain ⟨hnum, hlen⟩ := numeral_format0 (high * 1000 + low) 6 6 rfl (by omega) (by decide) (by omega)
  obtain ⟨-, -, hread⟩ := format0_reads second 2 2 rfl h0 (by decide) (by omega) (by omega)
    ('.' :: (format0 (high * 1000 + low) 6 ++ rest)) dtStr hfront
  exact ⟨_, hread, parseFraction_append hnum hlen hl0 (by omega) (by omega) hrest dtStr⟩

/-- Every directive of the parser reads what the directive of the formatter has written. -/
theorem directive_reads {d : DateTime} {tzd : ℤ} (hd : Writable d) (hz : WritableZone tzd) {c : Char}
    (hc : isDirective c = true) {front rest : List Char} (hfront : ∀ c ∈ front, isSpace c = true)
    (hrest : ∀ x ∈ rest.head?, stops c x = true) (dtStr : List Char) (fracSpec : Bool) (s : State) :
    (DateTimeFormatter.directive d tzd c).dropWhile isSpace ≠ [] ∧
      directive dtStr fracSpec c
          { s with it := front ++ ((DateTimeFormatter.directive d tzd c).dropWhile isSpace ++ rest) } =
        .ok { effect d tzd c s with it := rest } := by
  obtain ⟨⟨y0, y1⟩, ⟨mo0, mo1⟩, ⟨d0, d1⟩, ⟨h0, h1⟩, ⟨mi0, mi1⟩, ⟨s0, s1⟩, ⟨ms0, ms1⟩, us0, us1⟩ := hd.bounds
  have hweek : d.dayOfWeek.toNat < 7 := by
    have := hd.weekday
    omega
  have hfixed (value width : ℤ) (n : ℕ) (hwidth : (n : ℤ) = width) (h0 : 0 ≤ value) (hn : 0 < n)
      (hlt : value < 10 ^ n) (hvalue : value < 2 ^ 31) :=
    format0_reads value width n hwidth h0 hn hlt hvalue rest dtStr hfront
  simp only [isDirective, List.contains_eq_mem, List.mem_cons, List.not_mem_nil, or_false,
    decide_eq_true_eq] at hc
  rcases hc with rfl | rfl | rfl | rfl | rfl | rfl | rfl | rfl | rfl | rfl | rfl | rfl | rfl | rfl | rfl
  · -- `w`
    obtain ⟨hname, hhead, hne⟩ := weekday_name _ hweek _ (Or.inl rfl)
    have hskip := name_skipped hfront (List.all_eq_true.mp hname) hhead hne (noHead_of_stops hrest (by simp [stops]))
    rw [DateTimeFormatter.directive]
    refine ⟨by rw [hhead.dropWhile]; exact hne, ?_⟩
    show Except.ok { s with it := _ } = _
    rw [hskip]
    rfl
  · -- `W`
    obtain ⟨hname, hhead, hne⟩ := weekday_name _ hweek _ (Or.inr rfl)
    have hskip := name_skipped hfront (List.all_eq_true.mp hname) hhead hne (noHead_of_stops hrest (by simp [stops]))
    rw [DateTimeFormatter.directive]
    refine ⟨by rw [hhead.dropWhile]; exact hne, ?_⟩
    show Except.ok { s with it := _ } = _
    rw [hskip]
    rfl
  · -- `b`
    obtain ⟨-, hhead, hne, -⟩ := month_name (d._fields.month - 1).toNat (by omega) _ rfl
    have hspace : NoHead isSpace ((MONTH_NAMES.getD (d._fields.month - 1).toNat []).take 3) := by
      intro c hc
      have := hhead c hc
      simp_all
    have hread := parseMonth_append mo0 mo1 hfront (noHead_of_stops hrest (by simp [stops]))
    rw [DateTimeFormatter.directive, hspace.dropWhile]
    refine ⟨hne, ?_⟩
    simp only [directive, hread, effect]
    rfl
  · -- `d`
    obtain ⟨htext, hne, hread⟩ := hfixed d._fields.day 2 2 rfl (by omega) (by decide) (by omega) (by omega)
    rw [DateTimeFormatter.directive, htext]
    refine ⟨hne, ?_⟩
    simp [directive, hread, effect, bind, Except.bind, pure, Except.pure]
  · -- `e`
    obtain ⟨hnum, hlen⟩ := numeral_format d._fields.day 2 (by omega) (by decide) (by omega)
    obtain ⟨htext, hne, hread⟩ := number_reads hnum hlen rest
      (Or.inr (noHead_of_stops hrest (by simp [stops]))) (by omega) dtStr hfront
    rw [DateTimeFormatter.directive, htext]
    refine ⟨hne, ?_⟩
    simp [directive, hread, effect, bind, Except.bind, pure, Except.pure]
  · -- `f`
    obtain ⟨hnum, hlen⟩ := numeral_format d._fields.day 2 (by omega) (by decide) (by omega)
    obtain ⟨htext, hne, hread⟩ := number_reads hnum hlen rest
      (Or.inr (noHead_of_stops hrest (by simp [stops]))) (by omega) dtStr hfront
    obtain ⟨k, hk⟩ := formatWidth_eq d._fields.day 2 (by omega)
    have htext' : (formatWidth d._fields.day 2).dropWhile isSpace =
        NumberFormatter.format d._fields.day := by
      have hspace : ∀ c ∈ List.replicate k ' ', isSpace c = true := by
        intro c hc
        rw [List.eq_of_mem_replicate hc]
        rfl
      rw [hk, List.dropWhile_append_of_pos hspace, htext]
    rw [DateTimeFormatter.directive, htext']
    refine ⟨hne, ?_⟩
    simp [directive, hread, effect, bind, Except.bind, pure, Except.pure]
  · -- `m`
    obtain ⟨htext, hne, hread⟩ := hfixed d._fields.month 2 2 rfl (by omega) (by decide) (by omega) (by omega)
    rw [DateTimeFormatter.directive, htext]
    refine ⟨hne, ?_⟩
    simp [directive, hread, effect, bind, Except.bind, pure, Except.pure]
  · -- `y`
    have hyear : 0 ≤ d._fields.year.tmod 100 ∧ d._fields.year.tmod 100 < 100 := by
      rw [Int.tmod_eq_emod_of_nonneg y0]
      omega
    obtain ⟨htext, hne, hread⟩ := hfixed (d._fields.year.tmod 100) 2 2 rfl hyear.1 (by decide) hyear.2
      (by omega)
    rw [DateTimeFormatter.directive, htext]
    refine ⟨hne, ?_⟩
    simp [directive, hread, effect, bind, Except.bind, pure, Except.pure]
  · -- `Y`
    obtain ⟨htext, hne, hread⟩ := hfixed d._fields.year 4 4 rfl (by omega) (by decide) (by omega) (by omega)
    rw [DateTimeFormatter.directive, htext]
    refine ⟨hne, ?_⟩
    simp [directive, hread, effect, bind, Except.bind, pure, Except.pure]
  · -- `H`
    obtain ⟨htext, hne, hread⟩ := hfixed d._fields.hour 2 2 rfl (by omega) (by decide) (by omega) (by omega)
    rw [DateTimeFormatter.directive, htext]
    refine ⟨hne, ?_⟩
    simp [directive, hread, effect, bind, Except.bind, pure, Except.pure]
  · -- `M`
    obtain ⟨htext, hne, hread⟩ := hfixed d._fields.minute 2 2 rfl (by omega) (by decide) (by omega) (by omega)
    rw [DateTimeFormatter.directive, htext]
    refine ⟨hne, ?_⟩
    simp [directive, hread, effect, bind, Except.bind, pure, Except.pure]
  · -- `S`
    obtain ⟨htext, hne, hread⟩ := hfixed d._fields.second 2 2 rfl s0 (by decide) (by omega) (by omega)
    have hskip := skipFraction_of_stops hrest dtStr fracSpec
    rw [DateTimeFormatter.directive, htext]
    refine ⟨hne, ?_⟩
    simp [directive, hread, hskip, effect, bind, Except.bind, pure, Except.pure]
  · -- `s`
    obtain ⟨it, hread, hfraction⟩ := seconds_read s0 s1 ms0 ms1 us0 us1 hfront
      (noHead_of_stops hrest (by simp [stops])) dtStr
    obtain ⟨hnum, -⟩ := numeral_format0 d._fields.second 2 2 rfl s0 (by decide) (by omega)
    have hhead := hnum.noHead (p := isSpace) (fun c => isSpace_eq_false_of_isDigit)
      ('.' :: format0 (d._fields.millisecond * 1000 + d._fields.microsecond) 6)
    rw [DateTimeFormatter.directive, hhead.dropWhile]
    refine ⟨by simp, ?_⟩
    simp [directive, hread, hfraction, effect, bind, Except.bind, pure, Except.pure]
  · -- `z`
    obtain ⟨htext, hne, hread⟩ := hz.reads (Or.inr rfl) hfront rest
    rw [DateTimeFormatter.directive, DateTimeFormatter.tzdISO, if_pos hz.ne_UTC, htext]
    refine ⟨hne, ?_⟩
    simp [directive, hread, effect, bind, Except.bind, pure, Except.pure]
  · -- `Z`
    obtain ⟨htext, hne, hread⟩ := hz.reads (Or.inl rfl) hfront rest
    rw [DateTimeFormatter.directive, DateTimeFormatter.tzdRFC, if_pos hz.ne_UTC, htext]
    refine ⟨hne, ?_⟩
    simp [directive, hread, effect, bind, Except.bind, pure, Except.pure]

theorem directive_dropWhile_ne_nil {d : DateTime} {tzd : ℤ} (hd : Writable d) (hz : WritableZone tzd)
    {c : Char} (hc : isDirective c = true) :
    (DateTimeFormatter.directive d tzd c).dropWhile isSpace ≠ [] := by
  have hreads := @directive_reads d tzd hd hz c hc [] [] (by simp) (by simp) [] false (initial [])
  exact hreads.1

/-! ### Formats -/

/-- What the rest of a format writes can follow the directive `c`. -/
def follows (c : Char) : List Char → Bool
  | [] => true
  | ['%'] => false
  | '%' :: x :: _ => (x = 'z' || x = 'Z') && stops c '+' && stops c '-'
  | x :: _ => stops c x

/-- What is written in this format can be read again. -/
def readable : List Char → Bool
  | [] => true
  | ['%'] => false
  | '%' :: c :: fmt => isDirective c && follows c fmt && readable fmt
  | c :: fmt => (!isSpace c || fmt.head? = some '%') && readable fmt

/-- What the directives of a format have to find. -/
def effects (d : DateTime) (tzd : ℤ) : List Char → State → State
  | [], s => s
  | ['%'], s => s
  | '%' :: c :: fmt, s => effects d tzd fmt (effect d tzd c s)
  | _ :: fmt, s => effects d tzd fmt s

theorem format_cons {c : Char} (hc : c ≠ '%') (d : DateTime) (tzd : ℤ) (fmt : List Char) :
    DateTimeFormatter.format d tzd (c :: fmt) = c :: DateTimeFormatter.format d tzd fmt := by
  rw [DateTimeFormatter.format]
  · simp [hc]
  · simp [hc]

theorem loop_cons {c : Char} (hc : c ≠ '%') {s : State} (hs : s.it ≠ []) (dtStr : List Char)
    (fracSpec : Bool) (fmt : List Char) :
    loop dtStr fracSpec (c :: fmt) s =
      if isSpace c then loop dtStr fracSpec fmt { s with it := s.it.dropWhile isSpace }
      else if s.it.head? = some c then loop dtStr fracSpec fmt { s with it := s.it.tail }
      else loop dtStr fracSpec fmt s := by
  rw [loop]
  · rw [if_neg hs]
  · simp [hc]
  · simp [hc]

/-- The first character that is written by the rest of a format. -/
theorem head_of_follows {d : DateTime} {tzd : ℤ} (hz : WritableZone tzd) {c : Char} {fmt : List Char}
    (h : follows c fmt = true) : ∀ x ∈ (DateTimeFormatter.format d tzd fmt).head?, stops c x = true := by
  intro x hx
  unfold follows at h
  split at h
  · cases hx
  · cases h
  · next y fmt =>
      simp only [Bool.and_eq_true, Bool.or_eq_true, decide_eq_true_eq] at h
      obtain ⟨⟨hy, hplus⟩, hminus⟩ := h
      -- a time zone begins with its sign
      obtain ⟨sep, hsep⟩ : ∃ sep, DateTimeFormatter.directive d tzd y =
          DateTimeFormatter.tzdText tzd sep := by
        rcases hy with rfl | rfl
        · exact ⟨[':'], if_pos hz.ne_UTC⟩
        · exact ⟨[], if_pos hz.ne_UTC⟩
      obtain ⟨sign, hours, minutes, -, -, htext, hsign, -⟩ := hz.text_eq sep
      rw [DateTimeFormatter.format, hsep, htext] at hx
      obtain rfl : sign = x := by simpa using hx
      rcases hsign with rfl | rfl
      · exact hplus
      · exact hminus
  · next y fmt h1 h2 =>
      have hy : y ≠ '%' := by
        rintro rfl
        cases fmt with
        | nil => exact h1 rfl rfl
        | cons z fmt => exact h2 z fmt rfl rfl
      rw [format_cons hy] at hx
      obtain rfl : y = x := by simpa using hx
      exact h

theorem dropWhile_format_ne_nil {d : DateTime} {tzd : ℤ} (hd : Writable d) (hz : WritableZone tzd)
    {fmt : List Char} (h : readable fmt = true) (hhead : fmt.head? = some '%') :
    (DateTimeFormatter.format d tzd fmt).dropWhile isSpace ≠ [] := by
  obtain ⟨tail, rfl⟩ : ∃ tail, fmt = '%' :: tail := by
    cases fmt with
    | nil => cases hhead
    | cons c tail => exact ⟨tail, by simpa using hhead⟩
  cases tail with
  | nil => cases h
  | cons c fmt =>
      simp only [readable, Bool.and_eq_true] at h
      have hne := directive_dropWhile_ne_nil hd hz h.1.1
      rw [DateTimeFormatter.format, List.dropWhile_append, if_neg (by simpa using hne)]
      simp [hne]

/-- **Main lemma.**  The loop reads what is written in a readable format. -/
theorem loop_format {d : DateTime} {tzd : ℤ} (hd : Writable d) (hz : WritableZone tzd)
    (dtStr : List Char) (fracSpec : Bool) {fmt : List Char} (h : readable fmt = true) {text : List Char}
    (htext : text = DateTimeFormatter.format d tzd fmt ∨
      text = (DateTimeFormatter.format d tzd fmt).dropWhile isSpace) (s : State) :
    loop dtStr fracSpec fmt { s with it := text } = .ok { effects d tzd fmt s with it := [] } := by
  induction fmt using readable.induct generalizing text s with
  | case1 =>
      obtain rfl : text = [] := by simpa [DateTimeFormatter.format] using htext
      rfl
  | case2 => cases h
  | case3 c fmt ih =>
      simp only [readable, Bool.and_eq_true] at h
      obtain ⟨⟨hc, hfollows⟩, hfmt⟩ := h
      -- the directive skips white space, whether the space before it has left any or not
      obtain ⟨front, hfront, hsplit⟩ : ∃ front, (∀ x ∈ front, isSpace x = true) ∧
          text = front ++ ((DateTimeFormatter.directive d tzd c).dropWhile isSpace ++
            DateTimeFormatter.format d tzd fmt) := by
        rw [DateTimeFormatter.format] at htext
        rcases htext with htext | htext
        · refine ⟨(DateTimeFormatter.directive d tzd c).takeWhile isSpace, ?_, ?_⟩
          · exact fun x hx => List.mem_takeWhile_imp hx
          · rw [← List.append_assoc, List.takeWhile_append_dropWhile, htext]
        · refine ⟨[], by simp, ?_⟩
          have hne := directive_dropWhile_ne_nil hd hz hc
          rw [htext, List.dropWhile_append, if_neg (by simpa using hne), List.nil_append]
      obtain ⟨hne, hread⟩ := directive_reads hd hz hc hfront (head_of_follows hz hfollows) dtStr fracSpec s
      rw [← hsplit] at hread
      have htext_ne : text ≠ [] := by
        rw [hsplit]
        simp [hne]
      rw [loop, if_neg htext_ne, hread]
      exact ih hfmt (Or.inl rfl) _
  | case4 c fmt h1 h2 ih =>
      have hc : c ≠ '%' := by
        rintro rfl
        cases fmt with
        | nil => exact h1 rfl rfl
        | cons x fmt => exact h2 x fmt rfl rfl
      have heffects : effects d tzd (c :: fmt) s = effects d tzd fmt s := by
        rw [effects]
        · simp [hc]
        · simp [hc]
      simp only [readable, Bool.and_eq_true, Bool.or_eq_true, Bool.not_eq_true', decide_eq_true_eq] at h
      obtain ⟨hspace, hfmt⟩ := h
      rw [format_cons hc] at htext
      rw [heffects]
      by_cases hs : isSpace c = true
      · have hne : (DateTimeFormatter.format d tzd fmt).dropWhile isSpace ≠ [] :=
          dropWhile_format_ne_nil hd hz hfmt (hspace.resolve_left (by simp [hs]))
        have hskip : text.dropWhile isSpace = (DateTimeFormatter.format d tzd fmt).dropWhile isSpace := by
          rcases htext with rfl | rfl
          · simp [hs]
          · rw [List.dropWhile_idempotent, List.dropWhile_cons_of_pos hs]
        have htext_ne : text ≠ [] := by
          rintro rfl
          exact hne hskip.symm
        rw [loop_cons hc htext_ne, if_pos hs]
        exact ih hfmt (Or.inr hskip) s
      · have htext' : text = c :: DateTimeFormatter.format d tzd fmt := by
          rcases htext with rfl | rfl
          · rfl
          · simp [hs]
        subst htext'
        rw [loop_cons hc (by simp), if_neg hs, if_pos (by simp)]
        exact ih hfmt (Or.inl rfl) s

/-! ### The end of the text -/

/-- The last character is a digit, so that nothing is trimmed. -/
def EndsInDigit (text : List Char) : Prop := ∃ front c, text = front ++ [c] ∧ c.isDigit = true

theorem EndsInDigit.append {text : List Char} (h : EndsInDigit text) (front : List Char) :
    EndsInDigit (front ++ text) := by
  obtain ⟨front', c, rfl, hc⟩ := h
  exact ⟨front ++ front', c, by simp, hc⟩

theorem Numeral.endsInDigit {text : List Char} {value : ℤ} (h : Numeral text value) :
    EndsInDigit text :=
  ⟨text.dropLast, text.getLast h.ne_nil, (List.dropLast_append_getLast h.ne_nil).symm,
    h.digits _ (List.getLast_mem h.ne_nil)⟩

/-- Trimming such a text is no more than skipping white space in front. -/
theorem EndsInDigit.trim_eq {text : List Char} (h : EndsInDigit text) :
    trim text = text.dropWhile isSpace ∧ trim text ≠ [] := by
  obtain ⟨front, c, rfl, hc⟩ := h
  have hspace := isSpace_eq_false_of_isDigit hc
  obtain ⟨front', hfront⟩ : ∃ front', (front ++ [c]).dropWhile isSpace = front' ++ [c] := by
    rw [List.dropWhile_append]
    split
    · exact ⟨[], by simp [hspace]⟩
    · exact ⟨_, rfl⟩
  rw [trim, hfront, List.rdropWhile_concat_neg _ _ _ (by simp [hspace])]
  exact ⟨rfl, by simp⟩

/-- The format ends with a number or a time zone. -/
def endsWithNumber : List Char → Bool
  | [] => false
  | ['%', c] => c = 'Y' || c = 'S' || c = 'z' || c = 'Z'
  | '%' :: _ :: fmt => endsWithNumber fmt
  | _ :: fmt => endsWithNumber fmt

theorem directive_endsInDigit {d : DateTime} {tzd : ℤ} (hd : Writable d) (hz : WritableZone tzd) {c : Char}
    (hc : c = 'Y' ∨ c = 'S' ∨ c = 'z' ∨ c = 'Z') :
    EndsInDigit (DateTimeFormatter.directive d tzd c) := by
  obtain ⟨⟨y0, y1⟩, -, -, -, -, ⟨s0, s1⟩, -⟩ := hd.bounds
  have hzone (sep : List Char) : EndsInDigit (DateTimeFormatter.tzdText tzd sep) := by
    obtain ⟨c, hours, minutes, hh, mm, htext, -, -, hminutes, -⟩ := hz.text_eq sep
    rw [htext, ← List.cons_append]
    exact hminutes.1.endsInDigit.append _
  rcases hc with rfl | rfl | rfl | rfl
  · exact (numeral_format0 d._fields.year 4 4 rfl y0 (by decide) (by omega)).1.endsInDigit
  · exact (numeral_format0 d._fields.second 2 2 rfl s0 (by decide) (by omega)).1.endsInDigit
  · rw [DateTimeFormatter.directive, DateTimeFormatter.tzdISO, if_pos hz.ne_UTC]
    exact hzone _
  · rw [DateTimeFormatter.directive, DateTimeFormatter.tzdRFC, if_pos hz.ne_UTC]
    exact hzone _

theorem format_endsInDigit {d : DateTime} {tzd : ℤ} (hd : Writable d) (hz : WritableZone tzd)
    {fmt : List Char} (h : endsWithNumber fmt = true) :
    EndsInDigit (DateTimeFormatter.format d tzd fmt) := by
  induction fmt using endsWithNumber.induct with
  | case1 => cases h
  | case2 c =>
      simp only [endsWithNumber, Bool.or_eq_true, decide_eq_true_eq, or_assoc] at h
      rw [DateTimeFormatter.format, DateTimeFormatter.format, List.append_nil]
      exact directive_endsInDigit hd hz h
  | case3 c fmt hfmt ih =>
      have hends : endsWithNumber ('%' :: c :: fmt) = endsWithNumber fmt := by
        rw [endsWithNumber]
        simpa using hfmt
      rw [hends] at h
      rw [DateTimeFormatter.format]
      exact (ih h).append _
  | case4 c fmt h1 h2 ih =>
      have hends : endsWithNumber (c :: fmt) = endsWithNumber fmt := by
        rw [endsWithNumber]
        · exact h1
        · exact h2
      rw [hends] at h
      by_cases hc : c = '%'
      · subst hc
        cases fmt with
        | nil => cases h
        | cons x fmt => exact absurd rfl (h2 x fmt rfl)
      · rw [format_cons hc]
        exact (ih h).append [c]

/-! ### Main result -/

/-- The format has the directive `c`. -/
def hasDirective (c : Char) : List Char → Bool
  | [] => false
  | ['%'] => false
  | '%' :: x :: fmt => x = c || hasDirective c fmt
  | _ :: fmt => hasDirective c fmt

/-- The fields to the precision of the format. -/
def truncated (fmt : List Char) (f : Fields) : Fields :=
  if hasDirective 's' fmt then f else { f with millisecond := 0, microsecond := 0 }

/-- The precision of the format in 100 nanoseconds. -/
def precision (fmt : List Char) : ℤ := if hasDirective 's' fmt then 10 else 10000000

/-- The format has a time zone. -/
def hasZone (fmt : List Char) : Bool := hasDirective 'z' fmt || hasDirective 'Z' fmt

/-- The standard formats can be read, and have every field of a date and time. -/
theorem standard_format {fmt : List Char} (h : fmt ∈ FORMAT_LIST) :
    readable fmt = true ∧ endsWithNumber fmt = true ∧ fmt ≠ [] ∧ hasFormat fmt = true ∧
      ∀ d tzd str, (effects d tzd fmt (initial str)).fields = { truncated fmt d._fields with
          year := if hasDirective 'y' fmt then century (d._fields.year.tmod 100) else d._fields.year } ∧
        (effects d tzd fmt (initial str)).tzd = if hasZone fmt then tzd else 0 := by
  simp only [FORMAT_LIST, List.mem_cons, List.not_mem_nil, or_false] at h
  rcases h with rfl | rfl | rfl | rfl | rfl | rfl | rfl | rfl | rfl <;>
    exact ⟨by decide, by decide, by decide, by decide, fun d tzd str => ⟨rfl, rfl⟩⟩

theorem truncated_valid {f : Fields} (h : DateTime.isValid f = true) (fmt : List Char) :
    DateTime.isValid (truncated fmt f) = true ∧ (truncated fmt f).year = f.year := by
  rw [truncated]
  split
  · exact ⟨h, rfl⟩
  · refine ⟨?_, rfl⟩
    simp only [DateTime.isValid, Bool.and_eq_true, decide_eq_true_eq] at h ⊢
    simp [h]

/-- The time of the fields that are kept is the time, cut off to the precision of the format. -/
theorem utcTimeOf_truncated {d : DateTime} (h : DateTime.Describes d) (fmt : List Char) :
    DateTime.utcTimeOf (truncated fmt d._fields) = d._utcTime / precision fmt * precision fmt := by
  obtain ⟨hvalid, hlow, hhigh⟩ := h
  simp only [DateTime.isValid, Bool.and_eq_true, decide_eq_true_eq] at hvalid
  rw [DateTime.utcTimeOf] at hlow hhigh ⊢
  rw [truncated, precision]
  split
  · rw [DateTime.timeOfDay] at *
    omega
  · have hday : DateTime.dayNumberOf { d._fields with millisecond := 0, microsecond := 0 } =
        DateTime.dayNumberOf d._fields := rfl
    rw [hday]
    rw [DateTime.timeOfDay] at *
    simp only
    omega

/-- A date and time in the years from 0 can be written. -/
theorem writable_of_describes {d : DateTime} (h : DateTime.Describes d) (hyear : 0 ≤ d._fields.year) :
    Writable d := by
  refine ⟨h.valid, hyear, ?_⟩
  have hlow : -2299162 * 864000000000 ≤ d._utcTime := by
    have hvalid := h.valid
    have htime := h.low
    have hdate : DateTime.Supported { d._fields with second := 0 } := by
      refine ⟨?_, hyear, by simp⟩
      simp only [DateTime.isValid, Bool.and_eq_true, decide_eq_true_eq] at hvalid ⊢
      simp [hvalid]
    have hday : -365 ≤ DateTime.dayNumberOf d._fields := hdate.dayNumberOf_ge
    simp only [DateTime.isValid, Bool.and_eq_true, decide_eq_true_eq] at hvalid
    rw [DateTime.utcTimeOf, DateTime.timeOfDay] at htime
    omega
  have hjulian : 0 ≤ ⌊DateTime.toJulianDay d._utcTime + 1.5⌋ := by
    rw [Int.floor_nonneg, DateTime.toJulianDay]
    have hcast : (-2299162 * 864000000000 : ℚ) ≤ d._utcTime := by exact_mod_cast hlow
    linarith
  rw [DateTime.dayOfWeek, Int.tmod_eq_emod_of_nonneg hjulian]
  omega

theorem century_tmod {year : ℤ} (hlow : 1969 ≤ year) (hhigh : year ≤ 2068) :
    century (year.tmod 100) = year := by
  rw [Int.tmod_eq_emod_of_nonneg (by omega), century]
  split <;> omega

theorem assign_of_create {f : Fields} {d : DateTime} (h : DateTime.create f = .ok d) : assign f = .ok d := by
  delta assign
  rw [h]

/-- **Main result.**  What is written in a standard format is read again: the same time, cut off to
the precision of the format, and the time zone, if the format has one. -/
theorem parse_format (isValid : List Char → Bool) {fmt : List Char} (hfmt : fmt ∈ FORMAT_LIST)
    {d : DateTime} (hd : DateTime.Describes d) (hyear : 0 ≤ d._fields.year)
    (hshort : hasDirective 'y' fmt = true → 1969 ≤ d._fields.year ∧ d._fields.year ≤ 2068) {tzd : ℤ}
    (hz : WritableZone tzd) (hvalid : isValid (trim (DateTimeFormatter.format d tzd fmt)) = true) :
    parse isValid fmt (DateTimeFormatter.format d tzd fmt) =
      .ok (⟨d._utcTime / precision fmt * precision fmt, truncated fmt d._fields⟩,
        if hasZone fmt then tzd else 0) := by
  have hw := writable_of_describes hd hyear
  obtain ⟨hreadable, hends, hne, hhas, heffects⟩ := standard_format hfmt
  obtain ⟨htrim, htrim_ne⟩ := (format_endsInDigit hw hz hends).trim_eq
  have hloop := loop_format hw hz (DateTimeFormatter.format d tzd fmt) (fmtHasFracSpec fmt) hreadable
    (Or.inr htrim) (initial (trim (DateTimeFormatter.format d tzd fmt)))
  obtain ⟨hfields, htzd⟩ := heffects d tzd (trim (DateTimeFormatter.format d tzd fmt))
  obtain ⟨hok, hyear'⟩ := truncated_valid hd.valid fmt
  have hcentury : (if hasDirective 'y' fmt then century (d._fields.year.tmod 100) else d._fields.year) =
      (truncated fmt d._fields).year := by
    rw [hyear']
    split
    case isTrue hy => exact century_tmod (hshort hy).1 (hshort hy).2
    case isFalse => rfl
  rw [hcentury] at hfields
  have hassign : assign (truncated fmt d._fields) =
      .ok ⟨d._utcTime / precision fmt * precision fmt, truncated fmt d._fields⟩ := by
    rw [assign_of_create (DateTime.create_of_valid hok), utcTimeOf_truncated hd]
  -- the state behind the loop
  obtain ⟨e, he, hit, hefields, hetzd⟩ : ∃ e, loop (DateTimeFormatter.format d tzd fmt)
      (fmtHasFracSpec fmt) fmt (initial (trim (DateTimeFormatter.format d tzd fmt))) = .ok e ∧
      e.it = [] ∧ e.fields = truncated fmt d._fields ∧ e.tzd = if hasZone fmt then tzd else 0 :=
    ⟨_, hloop, rfl, hfields, htzd⟩
  simp only [parse, hne, htrim_ne, or_self, if_false, hhas, hvalid, Bool.not_true, Bool.and_false,
    Bool.false_eq_true, he, bind, Except.bind, pure, Except.pure, hit, List.dropWhile_nil, ne_eq,
    not_true_eq_false, hefields, hok, if_true, hassign, hetzd]

/-- A Saturday, with a time zone in the west. -/
theorem parse_format_rfc822 :
    parse (fun _ => true) RFC822_FORMAT (DateTimeFormatter.format
        ⟨133244802050071239, 2005, 1, 8, 12, 30, 5, 7, 123⟩ (-5400) RFC822_FORMAT) =
      .ok (⟨133244802050000000, 2005, 1, 8, 12, 30, 5, 0, 0⟩, -5400) :=
  parse_format (fun _ => true) (by decide)
    ⟨by decide, by rw [DateTime.utcTimeOf]; decide, by rw [DateTime.utcTimeOf]; decide⟩ (by decide)
    (fun _ => by decide) ⟨by decide, by decide, by decide⟩ rfl

/-- A format without a time zone does not keep it. -/
theorem sortable_format_loses_zone :
    DateTime.Describes ⟨133244802050000000, 2005, 1, 8, 12, 30, 5, 0, 0⟩ ∧
      WritableZone 3600 ∧
      parse (fun _ => true) SORTABLE_FORMAT (DateTimeFormatter.format
          ⟨133244802050000000, 2005, 1, 8, 12, 30, 5, 0, 0⟩ 3600 SORTABLE_FORMAT) =
        .ok (⟨133244802050000000, 2005, 1, 8, 12, 30, 5, 0, 0⟩, 0) := by
  refine ⟨⟨by decide, ?_, ?_⟩, ⟨by decide, by decide, by decide⟩, ?_⟩
  · rw [DateTime.utcTimeOf]
    decide
  · rw [DateTime.utcTimeOf]
    decide
  · decide +kernel

end DateTimeParser

end Poco.Foundation
