import Poco.Foundation.IntToStr

/-! # The grammar of `strToInt`

`strToInt` looks at the first character for a minus that it does not allow, skips a plus and gives the
rest to `std::from_chars`, which reads a minus of its own.  If the number ends in front of another
character, the separators are taken out in a buffer of a fixed size and the second text is read.

The texts that are read are those of `strToInt_iff`.  They are the numerals of the documentation except
for a minus behind a plus and for long numerals with separators (`accepts_grammar_iff`). -/

namespace Poco.Foundation

open Poco.Lib

namespace NumericString

/-- A numeral behind a plus or no plus, and the number it denotes: with or without a minus, one or more digits
of the base, in base 10 with separators behind the first one. -/
structure SignedDigits (T : IntegerType) (base : ℕ) (thSep : UInt8) (neg : Bool) (body : List UInt8) (v : ℤ) :
    Prop where
  first : ∃ ch ∈ body.head?, isDigitOf base ch = true
  digits : ∀ ch ∈ strip base thSep body, isDigitOf base ch = true
  signed : neg = true → T.signed = true
  value : v = if neg then -(number base (strip base thSep body) : ℤ) else number base (strip base thSep body)
  range : T.min ≤ v ∧ v ≤ T.max

/-- White space, signs and digits. -/
structure Reads (T : IntegerType) (base : ℕ) (thSep : UInt8) (str : List UInt8) (plus neg : Bool)
    (body : List UInt8) (v : ℤ) : Prop extends SignedDigits T base thSep neg body v where
  spaces : ∃ spaces, (∀ ch ∈ spaces, Hex.isSpace ch = true) ∧
    str = spaces ++ ((if plus then ['+'.toUInt8] else []) ++ ((if neg then ['-'.toUInt8] else []) ++ body))

/-- The documented grammar: at most one sign, the minus in base 10 only. -/
def Denotes (T : IntegerType) (base : ℕ) (thSep : UInt8) (str : List UInt8) (v : ℤ) : Prop :=
  ∃ plus neg body, Reads T base thSep str plus neg body v ∧ (neg = true → base = 10 ∧ plus = false)

/-- The buffer has room for the minus and the digits, or there are no separators to take out. -/
def Fits (base : ℕ) (thSep : UInt8) (neg : Bool) (body : List UInt8) : Prop :=
  (∀ ch ∈ body, isDigitOf base ch = true) ∨
    ((if neg then ['-'.toUInt8] else []) ++ strip base thSep body).length ≤ POCO_MAX_INT_STRING_LEN - 1

/-- A minus behind a plus, in a numeral that is read otherwise. -/
def DoubleSign (T : IntegerType) (base : ℕ) (thSep : UInt8) (str : List UInt8) : Prop :=
  ∃ body v, Reads T base thSep str true true body v ∧ Fits base thSep true body

/-- A numeral with separators and with more digits than the buffer has room for. -/
def TooLong (T : IntegerType) (base : ℕ) (thSep : UInt8) (str : List UInt8) : Prop :=
  ∃ plus neg body v, Reads T base thSep str plus neg body v ∧ (neg = true → base = 10 ∧ plus = false) ∧
    ¬Fits base thSep neg body

section

variable {T : IntegerType} {base : ℕ} {thSep : UInt8}

/-! ### Parts of a numeral -/

theorem isDigitOf_head {s : List UInt8} {c : UInt8} {t : List UInt8} (hs : ∃ ch ∈ s.head?, isDigitOf base ch = true)
    (h : s = c :: t) : isDigitOf base c = true := by
  subst h
  obtain ⟨ch, hch, hdigit⟩ := hs
  obtain rfl : c = ch := Option.some.inj hch
  exact hdigit

/-- White space in front of a numeral is all white space. -/
theorem dropWhile_numeral {spaces body : List UInt8} (hspaces : ∀ ch ∈ spaces, Hex.isSpace ch = true)
    (hfirst : ∃ ch ∈ body.head?, isDigitOf base ch = true) (plus neg : Bool) :
    (spaces ++ ((if plus then ['+'.toUInt8] else []) ++ ((if neg then ['-'.toUInt8] else []) ++ body))).dropWhile
        Hex.isSpace =
      (if plus then ['+'.toUInt8] else []) ++ ((if neg then ['-'.toUInt8] else []) ++ body) := by
  rw [List.dropWhile_append_of_pos hspaces]
  cases plus with
  | true => rfl
  | false =>
      cases neg with
      | true => rfl
      | false =>
          cases body with
          | nil => rfl
          | cons c t =>
              have hc := isSpace_of_isDigitOf (isDigitOf_head hfirst rfl)
              exact List.dropWhile_cons_of_neg (by rw [hc]; decide)

/-- The signs and the digits are determined by the text. -/
theorem signs_inj {plus neg plus' neg' : Bool} {body body' : List UInt8}
    (hfirst : ∃ ch ∈ body.head?, isDigitOf base ch = true) (hfirst' : ∃ ch ∈ body'.head?, isDigitOf base ch = true)
    (h : (if plus then ['+'.toUInt8] else []) ++ ((if neg then ['-'.toUInt8] else []) ++ body) =
      (if plus' then ['+'.toUInt8] else []) ++ ((if neg' then ['-'.toUInt8] else []) ++ body')) :
    plus = plus' ∧ neg = neg' ∧ body = body' := by
  have hplus : isDigitOf base '+'.toUInt8 ≠ true := by
    intro hdigit
    cases hdigit
  have hminus : isDigitOf base '-'.toUInt8 ≠ true := by
    intro hdigit
    cases hdigit
  -- a sign on one side meets another sign or a digit on the other side
  cases plus <;> cases plus' <;> cases neg <;> cases neg' <;>
    simp only [if_pos, Bool.false_eq_true, if_false, List.nil_append, List.singleton_append, List.cons.injEq,
      true_and] at h
  all_goals first
    | exact ⟨rfl, rfl, h⟩
    | exact absurd (isDigitOf_head hfirst h) hplus
    | exact absurd (isDigitOf_head hfirst' h.symm) hplus
    | exact absurd (isDigitOf_head hfirst h) hminus
    | exact absurd (isDigitOf_head hfirst' h.symm) hminus
    | exact absurd h.1 (by decide)

theorem Reads.unique {str body body' : List UInt8} {plus neg plus' neg' : Bool} {v v' : ℤ}
    (h : Reads T base thSep str plus neg body v) (h' : Reads T base thSep str plus' neg' body' v') :
    plus = plus' ∧ neg = neg' ∧ body = body' := by
  obtain ⟨spaces, hspaces, hstr⟩ := h.spaces
  obtain ⟨spaces', hspaces', hstr'⟩ := h'.spaces
  apply signs_inj h.first h'.first
  rw [← dropWhile_numeral hspaces h.first, ← hstr, hstr', dropWhile_numeral hspaces' h'.first]

/-! ### The two attempts -/

theorem from_chars_sound {s rest : List UInt8} {v : ℤ} (h : from_chars T base s = .ok (v, rest)) :
    ∃ (neg : Bool) (ds : List UInt8), s = (if neg then ['-'.toUInt8] else []) ++ (ds ++ rest) ∧
      (∃ ch ∈ ds.head?, isDigitOf base ch = true) ∧ (∀ ch ∈ ds, isDigitOf base ch = true) ∧
      (neg = true → T.signed = true) ∧ (v = if neg then -(number base ds : ℤ) else number base ds) ∧
      (T.min ≤ v ∧ v ≤ T.max) := by
  have hdigits : ∀ t : List UInt8, ∀ ch ∈ t.takeWhile (isDigitOf base), isDigitOf base ch = true :=
    fun t ch hch => List.mem_takeWhile_imp hch
  have hfirst : ∀ t : List UInt8, t.takeWhile (isDigitOf base) ≠ [] →
      ∃ ch ∈ (t.takeWhile (isDigitOf base)).head?, isDigitOf base ch = true := by
    intro t hne
    exact ⟨_, List.head?_eq_some_head hne, hdigits t _ (List.head_mem hne)⟩
  have hsplit : ∀ t : List UInt8,
      t = t.takeWhile (isDigitOf base) ++ t.drop (t.takeWhile (isDigitOf base)).length :=
    fun t => (List.prefix_iff_eq_append.mp (List.takeWhile_prefix _)).symm
  unfold from_chars at h
  by_cases hminus : T.signed = true ∧ s.head? = some '-'.toUInt8
  · simp only [if_pos hminus] at h
    obtain ⟨t, rfl⟩ : ∃ t, s = '-'.toUInt8 :: t := by
      cases s with
      | nil => cases hminus.2
      | cons c t => exact ⟨t, by rw [Option.some.inj hminus.2]⟩
    rw [List.tail_cons] at h
    split_ifs at h with hne hrange
    cases h
    exact ⟨true, _, congrArg _ (hsplit t), hfirst t hne, hdigits t, fun _ => hminus.1, rfl, hrange⟩
  · simp only [if_neg hminus] at h
    split_ifs at h with hne hrange
    cases h
    exact ⟨false, _, hsplit s, hfirst s hne, hdigits s, (fun h => by cases h), rfl, hrange⟩

theorem strip_of_digits (hsep : base = 10 → isDigitOf 10 thSep = false) {ds : List UInt8}
    (hds : ∀ ch ∈ ds, isDigitOf base ch = true) : strip base thSep ds = ds := by
  have hnil : strip base thSep [] = [] := by
    unfold strip
    split_ifs <;> rfl
  have h := strip_digits hsep hds []
  rwa [hnil, List.append_nil] at h

/-- What the second attempt has read: the minus and the digits of the whole text. -/
theorem cleaned_sound (hten : base = 10 ∧ thSep ≠ 0) (hsep : isDigitOf 10 thSep = false)
    (hminus : thSep ≠ '-'.toUInt8) {neg : Bool} {ds rest : List UInt8} (hhead : ∃ ch ∈ ds.head?, isDigitOf base ch = true)
    (hds : ∀ ch ∈ ds, isDigitOf base ch = true) (hsigned : neg = true → T.signed = true) {v : ℤ}
    (h : from_chars T base (((if neg then ['-'.toUInt8] else []) ++ (ds ++ rest)).filter (· ≠ thSep)) =
      .ok (v, [])) :
    SignedDigits T base thSep neg (ds ++ rest) v := by
  obtain ⟨neg', ds', hcleaned, hhead', hds', -, hvalue', hrange'⟩ := from_chars_sound h
  have hfirst : ∀ t : List UInt8, ∃ ch ∈ (ds ++ t).head?, isDigitOf base ch = true := by
    obtain ⟨d, hd, hdigit⟩ := hhead
    exact fun t => ⟨d, List.mem_head?_append_of_mem_head? hd, hdigit⟩
  have hstrip : ∃ ch ∈ (strip base thSep (ds ++ rest)).head?, isDigitOf base ch = true := by
    rw [strip_digits (fun _ => hsep) hds]
    exact hfirst _
  rw [filter_sign hten hminus, List.append_nil] at hcleaned
  obtain ⟨-, rfl, rfl⟩ := @signs_inj base false neg false neg' _ _ hstrip hhead' hcleaned
  exact ⟨hfirst rest, hds', hsigned, hvalue', hrange'⟩

/-- What is read behind a plus: a numeral for which the buffer has room. -/
theorem readStart_iff (hsep : isDigitOf 10 thSep = false) (hminus : thSep ≠ '-'.toUInt8) (start : List UInt8)
    (v : ℤ) :
    readStart T start base thSep = some v ↔
      ∃ neg body, start = (if neg then ['-'.toUInt8] else []) ++ body ∧
        SignedDigits T base thSep neg body v ∧ Fits base thSep neg body := by
  constructor
  · intro h
    unfold readStart at h
    by_cases hnil : start = []
    · rw [if_pos hnil] at h
      cases h
    rw [if_neg hnil] at h
    split at h
    · cases h
    · -- the first attempt reads everything: there are no separators
      next value hfirst =>
        cases h
        obtain ⟨neg, ds, hstart, hhead, hds, hsigned, hvalue, hrange⟩ := from_chars_sound hfirst
        rw [List.append_nil] at hstart
        have hstrip : strip base thSep ds = ds := strip_of_digits (fun _ => hsep) hds
        refine ⟨neg, ds, hstart, ⟨hhead, ?_, hsigned, ?_, hrange⟩, Or.inl hds⟩
        · rwa [hstrip]
        · rwa [hstrip]
    · next value c rest hfirst =>
        obtain ⟨neg, ds, rfl, hhead, hds, hsigned, -, -⟩ := from_chars_sound hfirst
        by_cases hno : thSep = 0 ∨ base ≠ 10
        · rw [if_pos hno] at h
          cases h
        have hten : base = 10 ∧ thSep ≠ 0 := by
          rw [not_or, not_not] at hno
          exact hno.symm
        rw [if_neg hno] at h
        dsimp only at h
        by_cases hlong : (((if neg then ['-'.toUInt8] else []) ++ (ds ++ c :: rest)).filter (· ≠ thSep)).length >
            POCO_MAX_INT_STRING_LEN - 1
        · rw [if_pos hlong] at h
          cases h
        rw [if_neg hlong] at h
        by_cases hempty : ((if neg then ['-'.toUInt8] else []) ++ (ds ++ c :: rest)).filter (· ≠ thSep) = []
        · rw [if_pos hempty] at h
          cases h
        rw [if_neg hempty] at h
        split at h
        · next value' hsecond =>
            cases h
            refine ⟨neg, ds ++ c :: rest, rfl, cleaned_sound hten hsep hminus hhead hds hsigned hsecond, Or.inr ?_⟩
            rw [← filter_sign hten hminus]
            exact not_lt.mp hlong
        · cases h
  · rintro ⟨neg, body, rfl, ⟨hfirst, hdigits, hsigned, rfl, hrange⟩, hfits⟩
    exact readStart_eq hrange hsigned (fun _ => ⟨hsep, hminus⟩) hfits hfirst hdigits rfl

/-! ### The whole text -/

theorem strToIntRange_plus (T : IntegerType) (t : List UInt8) (base : ℕ) (thSep : UInt8) :
    strToIntRange T ('+'.toUInt8 :: t) base thSep = readStart T t base thSep := by
  rw [strToIntRange_readStart, if_neg (List.cons_ne_nil _ _), if_neg, if_pos List.head?_cons, List.tail_cons]
  rintro ⟨h, -⟩
  cases h

theorem strToIntRange_minus (hsigned : T.signed = true) (t : List UInt8) (thSep : UInt8) :
    strToIntRange T ('-'.toUInt8 :: t) 10 thSep = readStart T ('-'.toUInt8 :: t) 10 thSep := by
  rw [strToIntRange_readStart, if_neg (List.cons_ne_nil _ _), if_neg, if_neg]
  · intro h
    cases h
  · rintro ⟨-, h⟩
    rw [hsigned] at h
    exact h.elim (fun h => h rfl) (fun h => by cases h)

theorem strToIntRange_digit {c : UInt8} (hc : isDigitOf base c = true) (t : List UInt8) (thSep : UInt8) :
    strToIntRange T (c :: t) base thSep = readStart T (c :: t) base thSep := by
  rw [strToIntRange_readStart, if_neg (List.cons_ne_nil _ _), if_neg, if_neg]
  · intro h
    rw [Option.some.inj h] at hc
    cases hc
  · rintro ⟨h, -⟩
    rw [Option.some.inj h] at hc
    cases hc

/-- Exactly these texts are read: the minus also behind a plus, digits and separators as far as there is room. -/
theorem strToInt_iff (hsep : isDigitOf 10 thSep = false) (hminus : thSep ≠ '-'.toUInt8) (str : List UInt8) (v : ℤ) :
    strToInt T str base thSep = some v ↔
      ∃ plus neg body, Reads T base thSep str plus neg body v ∧ (neg = true → base = 10 ∨ plus = true) ∧
        Fits base thSep neg body := by
  unfold strToInt
  rw [strToIntRange_readStart]
  constructor
  · intro h
    have hspaces : ∀ ch ∈ str.takeWhile Hex.isSpace, Hex.isSpace ch = true := fun ch hch => List.mem_takeWhile_imp hch
    have hsplit : str = str.takeWhile Hex.isSpace ++ str.dropWhile Hex.isSpace :=
      List.takeWhile_append_dropWhile.symm
    generalize str.takeWhile Hex.isSpace = spaces at hspaces hsplit
    generalize str.dropWhile Hex.isSpace = s at hsplit h
    by_cases hnil : s = []
    · rw [if_pos hnil] at h
      cases h
    rw [if_neg hnil] at h
    by_cases hfirst : s.head? = some '-'.toUInt8 ∧ (base ≠ 10 ∨ T.signed = false)
    · rw [if_pos hfirst] at h
      cases h
    rw [if_neg hfirst, readStart_iff hsep hminus] at h
    obtain ⟨neg, body, hstart, hdigits, hfits⟩ := h
    by_cases hplus : s.head? = some '+'.toUInt8
    · obtain ⟨t, rfl⟩ : ∃ t, s = '+'.toUInt8 :: t := by
        cases s with
        | nil => exact absurd rfl hnil
        | cons c t => exact ⟨t, by rw [Option.some.inj hplus]⟩
      rw [if_pos hplus, List.tail_cons] at hstart
      subst hstart
      exact ⟨true, neg, body, ⟨hdigits, spaces, hspaces, hsplit⟩, fun _ => Or.inr rfl, hfits⟩
    · rw [if_neg hplus] at hstart
      subst hstart
      refine ⟨false, neg, body, ⟨hdigits, spaces, hspaces, hsplit⟩, ?_, hfits⟩
      rintro rfl
      by_contra hbase
      rw [not_or] at hbase
      exact hfirst ⟨rfl, Or.inl hbase.1⟩
  · rintro ⟨plus, neg, body, ⟨hdigits, spaces, hspaces, rfl⟩, hsign, hfits⟩
    have hread : readStart T ((if neg then ['-'.toUInt8] else []) ++ body) base thSep = some v :=
      (readStart_iff hsep hminus _ v).mpr ⟨neg, body, rfl, hdigits, hfits⟩
    rw [dropWhile_numeral hspaces hdigits.first, ← hread]
    cases plus with
    | true => exact strToIntRange_plus T _ base thSep
    | false =>
        cases neg with
        | true =>
            obtain rfl : base = 10 := (hsign rfl).resolve_right Bool.false_ne_true
            exact strToIntRange_minus (hdigits.signed rfl) body thSep
        | false =>
            obtain ⟨c, t, rfl⟩ : ∃ c t, body = c :: t := by
              obtain ⟨ch, hch, -⟩ := hdigits.first
              cases body with
              | nil => cases hch
              | cons c t => exact ⟨c, t, rfl⟩
            exact strToIntRange_digit (isDigitOf_head hdigits.first rfl) t thSep

end

/-- **Main result.**  For every integer type, base and separator, `strToInt` reads a text as the grammar says,
unless the text has a minus behind a plus or is too long with its separators. -/
theorem accepts_grammar_iff (T : IntegerType) (base : ℕ) {thSep : UInt8} (hsep : isDigitOf 10 thSep = false)
    (hminus : thSep ≠ '-'.toUInt8) (str : List UInt8) :
    (∀ v, strToInt T str base thSep = some v ↔ Denotes T base thSep str v) ↔
      ¬DoubleSign T base thSep str ∧ ¬TooLong T base thSep str := by
  constructor
  · intro h
    constructor
    · rintro ⟨body, v, hreads, hfits⟩
      have hsome := (strToInt_iff hsep hminus str v).mpr ⟨true, true, body, hreads, fun _ => Or.inr rfl, hfits⟩
      obtain ⟨plus, neg, body', hreads', hsign⟩ := (h v).mp hsome
      obtain ⟨rfl, rfl, -⟩ := hreads.unique hreads'
      exact Bool.false_ne_true (hsign rfl).2.symm
    · rintro ⟨plus, neg, body, v, hreads, hsign, hlong⟩
      have hsome := (h v).mpr ⟨plus, neg, body, hreads, hsign⟩
      obtain ⟨plus', neg', body', hreads', -, hfits⟩ := (strToInt_iff hsep hminus str v).mp hsome
      obtain ⟨-, rfl, rfl⟩ := hreads.unique hreads'
      exact hlong hfits
  · rintro ⟨hdouble, hlong⟩ v
    rw [strToInt_iff hsep hminus]
    constructor
    · rintro ⟨plus, neg, body, hreads, hsign, hfits⟩
      refine ⟨plus, neg, body, hreads, fun hneg => ?_⟩
      cases plus with
      | true =>
          subst hneg
          exact absurd ⟨body, v, hreads, hfits⟩ hdouble
      | false => exact ⟨(hsign hneg).resolve_right Bool.false_ne_true, rfl⟩
    · rintro ⟨plus, neg, body, hreads, hsign⟩
      refine ⟨plus, neg, body, hreads, fun hneg => Or.inl (hsign hneg).1, ?_⟩
      by_contra hfits
      exact hlong ⟨plus, neg, body, v, hreads, hsign, hfits⟩

/-- `"1,000"` with its separator. -/
theorem accepts_grammar_thousand :
    (isDigitOf 10 ','.toUInt8 = false ∧ ','.toUInt8 ≠ '-'.toUInt8) ∧
      ((∀ v, strToInt ⟨32, true, by decide⟩ ("1,000".toList.map Char.toUInt8) 10 ','.toUInt8 = some v ↔
          Denotes ⟨32, true, by decide⟩ 10 ','.toUInt8 ("1,000".toList.map Char.toUInt8) v) ↔
        ¬DoubleSign ⟨32, true, by decide⟩ 10 ','.toUInt8 ("1,000".toList.map Char.toUInt8) ∧
          ¬TooLong ⟨32, true, by decide⟩ 10 ','.toUInt8 ("1,000".toList.map Char.toUInt8)) ∧
      strToInt ⟨32, true, by decide⟩ ("1,000".toList.map Char.toUInt8) 10 ','.toUInt8 = some 1000 :=
  ⟨⟨by decide, by decide⟩, accepts_grammar_iff _ 10 (by decide) (by decide) _, by decide⟩

/-- `"+-5"` is read as −5 in base 16 also. -/
theorem not_accepts_double_sign :
    ¬∀ v, strToInt ⟨32, true, by decide⟩ ("+-5".toList.map Char.toUInt8) 16 ','.toUInt8 = some v ↔
      Denotes ⟨32, true, by decide⟩ 16 ','.toUInt8 ("+-5".toList.map Char.toUInt8) v := by
  intro h
  obtain ⟨plus, neg, body, hreads, hsign⟩ := (h (-5)).mp (by decide)
  obtain ⟨spaces, hspaces, hstr⟩ := hreads.spaces
  have hdrop := dropWhile_numeral hspaces hreads.first plus neg
  rw [← hstr] at hdrop
  have hfive : ∃ ch ∈ ['5'.toUInt8].head?, isDigitOf 16 ch = true := ⟨_, rfl, by decide⟩
  obtain ⟨rfl, rfl, -⟩ := @signs_inj 16 true true plus neg ['5'.toUInt8] body hfive hreads.first hdrop
  exact Bool.false_ne_true (hsign rfl).2.symm

end NumericString

end Poco.Foundation
