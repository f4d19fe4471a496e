import Mathlib.Data.List.Infix
import Mathlib.Logic.Relation
import Poco.Foundation.VarHolder

/-! # `format`

`format` writes values into a text by the directives of a format string.  The loop looks once for each
directive whether there is a value left, but a directive takes up to three: its width and its precision may
each be a `*`.  A directive that finds no value at all loses its percent sign.

`format` reads only values that are there, and writes nothing undocumented for a directive without a value,
exactly when each directive finds all the values it asks for (`safe_iff`).  `Fed` says that by a scan of the
format string and the values; `supplied_iff` connects it with the states that the loop reaches.  The values,
and how a stream writes them, are a parameter; the arithmetic of `int` wraps around. -/

namespace Poco.Foundation

open Poco.Dynamic

namespace Format

/-! ### Values and streams -/

/-- The types a directive can ask for. -/
inductive CppType where
  | bool | char | short | unsignedShort | int | unsigned | long | unsignedLong | longLong | unsignedLongLong
  | float | double | longDouble | string | stringView | other
deriving DecidableEq

/-- What is taken from the list of values: a value of one type, or an integer of any type. -/
inductive Wanted where
  | type (t : CppType)
  | anyInt
deriving DecidableEq

/-- The base of integers. -/
inductive Base where
  | dec | oct | hex
deriving DecidableEq

/-- The notation of floating-point numbers. -/
inductive Notation where
  | default | scientific | fixed
deriving DecidableEq

/-- A string stream with its format. -/
structure Stream where
  content : List Char := []
  left : Bool := false
  internal : Bool := false
  showpos : Bool := false
  showpoint : Bool := false
  showbase : Bool := false
  fill : Char := ' '
  width : ℤ := 0
  precision : ℤ := 6
  base : Base := .dec
  floats : Notation := .default
  uppercase : Bool := false

/-- `str << s` for a string or a character. -/
def Stream.put (str : Stream) (s : List Char) : Stream :=
  let padding := List.replicate (str.width.toNat - s.length) str.fill
  let padded := if str.left && !str.internal then s ++ padding else padding ++ s
  { str with content := str.content ++ padded, width := 0 }

/-- What `Any` and the stream do with a value, and the types behind the names of the library. -/
structure Library (Any : Type) where
  type : Any → CppType
  int : Any → ℤ
  write : Stream → Wanted → Any → Stream
  int64 : CppType
  uint64 : CppType
  sizeT : CppType

variable {Any : Type} (lib : Library Any) (values : List Any)

/-- Where `formatOne` is: its stream, `itFmt` (as the rest of the format) and `itVal` (as a position). -/
structure Cursor where
  str : Stream
  itFmt : List Char
  itVal : ℕ

/-- What ends a directive early. -/
inductive Fault where
  | outside (i : ℕ)
  | badCast (c : Cursor)

/-- The cast of a value succeeds. -/
def Matches (w : Wanted) (v : Any) : Prop :=
  match w with
  | .type t => lib.type v = t
  | .anyInt => True

instance (w : Wanted) (v : Any) : Decidable (Matches lib w v) :=
  match w with
  | .type t => inferInstanceAs (Decidable (lib.type v = t))
  | .anyInt => isTrue trivial

/-- `AnyCast<T>(*itVal++)`. -/
def fetch (w : Wanted) (c : Cursor) : Except Fault (Any × Cursor) :=
  match values[c.itVal]? with
  | none => .error (.outside c.itVal)
  | some v =>
      let c := { c with itVal := c.itVal + 1 }
      if Matches lib w v then .ok (v, c) else .error (.badCast c)

/-! ### The parts of a directive -/

/-- The characters that `parseFlags` takes. -/
def setFlag (str : Stream) : Char → Option Stream
  | '-' => some { str with left := true }
  | '+' => some { str with showpos := true }
  | '0' => some { str with fill := '0', internal := true }
  | '#' => some { str with showpoint := true, showbase := true }
  | _ => none

/-- `parseFlags`. -/
def parseFlags (str : Stream) : List Char → Stream × List Char
  | [] => (str, [])
  | c :: fmt =>
      match setFlag str c with
      | some str => parseFlags str fmt
      | none => (str, c :: fmt)

/-- The loops over decimal digits. -/
def parseDigits (n : ℤ) : List Char → ℤ × List Char
  | [] => (n, [])
  | c :: fmt =>
      if c.isDigit then parseDigits (IntType.Int32.cast (10 * n + c.toNat - '0'.toNat)) fmt else (n, c :: fmt)

/-- The end of `parseWidth`. -/
def setWidth (width : ℤ) (c : Cursor) : Cursor :=
  if 0 < width then { c with str := { c.str with width := width } } else c

/-- `parseWidth`. -/
def parseWidth (c : Cursor) : Except Fault Cursor :=
  match c.itFmt with
  | '*' :: fmt => do
      let r ← fetch lib values (.type .int) { c with itFmt := fmt }
      return setWidth (lib.int r.1) r.2
  | fmt =>
      let r := parseDigits 0 fmt
      .ok (setWidth r.1 { c with itFmt := r.2 })

/-- The end of `parsePrec`. -/
def setPrecision (prec : ℤ) (c : Cursor) : Cursor :=
  if 0 ≤ prec then { c with str := { c.str with precision := prec } } else c

/-- `parsePrec`. -/
def parsePrec (c : Cursor) : Except Fault Cursor :=
  match c.itFmt with
  | '.' :: '*' :: fmt => do
      let r ← fetch lib values (.type .int) { c with itFmt := fmt }
      return setPrecision (lib.int r.1) r.2
  | '.' :: fmt =>
      let r := parseDigits 0 fmt
      .ok (setPrecision r.1 { c with itFmt := r.2 })
  | _ => .ok c

/-- `parseMod`: the modifier, `'\0'` if there is none. -/
def parseMod : List Char → Char × List Char
  | [] => ('\x00', [])
  | c :: fmt => if c ∈ ['l', 'h', 'L', '?'] then (c, fmt) else ('\x00', c :: fmt)

/-- `parseIndex`, with the conversion to `std::size_t`. -/
def parseIndex (fmt : List Char) : ℕ × List Char :=
  let r := parseDigits 0 fmt
  ((r.1 % 2 ^ 64).toNat, if r.2.head? = some ']' then r.2.tail else r.2)

/-- `prepareFormat`. -/
def prepareFormat (str : Stream) (type : Char) : Stream :=
  match type with
  | 'd' | 'i' => { str with base := .dec }
  | 'o' => { str with base := .oct }
  | 'x' => { str with base := .hex }
  | 'X' => { str with base := .hex, uppercase := true }
  | 'e' => { str with floats := .scientific }
  | 'E' => { str with floats := .scientific, uppercase := true }
  | 'f' => { str with floats := .fixed }
  | 'g' => { str with floats := .default }
  | 'G' => { str with floats := .default, uppercase := true }
  | _ => str

/-- What the cases of `formatOne` take; nothing for a type without a value. -/
def wanted (mod type : Char) : Option Wanted :=
  match type with
  | 'b' => some (.type .bool)
  | 'c' => some (.type .char)
  | 'd' | 'i' =>
      match mod with
      | 'l' => some (.type .long)
      | 'L' => some (.type lib.int64)
      | 'h' => some (.type .short)
      | '?' => some .anyInt
      | _ => some (.type .int)
  | 'o' | 'u' | 'x' | 'X' =>
      match mod with
      | 'l' => some (.type .unsignedLong)
      | 'L' => some (.type lib.uint64)
      | 'h' => some (.type .unsignedShort)
      | '?' => some .anyInt
      | _ => some (.type .unsigned)
  | 'e' | 'E' | 'f' | 'g' | 'G' =>
      match mod with
      | 'l' => some (.type .longDouble)
      | 'L' => some (.type .longDouble)
      | 'h' => some (.type .float)
      | _ => some (.type .double)
  | 's' => some (.type .string)
  | 'v' => some (.type .stringView)
  | 'z' => some (.type lib.sizeT)
  | _ => none

/-- The value of a directive, or the type itself. -/
def writeValue (mod : Char) (c : Cursor) : Except Fault Cursor :=
  match c.itFmt with
  | [] => .ok c
  | type :: fmt =>
      let c := { c with str := prepareFormat c.str type, itFmt := fmt }
      match wanted lib mod type with
      | some w => do
          let r ← fetch lib values w c
          return { r.2 with str := lib.write r.2.str w r.1 }
      | none => .ok { c with str := c.str.put [type] }

/-- The `try` block of `formatOne`. -/
def formatBody (c : Cursor) : Except Fault Cursor := do
  let flags := parseFlags c.str c.itFmt
  let c ← parseWidth lib values { c with str := flags.1, itFmt := flags.2 }
  let c ← parsePrec lib values c
  let mod := parseMod c.itFmt
  writeValue lib values mod.1 { c with itFmt := mod.2 }

/-- `formatOne`: the result and the iterators, or the position of a value that is not there. -/
def formatOne (result : List Char) (itFmt : List Char) (itVal : ℕ) : Except ℕ (List Char × List Char × ℕ) :=
  match formatBody lib values ⟨{}, itFmt, itVal⟩ with
  | .ok c => .ok (result ++ c.str.content, c.itFmt, c.itVal)
  | .error (.badCast c) => .ok (result ++ (c.str.put "[ERRFMT]".toList).content, c.itFmt, c.itVal)
  | .error (.outside i) => .error i

/-! ### The loop -/

/-- The loop of `format` before a round. -/
structure State where
  itFmt : List Char
  itVal : ℕ
  result : List Char

/-- What comes of a round. -/
inductive Next where
  | loop (s : State)
  | done (result : List Char)
  | invalidArgument (message : String)
  | outside (i : ℕ)

/-- A round of the loop of `format`. -/
def step (s : State) : Next :=
  match s.itFmt with
  | [] => .done s.result
  | '%' :: [] => .loop { s with itFmt := [] }
  | '%' :: c :: fmt =>
      if s.itVal ≠ values.length ∨ c = '[' then
        if c = '[' then
          let index := parseIndex fmt
          if index.1 < values.length then
            match formatOne lib values s.result index.2 index.1 with
            | .ok r => .loop ⟨r.2.1, s.itVal, r.1⟩
            | .error i => .outside i
          else .invalidArgument "format argument index out of range"
        else
          match formatOne lib values s.result (c :: fmt) s.itVal with
          | .ok r => .loop ⟨r.2.1, r.2.2, r.1⟩
          | .error i => .outside i
      else .loop ⟨fmt, s.itVal, s.result ++ [c]⟩
  | c :: fmt => .loop ⟨fmt, s.itVal, s.result ++ [c]⟩

/-- The loop of `format`; nothing if the fuel runs out. -/
def run : ℕ → State → Option Next
  | 0, _ => none
  | fuel + 1, s =>
      match step lib values s with
      | .loop s' => run fuel s'
      | next => some next

/-- `format(result, fmt, values)`. -/
def format (result fmt : List Char) : Option Next := run lib values (fmt.length + 1) ⟨fmt, 0, result⟩

/-! ### What a directive asks for -/

/-- What the width of a directive asks for, each value with the format behind it, and the format behind the
width. -/
def scanWidth : List Char → List (Wanted × List Char) × List Char
  | '*' :: fmt => ([(.type .int, fmt)], fmt)
  | fmt => ([], (parseDigits 0 fmt).2)

/-- The same for the precision. -/
def scanPrec : List Char → List (Wanted × List Char) × List Char
  | '.' :: '*' :: fmt => ([(.type .int, fmt)], fmt)
  | '.' :: fmt => ([], (parseDigits 0 fmt).2)
  | fmt => ([], fmt)

/-- The same for the type. -/
def scanType (mod : Char) : List Char → List (Wanted × List Char) × List Char
  | [] => ([], [])
  | type :: fmt => ((wanted lib mod type).toList.map fun w => (w, fmt), fmt)

/-- What a directive asks for, in this order, each value with the format behind it, and the format behind the
directive. -/
def scan (fmt : List Char) : List (Wanted × List Char) × List Char :=
  let width := scanWidth (parseFlags {} fmt).2
  let prec := scanPrec width.2
  let mod := parseMod prec.2
  let type := scanType lib mod.1 mod.2
  (width.1 ++ (prec.1 ++ type.1), type.2)

/-- What is left of the format and of the values behind a directive that asks for `wants` and ends before
`fmt`: it ends early behind a value of another type.  Nothing if there are not values enough. -/
def take (fmt : List Char) : List (Wanted × List Char) → List Any → Option (List Char × List Any)
  | [], vs => some (fmt, vs)
  | _ :: _, [] => none
  | (w, rest) :: ws, v :: vs => if Matches lib w v then take fmt ws vs else some (rest, vs)

/-- What is left behind the directive at the beginning of `fmt`. -/
def takeDirective (fmt : List Char) (vs : List Any) : Option (List Char × List Any) :=
  take lib (scan lib fmt).2 (scan lib fmt).1 vs

/-- Each directive of a format finds the values it asks for, with `vs` as the values that are left of all
`values`.  Without any value left a directive must ask for nothing, and its text is what comes next. -/
inductive Fed : List Char → List Any → Prop
  | nil (vs : List Any) : Fed [] vs
  | percent (vs : List Any) : Fed ['%'] vs
  | char {c : Char} {fmt : List Char} {vs : List Any} (hc : c ≠ '%') (h : Fed fmt vs) : Fed (c :: fmt) vs
  | invalid {fmt : List Char} (vs : List Any) (hindex : ¬(parseIndex fmt).1 < values.length) :
      Fed ('%' :: '[' :: fmt) vs
  | indexed {fmt rest : List Char} {vs us : List Any} (hindex : (parseIndex fmt).1 < values.length)
      (htake : takeDirective lib (parseIndex fmt).2 (values.drop (parseIndex fmt).1) = some (rest, us))
      (h : Fed rest vs) : Fed ('%' :: '[' :: fmt) vs
  | next {c : Char} {fmt rest : List Char} {vs us : List Any} (hc : c ≠ '[') (hvs : vs ≠ [])
      (htake : takeDirective lib (c :: fmt) vs = some (rest, us)) (h : Fed rest us) : Fed ('%' :: c :: fmt) vs
  | bare {c : Char} {fmt : List Char} (hc : c ≠ '[') (hasks : (scan lib (c :: fmt)).1 = []) (h : Fed fmt []) :
      Fed ('%' :: c :: fmt) []

/-! ### Runs -/

/-- A round leads from a state to the next one. -/
def Leads (s t : State) : Prop := step lib values s = .loop t

/-- Rounds lead from a state to another one. -/
def Reaches : State → State → Prop := Relation.ReflTransGen (Leads lib values)

/-- A directive that asks for a value begins here with no value left; `d` is its text behind the `%`. -/
structure Surplus (s : State) (d rest : List Char) : Prop where
  text : s.itFmt = '%' :: (d ++ rest)
  behind : (scan lib (d ++ rest)).2 = rest
  asks : (scan lib (d ++ rest)).1 ≠ []
  none_left : s.itVal = values.length

/-- The texts documented for a directive without a value, or with one of another type. -/
def Documented (d text : List Char) : Prop := text = '%' :: d ∨ text = "[ERRFMT]".toList

/-- `format` ends, reads only values that are there and writes only documented texts for directives
without a value. -/
structure Safe (result fmt : List Char) : Prop where
  ends : (format lib values result fmt).isSome
  inside : ∀ s i, Reaches lib values ⟨fmt, 0, result⟩ s → step lib values s ≠ .outside i
  surplus : ∀ s d rest, Reaches lib values ⟨fmt, 0, result⟩ s → Surplus lib values s d rest →
    ∃ text, Documented d text ∧ Reaches lib values s ⟨rest, s.itVal, s.result ++ text⟩

/-! ### The parts take what they ask for

`Follows` says for a part of a directive that it stands behind its text afterwards and that what it took is
what it asked for. -/

/-- The part asks for `ws` and ends before `fmt`. -/
def Follows (c : Cursor) (ws : List (Wanted × List Char)) (fmt : List Char) : Except Fault Cursor → Prop
  | .error (.outside _) => ∀ us f, take lib f (ws ++ us) (values.drop c.itVal) = none
  | .error (.badCast c') => c'.itFmt <:+ c.itFmt ∧ (c.itVal ≤ values.length → c'.itVal ≤ values.length) ∧
      ∀ us f, take lib f (ws ++ us) (values.drop c.itVal) = some (c'.itFmt, values.drop c'.itVal)
  | .ok c' => c'.itFmt <:+ c.itFmt ∧ (c.itVal ≤ values.length → c'.itVal ≤ values.length) ∧ c'.itFmt = fmt ∧
      ∀ us f, take lib f (ws ++ us) (values.drop c.itVal) = take lib f us (values.drop c'.itVal)

variable {lib values}

theorem Follows.bind {c : Cursor} {ws us : List (Wanted × List Char)} {fmt fmt' : List Char}
    {x : Except Fault Cursor} {f : Cursor → Except Fault Cursor} (hx : Follows lib values c ws fmt x)
    (hf : ∀ c' : Cursor, c'.itFmt = fmt → Follows lib values c' us fmt' (f c')) :
    Follows lib values c (ws ++ us) fmt' (x >>= f) := by
  match x with
  | .error (.outside i) =>
      intro vs f
      rw [List.append_assoc]
      exact hx (us ++ vs) f
  | .error (.badCast c') =>
      refine ⟨hx.1, hx.2.1, fun vs f => ?_⟩
      rw [List.append_assoc]
      exact hx.2.2 (us ++ vs) f
  | .ok c' =>
      obtain ⟨hsuffix, hval, hfmt, heq⟩ := hx
      have hnext := hf c' hfmt
      show Follows lib values c (ws ++ us) fmt' (f c')
      match hr : f c', hnext with
      | .error (.outside i), hnext =>
          intro vs f
          rw [List.append_assoc, heq]
          exact hnext vs f
      | .error (.badCast c''), hnext =>
          refine ⟨hnext.1.trans hsuffix, fun h => hnext.2.1 (hval h), fun vs f => ?_⟩
          rw [List.append_assoc, heq]
          exact hnext.2.2 vs f
      | .ok c'', hnext =>
          refine ⟨hnext.1.trans hsuffix, fun h => hnext.2.1 (hval h), hnext.2.2.1, fun vs f => ?_⟩
          rw [List.append_assoc, heq]
          exact hnext.2.2.2 vs f

/-- A cast of the next value, and what is done with it. -/
theorem follows_fetch (w : Wanted) (c : Cursor) (g : Any × Cursor → Cursor)
    (hg : ∀ r, (g r).itFmt = r.2.itFmt ∧ (g r).itVal = r.2.itVal) :
    Follows lib values c [(w, c.itFmt)] c.itFmt ((fetch lib values w c).map g) := by
  unfold fetch
  cases hv : values[c.itVal]? with
  | none =>
      intro us f
      rw [List.drop_eq_nil_of_le (List.getElem?_eq_none_iff.mp hv)]
      rfl
  | some v =>
      obtain ⟨hlt, hget⟩ := List.getElem?_eq_some_iff.mp hv
      have hdrop : values.drop c.itVal = v :: values.drop (c.itVal + 1) := by
        rw [List.drop_eq_getElem_cons hlt, hget]
      dsimp only
      by_cases hm : Matches lib w v
      · rw [if_pos hm]
        obtain ⟨hfmt, hval⟩ := hg (v, { c with itVal := c.itVal + 1 })
        refine ⟨⟨[], hfmt⟩, fun _ => hval ▸ hlt, hfmt, fun us f => ?_⟩
        rw [hval, hdrop]
        exact if_pos hm
      · rw [if_neg hm]
        refine ⟨List.suffix_rfl, fun _ => hlt, fun us f => ?_⟩
        rw [hdrop]
        exact if_neg hm

theorem follows_ok {c c' : Cursor} {fmt : List Char} (hsuffix : fmt <:+ c.itFmt) (hfmt : c'.itFmt = fmt)
    (hval : c'.itVal = c.itVal) : Follows lib values c [] fmt (.ok c') :=
  ⟨hfmt ▸ hsuffix, fun h => hval ▸ h, hfmt, fun us f => by rw [hval, List.nil_append]⟩

theorem Follows.of_suffix {c : Cursor} {ws : List (Wanted × List Char)} {fmt fmt' : List Char} {str : Stream}
    {x : Except Fault Cursor} (h : Follows lib values { c with str := str, itFmt := fmt' } ws fmt x)
    (hsuffix : fmt' <:+ c.itFmt) : Follows lib values c ws fmt x := by
  match x, h with
  | .error (.outside i), h => exact h
  | .error (.badCast c'), h => exact ⟨h.1.trans hsuffix, h.2⟩
  | .ok c', h => exact ⟨h.1.trans hsuffix, h.2⟩

theorem parseDigits_suffix (n : ℤ) (fmt : List Char) : (parseDigits n fmt).2 <:+ fmt := by
  induction fmt generalizing n with
  | nil => exact List.suffix_rfl
  | cons c fmt ih =>
      unfold parseDigits
      split
      · exact (ih _).trans (List.suffix_cons c fmt)
      · exact List.suffix_rfl

theorem setFlag_isSome (str str' : Stream) (c : Char) : (setFlag str c).isSome = (setFlag str' c).isSome := by
  unfold setFlag
  split <;> rfl

theorem parseFlags_snd (str str' : Stream) (fmt : List Char) :
    (parseFlags str fmt).2 = (parseFlags str' fmt).2 := by
  induction fmt generalizing str str' with
  | nil => rfl
  | cons c fmt ih =>
      have hsome := setFlag_isSome str str' c
      unfold parseFlags
      cases h : setFlag str c with
      | none =>
          rw [h] at hsome
          rw [Option.isNone_iff_eq_none.mp (Option.isSome_eq_false_iff.mp hsome.symm)]
      | some s =>
          rw [h] at hsome
          obtain ⟨s', hs'⟩ := Option.isSome_iff_exists.mp hsome.symm
          rw [hs']
          exact ih s s'

theorem parseFlags_suffix (str : Stream) (fmt : List Char) : (parseFlags str fmt).2 <:+ fmt := by
  induction fmt generalizing str with
  | nil => exact List.suffix_rfl
  | cons c fmt ih =>
      unfold parseFlags
      split
      · exact (ih _).trans (List.suffix_cons c fmt)
      · exact List.suffix_rfl

theorem setWidth_iterators (n : ℤ) (c : Cursor) :
    (setWidth n c).itFmt = c.itFmt ∧ (setWidth n c).itVal = c.itVal := by
  unfold setWidth
  split <;> exact ⟨rfl, rfl⟩

theorem setPrecision_iterators (n : ℤ) (c : Cursor) :
    (setPrecision n c).itFmt = c.itFmt ∧ (setPrecision n c).itVal = c.itVal := by
  unfold setPrecision
  split <;> exact ⟨rfl, rfl⟩

theorem follows_parseWidth (c : Cursor) :
    Follows lib values c (scanWidth c.itFmt).1 (scanWidth c.itFmt).2 (parseWidth lib values c) := by
  unfold parseWidth scanWidth
  split
  next fmt hfmt =>
      have h := @follows_fetch _ lib values (.type .int) { c with itFmt := fmt }
        (fun r => setWidth (lib.int r.1) r.2) fun r => setWidth_iterators _ _
      exact Follows.of_suffix h (hfmt ▸ List.suffix_cons _ _)
  next => exact follows_ok (parseDigits_suffix 0 _) (setWidth_iterators _ _).1 (setWidth_iterators _ _).2

theorem follows_parsePrec (c : Cursor) :
    Follows lib values c (scanPrec c.itFmt).1 (scanPrec c.itFmt).2 (parsePrec lib values c) := by
  unfold parsePrec scanPrec
  split
  next fmt hfmt =>
      have h := @follows_fetch _ lib values (.type .int) { c with itFmt := fmt }
        (fun r => setPrecision (lib.int r.1) r.2) fun r => setPrecision_iterators _ _
      exact Follows.of_suffix h (hfmt ▸ ⟨['.', '*'], rfl⟩)
  next fmt _ hfmt =>
      refine follows_ok ?_ (setPrecision_iterators _ _).1 (setPrecision_iterators _ _).2
      rw [hfmt]
      exact (parseDigits_suffix 0 fmt).trans (List.suffix_cons _ _)
  next => exact follows_ok List.suffix_rfl rfl rfl

theorem parseMod_suffix (fmt : List Char) : (parseMod fmt).2 <:+ fmt := by
  unfold parseMod
  split
  · exact List.suffix_rfl
  · split
    · exact List.suffix_cons _ _
    · exact List.suffix_rfl

theorem follows_writeValue (mod : Char) (c : Cursor) :
    Follows lib values c (scanType lib mod c.itFmt).1 (scanType lib mod c.itFmt).2
      (writeValue lib values mod c) := by
  unfold writeValue scanType
  split
  next hfmt => exact follows_ok (List.nil_suffix) hfmt rfl
  next type fmt hfmt =>
      have hsuffix : fmt <:+ c.itFmt := hfmt ▸ List.suffix_cons type fmt
      dsimp only
      cases hw : wanted lib mod type with
      | none => exact follows_ok hsuffix rfl rfl
      | some w =>
          have h := @follows_fetch _ lib values w { c with str := prepareFormat c.str type, itFmt := fmt }
            (fun r => { r.2 with str := lib.write r.2.str w r.1 }) fun r => ⟨rfl, rfl⟩
          exact Follows.of_suffix h hsuffix

theorem follows_formatBody (c : Cursor) :
    Follows lib values c (scan lib c.itFmt).1 (scan lib c.itFmt).2 (formatBody lib values c) := by
  unfold formatBody scan
  dsimp only
  rw [parseFlags_snd {} c.str]
  have hflags := parseFlags_suffix c.str c.itFmt
  refine Follows.of_suffix (Follows.bind (follows_parseWidth _) fun c₁ h₁ => ?_) hflags
  rw [← h₁]
  refine Follows.bind (follows_parsePrec c₁) fun c₂ h₂ => ?_
  rw [← h₂]
  exact Follows.of_suffix (follows_writeValue _ _) (parseMod_suffix c₂.itFmt)

/-! ### A round -/

theorem formatOne_spec (result fmt : List Char) (itVal : ℕ) :
    match formatOne lib values result fmt itVal with
    | .error _ => takeDirective lib fmt (values.drop itVal) = none
    | .ok r => takeDirective lib fmt (values.drop itVal) = some (r.2.1, values.drop r.2.2) ∧
        (itVal ≤ values.length → r.2.2 ≤ values.length) ∧ r.2.1 <:+ fmt ∧ result <+: r.1 := by
  have h := @follows_formatBody _ lib values ⟨{}, fmt, itVal⟩
  unfold formatOne takeDirective
  match hr : formatBody lib values ⟨{}, fmt, itVal⟩, h with
  | .error (.outside i), h =>
      have h := h [] (scan lib fmt).2
      rwa [List.append_nil] at h
  | .error (.badCast c), h =>
      have hall := h.2.2 [] (scan lib fmt).2
      rw [List.append_nil] at hall
      exact ⟨hall, h.2.1, h.1, List.prefix_append _ _⟩
  | .ok c, h =>
      obtain ⟨hsuffix, hval, hfmt, heq⟩ := h
      have hall := heq [] (scan lib fmt).2
      rw [List.append_nil] at hall
      refine ⟨hall.trans ?_, hval, hsuffix, List.prefix_append _ _⟩
      rw [hfmt]
      rfl

theorem step_directive {s : State} {c : Char} {fmt : List Char} (h : s.itFmt = '%' :: c :: fmt) :
    step lib values s =
      if s.itVal ≠ values.length ∨ c = '[' then
        if c = '[' then
          if (parseIndex fmt).1 < values.length then
            match formatOne lib values s.result (parseIndex fmt).2 (parseIndex fmt).1 with
            | .ok r => .loop ⟨r.2.1, s.itVal, r.1⟩
            | .error i => .outside i
          else .invalidArgument "format argument index out of range"
        else
          match formatOne lib values s.result (c :: fmt) s.itVal with
          | .ok r => .loop ⟨r.2.1, r.2.2, r.1⟩
          | .error i => .outside i
      else .loop ⟨fmt, s.itVal, s.result ++ [c]⟩ := by
  unfold step
  rw [h]
  rfl

/-- If a directive begins here, it finds the values it asks for. -/
def Supplied (lib : Library Any) (values : List Any) (s : State) : Prop :=
  ∀ fmt, s.itFmt = '%' :: fmt →
    match fmt with
    | [] => True
    | c :: rest =>
        if c = '[' then
          let index := parseIndex rest
          index.1 < values.length → takeDirective lib index.2 (values.drop index.1) ≠ none
        else takeDirective lib fmt (values.drop s.itVal) ≠ none

theorem supplied_index {s : State} {fmt : List Char} (h : s.itFmt = '%' :: '[' :: fmt) :
    Supplied lib values s ↔ ((parseIndex fmt).1 < values.length →
      takeDirective lib (parseIndex fmt).2 (values.drop (parseIndex fmt).1) ≠ none) := by
  constructor
  · intro hs
    have hs := hs _ h
    dsimp only at hs
    rwa [if_pos rfl] at hs
  · intro hs f hf
    obtain rfl : '[' :: fmt = f := List.tail_eq_of_cons_eq (h.symm.trans hf)
    dsimp only
    rwa [if_pos rfl]

theorem supplied_next {s : State} {c : Char} {fmt : List Char} (h : s.itFmt = '%' :: c :: fmt) (hc : c ≠ '[') :
    Supplied lib values s ↔ takeDirective lib (c :: fmt) (values.drop s.itVal) ≠ none := by
  constructor
  · intro hs
    have hs := hs _ h
    dsimp only at hs
    rwa [if_neg hc] at hs
  · intro hs f hf
    obtain rfl : c :: fmt = f := List.tail_eq_of_cons_eq (h.symm.trans hf)
    dsimp only
    rwa [if_neg hc]

theorem parseIndex_suffix (fmt : List Char) : (parseIndex fmt).2 <:+ fmt := by
  unfold parseIndex
  dsimp only
  split
  · exact (List.tail_suffix _).trans (parseDigits_suffix 0 fmt)
  · exact parseDigits_suffix 0 fmt

/-- A round goes on in the format and writes behind the result. -/
theorem Leads.progress {s t : State} (h : Leads lib values s t) :
    t.itFmt.length < s.itFmt.length ∧ (s.itVal ≤ values.length → t.itVal ≤ values.length) ∧
      s.result <+: t.result := by
  unfold Leads step at h
  split at h
  next => exact (nomatch h)
  next hfmt =>
      obtain rfl := Next.loop.inj h
      rw [hfmt]
      exact ⟨Nat.zero_lt_one, id, List.prefix_rfl⟩
  next c fmt hfmt =>
      rw [hfmt]
      dsimp only at h
      split_ifs at h with hstart hc hindex
      · have hspec := @formatOne_spec _ lib values s.result (parseIndex fmt).2 (parseIndex fmt).1
        split at h
        next r hr =>
            rw [hr] at hspec
            obtain rfl := Next.loop.inj h
            have hle := (hspec.2.2.1.trans (parseIndex_suffix fmt)).length_le
            exact ⟨Nat.lt_succ_of_lt (Nat.lt_succ_of_le hle), id, hspec.2.2.2⟩
        next => exact (nomatch h)
      · have hspec := @formatOne_spec _ lib values s.result (c :: fmt) s.itVal
        split at h
        next r hr =>
            rw [hr] at hspec
            obtain rfl := Next.loop.inj h
            exact ⟨Nat.lt_succ_of_le hspec.2.2.1.length_le, hspec.2.1, hspec.2.2.2⟩
        next => exact (nomatch h)
      · obtain rfl := Next.loop.inj h
        exact ⟨Nat.lt_succ_of_lt (Nat.lt_succ_self _), id, List.prefix_append _ _⟩
  next c fmt _ _ hfmt =>
      obtain rfl := Next.loop.inj h
      rw [hfmt]
      exact ⟨Nat.lt_succ_self _, id, List.prefix_append _ _⟩

/-- A round reads no value that is not there if its directive is supplied. -/
theorem Supplied.inside {s : State} (hs : Supplied lib values s) (i : ℕ) : step lib values s ≠ .outside i := by
  intro h
  unfold step at h
  split at h
  next => exact (nomatch h)
  next => exact (nomatch h)
  next c fmt hfmt =>
      dsimp only at h
      split_ifs at h with hstart hc hindex
      · subst hc
        have hspec := @formatOne_spec _ lib values s.result (parseIndex fmt).2 (parseIndex fmt).1
        split at h
        next => exact (nomatch h)
        next hr =>
            rw [hr] at hspec
            exact (supplied_index hfmt).mp hs hindex hspec
      · have hspec := @formatOne_spec _ lib values s.result (c :: fmt) s.itVal
        split at h
        next => exact (nomatch h)
        next hr =>
            rw [hr] at hspec
            exact (supplied_next hfmt hc).mp hs hspec
  next => exact (nomatch h)

/-- A directive that is not supplied reads a value that is not there, or it is copied without its percent
sign. -/
theorem step_of_not_supplied {s : State} (hs : ¬Supplied lib values s) :
    (∃ i, step lib values s = .outside i) ∨
      ∃ c fmt, s.itFmt = '%' :: c :: fmt ∧ c ≠ '[' ∧ s.itVal = values.length ∧
        takeDirective lib (c :: fmt) [] = none ∧ step lib values s = .loop ⟨fmt, s.itVal, s.result ++ [c]⟩ := by
  unfold Supplied at hs
  push Not at hs
  obtain ⟨f, hfmt, hf⟩ := hs
  cases f with
  | nil => exact absurd trivial hf
  | cons c fmt =>
      rw [step_directive hfmt]
      dsimp only at hf
      by_cases hc : c = '['
      · subst hc
        rw [if_pos rfl] at hf
        push Not at hf
        have hspec := @formatOne_spec _ lib values s.result (parseIndex fmt).2 (parseIndex fmt).1
        rw [if_pos (Or.inr rfl), if_pos rfl, if_pos hf.1]
        split
        next hr =>
            rw [hr] at hspec
            exact absurd hspec.1 (by rw [hf.2]; exact (nomatch ·))
        next i _ => exact Or.inl ⟨i, rfl⟩
      · rw [if_neg hc, not_not] at hf
        by_cases hval : s.itVal = values.length
        · rw [hval, List.drop_length] at hf
          refine Or.inr ⟨c, fmt, hfmt, hc, hval, hf, ?_⟩
          rw [if_neg (by rintro (h | h); exacts [h hval, hc h])]
        · have hspec := @formatOne_spec _ lib values s.result (c :: fmt) s.itVal
          rw [if_pos (Or.inl hval), if_neg hc]
          split
          next hr =>
              rw [hr] at hspec
              exact absurd hspec.1 (by rw [hf]; exact (nomatch ·))
          next i _ => exact Or.inl ⟨i, rfl⟩

/-! ### Runs of the loop -/

/-- The loop ends: each round takes a character of the format. -/
theorem run_isSome (fuel : ℕ) (s : State) (h : s.itFmt.length < fuel) : (run lib values fuel s).isSome := by
  induction fuel generalizing s with
  | zero => exact absurd h (Nat.not_lt_zero _)
  | succ fuel ih =>
      unfold run
      split
      next t ht =>
          have hlt := (Leads.progress ht).1
          exact ih t (by omega)
      · rfl

theorem Reaches.result_prefix {s t : State} (h : Reaches lib values s t) : s.result <+: t.result := by
  induction h with
  | refl => exact List.prefix_rfl
  | tail _ hstep ih => exact ih.trans (Leads.progress hstep).2.2

theorem scanWidth_suffix (fmt : List Char) : (scanWidth fmt).2 <:+ fmt := by
  unfold scanWidth
  split
  · exact List.suffix_cons _ _
  · exact parseDigits_suffix 0 _

theorem scanPrec_suffix (fmt : List Char) : (scanPrec fmt).2 <:+ fmt := by
  unfold scanPrec
  split
  · exact ⟨['.', '*'], rfl⟩
  · exact (parseDigits_suffix 0 _).trans (List.suffix_cons _ _)
  · exact List.suffix_rfl

theorem scanType_suffix (mod : Char) (fmt : List Char) : (scanType lib mod fmt).2 <:+ fmt := by
  unfold scanType
  split
  · exact List.suffix_rfl
  · exact List.suffix_cons _ _

theorem scan_suffix (fmt : List Char) : (scan lib fmt).2 <:+ fmt :=
  (scanType_suffix _ _).trans ((parseMod_suffix _).trans ((scanPrec_suffix _).trans
    ((scanWidth_suffix _).trans (parseFlags_suffix {} fmt))))

theorem scan_percent (fmt : List Char) : (scan lib ('%' :: fmt)).1 = [] := rfl

theorem scan_bracket (fmt : List Char) : (scan lib ('[' :: fmt)).1 = [] := rfl

theorem takeDirective_nil {fmt : List Char} (hasks : (scan lib fmt).1 ≠ []) : takeDirective lib fmt [] = none := by
  unfold takeDirective
  cases h : (scan lib fmt).1 with
  | nil => exact absurd h hasks
  | cons => rfl

/-- A directive that is copied without its percent sign is not what is documented. -/
theorem not_documented {s : State} {c : Char} {fmt : List Char} (hfmt : s.itFmt = '%' :: c :: fmt)
    (hc : c ≠ '[') (hasks : (scan lib (c :: fmt)).1 ≠ [])
    (hstep : step lib values s = .loop ⟨fmt, s.itVal, s.result ++ [c]⟩) {d rest text : List Char}
    (hd : c :: fmt = d ++ rest) (htext : Documented d text)
    (hreach : Reaches lib values s ⟨rest, s.itVal, s.result ++ text⟩) : False := by
  rcases Relation.ReflTransGen.cases_head hreach with heq | ⟨t, hlead, hreach⟩
  · have hlen := congrArg (fun s => s.itFmt.length) heq
    have hd' := congrArg List.length hd
    dsimp only at hlen
    rw [hfmt, List.length_cons, hd', List.length_append] at hlen
    omega
  · obtain rfl : _ = t := Next.loop.inj (hstep.symm.trans hlead)
    have hpre : s.result ++ [c] <+: s.result ++ text := Reaches.result_prefix hreach
    rw [List.prefix_append_right_inj] at hpre
    rcases htext with rfl | rfl
    · obtain rfl : c = '%' := List.head_eq_of_cons_eq hpre.choose_spec
      exact hasks (scan_percent fmt)
    · exact hc (List.head_eq_of_cons_eq hpre.choose_spec)

/-- `format` reads only values that are there, and writes only documented texts for directives without a
value, exactly when every state it comes to is supplied. -/
theorem safe_iff_supplied (result fmt : List Char) :
    Safe lib values result fmt ↔ ∀ s, Reaches lib values ⟨fmt, 0, result⟩ s → Supplied lib values s := by
  constructor
  · intro h s hs
    by_contra hnot
    rcases step_of_not_supplied hnot with ⟨i, hi⟩ | ⟨c, f, hfmt, hc, hval, hnone, hstep⟩
    · exact h.inside s i hs hi
    · have hasks : (scan lib (c :: f)).1 ≠ [] := by
        intro hnil
        rw [takeDirective, hnil] at hnone
        exact Option.some_ne_none _ hnone
      obtain ⟨d, hd⟩ := @scan_suffix _ lib (c :: f)
      obtain ⟨text, htext, hreach⟩ := h.surplus s d (scan lib (c :: f)).2 hs
        ⟨by rw [hd, hfmt], by rw [hd], by rwa [hd], hval⟩
      exact not_documented hfmt hc hasks hstep hd.symm htext hreach
  · intro h
    refine ⟨run_isSome _ _ (Nat.lt_succ_self _), fun s i hs => (h s hs).inside i, ?_⟩
    intro s d rest hs hsurplus
    obtain ⟨htext, -, hasks, hnone⟩ := hsurplus
    cases hf : d ++ rest with
    | nil =>
        rw [hf] at hasks
        exact absurd rfl hasks
    | cons c f =>
        rw [hf] at htext hasks
        have hc : c ≠ '[' := by
          rintro rfl
          exact hasks (scan_bracket f)
        have htake := (supplied_next htext hc).mp (h s hs)
        rw [hnone, List.drop_length] at htake
        exact absurd (takeDirective_nil hasks) htake

/-! ### The scan of the format

A round stands before a format that is fed exactly if its directive is supplied and the next round stands before
one. -/

theorem step_char {s : State} {c : Char} {fmt : List Char} (h : s.itFmt = c :: fmt) (hc : c ≠ '%') :
    step lib values s = .loop ⟨fmt, s.itVal, s.result ++ [c]⟩ := by
  unfold step
  rw [h]
  split
  next heq => cases heq
  next heq => exact absurd (List.head_eq_of_cons_eq heq) hc
  next heq => exact absurd (List.head_eq_of_cons_eq heq) hc
  next heq =>
      obtain ⟨rfl, rfl⟩ := List.cons.inj heq
      rfl

theorem fed_char {c : Char} {fmt : List Char} {vs : List Any} (hc : c ≠ '%') :
    Fed lib values (c :: fmt) vs ↔ Fed lib values fmt vs := by
  refine ⟨fun h => ?_, Fed.char hc⟩
  cases h with
  | char _ h => exact h
  | percent | invalid | indexed | next | bare => exact absurd rfl hc

theorem fed_index {fmt : List Char} {vs : List Any} (hindex : (parseIndex fmt).1 < values.length) :
    Fed lib values ('%' :: '[' :: fmt) vs ↔
      ∃ r, takeDirective lib (parseIndex fmt).2 (values.drop (parseIndex fmt).1) = some r ∧
        Fed lib values r.1 vs := by
  refine ⟨fun h => ?_, fun ⟨r, htake, h⟩ => Fed.indexed hindex htake h⟩
  cases h with
  | char hc => exact absurd rfl hc
  | invalid _ hnot => exact absurd hindex hnot
  | indexed _ htake h => exact ⟨_, htake, h⟩
  | next hc => exact absurd rfl hc
  | bare hc => exact absurd rfl hc

theorem fed_next {c : Char} {fmt : List Char} {vs : List Any} (hc : c ≠ '[') (hvs : vs ≠ []) :
    Fed lib values ('%' :: c :: fmt) vs ↔
      ∃ r, takeDirective lib (c :: fmt) vs = some r ∧ Fed lib values r.1 r.2 := by
  refine ⟨fun h => ?_, fun ⟨r, htake, h⟩ => Fed.next hc hvs htake h⟩
  cases h with
  | char hc => exact absurd rfl hc
  | invalid => exact absurd rfl hc
  | indexed => exact absurd rfl hc
  | next _ _ htake h => exact ⟨_, htake, h⟩
  | bare => exact absurd rfl hvs

theorem fed_bare {c : Char} {fmt : List Char} (hc : c ≠ '[') :
    Fed lib values ('%' :: c :: fmt) [] ↔ takeDirective lib (c :: fmt) [] ≠ none ∧ Fed lib values fmt [] := by
  constructor
  · intro h
    cases h with
    | char hc => exact absurd rfl hc
    | invalid => exact absurd rfl hc
    | indexed => exact absurd rfl hc
    | next _ hvs => exact absurd rfl hvs
    | bare _ hasks h =>
        refine ⟨?_, h⟩
        rw [takeDirective, hasks]
        exact Option.some_ne_none _
  · rintro ⟨htake, h⟩
    exact Fed.bare hc (not_not.mp fun hasks => htake (takeDirective_nil hasks)) h

/-- The format before a round is fed. -/
def FedState (lib : Library Any) (values : List Any) (s : State) : Prop :=
  Fed lib values s.itFmt (values.drop s.itVal)

/-- A directive finds its values and the format behind it is fed exactly if it is supplied and the next round is
fed, whatever this round takes to be the values that are left. -/
theorem fed_formatOne (result fmt : List Char) (itVal : ℕ) (left : List Any → List Any) (behind : ℕ → ℕ)
    (hleft : ∀ n, left (values.drop n) = values.drop (behind n)) :
    (∃ r, takeDirective lib fmt (values.drop itVal) = some r ∧ Fed lib values r.1 (left r.2)) ↔
      takeDirective lib fmt (values.drop itVal) ≠ none ∧
        ∀ t, (match formatOne lib values result fmt itVal with
          | .ok r => Next.loop ⟨r.2.1, behind r.2.2, r.1⟩
          | .error i => .outside i) = .loop t → Fed lib values t.itFmt (values.drop t.itVal) := by
  have hspec := @formatOne_spec _ lib values result fmt itVal
  split
  next r hr =>
      rw [hr] at hspec
      constructor
      · rintro ⟨r', htake, hfed⟩
        obtain rfl := Option.some.inj (hspec.1.symm.trans htake)
        refine ⟨fun hnone => Option.some_ne_none _ (htake.symm.trans hnone), fun t ht => ?_⟩
        obtain rfl := Next.loop.inj ht
        rwa [hleft] at hfed
      · rintro ⟨-, hfed⟩
        refine ⟨_, hspec.1, ?_⟩
        rw [hleft]
        exact hfed _ rfl
  next hr =>
      rw [hr] at hspec
      constructor
      · rintro ⟨r', htake, -⟩
        exact absurd (htake.symm.trans hspec) (Option.some_ne_none _)
      · rintro ⟨hsupplied, -⟩
        exact absurd hspec hsupplied

theorem fedState_index {s : State} {fmt : List Char} (h : s.itFmt = '%' :: '[' :: fmt) :
    FedState lib values s ↔ Supplied lib values s ∧ ∀ t, Leads lib values s t → FedState lib values t := by
  unfold FedState Leads
  rw [h, supplied_index h, step_directive h, if_pos (Or.inr rfl), if_pos rfl]
  by_cases hindex : (parseIndex fmt).1 < values.length
  · rw [if_pos hindex, fed_index hindex, imp_iff_right hindex]
    exact fed_formatOne _ _ _ (fun _ => values.drop s.itVal) (fun _ => s.itVal) fun _ => rfl
  · rw [if_neg hindex]
    exact iff_of_true (Fed.invalid _ hindex) ⟨fun h => absurd h hindex, fun t ht => nomatch ht⟩

/-- A round before a directive that takes the next values. -/
theorem fedState_next {s : State} (hval : s.itVal ≤ values.length) {c : Char} {fmt : List Char}
    (h : s.itFmt = '%' :: c :: fmt) (hc : c ≠ '[') :
    FedState lib values s ↔ Supplied lib values s ∧ ∀ t, Leads lib values s t → FedState lib values t := by
  unfold FedState Leads
  rw [h, supplied_next h hc, step_directive h]
  by_cases hend : s.itVal = values.length
  · have hnil : values.drop s.itVal = [] := by rw [hend, List.drop_length]
    rw [if_neg (by rintro (h | h); exacts [h hend, hc h]), hnil, fed_bare hc]
    refine and_congr_right fun _ => ⟨fun hfed t ht => ?_, fun hfed => ?_⟩
    · obtain rfl := Next.loop.inj ht
      exact hnil.symm ▸ hfed
    · exact hnil ▸ hfed _ rfl
  · have hvs : values.drop s.itVal ≠ [] := by
      rw [Ne, List.drop_eq_nil_iff]
      omega
    rw [if_pos (Or.inl hend), if_neg hc, fed_next hc hvs]
    exact fed_formatOne _ _ _ id id fun _ => rfl

theorem fedState_iff {s : State} (hval : s.itVal ≤ values.length) :
    FedState lib values s ↔ Supplied lib values s ∧ ∀ t, Leads lib values s t → FedState lib values t := by
  cases h : s.itFmt with
  | nil =>
      refine iff_of_true (by unfold FedState; rw [h]; exact Fed.nil _) ⟨fun f hf => ?_, fun t ht => ?_⟩
      · exact absurd (h.symm.trans hf) (List.cons_ne_nil _ _).symm
      · unfold Leads step at ht
        rw [h] at ht
        cases ht
  | cons c fmt =>
      by_cases hc : c = '%'
      · subst hc
        cases fmt with
        | nil =>
            refine iff_of_true (by unfold FedState; rw [h]; exact Fed.percent _) ⟨fun f hf => ?_, fun t ht => ?_⟩
            · obtain rfl : [] = f := List.tail_eq_of_cons_eq (h.symm.trans hf)
              trivial
            · unfold Leads step at ht
              rw [h] at ht
              obtain rfl := Next.loop.inj ht
              exact Fed.nil _
        | cons c fmt =>
            by_cases hc : c = '['
            · exact fedState_index (hc ▸ h)
            · exact fedState_next hval h hc
      · unfold FedState Leads
        rw [h, fed_char hc, step_char h hc]
        refine ⟨fun hfed => ⟨fun f hf => ?_, fun t ht => ?_⟩, fun hfed => hfed.2 _ rfl⟩
        · exact absurd (List.head_eq_of_cons_eq (h.symm.trans hf)) hc
        · obtain rfl := Next.loop.inj ht
          exact hfed

/-- A format is fed exactly if all states are supplied that the loop reaches from it. -/
theorem supplied_iff (s : State) (hval : s.itVal ≤ values.length) :
    (∀ t, Reaches lib values s t → Supplied lib values t) ↔ FedState lib values s := by
  induction hn : s.itFmt.length using Nat.strong_induction_on generalizing s with
  | _ n ih =>
      rw [fedState_iff hval]
      have hnext : ∀ t, Leads lib values s t →
          ((∀ u, Reaches lib values t u → Supplied lib values u) ↔ FedState lib values t) := fun t ht =>
        ih _ (hn ▸ (Leads.progress ht).1) t ((Leads.progress ht).2.1 hval) rfl
      constructor
      · intro h
        exact ⟨h s .refl, fun t ht => (hnext t ht).mp fun u hu => h u (hu.head ht)⟩
      · rintro ⟨hs, h⟩ t ht
        rcases Relation.ReflTransGen.cases_head ht with rfl | ⟨u, hlead, hreach⟩
        · exact hs
        · exact (hnext u hlead).mpr (h u hlead) t hreach

/-- **Main result.**  `format` reads only values that are there, and writes only documented texts for directives
without a value, exactly when each directive of the format finds the values it asks for. -/
theorem safe_iff (lib : Library Any) (values : List Any) (result fmt : List Char) :
    Safe lib values result fmt ↔ Fed lib values fmt values := by
  rw [safe_iff_supplied, supplied_iff _ (Nat.zero_le _)]
  rfl

/-- Integers as the only values. -/
def integers : Library ℤ where
  type _ := .int
  int n := n
  write str _ n := str.put (toString n).toList
  int64 := .long
  uint64 := .unsignedLong
  sizeT := .unsignedLong

/-- `format("%*d", 5)` reads a second value. -/
theorem not_safe_star : ¬Safe integers [5] [] "%*d".toList := by
  intro h
  exact h.inside _ 1 Relation.ReflTransGen.refl rfl

end Format

end Poco.Foundation
