import Mathlib.Data.List.TakeWhile
import Poco.Lib.Bytes
import Poco.Net.HeaderParameters

/-! # `HTTPAuthenticationParams`

The parameters of an `Authorization` or `WWW-Authenticate` field: `toString` writes them as
`name=value, name="value"`, and `parse` reads them with a machine of seven states.  Values are quoted by
the name of their parameter and never escaped, and the machine takes fewer names and unquoted values than
may be written.

The calls of `add` are collected in a list, as the machine never looks at the parameters it has.  What is
written is read as the same parameters exactly when `Readable` holds of each (`restores_iff`). -/

namespace Poco.Net

namespace HTTPAuthenticationParams

open NameValueCollection
open Poco.Lib
open MessageHeader (isAlphaNumeric)

/-- `HTTPAuthenticationParams::NTLM`. -/
def NTLM : List UInt8 := ascii "NTLM"

/-- `mustBeQuoted`. -/
def mustBeQuoted (name : List UInt8) : Bool :=
  iequal name (ascii "cnonce") || iequal name (ascii "domain") || iequal name (ascii "nonce") ||
    iequal name (ascii "opaque") || iequal name (ascii "qop") || iequal name (ascii "realm") ||
    iequal name (ascii "response") || iequal name (ascii "uri") || iequal name (ascii "username")

/-- `formatParameter`. -/
def formatParameter (f : Field) : List UInt8 :=
  f.name ++ chr '=' ::
    if mustBeQuoted f.name then chr '"' :: f.value ++ [chr '"'] else f.value

/-- The loop of `toString` behind the first parameter. -/
def restText : List Field → List UInt8
  | [] => []
  | f :: fs => chr ',' :: chr ' ' :: (formatParameter f ++ restText fs)

/-- The parameters, one after another. -/
def parametersText : List Field → List UInt8
  | [] => []
  | f :: fs => formatParameter f ++ restText fs

/-- `HTTPAuthenticationParams::toString`. -/
def toString (m : List Field) : List UInt8 :=
  match find m NTLM with
  | some f => if m.length = 1 then f.value else parametersText m
  | none => parametersText m

/-! ### The parser -/

/-- The states of `parse`. -/
inductive State where
  | space | token | equals | value | valueQuoted | valueEscape | comma

/-- The text of the `SyntaxException`. -/
def syntaxError : String := "Invalid authentication information"

/-- A byte of a name. -/
def isNameByte (c : UInt8) : Bool := isAlphaNumeric c || c == chr '_' || c == chr '-'

/-- The loop of `parse` with what comes after it: the parameters that are added. -/
def loop : State → List UInt8 → List UInt8 → List UInt8 → Except String (List Field)
  | state, token, value, [] =>
      match state with
      | .value => .ok [⟨token, value⟩]
      | .comma => .ok []
      | _ => .error syntaxError
  | state, token, value, it :: s =>
      match state with
      | .space =>
          if isNameByte it then loop .token (token ++ [it]) value s
          else if isSpace it then loop .space token value s
          else .error syntaxError
      | .token =>
          if it = chr '=' then loop .equals token value s
          else if isNameByte it then loop .token (token ++ [it]) value s
          else .error syntaxError
      | .equals =>
          if isAlphaNumeric it || it == chr '_' then loop .value token (value ++ [it]) s
          else if it = chr '"' then loop .valueQuoted token value s
          else .error syntaxError
      | .valueQuoted =>
          if it = chr '\\' then loop .valueEscape token value s
          else if it = chr '"' then (loop .comma [] [] s).map (⟨token, value⟩ :: ·)
          else loop .valueQuoted token (value ++ [it]) s
      | .valueEscape => loop .valueQuoted token (value ++ [it]) s
      | .value =>
          if isSpace it then (loop .comma [] [] s).map (⟨token, value⟩ :: ·)
          else if it = chr ',' then (loop .space [] [] s).map (⟨token, value⟩ :: ·)
          else loop .value token (value ++ [it]) s
      | .comma =>
          if it = chr ',' then loop .space token value s
          else if isSpace it then loop .comma token value s
          else .error syntaxError

/-- `HTTPAuthenticationParams::parse` of an object with the parameters `m`. -/
def parse (m : List Field) (s : List UInt8) : Except String (List Field) :=
  (loop .space [] [] s).map (·.foldl add m)

/-! ### Parameters that can be read -/

/-- A byte of a token of HTTP. -/
def isTokenByte (c : UInt8) : Bool :=
  isAlphaNumeric c || (ascii "!#$%&'*+-.^_`|~").contains c

/-- A token of HTTP. -/
def Token (name : List UInt8) : Prop := name ≠ [] ∧ ∀ c ∈ name, isTokenByte c = true

instance (name : List UInt8) : Decidable (Token name) := inferInstanceAs (Decidable (_ ∧ _))

/-- The first byte of a value without quotes. -/
def isFirstByte (c : UInt8) : Bool := isAlphaNumeric c || c == chr '_'

/-- A byte of a value without quotes. -/
def isBareByte (c : UInt8) : Bool := !isSpace c && c != chr ','

/-- A byte that stands for itself in a value in quotes. -/
def Plain (c : UInt8) : Prop := c ≠ chr '"' ∧ c ≠ chr '\\'

instance (c : UInt8) : Decidable (Plain c) := inferInstanceAs (Decidable (_ ∧ _))

/-- The parser reads the name and the value as they are written. -/
structure Readable (f : Field) : Prop where
  name : ∀ c ∈ f.name, isNameByte c = true
  quoted : mustBeQuoted f.name = true → ∀ c ∈ f.value, Plain c
  bare : mustBeQuoted f.name = false → f.value.head?.any isFirstByte = true ∧ ∀ c ∈ f.value, isBareByte c = true

/-- A single parameter `NTLM` is written without its name. -/
def SingleNTLM (m : List Field) : Prop := m.length = 1 ∧ (find m NTLM).isSome = true

/-! ### Names -/

theorem loop_space_cons (token value : List UInt8) (it : UInt8) (s : List UInt8) :
    loop .space token value (it :: s) =
      if isNameByte it then loop .token (token ++ [it]) value s
      else if isSpace it then loop .space token value s
      else .error syntaxError := rfl

theorem loop_token_cons (token value : List UInt8) (it : UInt8) (s : List UInt8) :
    loop .token token value (it :: s) =
      if it = chr '=' then loop .equals token value s
      else if isNameByte it then loop .token (token ++ [it]) value s
      else .error syntaxError := rfl

theorem loop_token_name {name : List UInt8} (hname : ∀ c ∈ name, isNameByte c = true) (token s : List UInt8) :
    loop .token token [] (name ++ chr '=' :: s) = loop .equals (token ++ name) [] s := by
  induction name generalizing token with
  | nil =>
      rw [List.append_nil, List.nil_append, loop_token_cons]
      exact if_pos rfl
  | cons c name ih =>
      rw [List.forall_mem_cons] at hname
      have hc : c ≠ chr '=' := by
        rintro rfl
        exact absurd hname.1 (by decide)
      rw [List.cons_append, loop_token_cons]
      rw [if_neg hc, if_pos hname.1, ih hname.2, List.append_assoc]
      rfl

theorem loop_space_name {name : List UInt8} (hne : name ≠ []) (hname : ∀ c ∈ name, isNameByte c = true)
    (s : List UInt8) : loop .space [] [] (name ++ chr '=' :: s) = loop .equals name [] s := by
  cases name with
  | nil => exact absurd rfl hne
  | cons c name =>
      rw [List.forall_mem_cons] at hname
      rw [List.cons_append, loop_space_cons]
      rw [if_pos hname.1, loop_token_name hname.2]
      rfl

theorem isTokenByte_spec : ∀ c : UInt8, isTokenByte c = true → c ≠ chr '=' ∧ isSpace c = false := by
  apply forall_byte
  decide +kernel

theorem loop_token_bad {name : List UInt8} (htoken : ∀ c ∈ name, isTokenByte c = true)
    (hname : ¬∀ c ∈ name, isNameByte c = true) (token s : List UInt8) :
    loop .token token [] (name ++ s) = .error syntaxError := by
  induction name generalizing token with
  | nil => exact absurd (fun _ hc => absurd hc List.not_mem_nil) hname
  | cons c name ih =>
      rw [List.forall_mem_cons] at htoken hname
      rw [List.cons_append, loop_token_cons]
      rw [if_neg (isTokenByte_spec c htoken.1).1]
      by_cases hc : isNameByte c = true
      · rw [if_pos hc]
        exact ih htoken.2 (fun h => hname ⟨hc, h⟩) _
      · rw [if_neg hc]

theorem loop_space_bad {name : List UInt8} (htoken : ∀ c ∈ name, isTokenByte c = true)
    (hname : ¬∀ c ∈ name, isNameByte c = true) (s : List UInt8) :
    loop .space [] [] (name ++ s) = .error syntaxError := by
  cases name with
  | nil => exact absurd (fun _ hc => absurd hc List.not_mem_nil) hname
  | cons c name =>
      rw [List.forall_mem_cons] at htoken hname
      rw [List.cons_append, loop_space_cons]
      by_cases hc : isNameByte c = true
      · rw [if_pos hc]
        exact loop_token_bad htoken.2 (fun h => hname ⟨hc, h⟩) _ _
      · rw [if_neg hc, (isTokenByte_spec c htoken.1).2, if_neg Bool.false_ne_true]

/-! ### Values -/

/-- What is read up to the closing quote. -/
def quotedValue : List UInt8 → Option (List UInt8)
  | [] => none
  | c :: s =>
      if c = chr '\\' then
        match s with
        | [] => none
        | d :: s => (quotedValue s).map (d :: ·)
      else if c = chr '"' then some []
      else (quotedValue s).map (c :: ·)

theorem quotedValue_escape (c : UInt8) (s : List UInt8) :
    quotedValue (chr '\\' :: c :: s) = (quotedValue s).map (c :: ·) := if_pos rfl

theorem quotedValue_quote (s : List UInt8) : quotedValue (chr '"' :: s) = some [] := by
  unfold quotedValue
  rw [if_neg (by decide), if_pos rfl]

theorem quotedValue_plain {c : UInt8} (hc : Plain c) (s : List UInt8) :
    quotedValue (c :: s) = (quotedValue s).map (c :: ·) := by
  conv_lhs => unfold quotedValue
  rw [if_neg hc.2, if_neg hc.1]

theorem exists_of_map {x : Except String (List Field)} {f : Field} {fs : List Field}
    (h : x.map (f :: ·) = .ok fs) : ∃ gs, x = .ok gs ∧ fs = f :: gs := by
  cases x with
  | error e => exact (nomatch h)
  | ok gs => exact ⟨gs, rfl, (Except.ok.inj h).symm⟩

theorem head_of_map {x : Except String (List Field)} {f : Field} {fs : List Field}
    (h : x.map (f :: ·) = .ok fs) : fs.head? = some f := by
  obtain ⟨gs, -, rfl⟩ := exists_of_map h
  rfl

/-- The parameters that are added begin with one that has the name and this beginning of the value. -/
theorem loop_valueQuoted_head {token value s : List UInt8} {fs : List Field}
    (h : loop .valueQuoted token value s = .ok fs) :
    ∃ x, quotedValue s = some x ∧ fs.head? = some ⟨token, value ++ x⟩ := by
  induction s using quotedValue.induct generalizing value with
  | case1 => exact (nomatch h)
  | case2 =>
      rw [loop, if_pos rfl] at h
      exact (nomatch h)
  | case3 c s ih =>
      rw [loop, if_pos rfl, loop] at h
      obtain ⟨x, hx, hfs⟩ := ih h
      refine ⟨c :: x, ?_, ?_⟩
      · rw [quotedValue_escape, hx]
        rfl
      · rw [hfs, List.append_assoc]
        rfl
  | case4 s hne =>
      rw [loop, if_neg hne, if_pos rfl] at h
      exact ⟨[], quotedValue_quote s, by rw [head_of_map h, List.append_nil]⟩
  | case5 c s hne hquote ih =>
      rw [loop, if_neg hne, if_neg hquote] at h
      obtain ⟨x, hx, hfs⟩ := ih h
      refine ⟨c :: x, ?_, ?_⟩
      · rw [quotedValue_plain ⟨hquote, hne⟩, hx]
        rfl
      · rw [hfs, List.append_assoc]
        rfl

/-- A value that is not empty begins with its first byte, unless this is a backslash. -/
theorem quotedValue_head {c d : UInt8} {s z : List UInt8} (h : quotedValue (c :: s) = some (d :: z)) :
    c = chr '\\' ∨ Plain c ∧ d = c := by
  by_cases hc : c = chr '\\'
  · exact Or.inl hc
  · by_cases hquote : c = chr '"'
    · rw [hquote, quotedValue_quote] at h
      exact (nomatch h)
    · rw [quotedValue_plain ⟨hquote, hc⟩, Option.map_eq_some_iff] at h
      obtain ⟨y, -, hy⟩ := h
      exact Or.inr ⟨⟨hquote, hc⟩, (List.head_eq_of_cons_eq hy).symm⟩

/-- Behind quotes and backslashes from escapes the text of a value cannot come back: each of its own bytes
takes more than one byte of it. -/
theorem quotedValue_ne {S : List UInt8} (hS : ∀ c ∈ S, ¬Plain c) (hbackslash : chr '\\' ∈ S) {rest : List UInt8}
    (hrest : ∀ c ∈ rest.head?, c ∉ S) :
    ∀ (n : ℕ) (x : List UInt8) (d : UInt8) (z : List UInt8), x.length ≤ n → d ∈ S → (∀ c ∈ z, c ∈ S) →
      quotedValue (x ++ rest) ≠ some (d :: z ++ x) := by
  -- the next byte of the value cannot come from the text behind it
  have hbehind (d : UInt8) (y : List UInt8) (hd : d ∈ S) : quotedValue rest ≠ some (d :: y) := by
    intro h
    cases rest with
    | nil => exact (nomatch h)
    | cons r rest =>
        rcases quotedValue_head h with rfl | ⟨-, rfl⟩
        · exact hrest _ rfl hbackslash
        · exact hrest _ rfl hd
  intro n
  induction n with
  | zero =>
      intro x d z hx hd _
      rw [List.length_eq_zero_iff.mp (Nat.le_zero.mp hx), List.append_nil]
      exact hbehind d z hd
  | succ n ih =>
      intro x d z hx hd hz h
      match x with
      | [] =>
          rw [List.append_nil] at h
          exact hbehind d z hd h
      | c :: x =>
          rcases quotedValue_head h with rfl | ⟨hplain, rfl⟩
          · match x with
            | [] =>
                cases rest with
                | nil => exact (nomatch h)
                | cons r rest =>
                    rw [List.cons_append, List.nil_append, quotedValue_escape, Option.map_eq_some_iff] at h
                    obtain ⟨y, -, hy⟩ := h
                    obtain rfl : r = d := List.head_eq_of_cons_eq hy
                    exact hrest _ rfl hd
            | e :: x =>
                rw [List.cons_append, List.cons_append, quotedValue_escape, Option.map_eq_some_iff] at h
                obtain ⟨y, hy, hcons⟩ := h
                obtain rfl : e = d := List.head_eq_of_cons_eq hcons
                have htail : y = z ++ (chr '\\' :: e :: x) := List.tail_eq_of_cons_eq hcons
                have hlen : x.length ≤ n := by
                  rw [List.length_cons, List.length_cons] at hx
                  omega
                -- what is still to come has grown by the two bytes of the escape
                cases z with
                | nil =>
                    refine ih x (chr '\\') [e] hlen hbackslash (fun c hc => ?_) (hy.trans (congrArg some htail))
                    rw [List.mem_singleton.mp hc]
                    exact hd
                | cons f z =>
                    rw [List.forall_mem_cons] at hz
                    refine ih x f (z ++ [chr '\\', e]) hlen hz.1 (fun c hc => ?_) ?_
                    · rcases List.mem_append.mp hc with hc | hc
                      · exact hz.2 c hc
                      · rcases List.mem_cons.mp hc with rfl | hc
                        · exact hbackslash
                        · rw [List.mem_singleton.mp hc]
                          exact hd
                    · rw [hy, htail]
                      simp
          · exact hS _ hd hplain

/-- A value between quotes comes back only if it has neither quotes nor backslashes. -/
theorem plain_of_quotedValue {x s : List UInt8} (h : quotedValue (x ++ chr '"' :: s) = some x) :
    ∀ c ∈ x, Plain c := by
  induction x with
  | nil => exact fun c hc => absurd hc List.not_mem_nil
  | cons c x ih =>
      rcases quotedValue_head h with rfl | ⟨hplain, -⟩
      · exfalso
        match x with
        | [] =>
            rw [List.cons_append, List.nil_append, quotedValue_escape, Option.map_eq_some_iff] at h
            obtain ⟨y, -, hy⟩ := h
            exact absurd (List.head_eq_of_cons_eq hy) (by decide)
        | d :: x =>
            rw [List.cons_append, List.cons_append, quotedValue_escape, Option.map_eq_some_iff] at h
            obtain ⟨y, hy, hcons⟩ := h
            obtain rfl : d = chr '\\' := List.head_eq_of_cons_eq hcons
            have htail : y = chr '\\' :: x := List.tail_eq_of_cons_eq hcons
            refine @quotedValue_ne [chr '\\'] ?_ (List.mem_singleton_self _) (chr '"' :: s) ?_ x.length x
              (chr '\\') [] le_rfl (List.mem_singleton_self _) (fun c hc => absurd hc List.not_mem_nil) ?_
            · intro c hc hplain
              exact hplain.2 (List.mem_singleton.mp hc)
            · intro c hc
              obtain rfl := Option.some.inj hc
              decide
            · rw [hy, htail]
              rfl
      · rw [List.cons_append, quotedValue_plain hplain, Option.map_eq_some_iff] at h
        obtain ⟨y, hy, hcons⟩ := h
        rw [List.tail_eq_of_cons_eq hcons] at hy
        rw [List.forall_mem_cons]
        exact ⟨hplain, ih hy⟩

/-- A value without quotes goes up to white space or a comma. -/
theorem loop_value_head {token value s : List UInt8} {fs : List Field} (h : loop .value token value s = .ok fs) :
    fs.head? = some ⟨token, value ++ s.takeWhile isBareByte⟩ := by
  induction s generalizing value with
  | nil =>
      rw [← Except.ok.inj h, List.takeWhile_nil, List.append_nil]
      rfl
  | cons c s ih =>
      rw [loop] at h
      by_cases hbare : isBareByte c = true
      · have hc := hbare
        rw [isBareByte, Bool.and_eq_true, Bool.not_eq_true', bne_iff_ne] at hc
        rw [hc.1, if_neg Bool.false_ne_true, if_neg hc.2] at h
        rw [List.takeWhile_cons_of_pos hbare, ih h, List.append_assoc]
        rfl
      · rw [List.takeWhile_cons_of_neg hbare, List.append_nil]
        split_ifs at h with hspace hcomma
        · exact head_of_map h
        · exact head_of_map h
        · rw [isBareByte, Bool.eq_false_iff.mpr hspace] at hbare
          exact absurd (bne_iff_ne.mpr hcomma) hbare

/-! ### A parameter -/

/-- What comes of the parameters behind the first one. -/
def restResult (fs : List Field) : Except String (List Field) :=
  match fs with
  | [] => .ok []
  | _ :: _ => loop .space [] [] (parametersText fs)

theorem loop_comma_rest (fs : List Field) : loop .comma [] [] (restText fs) = restResult fs := by
  cases fs with
  | nil => rfl
  | cons f fs =>
      rw [restText, loop, if_pos rfl, loop, if_neg (by decide), if_pos (by decide)]
      rfl

theorem loop_value_rest (token value : List UInt8) (fs : List Field) :
    loop .value token value (restText fs) = (restResult fs).map (⟨token, value⟩ :: ·) := by
  cases fs with
  | nil => rfl
  | cons f fs =>
      rw [restText, loop, if_neg (by decide), if_pos rfl, loop, if_neg (by decide), if_pos (by decide)]
      rfl

theorem loop_valueQuoted_plain {x : List UInt8} (hx : ∀ c ∈ x, Plain c) (token value s : List UInt8) :
    loop .valueQuoted token value (x ++ chr '"' :: s) =
      (loop .comma [] [] s).map (⟨token, value ++ x⟩ :: ·) := by
  induction x generalizing value with
  | nil => rw [List.nil_append, loop, if_neg (by decide), if_pos rfl, List.append_nil]
  | cons c x ih =>
      rw [List.forall_mem_cons] at hx
      rw [List.cons_append, loop, if_neg hx.1.2, if_neg hx.1.1, ih hx.2, List.append_assoc]
      rfl

theorem loop_value_bare {x : List UInt8} (hx : ∀ c ∈ x, isBareByte c = true) (token value s : List UInt8) :
    loop .value token value (x ++ s) = loop .value token (value ++ x) s := by
  induction x generalizing value with
  | nil => rw [List.nil_append, List.append_nil]
  | cons c x ih =>
      rw [List.forall_mem_cons] at hx
      have hc := hx.1
      rw [isBareByte, Bool.and_eq_true, Bool.not_eq_true', bne_iff_ne] at hc
      rw [List.cons_append, loop, hc.1, if_neg Bool.false_ne_true, if_neg hc.2, ih hx.2, List.append_assoc]
      rfl

theorem formatParameter_append (f : Field) (s : List UInt8) :
    formatParameter f ++ s = f.name ++ chr '=' ::
      ((if mustBeQuoted f.name then chr '"' :: f.value ++ [chr '"'] else f.value) ++ s) := by
  rw [formatParameter, List.append_assoc, List.cons_append]

/-- A parameter that can be read is read, and the machine goes on with the next one. -/
theorem loop_readable {f : Field} (hne : f.name ≠ []) (h : Readable f) (fs : List Field) :
    loop .space [] [] (formatParameter f ++ restText fs) = (restResult fs).map (f :: ·) := by
  rw [formatParameter_append, loop_space_name hne h.name]
  cases hq : mustBeQuoted f.name with
  | true =>
      rw [if_pos rfl, List.append_assoc, List.cons_append, loop, if_neg (by decide), if_pos rfl]
      rw [List.singleton_append, loop_valueQuoted_plain (h.quoted hq), loop_comma_rest]
      rfl
  | false =>
      obtain ⟨hfirst, hbare⟩ := h.bare hq
      rw [if_neg Bool.false_ne_true]
      cases hv : f.value with
      | nil =>
          rw [hv] at hfirst
          exact absurd hfirst Bool.false_ne_true
      | cons c value =>
          rw [hv] at hfirst hbare
          rw [List.cons_append, loop, if_pos (show (isAlphaNumeric c || c == chr '_') = true from hfirst),
            loop_value_bare fun d hd => hbare d (List.mem_cons_of_mem c hd), loop_value_rest, List.nil_append,
            List.singleton_append, ← hv]

theorem isFirstByte_bare : ∀ c : UInt8, isFirstByte c = true → isBareByte c = true := by
  apply forall_byte
  decide +kernel

theorem head?_restText {fs : List Field} {c : UInt8} (h : (restText fs).head? = some c) : c = chr ',' := by
  cases fs with
  | nil => exact (nomatch h)
  | cons f fs => exact (Option.some.inj h).symm

/-- A value without quotes comes back only if it begins and goes on like one. -/
theorem bare_of_loop {token value : List UInt8} {fs gs : List Field}
    (h : loop .equals token [] (value ++ restText fs) = .ok gs) :
    ∃ x, gs.head? = some ⟨token, x⟩ ∧
      (x = value → value.head?.any isFirstByte = true ∧ ∀ c ∈ value, isBareByte c = true) := by
  cases value with
  | nil =>
      cases fs with
      | nil => exact (nomatch h)
      | cons f fs =>
          rw [List.nil_append, restText, loop, if_neg (by decide), if_neg (by decide)] at h
          exact (nomatch h)
  | cons c value =>
      rw [List.cons_append, loop] at h
      split_ifs at h with hfirst hquote
      · refine ⟨_, loop_value_head h, fun hx => ⟨hfirst, ?_⟩⟩
        have htake : (value ++ restText fs).takeWhile isBareByte = value := List.tail_eq_of_cons_eq hx
        rw [List.forall_mem_cons]
        refine ⟨isFirstByte_bare c hfirst, fun d hd => ?_⟩
        rw [← htake] at hd
        exact List.mem_takeWhile_imp hd
      · obtain ⟨x, hx, hhead⟩ := loop_valueQuoted_head h
        refine ⟨x, hhead, fun heq => ?_⟩
        -- the text has a quote more than the value that begins behind it
        exfalso
        refine @quotedValue_ne [chr '"', chr '\\'] ?_ (by decide) (restText fs) ?_ value.length value (chr '"') []
          le_rfl (by decide) (fun c hc => absurd hc List.not_mem_nil) ?_
        · intro d hd hplain
          rcases List.mem_cons.mp hd with rfl | hd
          · exact hplain.1 rfl
          · exact hplain.2 (List.mem_singleton.mp hd)
        · intro d hd
          rw [head?_restText hd]
          decide
        · rw [hx, heq, hquote]
          rfl

/-- The first parameter that is read has the name and the value that were written only if they can be
read. -/
theorem readable_of_loop {f : Field} (hname : Token f.name) {fs gs : List Field}
    (h : loop .space [] [] (formatParameter f ++ restText fs) = .ok gs) :
    ∃ value, gs.head? = some ⟨f.name, value⟩ ∧ (value = f.value → Readable f) := by
  rw [formatParameter_append] at h
  by_cases hall : ∀ c ∈ f.name, isNameByte c = true
  · rw [loop_space_name hname.1 hall] at h
    cases hq : mustBeQuoted f.name with
    | true =>
        rw [hq, if_pos rfl, List.append_assoc, List.cons_append, loop, if_neg (by decide), if_pos rfl,
          List.singleton_append] at h
        obtain ⟨x, hx, hhead⟩ := loop_valueQuoted_head h
        refine ⟨x, hhead, ?_⟩
        rintro rfl
        exact ⟨hall, fun _ => plain_of_quotedValue hx, fun h => nomatch hq.symm.trans h⟩
    | false =>
        rw [hq, if_neg Bool.false_ne_true] at h
        obtain ⟨x, hhead, hx⟩ := bare_of_loop h
        exact ⟨x, hhead, fun heq => ⟨hall, fun h => (nomatch hq.symm.trans h), fun _ => hx heq⟩⟩
  · rw [loop_space_bad hname.2 hall] at h
    exact (nomatch h)

/-! ### All parameters -/

/-- Parameters that stand together stay where they are. -/
theorem addAll_of_grouped {m : List Field} (h : Grouped m) : addAll m = m := by
  have hfold (fs done : List Field) (h : Grouped (done ++ fs)) : fs.foldl add done = done ++ fs := by
    induction fs generalizing done with
    | nil => exact (List.append_nil done).symm
    | cons f fs ih =>
        rw [List.foldl_cons, add_of_grouped h, ih, List.append_assoc, List.singleton_append]
        rw [List.append_assoc]
        exact h
  exact hfold m [] h

/-- The parameters that are read from parameters that can be read. -/
theorem restResult_of_readable {m : List Field} (hnames : ∀ f ∈ m, Token f.name) (h : ∀ f ∈ m, Readable f) :
    restResult m = .ok m := by
  induction m with
  | nil => rfl
  | cons f m ih =>
      rw [List.forall_mem_cons] at hnames h
      show loop .space [] [] (formatParameter f ++ restText m) = _
      rw [loop_readable hnames.1.1 h.1, ih hnames.2 h.2]
      rfl

/-- If the same parameters are read, in the same order for each name, each of them can be read. -/
theorem readable_of_same {m gs : List Field} (hnames : ∀ f ∈ m, Token f.name) (h : restResult m = .ok gs)
    (hperm : gs.Perm m)
    (horder : ∀ name, gs.filter (iequal name ·.name) = m.filter (iequal name ·.name)) :
    ∀ f ∈ m, Readable f := by
  induction m generalizing gs with
  | nil => exact fun f hf => absurd hf List.not_mem_nil
  | cons f m ih =>
      rw [List.forall_mem_cons] at hnames
      replace h : loop .space [] [] (formatParameter f ++ restText m) = .ok gs := h
      obtain ⟨value, hhead, hread⟩ := readable_of_loop hnames.1 h
      cases gs with
      | nil => exact (nomatch hhead)
      | cons g gs =>
          obtain rfl : g = ⟨f.name, value⟩ := Option.some.inj hhead
          -- of the parameters with this name, the first one is the first one
          have hself : iequal f.name f.name = true := beq_self_eq_true _
          have hfirst := horder f.name
          rw [List.filter_cons, List.filter_cons, if_pos hself, if_pos hself] at hfirst
          have hsame : (⟨f.name, value⟩ : Field) = f := List.head_eq_of_cons_eq hfirst
          have hf : Readable f := hread (congrArg Field.value hsame)
          rw [hsame] at h hperm horder
          rw [loop_readable hnames.1.1 hf] at h
          rw [List.forall_mem_cons]
          refine ⟨hf, ?_⟩
          obtain ⟨gs', hr, hgs⟩ := exists_of_map h
          obtain rfl : gs = gs' := List.tail_eq_of_cons_eq hgs
          refine ih hnames.2 hr hperm.cons_inv fun name => ?_
          have hfilter := horder name
          rw [List.filter_cons, List.filter_cons] at hfilter
          split at hfilter
          · exact List.tail_eq_of_cons_eq hfilter
          · exact hfilter

/-- In these states the `=` of the next parameter is still to come. -/
def beforeEquals : State → ℕ
  | .space | .token | .comma => 1
  | _ => 0

/-- A value is part of the text, and shorter by the `=` before it. -/
theorem length_value_le {state : State} {token value s : List UInt8} {fs : List Field}
    (h : loop state token value s = .ok fs) :
    ∀ f ∈ fs, f.value.length + beforeEquals state ≤ value.length + s.length := by
  induction s generalizing state token value fs with
  | nil =>
      cases state with
      | value =>
          obtain rfl := Except.ok.inj h
          intro f hf
          rw [List.mem_singleton.mp hf]
          exact le_rfl
      | comma =>
          obtain rfl := Except.ok.inj h
          exact fun f hf => absurd hf List.not_mem_nil
      | _ => exact (nomatch h)
  | cons c s ih =>
      -- what is read after the value is shorter than the text behind it
      have hadd {next : State} (hnext : beforeEquals next = 1)
          (h : (loop next [] [] s).map (⟨token, value⟩ :: ·) = .ok fs) :
          ∀ f ∈ fs, f.value.length + 0 ≤ value.length + (s.length + 1) := by
        obtain ⟨gs, hgs, rfl⟩ := exists_of_map h
        intro f hf
        rcases List.mem_cons.mp hf with rfl | hf
        · exact Nat.le_add_right _ _
        · have hle := ih hgs f hf
          rw [hnext, List.length_nil] at hle
          omega
      intro f hf
      rw [List.length_cons]
      cases state with
      | space =>
          rw [loop] at h
          split_ifs at h
          · exact (ih h f hf).trans (Nat.add_le_add_left (Nat.le_succ _) _)
          · exact (ih h f hf).trans (Nat.add_le_add_left (Nat.le_succ _) _)
      | token =>
          rw [loop] at h
          split_ifs at h
          · exact Nat.succ_le_succ (ih h f hf)
          · exact (ih h f hf).trans (Nat.add_le_add_left (Nat.le_succ _) _)
      | equals =>
          rw [loop] at h
          split_ifs at h
          · have hle := ih h f hf
            rw [List.length_append, List.length_singleton, Nat.add_assoc, Nat.add_comm 1] at hle
            exact hle
          · exact (ih h f hf).trans (Nat.add_le_add_left (Nat.le_succ _) _)
      | value =>
          rw [loop] at h
          split_ifs at h
          · exact hadd rfl h f hf
          · exact hadd rfl h f hf
          · have hle := ih h f hf
            rw [List.length_append, List.length_singleton, Nat.add_assoc, Nat.add_comm 1] at hle
            exact hle
      | valueQuoted =>
          rw [loop] at h
          split_ifs at h
          · exact (ih h f hf).trans (Nat.add_le_add_left (Nat.le_succ _) _)
          · exact hadd rfl h f hf
          · have hle := ih h f hf
            rw [List.length_append, List.length_singleton, Nat.add_assoc, Nat.add_comm 1] at hle
            exact hle
      | valueEscape =>
          rw [loop] at h
          have hle := ih h f hf
          rw [List.length_append, List.length_singleton, Nat.add_assoc, Nat.add_comm 1] at hle
          exact hle
      | comma =>
          rw [loop] at h
          split_ifs at h
          · exact (ih h f hf).trans (Nat.add_le_add_left (Nat.le_succ _) _)
          · exact (ih h f hf).trans (Nat.add_le_add_left (Nat.le_succ _) _)

/-- A single parameter `NTLM` is not read from its value. -/
theorem parse_value_ne (f : Field) : parse [] f.value ≠ .ok [f] := by
  unfold parse
  intro h
  cases hr : loop .space [] [] f.value with
  | error e =>
      rw [hr] at h
      exact (nomatch h)
  | ok gs =>
      rw [hr] at h
      have hperm := addAll_perm gs
      rw [show addAll gs = [f] from Except.ok.inj h] at hperm
      have hmem : f ∈ gs := hperm.subset (List.mem_singleton_self f)
      have hle : f.value.length + 1 ≤ 0 + f.value.length := length_value_le hr f hmem
      omega

theorem toString_eq {m : List Field} (h : ¬SingleNTLM m) : toString m = parametersText m := by
  unfold toString
  cases hf : find m NTLM with
  | none => rfl
  | some f => exact if_neg fun hlen => h ⟨hlen, by rw [hf]; rfl⟩

/-- The parameters come back exactly when there is one, they are not just `NTLM`, and each can be read. -/
theorem restores_iff {ps : List Field} (hnames : ∀ p ∈ ps, Token p.name) :
    parse [] (toString (addAll ps)) = .ok (addAll ps) ↔ ps ≠ [] ∧ ¬SingleNTLM ps ∧ ∀ p ∈ ps, Readable p := by
  have hperm := addAll_perm ps
  have hnames' : ∀ f ∈ addAll ps, Token f.name := fun f hf => hnames f (hperm.subset hf)
  by_cases hne : ps = []
  · subst hne
    exact ⟨fun h => (nomatch h), fun h => absurd rfl h.1⟩
  by_cases hsingle : SingleNTLM ps
  · obtain ⟨f, rfl⟩ := List.length_eq_one_iff.mp hsingle.1
    have hfind : find [f] NTLM = some f := by
      obtain ⟨g, hg⟩ := Option.isSome_iff_exists.mp hsingle.2
      rw [hg, List.mem_singleton.mp (List.mem_of_find?_eq_some hg)]
    have htext : toString (addAll [f]) = f.value := by
      show toString [f] = f.value
      unfold toString
      rw [hfind]
      exact if_pos rfl
    rw [htext]
    exact ⟨fun h => absurd h (parse_value_ne f), fun h => absurd hsingle h.2.1⟩
  · have hne' : addAll ps ≠ [] := fun h => hne (hperm.symm.trans (h ▸ List.Perm.refl _)).eq_nil
    have hsingle' : ¬SingleNTLM (addAll ps) := by
      rintro ⟨hlen, hfind⟩
      rw [hperm.length_eq] at hlen
      obtain ⟨f, rfl⟩ := List.length_eq_one_iff.mp hlen
      exact hsingle ⟨rfl, hfind⟩
    have hrest : loop .space [] [] (toString (addAll ps)) = restResult (addAll ps) := by
      rw [toString_eq hsingle']
      cases hm : addAll ps with
      | nil => exact absurd hm hne'
      | cons f m => rfl
    unfold parse
    rw [hrest]
    constructor
    · intro h
      cases hr : restResult (addAll ps) with
      | error e =>
          rw [hr] at h
          exact (nomatch h)
      | ok gs =>
          rw [hr] at h
          have hsame : addAll gs = addAll ps := Except.ok.inj h
          have hgs : gs.Perm (addAll ps) := hsame ▸ (addAll_perm gs).symm
          refine ⟨hne, hsingle, fun p hp => readable_of_same hnames' hr hgs (fun name => ?_) p (hperm.symm.subset hp)⟩
          rw [← hsame, filter_addAll]
    · rintro ⟨-, -, hread⟩
      rw [restResult_of_readable hnames' fun f hf => hread f (hperm.subset hf)]
      exact congrArg Except.ok (addAll_of_grouped (grouped_addAll ps))

/-- Parameters of digest authentication. -/
theorem restores_digest :
    parse [] (toString (addAll [⟨ascii "realm", ascii "a, b"⟩, ⟨ascii "algorithm", ascii "MD5"⟩])) =
      .ok (addAll [⟨ascii "realm", ascii "a, b"⟩, ⟨ascii "algorithm", ascii "MD5"⟩]) := by
  refine (restores_iff (by decide +kernel)).mpr ⟨nofun, ?_, ?_⟩
  · exact fun h => absurd h.1 (by decide)
  · rw [List.forall_mem_cons, List.forall_mem_cons]
    refine ⟨⟨by decide +kernel, fun _ => by decide +kernel, fun h => absurd h (by decide +kernel)⟩,
      ⟨by decide +kernel, fun h => absurd h (by decide +kernel), fun _ => by decide +kernel⟩,
      fun f hf => absurd hf List.not_mem_nil⟩

/-- A quote in the realm ends it. -/
theorem not_restores_quote :
    ¬∀ ps : List Field, (∀ p ∈ ps, Token p.name ∧ ∀ c ∈ p.value, 0x20 ≤ c ∧ c ≤ 0x7E) →
      parse [] (toString (addAll ps)) = .ok (addAll ps) := by
  intro h
  exact absurd (h [⟨ascii "realm", ascii "a\"b"⟩] (by decide +kernel)) (by decide +kernel)

end HTTPAuthenticationParams

end Poco.Net
