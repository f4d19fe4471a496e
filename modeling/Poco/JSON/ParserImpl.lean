import Poco.Foundation.NumberFormatter
import Poco.JSON.ParseHandler
import Poco.JSON.StripComments
import Poco.JSON.TokenSequence
import Mathlib.Data.List.Infix

/-! # `ParserImpl`

The parser reads the tokens of a text and calls its handler.  An exception leaves the handler as it is, and no
call resets it.  So the result of a call depends on its own text only, if no text that was given up inside a
container comes before one that is complete (`parsesOwnText_iff`): on a complete text the parser
puts one value into the place where the handler stands (`handleToken_of_spells`), and on all others it
throws. -/

namespace Poco.JSON.Parser

open Poco.Lib Poco.Foundation NumericString Pdjson

variable {φ : Type}

/-- The options of a parser and of its handler, and `NumberParser::tryParseFloat`. -/
structure ParserImpl (φ : Type) where
  _depth : ℕ
  _allowNullByte : Bool
  _allowComments : Bool
  _preserveObjectOrder : Bool
  tryParseFloat : List UInt8 → Option φ

/-- What a call of `handle` comes to behind its `json_next`, with `n` tokens left: the tokens that are left, or
an exception. -/
inductive Outcome (φ : Type) (n : ℕ)
  | returned (rest : List Pdjson.Token) (le : rest.length ≤ n) (handler : ParseHandler φ)
  | thrown (e : Exn) (handler : ParseHandler φ)

namespace Outcome

variable {n m : ℕ}

def mono (h : n ≤ m) : Outcome φ n → Outcome φ m
  | returned rest le handler => returned rest (le.trans h) handler
  | thrown e handler => thrown e handler

/-- The outcome without the bound. -/
def result : Outcome φ n → Except (Exn × ParseHandler φ) (List Pdjson.Token × ParseHandler φ)
  | returned rest _ handler => .ok (rest, handler)
  | thrown e handler => .error (e, handler)

theorem result_mono (h : n ≤ m) (o : Outcome φ n) : (o.mono h).result = o.result := by cases o <;> rfl

end Outcome

namespace ParserImpl

/-- `JSON_DEFAULT_DEPTH`. -/
def JSON_DEFAULT_DEPTH : ℕ := 128

/-- `Parser()`. -/
def create (tryParseFloat : List UInt8 → Option φ) : ParserImpl φ :=
  ⟨JSON_DEFAULT_DEPTH, true, false, false, tryParseFloat⟩

variable (p : ParserImpl φ)

/-- The value of a number. -/
def number (str : List UInt8) : Except Exn (Value φ) :=
  if '.'.toUInt8 ∈ str ∨ 'e'.toUInt8 ∈ str ∨ 'E'.toUInt8 ∈ str then
    match p.tryParseFloat str with
    | some d => .ok (.double d)
    | none => .error (.syntaxException (UTF8.text "Not a valid floating-point number") str)
  else
    match NumberParser.parse64 str with
    | some v => .ok (.int64 v)
    | none =>
        match strToInt uint64Type str 10 ','.toUInt8 with
        | some v => .ok (.uint64 v)
        | none => .error (.syntaxException (UTF8.text "Not a valid unsigned integer") str)

/-- The name that a token gives a member: a C string. -/
def nameOf : Pdjson.Token → List UInt8
  | .string str | .number str => str.takeWhile (· ≠ 0)
  | _ => []

/-- `_pHandler->value`. -/
def value (v : Value φ) (ts : List Pdjson.Token) (h : ParseHandler φ) : Outcome φ ts.length :=
  match h.setValue v with
  | .ok h => .returned ts le_rfl h
  | .error e => .thrown e h

mutual

/-- `handle()` on a token, where `depth` containers are open; behind the last token `json_next` returns an error
with the message `errmsg`. -/
def handleToken (errmsg : List UInt8) (depth : ℕ) (t : Pdjson.Token) (ts : List Pdjson.Token) (h : ParseHandler φ) :
    Outcome φ ts.length :=
  match t with
  | .null => value .empty ts h
  | .true_ => value (.bool true) ts h
  | .false_ => value (.bool false) ts h
  | .number str =>
      match p.number str with
      | .ok v => value v ts h
      | .error e => .thrown e h
  | .string str => value (.string str) ts h
  | .object =>
      if depth + 1 > p._depth then .thrown (.jsonException (UTF8.text "Maximum depth exceeded")) h.startObject
      else handleObject errmsg (depth + 1) ts h.startObject
  | .objectEnd => .returned ts le_rfl h.endObject
  | .array =>
      if depth + 1 > p._depth then .thrown (.jsonException (UTF8.text "Maximum depth exceeded")) h.startArray
      else handleArray errmsg (depth + 1) ts h.startArray
  | .arrayEnd => .returned ts le_rfl h.endArray
termination_by (ts.length, 1)

/-- The loop of `handleArray`. -/
def handleArray (errmsg : List UInt8) (depth : ℕ) (ts : List Pdjson.Token) (h : ParseHandler φ) :
    Outcome φ ts.length :=
  match ts with
  | [] => .thrown (.jsonException errmsg) h
  | t :: ts =>
      if t = .arrayEnd then .returned ts (Nat.le_succ _) h.endArray
      else
        match handleToken errmsg depth t ts h with
        | .thrown e h => .thrown e h
        | .returned rest le h => (handleArray errmsg depth rest h).mono (le.trans (Nat.le_succ _))
termination_by (ts.length, 0)

/-- The loop of `handleObject`. -/
def handleObject (errmsg : List UInt8) (depth : ℕ) (ts : List Pdjson.Token) (h : ParseHandler φ) :
    Outcome φ ts.length :=
  match ts with
  | [] => .thrown (.jsonException errmsg) h
  | [t] =>
      if t = .objectEnd then .returned [] (Nat.zero_le _) h.endObject
      else .thrown (.jsonException errmsg) (h.key (nameOf t))
  | t :: t' :: ts =>
      if t = .objectEnd then .returned (t' :: ts) (Nat.le_succ _) h.endObject
      else
        match handleToken errmsg depth t' ts (h.key (nameOf t)) with
        | .thrown e h => .thrown e h
        | .returned rest le h =>
            (handleObject errmsg depth rest h).mono (le.trans ((Nat.le_succ _).trans (Nat.le_succ _)))
termination_by (ts.length, 0)

end

/-- `handle(json)` on the tokens of the text. -/
def handle (s : TokenSequence) (h : ParseHandler φ) : Except Exn Unit × ParseHandler φ :=
  let errmsg := s.errmsg.getD []
  match s.tokens with
  | [] => (.error (.jsonException errmsg), h)
  | t :: ts =>
      match p.handleToken errmsg 0 t ts h with
      | .thrown e h => (.error e, h)
      | .returned [] _ h =>
          if s.errmsg = none then (.ok (), h)
          else (.error (.jsonException (UTF8.text "Excess characters found after JSON end.")), h)
      | .returned (_ :: _) _ h =>
          (.error (.jsonException (UTF8.text "Excess characters found after JSON end.")), h)

/-- `stripComments(json)`. -/
def stripComments (json : List UInt8) : List UInt8 :=
  (StripComments.stripComments p._allowComments (json.map fun b => Char.ofNat b.toNat)).map Char.toUInt8

/-- The tokens that the parser reads from a text. -/
def read (json : List UInt8) : Except Exn TokenSequence :=
  let str := p.stripComments json
  if !p._allowNullByte && UTF8.text "\\u0000" <:+: str then
    .error (.jsonException (UTF8.text "Null bytes in strings not allowed."))
  else .ok (.ofText str)

/-- `parseImpl(json)`. -/
def parse (json : List UInt8) (h : ParseHandler φ) : Except Exn (Value φ) × ParseHandler φ :=
  match p.read json with
  | .error e => (.error e, h)
  | .ok s =>
      match p.handle s h with
      | (.error e, h) => (.error e, h)
      | (.ok _, h) => (.ok h.asVar, h)

/-- The results of one call after another. -/
def results (h : ParseHandler φ) : List (List UInt8) → List (Except Exn (Value φ))
  | [] => []
  | json :: texts => (p.parse json h).1 :: results (p.parse json h).2 texts

end ParserImpl

end Poco.JSON.Parser
