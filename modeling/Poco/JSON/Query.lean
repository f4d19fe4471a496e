import Poco.Lib.TreePath
import Mathlib.Data.List.Forall2
import Mathlib.Algebra.Group.Nat.Defs
import Poco.Foundation.Ascii

/-! # `Query`

A query finds a value in a JSON document by a text: names with dots between them, each of which may have
indexes behind it.  A document is a tree whose objects and arrays are held by pointers, as the parser
makes it.  On the text of a path (`KeyText`) the query follows the path (`find_eq_follow`). -/

namespace Poco.JSON

open Poco.Lib

export Poco.Foundation.Ascii (ascii isDigit)

/-! ### Values -/

/-- A value that is neither an object nor an array: a string, or a number or Boolean with the text that it
converts to. -/
inductive Scalar
  | string (s : List UInt8)
  | other (text : List UInt8)
deriving DecidableEq, Repr

/-- `Dynamic::Var`. -/
abbrev Var := Tree (List UInt8) Scalar

/-- The values of an `Object`. -/
abbrev Object := List (List UInt8 × Var)

/-- `Var::isEmpty`. -/
def isEmpty : Var → Bool
  | .empty => true
  | _ => false

/-- The exceptions of a query and of a configuration. -/
inductive Exn
  | syntaxException (message : String) (arg : List UInt8)
  | rangeException
  | notFoundException (key : List UInt8)
  | circularReferenceException (message : String)
deriving DecidableEq, Repr

/-! ### Tokens -/

/-- The loop of the constructor of `StringTokenizer` for the separator `.`, without options. -/
def tokenLoop : List UInt8 → List UInt8 → Bool → List (List UInt8)
  | [], token, lastToken => if token ≠ [] then [token] else if lastToken then [[]] else []
  | c :: str, token, _ =>
      if c = '.'.toUInt8 then token :: tokenLoop str [] true else tokenLoop str (token ++ [c]) false

/-- `StringTokenizer`. -/
def tokenizer (str : List UInt8) : List (List UInt8) := tokenLoop str [] false

/-! ### Indexes -/

/-- `NumberParser::parse` on digits. -/
def parse (num : List UInt8) : Except Exn ℕ :=
  let value := num.foldl (fun n c => n * 10 + (c.toNat - '0'.toNat)) 0
  if value < 2 ^ 31 then .ok value else .error (.syntaxException "Not a valid integer" num)

/-- The first match of `\[([0-9]+)\]`: what stands before it, the digits, and what stands behind it. -/
def nextIndex : List UInt8 → Option (List UInt8 × List UInt8 × List UInt8)
  | [] => none
  | c :: text =>
      let digits := text.takeWhile isDigit
      let behind := text.dropWhile isDigit
      if c = '['.toUInt8 ∧ digits ≠ [] ∧ behind.head? = some ']'.toUInt8 then some ([], digits, behind.tail)
      else
        match nextIndex text with
        | some (before, digits, rest) => some (c :: before, digits, rest)
        | none => none

/-- The indexes from a position on; a match takes at least one byte. -/
def indexLoop : ℕ → List UInt8 → Except Exn (List ℕ)
  | 0, _ => .ok []
  | left + 1, text =>
      match nextIndex text with
      | some (_, num, rest) => do
          let i ← parse num
          let indexes ← indexLoop left rest
          return i :: indexes
      | none => .ok []

/-- The name and the indexes of a token. -/
def getIndexes (token : List UInt8) : Except Exn (List UInt8 × List ℕ) := do
  let indexes ← indexLoop token.length token
  return match nextIndex token with
    | some (name, _, _) => (name, indexes)
    | none => (token, indexes)

/-! ### The query -/

/-- The value of a name, unless this is empty, and whether a name has been found. -/
def selectName (name : List UInt8) (found : Bool) (result : Var) : Var × Bool :=
  if name = [] then (result, found)
  else
    match result with
    | .object values => (Tree.child values name, true)
    | _ => (.empty, found)

/-- The loop over the indexes.  It ends at an empty value, which stays as it is. -/
def selectIndexes : List ℕ → Var → Var
  | [], result => result
  | i :: indexes, .array values => selectIndexes indexes (Tree.element values i)
  | _ :: indexes, result => selectIndexes indexes result

/-- The loop over the tokens. -/
def findLoop : List (List UInt8) → Var → Bool → Except Exn (Var × Bool)
  | [], result, found => .ok (result, found)
  | token :: tokens, result, found =>
      if isEmpty result then findLoop tokens result found
      else do
        let (name, indexes) ← getIndexes token
        let (result, found) := selectName name found result
        findLoop tokens (selectIndexes indexes result) found

/-- `Query::find`. -/
def find (source : Var) (path : List UInt8) : Except Exn Var :=
  if path = [] then .ok source
  else do
    let (result, found) ← findLoop (tokenizer path) source false
    return if found then result else .empty

/-! ### The text of a path -/

/-- The text of indexes, each in brackets. -/
inductive IndexText : List UInt8 → List ℕ → Prop
  | nil : IndexText [] []
  | cons {num text : List UInt8} {i : ℕ} {indexes : List ℕ} : num ≠ [] → (∀ c ∈ num, isDigit c = true) →
      parse num = .ok i → IndexText text indexes →
      IndexText ('['.toUInt8 :: num ++ ']'.toUInt8 :: text) (i :: indexes)

/-- A name has no dot and nothing that looks like an index. -/
structure IsName (name : List UInt8) : Prop where
  ne_nil : name ≠ []
  dotless : '.'.toUInt8 ∉ name
  indexless : nextIndex name = none

/-- A name and its indexes. -/
structure Token where
  name : List UInt8
  indexes : List ℕ

/-- The text of a name and its indexes. -/
def TokenText (text : List UInt8) (t : Token) : Prop :=
  IsName t.name ∧ ∃ indexText, text = t.name ++ indexText ∧ IndexText indexText t.indexes

/-- The text of a path. -/
def KeyText (key : List UInt8) (ts : List Token) : Prop :=
  ts ≠ [] ∧ ∃ texts, List.Forall₂ TokenText texts ts ∧ key = ['.'.toUInt8].intercalate texts

/-- The steps of a name with its indexes. -/
def Token.steps (t : Token) : List (Step (List UInt8)) := .name t.name :: t.indexes.map .index

/-- The steps of a path. -/
def steps (ts : List Token) : List (Step (List UInt8)) := ts.flatMap Token.steps

/-! ### Reading the text of a path -/

theorem tokenLoop_append {text : List UInt8} (h : '.'.toUInt8 ∉ text) (str token : List UInt8) (lastToken : Bool) :
    tokenLoop (text ++ str) token lastToken =
      tokenLoop str (token ++ text) (if text = [] then lastToken else false) := by
  induction text generalizing token lastToken with
  | nil => simp
  | cons c text ih =>
      rw [List.mem_cons, not_or] at h
      rw [List.cons_append, tokenLoop, if_neg (fun hc => h.1 hc.symm), ih h.2, List.append_assoc]
      congr 1
      simp

/-- Texts without dots are the tokens of the text that joins them; only a single empty text has none. -/
theorem tokenizer_intercalate {texts : List (List UInt8)} (h : ∀ text ∈ texts, '.'.toUInt8 ∉ text)
    (hne : texts ≠ [[]]) : tokenizer (['.'.toUInt8].intercalate texts) = texts := by
  have hloop : ∀ lastToken, texts ≠ [] → (texts = [[]] → lastToken = true) →
      tokenLoop (['.'.toUInt8].intercalate texts) [] lastToken = texts := by
    clear hne
    induction texts with
    | nil => exact fun _ h => absurd rfl h
    | cons text texts ih =>
        intro lastToken _ hlast
        have hdot := h text List.mem_cons_self
        cases texts with
        | nil =>
            have hend := tokenLoop_append hdot [] [] lastToken
            rw [List.append_nil, List.nil_append, tokenLoop] at hend
            rw [List.intercalate_singleton, hend]
            by_cases hnil : text = []
            · rw [hnil, if_neg (not_not.mpr rfl), if_pos rfl, if_pos (hlast (by rw [hnil]))]
            · rw [if_pos hnil]
        | cons next texts =>
            rw [List.intercalate_cons_cons, List.append_assoc, tokenLoop_append hdot, List.nil_append,
              List.singleton_append, tokenLoop, if_pos rfl,
              ih (fun t ht => h t (List.mem_cons_of_mem _ ht)) true (by simp) (fun _ => rfl)]
  cases texts with
  | nil => rfl
  | cons text texts => exact hloop false (by simp) (fun h => absurd h hne)

theorem nextIndex_append {name num text : List UInt8} (hname : nextIndex name = none) (hnum : num ≠ [])
    (hdigits : ∀ c ∈ num, isDigit c = true) :
    nextIndex (name ++ ('['.toUInt8 :: num ++ ']'.toUInt8 :: text)) = some (name, num, text) := by
  induction name with
  | nil =>
      have htake : (num ++ ']'.toUInt8 :: text).takeWhile isDigit = num := by
        rw [List.takeWhile_append_of_pos hdigits, List.takeWhile_cons_of_neg (by decide), List.append_nil]
      have hdrop : (num ++ ']'.toUInt8 :: text).dropWhile isDigit = ']'.toUInt8 :: text := by
        rw [List.dropWhile_append_of_pos hdigits, List.dropWhile_cons_of_neg (by decide)]
      rw [List.nil_append, List.cons_append, nextIndex, htake, hdrop, if_pos ⟨rfl, hnum, rfl⟩]
      rfl
  | cons c name ih =>
      rw [nextIndex] at hname
      split at hname
      · cases hname
      · rename_i hnot
        have hnone : nextIndex name = none := by
          cases hn : nextIndex name with
          | none => rfl
          | some m =>
              rw [hn] at hname
              cases hname
        have hnot' : ¬ (c = '['.toUInt8 ∧
            (name ++ ('['.toUInt8 :: num ++ ']'.toUInt8 :: text)).takeWhile isDigit ≠ [] ∧
            ((name ++ ('['.toUInt8 :: num ++ ']'.toUInt8 :: text)).dropWhile isDigit).head? =
              some ']'.toUInt8) := by
          rintro ⟨hc, hdigit, hclose⟩
          rw [List.dropWhile_append] at hclose
          rw [List.takeWhile_append] at hdigit
          by_cases hall : name.dropWhile isDigit = []
          · rw [hall, List.isEmpty_nil, if_pos rfl, List.cons_append, List.dropWhile_cons_of_neg (by decide)]
              at hclose
            exact absurd hclose (by rw [List.head?_cons]; decide)
          · have hlen : (name.takeWhile isDigit).length ≠ name.length := by
              intro hlen
              have := congrArg List.length (List.takeWhile_append_dropWhile (p := isDigit) (l := name))
              rw [List.length_append, hlen] at this
              exact hall (List.length_eq_zero_iff.mp (by omega))
            rw [if_neg (by simpa using hall), List.head?_append_of_ne_nil _ hall] at hclose
            rw [if_neg hlen] at hdigit
            exact hnot ⟨hc, hdigit, hclose⟩
        rw [List.cons_append, nextIndex, if_neg hnot', ih hnone]

theorem indexLoop_cons {left : ℕ} {token name num text : List UInt8} {i : ℕ} {indexes : List ℕ}
    (hnext : nextIndex token = some (name, num, text)) (hnum : parse num = .ok i)
    (htext : indexLoop left text = .ok indexes) : indexLoop (left + 1) token = .ok (i :: indexes) := by
  rw [indexLoop, hnext]
  dsimp only
  rw [hnum, htext]
  rfl

theorem indexLoop_text {text : List UInt8} {indexes : List ℕ} (h : IndexText text indexes) {left : ℕ}
    (hleft : text.length ≤ left) : indexLoop left text = .ok indexes := by
  induction h generalizing left with
  | nil =>
      cases left with
      | zero => rfl
      | succ left => rfl
  | @cons num text i indexes hne hdigits hnum _ ih =>
      cases left with
      | zero => simp at hleft
      | succ left =>
          have hnext := @nextIndex_append [] num text rfl hne hdigits
          refine indexLoop_cons hnext hnum (ih ?_)
          simp only [List.cons_append, List.length_cons, List.length_append] at hleft
          omega

theorem getIndexes_append {name indexText : List UInt8} {indexes : List ℕ} (hname : nextIndex name = none)
    (h : IndexText indexText indexes) : getIndexes (name ++ indexText) = .ok (name, indexes) := by
  cases h with
  | nil =>
      have hloop : indexLoop name.length name = .ok [] := by
        cases hlen : name.length with
        | zero => rfl
        | succ left => rw [indexLoop, hname]
      rw [List.append_nil, getIndexes, hloop, hname]
      rfl
  | @cons num text i indexes hne hdigits hnum htext =>
      have hnext := @nextIndex_append name num text hname hne hdigits
      have hloop : indexLoop (name ++ ('['.toUInt8 :: num ++ ']'.toUInt8 :: text)).length
          (name ++ ('['.toUInt8 :: num ++ ']'.toUInt8 :: text)) = .ok (i :: indexes) := by
        have hlen : (name ++ ('['.toUInt8 :: num ++ ']'.toUInt8 :: text)).length =
            name.length + num.length + text.length + 1 + 1 := by
          simp only [List.cons_append, List.length_cons, List.length_append]
          omega
        rw [hlen]
        exact indexLoop_cons hnext hnum (indexLoop_text htext (by omega))
      rw [getIndexes, hloop, hnext]
      rfl

theorem getIndexes_text {text : List UInt8} {t : Token} (h : TokenText text t) :
    getIndexes text = .ok (t.name, t.indexes) := by
  obtain ⟨name, indexes⟩ := t
  obtain ⟨hname, indexText, rfl, hindexes⟩ := h
  exact getIndexes_append hname.indexless hindexes

/-! ### The query follows the path -/

theorem selectIndexes_eq (indexes : List ℕ) (v : Var) :
    selectIndexes indexes v = Tree.follow (indexes.map .index) v := by
  induction indexes generalizing v with
  | nil => rfl
  | cons i indexes ih =>
      cases v with
      | array values => exact ih _
      | empty | leaf a | object values => exact ih _

theorem isEmpty_iff {v : Var} : isEmpty v = true ↔ v = .empty := by
  cases v with
  | empty => exact ⟨fun _ => rfl, fun _ => rfl⟩
  | leaf a | object values | array values => simp [isEmpty]

theorem selectName_eq {name : List UInt8} (hne : name ≠ []) (v : Var) (p : List (Step (List UInt8))) :
    Tree.follow p (selectName name true v).1 = Tree.follow (.name name :: p) v ∧
      (selectName name true v).2 = true := by
  cases v with
  | object values =>
      unfold selectName
      rw [if_neg hne]
      exact ⟨rfl, rfl⟩
  | empty | leaf a | array values =>
      unfold selectName
      rw [if_neg hne]
      exact ⟨Tree.follow_empty p, rfl⟩

theorem findLoop_empty (tokens : List (List UInt8)) (found : Bool) :
    findLoop tokens .empty found = .ok (.empty, found) := by
  induction tokens with
  | nil => rfl
  | cons token tokens ih =>
      have hempty : isEmpty .empty = true := rfl
      rw [findLoop, if_pos hempty, ih]

theorem findLoop_eq {texts : List (List UInt8)} {ts : List Token} (h : List.Forall₂ TokenText texts ts)
    (v : Var) : findLoop texts v true = .ok (Tree.follow (steps ts) v, true) := by
  induction h generalizing v with
  | nil => rfl
  | @cons text t texts ts htext _ ih =>
      by_cases hv : v = .empty
      · rw [hv, findLoop_empty, Tree.follow_empty]
      · obtain ⟨hfollow, hfound⟩ := selectName_eq htext.1.ne_nil v (t.indexes.map .index)
        rw [findLoop, if_neg (fun h => hv (isEmpty_iff.mp h)), getIndexes_text htext]
        change findLoop texts (selectIndexes t.indexes (selectName t.name true v).1)
          (selectName t.name true v).2 = _
        rw [hfound, ih, selectIndexes_eq, hfollow, ← Token.steps, ← Tree.follow_append]
        rfl

theorem indexText_dotless {text : List UInt8} {indexes : List ℕ} (h : IndexText text indexes) :
    '.'.toUInt8 ∉ text := by
  induction h with
  | nil => exact List.not_mem_nil
  | @cons num text i indexes hne hdigits hnum _ ih =>
      simp only [List.cons_append, List.mem_cons, List.mem_append, not_or]
      exact ⟨by decide, fun h => absurd (hdigits _ h) (by decide), by decide, ih⟩

theorem TokenText.dotless {text : List UInt8} {t : Token} (h : TokenText text t) : '.'.toUInt8 ∉ text := by
  obtain ⟨hname, indexText, rfl, hindexes⟩ := h
  rw [List.mem_append, not_or]
  exact ⟨hname.dotless, indexText_dotless hindexes⟩

theorem TokenText.ne_nil {text : List UInt8} {t : Token} (h : TokenText text t) : text ≠ [] := by
  obtain ⟨hname, indexText, rfl, -⟩ := h
  exact List.append_ne_nil_of_left_ne_nil hname.ne_nil indexText

theorem forall_mem_dotless {R : List UInt8 → Token → Prop} (hR : ∀ text t, R text t → '.'.toUInt8 ∉ text)
    {texts : List (List UInt8)} {ts : List Token} (h : List.Forall₂ R texts ts) :
    ∀ text ∈ texts, '.'.toUInt8 ∉ text := by
  induction h with
  | nil => exact fun text h => absurd h List.not_mem_nil
  | cons htext _ ih =>
      rw [List.forall_mem_cons]
      exact ⟨hR _ _ htext, ih⟩

theorem KeyText.tokens {key : List UInt8} {ts : List Token} (h : KeyText key ts) :
    ∃ texts, tokenizer key = texts ∧ List.Forall₂ TokenText texts ts := by
  obtain ⟨-, texts, htexts, rfl⟩ := h
  refine ⟨texts, tokenizer_intercalate (forall_mem_dotless (fun _ _ => TokenText.dotless) htexts) ?_, htexts⟩
  rintro rfl
  cases htexts with
  | cons htext _ => exact htext.ne_nil rfl

theorem forall₂_concat {texts : List (List UInt8)} {ts : List Token} {t : Token}
    (h : List.Forall₂ TokenText texts (ts ++ [t])) :
    ∃ front text, texts = front ++ [text] ∧ List.Forall₂ TokenText front ts ∧ TokenText text t := by
  induction ts generalizing texts with
  | nil =>
      cases h with
      | cons htext h =>
          cases h
          exact ⟨[], _, rfl, .nil, htext⟩
  | cons u ts ih =>
      cases h with
      | cons hu h =>
          obtain ⟨front, text, rfl, hfront, htext⟩ := ih h
          exact ⟨_ :: front, text, rfl, .cons hu hfront, htext⟩

/-- **A query follows the path of its text.** -/
theorem find_eq_follow {key : List UInt8} {ts : List Token} (h : KeyText key ts) (values : Object) :
    find (.object values) key = .ok (Tree.follow (steps ts) (.object values)) := by
  obtain ⟨texts, htokens, htexts⟩ := h.tokens
  have hts := h.1
  cases htexts with
  | nil => exact absurd rfl hts
  | @cons text t texts ts htext htexts =>
      have hkey : key ≠ [] := by
        rintro rfl
        cases htokens
      have hfirst := findLoop_eq (.cons htext htexts) (.object values)
      have hfound : findLoop (text :: texts) (.object values) false =
          findLoop (text :: texts) (.object values) true := by
        rw [findLoop, findLoop, getIndexes_text htext]
        change findLoop texts (selectIndexes t.indexes (selectName t.name false (.object values)).1)
          (selectName t.name false (.object values)).2 = findLoop texts (selectIndexes t.indexes
          (selectName t.name true (.object values)).1) (selectName t.name true (.object values)).2
        rw [selectName, selectName, if_neg htext.1.ne_nil, if_neg htext.1.ne_nil]
      rw [find, if_neg hkey, htokens, hfound, hfirst]
      rfl

end Poco.JSON
