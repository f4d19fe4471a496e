import Poco.Foundation.TextIterator
import Mathlib.Data.List.TakeWhile

/-! # `Glob`

`Glob::match` walks over the pattern and the subject with two `TextIterator`s; behind an asterisk it tries
every position of the subject.  An iterator is only read, advanced and compared with the end, and stands
here for the characters from its position on.

`Language` says which subjects a pattern stands for, given how characters are compared: with
`GLOB_CASELESS` by their lower case, in the pattern and in the subject.  `matchSet` reads the end of a range as
it stands, also a backslash, so that the end of a range cannot be escaped.  Where no character of the subject
is compared with such a range, `match` decides the language (`matchSubject_decides`).  `Unicode::toLower` is a
parameter. -/

namespace Poco.Foundation

open Poco.Lib

namespace TextIterator

open TextConverter (query)

/-- The characters that an iterator of UTF-8 text comes by; every step takes a byte. -/
def codePointsLoop : ℕ → List UInt8 → List ℤ
  | fuel + 1, c :: it =>
      deref UTF8Encoding c it :: codePointsLoop fuel (increment UTF8Encoding.sequences c it)
  | _, _ => []

/-- The characters from the beginning of a text on. -/
def codePoints (s : List UInt8) : List ℤ := codePointsLoop s.length s

/-- The number of a character. -/
def codePoint (c : Char) : ℤ := c.toNat

theorem codePoint_inj {c d : Char} : codePoint c = codePoint d ↔ c = d := by
  rw [codePoint, codePoint, Nat.cast_inj]
  exact ⟨fun h => Char.toNat_inj.mp h, fun h => h ▸ rfl⟩

theorem codePoints_utf8 (cs : List Char) : codePoints (UTF8.utf8 cs) = cs.map codePoint := by
  have hloop : ∀ (cs : List Char) (fuel : ℕ), (UTF8.utf8 cs).length ≤ fuel →
      codePointsLoop fuel (UTF8.utf8 cs) = cs.map codePoint := by
    intro cs
    induction cs with
    | nil =>
        intro fuel _
        cases fuel with
        | zero => rfl
        | succ fuel => rfl
    | cons c cs ih =>
        intro fuel hfuel
        have hquery := UTF8Encoding.query_utf8EncodeChar c (UTF8.utf8 cs)
        obtain ⟨b, bs, hbs⟩ := List.exists_cons_of_ne_nil (String.utf8EncodeChar_ne_nil (c := c))
        have hsplit : String.utf8EncodeChar c ++ UTF8.utf8 cs = b :: (bs ++ UTF8.utf8 cs) := by rw [hbs]; rfl
        have hlen : (String.utf8EncodeChar c).length = bs.length + 1 := by rw [hbs]; rfl
        rw [hsplit, hlen] at hquery
        rw [UTF8.utf8_cons, hsplit, List.length_cons, List.length_append] at hfuel
        have hnat : ¬(-1 : ℤ) > (c.toNat : ℤ) := by omega
        cases fuel with
        | zero => omega
        | succ fuel =>
            have hbehind : increment UTF8Encoding.sequences b (bs ++ UTF8.utf8 cs) = UTF8.utf8 cs := by
              rw [UTF8Encoding.steps b (bs ++ UTF8.utf8 cs), behind]
              show (if -1 > (query Poco.Foundation.UTF8Encoding (b :: (bs ++ UTF8.utf8 cs))).1 then [] else _) = _
              rw [hquery, if_neg hnat]
              show (b :: (bs ++ UTF8.utf8 cs)).drop (query Poco.Foundation.UTF8Encoding _).2 = _
              rw [hquery, List.drop_succ_cons, List.drop_left']
              rfl
            rw [UTF8.utf8_cons, hsplit, codePointsLoop, hbehind, ih fuel (by omega), deref_eq, hquery, if_neg hnat]
            rfl
  exact hloop cs _ le_rfl

end TextIterator

namespace Glob

open TextIterator

/-! ### The model -/

/-- `GLOB_DOT_SPECIAL`. -/
def GLOB_DOT_SPECIAL : UInt32 := 0x01

/-- `GLOB_CASELESS`. -/
def GLOB_CASELESS : UInt32 := 0x04

/-- `SyntaxException(msg)`, and the exception of an iterator that is read at the end. -/
inductive Exception
  | syntaxException (msg : String)
  | assertionViolationException
deriving DecidableEq, Repr

/-- What is compared of a character. -/
def fold (toLower : ℤ → ℤ) (options : UInt32) (c : ℤ) : ℤ :=
  if options &&& GLOB_CASELESS ≠ 0 then toLower c else c

/-- The loop at the end of `matchSet`, behind the character or range that fits. -/
def skipSet : List ℤ → Except Exception (List ℤ × Bool)
  | [] => .error (.syntaxException "range must be terminated by closing bracket in glob pattern")
  | p :: itp =>
      if p = codePoint ']' then .ok (itp, true)
      else if p = codePoint '\\' then
        match itp with
        | [] => .error (.syntaxException "range must be terminated by closing bracket in glob pattern")
        | _ :: itp => skipSet itp
      else skipSet itp

/-- The rest of a character or range that begins with `first`: the last character, and what follows. -/
def setLast (first : ℤ) : List ℤ → Except Exception (ℤ × List ℤ)
  | [] => .ok (first, [])
  | p :: itp =>
      if p = codePoint '-' then
        match itp with
        | [] => .error (.syntaxException "bad range syntax in glob pattern")
        | last :: itp => .ok (last, itp)
      else .ok (first, p :: itp)

theorem length_setLast_le {first last : ℤ} {itp itp' : List ℤ} (h : setLast first itp = .ok (last, itp')) :
    itp'.length ≤ itp.length := by
  match itp with
  | [] =>
      obtain ⟨-, rfl⟩ := Prod.mk.inj (Except.ok.inj h)
      exact le_rfl
  | [p] =>
      rw [setLast] at h
      split_ifs at h
      obtain ⟨-, rfl⟩ := Prod.mk.inj (Except.ok.inj h)
      exact le_rfl
  | p :: q :: itp =>
      rw [setLast] at h
      split_ifs at h
      · obtain ⟨-, rfl⟩ := Prod.mk.inj (Except.ok.inj h)
        exact Nat.le_add_right itp.length 2
      · obtain ⟨-, rfl⟩ := Prod.mk.inj (Except.ok.inj h)
        exact le_rfl

/-- A backslash is skipped, in a set as elsewhere. -/
def unescape (p : ℤ) (itp : List ℤ) : List ℤ := if p = codePoint '\\' then itp else p :: itp

theorem length_of_unescape {p first : ℤ} {itp itp' : List ℤ} (h : unescape p itp = first :: itp') :
    itp'.length ≤ itp.length := by
  have hlen := congrArg List.length h
  rw [unescape] at hlen
  split_ifs at hlen
  · rw [List.length_cons] at hlen
    omega
  · simpa using hlen.ge

/-- `matchSet` for the character `c`, which has been folded: what is left of the pattern, and the answer. -/
def matchSet (fold : ℤ → ℤ) (c : ℤ) : List ℤ → Except Exception (List ℤ × Bool)
  | [] => .ok ([], false)
  | p :: itp =>
      if p = codePoint ']' then .ok (itp, false)
      else
        match _hfirst : unescape p itp with
        | [] => .error (.syntaxException "backslash must be followed by character in glob pattern")
        | first :: itp' =>
            match _hlast : setLast first itp' with
            | .error e => .error e
            | .ok (last, itp'') =>
                if fold first ≤ c ∧ c ≤ fold last then skipSet itp'' else matchSet fold c itp''
termination_by itp => itp.length
decreasing_by
  have hfirst := length_of_unescape _hfirst
  have hlast := length_setLast_le _hlast
  rw [List.length_cons]
  omega

theorem length_skipSet_le {itp' : List ℤ} {mtch : Bool} : (itp : List ℤ) → skipSet itp = .ok (itp', mtch) →
    itp'.length ≤ itp.length
  | [], h => by cases h
  | [p], h => by
      rw [skipSet] at h
      split_ifs at h
      · obtain ⟨rfl, -⟩ := Prod.mk.inj (Except.ok.inj h)
        exact Nat.zero_le _
      · cases h
  | p :: q :: itp, h => by
      rw [skipSet] at h
      split_ifs at h
      · obtain ⟨rfl, -⟩ := Prod.mk.inj (Except.ok.inj h)
        exact Nat.le_succ _
      · exact (length_skipSet_le itp h).trans (Nat.le_add_right itp.length 2)
      · exact (length_skipSet_le (q :: itp) h).trans (Nat.le_succ _)

theorem length_matchSet_le {fold : ℤ → ℤ} {c : ℤ} {itp itp' : List ℤ} {mtch : Bool}
    (h : matchSet fold c itp = .ok (itp', mtch)) : itp'.length ≤ itp.length := by
  induction hn : itp.length using Nat.strong_induction_on generalizing itp with
  | _ n ih =>
      subst hn
      cases itp with
      | nil =>
          rw [matchSet] at h
          obtain ⟨rfl, -⟩ := Prod.mk.inj (Except.ok.inj h)
          exact le_rfl
      | cons p itp =>
          rw [matchSet] at h
          split_ifs at h
          · obtain ⟨rfl, -⟩ := Prod.mk.inj (Except.ok.inj h)
            exact Nat.le_succ _
          · split at h
            · cases h
            · rename_i first itp1 hfirst
              have hfirst := length_of_unescape hfirst
              split at h
              · cases h
              · rename_i last itp2 hlast
                have hlast := length_setLast_le hlast
                have hlt : itp2.length < (p :: itp).length := by
                  rw [List.length_cons]
                  omega
                split_ifs at h
                · exact (length_skipSet_le itp2 h).trans hlt.le
                · exact (ih _ hlt h rfl).trans hlt.le

/-- The loop behind an asterisk: `mtch` is `matchAfterAsterisk` for the rest of the pattern. -/
def tryPositions (mtch : List ℤ → Except Exception Bool) : List ℤ → Except Exception Bool
  | [] => .ok false
  | c :: its =>
      match mtch (c :: its) with
      | .error e => .error e
      | .ok true => .ok true
      | .ok false => tryPositions mtch its

/-- `match(itp, endp, its, ends)`. -/
def matchIterators (fold : ℤ → ℤ) : List ℤ → List ℤ → Except Exception Bool
  | [], its => .ok (its = [])
  | p :: itp, [] => .ok ((p :: itp).dropWhile (· = codePoint '*') = [])
  | p :: itp, c :: its =>
      if p = codePoint '?' then matchIterators fold itp its
      else if p = codePoint '*' then
        if itp ≠ [] then tryPositions (matchIterators fold itp) (c :: its) else .ok true
      else if p = codePoint '[' then
        let invert : Bool := itp.head? = some (codePoint '!')
        match _hinvert : if invert then itp.tail else itp with
        | [] => .error (.syntaxException "bad range syntax in glob pattern")
        | r :: set =>
            match _hset : matchSet fold (fold c) (r :: set) with
            | .error e => .error e
            | .ok (itp', mtch) =>
                if (invert && mtch) || (!invert && !mtch) then .ok false else matchIterators fold itp' its
      else
        match _hliteral : unescape p itp with
        | [] => .error (.syntaxException "backslash must be followed by character in glob pattern")
        | q :: itp' => if fold q ≠ fold c then .ok false else matchIterators fold itp' its
termination_by itp => itp.length
decreasing_by
  · exact Nat.lt_succ_self _
  · exact Nat.lt_succ_self _
  · have hset := length_matchSet_le _hset
    have hle : (r :: set).length ≤ itp.length := by
      rw [← _hinvert]
      split
      · rw [List.length_tail]
        exact Nat.sub_le _ _
      · exact le_rfl
    exact Nat.lt_succ_of_le (hset.trans hle)
  · exact Nat.lt_succ_of_le (length_of_unescape _hliteral)

/-- `match(subject)` for a `Glob` of the pattern and the options. -/
def matchSubject (toLower : ℤ → ℤ) (options : UInt32) (pattern subject : List UInt8) : Except Exception Bool :=
  let itp := codePoints pattern
  let its := codePoints subject
  if options &&& GLOB_DOT_SPECIAL ≠ 0 ∧ its.head? = some (codePoint '.') then
    match itp with
    | [] => .error .assertionViolationException
    | p :: _ =>
        if p = codePoint '?' ∨ p = codePoint '*' then .ok false else matchIterators (fold toLower options) itp its
  else matchIterators (fold toLower options) itp its

/-! ### Patterns and their language -/

/-- A character of a pattern, with a backslash before it or without one. -/
structure Spelled where
  char : Char
  escaped : Bool
deriving DecidableEq, Repr

/-- A character or a range in a set. -/
inductive SetItem
  | single (c : Spelled)
  | range (first last : Spelled)
deriving DecidableEq, Repr

/-- A part of a pattern. -/
inductive Part
  | literal (c : Spelled)
  | any
  | asterisk
  | set (invert : Bool) (items : List SetItem)
deriving DecidableEq, Repr

def Spelled.text (c : Spelled) : List Char := if c.escaped then ['\\', c.char] else [c.char]

def SetItem.text : SetItem → List Char
  | single c => c.text
  | range first last => first.text ++ '-' :: last.text

def Part.text : Part → List Char
  | literal c => c.text
  | any => ['?']
  | asterisk => ['*']
  | set invert items => '[' :: (if invert then ['!'] else []) ++ items.flatMap SetItem.text ++ [']']

/-- The text of a pattern. -/
def text (pattern : List Part) : List Char := pattern.flatMap Part.text

/-- A character without a backslash is none of the special ones. -/
def Spelled.Plain (special : List Char) (c : Spelled) : Prop := c.escaped = false → c.char ∉ special

def SetItem.WellFormed : SetItem → Prop
  | single c => c.Plain [']', '\\']
  | range first last => first.Plain [']', '\\'] ∧ last.Plain [']', '\\']

/-- Behind a single character there is no hyphen that would make a range of it. -/
def SetItem.EndsBefore : SetItem → List Char → Prop
  | single _, rest => rest.head? ≠ some '-'
  | range _ _, _ => True

/-- The characters and ranges of a set are found again in its text. -/
def WellFormedSet : List SetItem → Prop
  | [] => True
  | item :: items => item.WellFormed ∧ item.EndsBefore (items.flatMap SetItem.text) ∧ WellFormedSet items

def Part.WellFormed : Part → Prop
  | literal c => c.Plain ['*', '?', '[', '\\']
  | set invert items => WellFormedSet items ∧ (invert = false → (items.flatMap SetItem.text).head? ≠ some '!')
  | _ => True

/-- The end of a range has no backslash before it. -/
def SetItem.PlainEnd : SetItem → Prop
  | range _ last => last.escaped = false
  | _ => True

section

variable (fold : ℤ → ℤ)

/-- The character is the one of the set, or in the range. -/
def SetItem.Contains : SetItem → Char → Prop
  | single c, d => fold (codePoint c.char) = fold (codePoint d)
  | range first last, d =>
      fold (codePoint first.char) ≤ fold (codePoint d) ∧ fold (codePoint d) ≤ fold (codePoint last.char)

instance (item : SetItem) (d : Char) : Decidable (item.Contains fold d) :=
  match item with
  | .single _ => inferInstanceAs (Decidable (_ = _))
  | .range _ _ => inferInstanceAs (Decidable (_ ∧ _))

/-- The subjects that a pattern stands for. -/
inductive Language : List Part → List Char → Prop
  | nil : Language [] []
  | literal {c : Spelled} {d : Char} {pattern : List Part} {subject : List Char} :
      fold (codePoint c.char) = fold (codePoint d) → Language pattern subject →
      Language (.literal c :: pattern) (d :: subject)
  | any {d : Char} {pattern : List Part} {subject : List Char} : Language pattern subject →
      Language (.any :: pattern) (d :: subject)
  | asterisk (front : List Char) {pattern : List Part} {subject : List Char} : Language pattern subject →
      Language (.asterisk :: pattern) (front ++ subject)
  | set {invert : Bool} {items : List SetItem} {d : Char} {pattern : List Part} {subject : List Char} :
      ((∃ item ∈ items, item.Contains fold d) ↔ invert = false) → Language pattern subject →
      Language (.set invert items :: pattern) (d :: subject)

/-! ### The ranges that a subject meets -/

/-- The character is compared with a range whose end is escaped: the items of a set are compared in their
order, up to the first one that contains it. -/
def MeetsSet : List SetItem → Char → Prop
  | [], _ => False
  | item :: items, d => ¬item.PlainEnd ∨ ¬item.Contains fold d ∧ MeetsSet items d

/-- A position that is tried has the property: they are tried in their order, up to the first one that fits. -/
def SomeTried (fits property : List Char → Prop) : List Char → Prop
  | [] => False
  | d :: subject => property (d :: subject) ∨ ¬fits (d :: subject) ∧ SomeTried fits property subject

/-- A character of the subject is compared with a range of the pattern whose end is escaped. -/
def Meets : List Part → List Char → Prop
  | .asterisk :: pattern, subject => SomeTried (Language fold pattern) (Meets pattern) subject
  | .any :: pattern, _ :: subject => Meets pattern subject
  | .literal c :: pattern, d :: subject => fold (codePoint c.char) = fold (codePoint d) ∧ Meets pattern subject
  | .set invert items :: pattern, d :: subject =>
      MeetsSet fold items d ∨ ((∃ item ∈ items, item.Contains fold d) ↔ invert = false) ∧ Meets pattern subject
  | _, _ => False

end

/-- With `GLOB_DOT_SPECIAL` a question mark or an asterisk at the beginning does not stand for a dot. -/
def Hidden (options : UInt32) (pattern : List Part) (subject : List Char) : Prop :=
  options &&& GLOB_DOT_SPECIAL ≠ 0 ∧ subject.head? = some '.' ∧
    (pattern.head? = some .any ∨ pattern.head? = some .asterisk)

/-! ### Sets -/

section

variable {fold : ℤ → ℤ}

/-- The numbers of the characters of a text. -/
def codes (cs : List Char) : List ℤ := cs.map codePoint

theorem codes_append (cs ds : List Char) : codes (cs ++ ds) = codes cs ++ codes ds := List.map_append

theorem skipSet_spelled {c : Spelled} (h : c.Plain [']', '\\']) (rest : List ℤ) :
    skipSet (codes c.text ++ rest) = skipSet rest := by
  obtain ⟨c, escaped⟩ := c
  cases escaped with
  | true =>
      have hne : ¬codePoint '\\' = codePoint ']' := by decide
      show skipSet (codePoint '\\' :: codePoint c :: rest) = _
      rw [skipSet, if_neg hne, if_pos rfl]
  | false =>
      have hplain := h rfl
      have hclose : ¬codePoint c = codePoint ']' := fun hc => hplain (by simp [codePoint_inj.mp hc])
      have hescape : ¬codePoint c = codePoint '\\' := fun hc => hplain (by simp [codePoint_inj.mp hc])
      show skipSet (codePoint c :: rest) = _
      cases rest with
      | nil => conv_lhs => rw [skipSet, if_neg hclose, if_neg hescape]
      | cons d rest => conv_lhs => rw [skipSet, if_neg hclose, if_neg hescape]

theorem skipSet_item {item : SetItem} (h : item.WellFormed) (rest : List ℤ) :
    skipSet (codes item.text ++ rest) = skipSet rest := by
  cases item with
  | single c => exact skipSet_spelled h rest
  | range first last =>
      have hhyphen : Spelled.Plain [']', '\\'] ⟨'-', false⟩ := fun _ => by decide
      have htext : codes (SetItem.range first last).text ++ rest =
          codes first.text ++ (codes (Spelled.text ⟨'-', false⟩) ++ (codes last.text ++ rest)) := by
        simp [SetItem.text, codes, Spelled.text]
      rw [htext, skipSet_spelled h.1, skipSet_spelled hhyphen, skipSet_spelled h.2]

theorem skipSet_set {items : List SetItem} (h : ∀ item ∈ items, item.WellFormed) (rest : List ℤ) :
    skipSet (codes (items.flatMap SetItem.text) ++ codePoint ']' :: rest) = .ok (rest, true) := by
  induction items with
  | nil =>
      show skipSet (codePoint ']' :: rest) = _
      cases rest with
      | nil => rw [skipSet, if_pos rfl]
      | cons d rest => rw [skipSet, if_pos rfl]
  | cons item items ih =>
      rw [List.flatMap_cons, codes_append, List.append_assoc, skipSet_item (h item List.mem_cons_self)]
      exact ih fun item' hitem => h item' (List.mem_cons_of_mem _ hitem)

theorem unescape_spelled {c : Spelled} (h : c.Plain [']', '\\']) (rest : List ℤ) : ∃ p itp,
    codes c.text ++ rest = p :: itp ∧ p ≠ codePoint ']' ∧ unescape p itp = codePoint c.char :: rest := by
  obtain ⟨c, escaped⟩ := c
  cases escaped with
  | true => exact ⟨codePoint '\\', codePoint c :: rest, rfl, by decide, if_pos rfl⟩
  | false =>
      have hplain := h rfl
      have hclose : codePoint c ≠ codePoint ']' := fun hc => hplain (by simp [codePoint_inj.mp hc])
      have hescape : ¬codePoint c = codePoint '\\' := fun hc => hplain (by simp [codePoint_inj.mp hc])
      exact ⟨codePoint c, rest, rfl, hclose, if_neg hescape⟩

theorem setLast_single {rest : List ℤ} (first : ℤ) (h : rest.head? ≠ some (codePoint '-')) :
    setLast first rest = .ok (first, rest) := by
  match rest with
  | [] => rfl
  | [p] =>
      have hp : ¬p = codePoint '-' := fun hp => h (by rw [hp]; rfl)
      rw [setLast, if_neg hp]
  | p :: q :: rest =>
      have hp : ¬p = codePoint '-' := fun hp => h (by rw [hp]; rfl)
      rw [setLast, if_neg hp]

theorem setLast_range (first last : ℤ) (rest : List ℤ) :
    setLast first (codePoint '-' :: last :: rest) = .ok (last, rest) := by
  rw [setLast, if_pos rfl]

theorem matchSet_step {c first last : ℤ} {p : ℤ} {itp itp' itp'' : List ℤ} (hclose : p ≠ codePoint ']')
    (hfirst : unescape p itp = first :: itp') (hlast : setLast first itp' = .ok (last, itp'')) :
    matchSet fold c (p :: itp) =
      if fold first ≤ c ∧ c ≤ fold last then skipSet itp'' else matchSet fold c itp'' := by
  rw [matchSet, if_neg hclose]
  split
  · rename_i hnil
    rw [hnil] at hfirst
    cases hfirst
  · rename_i first' itp1 hfirst'
    obtain ⟨rfl, rfl⟩ := List.cons.inj (hfirst.symm.trans hfirst')
    split
    · rename_i e herror
      rw [herror] at hlast
      cases hlast
    · rename_i last' itp2 hlast'
      obtain ⟨rfl, rfl⟩ := Prod.mk.inj (Except.ok.inj (hlast.symm.trans hlast'))
      rfl

theorem head?_codes (cs : List Char) (rest : List ℤ) (c : Char) (hrest : rest.head? ≠ some (codePoint c)) :
    (codes cs ++ rest).head? ≠ some (codePoint c) ↔ cs.head? ≠ some c := by
  cases cs with
  | nil => simpa [codes] using hrest
  | cons d cs => simp [codes, codePoint_inj]

/-- One item of a set is compared, or the rest is skipped. -/
theorem matchSet_item {item : SetItem} {items : List SetItem} {d : Char} {rest : List ℤ} (h : item.WellFormed)
    (hbefore : item.EndsBefore (items.flatMap SetItem.text)) (hend : item.PlainEnd) :
    matchSet fold (fold (codePoint d))
        (codes item.text ++ (codes (items.flatMap SetItem.text) ++ codePoint ']' :: rest)) =
      if item.Contains fold d then skipSet (codes (items.flatMap SetItem.text) ++ codePoint ']' :: rest)
      else matchSet fold (fold (codePoint d)) (codes (items.flatMap SetItem.text) ++ codePoint ']' :: rest) := by
  set behind := codes (items.flatMap SetItem.text) ++ codePoint ']' :: rest with hbehind
  cases item with
  | single c =>
      obtain ⟨p, itp, htext, hclose, hfirst⟩ := unescape_spelled h behind
      have hhead : behind.head? ≠ some (codePoint '-') :=
        (head?_codes _ (codePoint ']' :: rest) '-' (by simp [codePoint_inj])).mpr hbefore
      show matchSet fold _ (codes c.text ++ behind) = _
      rw [htext, matchSet_step hclose hfirst (setLast_single _ hhead)]
      have hiff : (fold (codePoint c.char) ≤ fold (codePoint d) ∧ fold (codePoint d) ≤ fold (codePoint c.char)) ↔
          (SetItem.single c).Contains fold d := le_antisymm_iff.symm
      simp only [hiff]
  | range first last =>
      obtain ⟨last, escaped⟩ := last
      obtain rfl : escaped = false := hend
      obtain ⟨p, itp, htext, hclose, hfirst⟩ := unescape_spelled h.1 (codePoint '-' :: codePoint last :: behind)
      have hitem : codes (SetItem.range first ⟨last, false⟩).text ++ behind =
          codes first.text ++ codePoint '-' :: codePoint last :: behind := by
        simp [SetItem.text, codes, Spelled.text]
      rw [hitem, htext, matchSet_step hclose hfirst (setLast_range _ _ _)]
      rfl

/-- **Sets.**  `matchSet` says whether the set contains the character, and leaves what is behind the set. -/
theorem matchSet_set {items : List SetItem} (h : WellFormedSet items) {d : Char} (hmeets : ¬MeetsSet fold items d)
    (rest : List ℤ) :
    matchSet fold (fold (codePoint d)) (codes (items.flatMap SetItem.text) ++ codePoint ']' :: rest) =
      .ok (rest, decide (∃ item ∈ items, item.Contains fold d)) := by
  have hall : ∀ items, WellFormedSet items → ∀ item ∈ items, item.WellFormed := by
    intro items
    induction items with
    | nil => intro _ item hitem; cases hitem
    | cons item items ih =>
        rintro ⟨hitem, -, hitems⟩ item' hmem
        rcases List.mem_cons.mp hmem with rfl | hmem
        · exact hitem
        · exact ih hitems item' hmem
  induction items with
  | nil =>
      show matchSet fold _ (codePoint ']' :: rest) = _
      rw [matchSet, if_pos rfl]
      simp
  | cons item items ih =>
      obtain ⟨hitem, hbefore, hitems⟩ := h
      obtain ⟨hend, hbehind⟩ := not_or.mp hmeets
      rw [List.flatMap_cons, codes_append, List.append_assoc, matchSet_item hitem hbefore (not_not.mp hend)]
      split_ifs with hcontains
      · rw [skipSet_set (hall items hitems)]
        simp [hcontains]
      · rw [ih hitems fun hmeets => hbehind ⟨hcontains, hmeets⟩]
        simp [hcontains]

/-! ### Matching -/

/-- A pattern that stands for the empty subject consists of asterisks. -/
theorem language_nil_iff {pattern : List Part} : Language fold pattern [] ↔ ∀ part ∈ pattern, part = .asterisk := by
  constructor
  · intro h
    generalize hs : ([] : List Char) = subject at h
    induction h with
    | nil => intro part hpart; cases hpart
    | asterisk front h ih =>
        obtain ⟨-, hsubject⟩ := List.append_eq_nil_iff.mp hs.symm
        intro part hpart
        rcases List.mem_cons.mp hpart with rfl | hpart
        · rfl
        · exact ih hsubject.symm part hpart
    | literal | any | set => cases hs
  · intro h
    induction pattern with
    | nil => exact .nil
    | cons part pattern ih =>
        obtain rfl := h part List.mem_cons_self
        exact .asterisk [] (ih fun part hpart => h part (List.mem_cons_of_mem _ hpart))

theorem language_asterisks {pattern : List Part} (h : ∀ part ∈ pattern, part = .asterisk) (hne : pattern ≠ [])
    (subject : List Char) : Language fold pattern subject := by
  obtain ⟨part, pattern, rfl⟩ := List.exists_cons_of_ne_nil hne
  obtain rfl := h part List.mem_cons_self
  have hnil : Language fold pattern [] :=
    language_nil_iff.mpr fun part hpart => h part (List.mem_cons_of_mem _ hpart)
  have happend := Language.asterisk subject hnil
  rwa [List.append_nil] at happend

theorem language_asterisk_iff {pattern : List Part} {subject : List Char} :
    Language fold (.asterisk :: pattern) subject ↔ ∃ front rest, subject = front ++ rest ∧ Language fold pattern rest := by
  constructor
  · intro h
    cases h with
    | asterisk front h => exact ⟨front, _, rfl, h⟩
  · rintro ⟨front, rest, rfl, h⟩
    exact .asterisk front h

/-- The answer is given, and it is the truth. -/
def Decides (r : Except Exception Bool) (P : Prop) : Prop := ∃ b, r = .ok b ∧ (b = true ↔ P)

theorem decides_true {r : Except Exception Bool} {P : Prop} (hr : r = .ok true) (h : P) : Decides r P :=
  ⟨true, hr, iff_of_true rfl h⟩

theorem decides_false {r : Except Exception Bool} {P : Prop} (hr : r = .ok false) (h : ¬P) : Decides r P :=
  ⟨false, hr, iff_of_false (by decide) h⟩

theorem Decides.congr {r r' : Except Exception Bool} {P Q : Prop} (h : Decides r P) (hr : r' = r) (hP : P ↔ Q) :
    Decides r' Q := by
  obtain ⟨b, hb, hiff⟩ := h
  exact ⟨b, hr.trans hb, hiff.trans hP⟩

/-- The loop behind an asterisk finds a position from which the rest matches, if there is one and the positions
that are tried are decided. -/
theorem tryPositions_decides {mtch : List ℤ → Except Exception Bool} {P Q : List Char → Prop}
    (h : ∀ subject, ¬Q subject → Decides (mtch (codes subject)) (P subject)) (subject : List Char)
    (htried : ¬SomeTried P Q subject) :
    Decides (tryPositions mtch (codes subject)) (∃ front rest, subject = front ++ rest ∧ rest ≠ [] ∧ P rest) := by
  induction subject with
  | nil =>
      refine decides_false rfl ?_
      rintro ⟨front, rest, hsplit, hne, -⟩
      exact hne (List.append_eq_nil_iff.mp hsplit.symm).2
  | cons d subject ih =>
      obtain ⟨hhere, hbehind⟩ := not_or.mp htried
      obtain ⟨b, hb, hiff⟩ := h (d :: subject) hhere
      have hstep : tryPositions mtch (codes (d :: subject)) =
          match mtch (codes (d :: subject)) with
          | .error e => .error e
          | .ok true => .ok true
          | .ok false => tryPositions mtch (codes subject) := by
        show tryPositions mtch (codePoint d :: codes subject) = _
        rw [tryPositions]
        rfl
      rw [hstep, hb]
      cases b with
      | true => exact decides_true rfl ⟨[], d :: subject, rfl, List.cons_ne_nil _ _, hiff.mp rfl⟩
      | false =>
          have hhere : ¬P (d :: subject) := fun hp => by simpa using hiff.mpr hp
          refine (ih fun hsome => hbehind ⟨hhere, hsome⟩).congr rfl ⟨?_, ?_⟩
          · rintro ⟨front, rest, rfl, hne, hp⟩
            exact ⟨d :: front, rest, rfl, hne, hp⟩
          · rintro ⟨front, rest, hsplit, hne, hp⟩
            cases front with
            | nil =>
                obtain rfl : d :: subject = rest := hsplit
                exact absurd hp hhere
            | cons e front =>
                obtain ⟨-, rfl⟩ := List.cons.inj hsplit
                exact ⟨front, rest, rfl, hne, hp⟩

theorem matchIterators_literal {p q c : ℤ} {itp itp' its : List ℤ} (hany : p ≠ codePoint '?')
    (hasterisk : p ≠ codePoint '*') (hset : p ≠ codePoint '[') (h : unescape p itp = q :: itp') :
    matchIterators fold (p :: itp) (c :: its) =
      if fold q ≠ fold c then .ok false else matchIterators fold itp' its := by
  rw [matchIterators, if_neg hany, if_neg hasterisk, if_neg hset]
  split
  · rename_i hnil
    rw [hnil] at h
    cases h
  · rename_i q' itp1 h'
    obtain ⟨rfl, rfl⟩ := List.cons.inj (h.symm.trans h')
    rfl

theorem matchIterators_set (invert : Bool) {c : ℤ} {items : List ℤ} {itp its : List ℤ} {mtch : Bool}
    (hbang : invert = false → items.head? ≠ some (codePoint '!')) (hne : items ≠ [])
    (h : matchSet fold (fold c) items = .ok (itp, mtch)) :
    matchIterators fold (codePoint '[' :: ((if invert then [codePoint '!'] else []) ++ items)) (c :: its) =
      if invert = mtch then .ok false else matchIterators fold itp its := by
  have hany : ¬codePoint '[' = codePoint '?' := by decide
  have hasterisk : ¬codePoint '[' = codePoint '*' := by decide
  obtain ⟨r, set, rfl⟩ := List.exists_cons_of_ne_nil hne
  have hinvert : decide (((if invert then [codePoint '!'] else []) ++ r :: set).head? = some (codePoint '!')) =
      invert := by
    cases invert with
    | true => rfl
    | false => exact decide_eq_false (hbang rfl)
  have hrest : (if decide (((if invert then [codePoint '!'] else []) ++ r :: set).head? = some (codePoint '!')) then
      ((if invert then [codePoint '!'] else []) ++ r :: set).tail
      else (if invert then [codePoint '!'] else []) ++ r :: set) = r :: set := by
    rw [hinvert]
    cases invert with
    | true => rfl
    | false => rfl
  rw [matchIterators, if_neg hany, if_neg hasterisk, if_pos rfl]
  dsimp only
  split
  · rename_i hnil
    rw [hrest] at hnil
    cases hnil
  · rename_i r' set' hcons
    obtain ⟨rfl, rfl⟩ := List.cons.inj (hrest.symm.trans hcons)
    split
    · rename_i e herror
      rw [herror] at h
      cases h
    · rename_i itp' mtch' hok
      obtain ⟨rfl, rfl⟩ := Prod.mk.inj (Except.ok.inj (h.symm.trans hok))
      simp only [hinvert]
      cases invert <;> cases mtch <;> rfl

/-- The text of a pattern consists of asterisks if the pattern does. -/
theorem dropWhile_text {pattern : List Part} (h : ∀ part ∈ pattern, part.WellFormed) :
    (codes (text pattern)).dropWhile (· = codePoint '*') = [] ↔ ∀ part ∈ pattern, part = .asterisk := by
  rw [List.dropWhile_eq_nil_iff]
  constructor
  · intro hall part hpart
    have hchars : ∀ c ∈ part.text, c = '*' := by
      intro c hc
      have hmem : codePoint c ∈ codes (text pattern) :=
        List.mem_map_of_mem (List.mem_flatMap.mpr ⟨part, hpart, hc⟩)
      exact codePoint_inj.mp (of_decide_eq_true (hall _ hmem))
    have hwf := h part hpart
    cases part with
    | asterisk => rfl
    | any => exact absurd (hchars '?' List.mem_cons_self) (by decide)
    | set invert items => exact absurd (hchars '[' List.mem_cons_self) (by decide)
    | literal c =>
        obtain ⟨c, escaped⟩ := c
        cases escaped with
        | true => exact absurd (hchars '\\' List.mem_cons_self) (by decide)
        | false =>
            obtain rfl := hchars c List.mem_cons_self
            exact absurd (hwf rfl) (by simp)
  · intro hall x hx
    obtain ⟨c, hc, rfl⟩ := List.mem_map.mp hx
    obtain ⟨part, hpart, hc⟩ := List.mem_flatMap.mp hc
    rw [hall part hpart] at hc
    rw [List.mem_singleton.mp hc]
    exact decide_eq_true rfl

theorem text_cons_ne_nil (part : Part) (pattern : List Part) : codes (text (part :: pattern)) ≠ [] := by
  have hpart : part.text ≠ [] := by
    cases part with
    | any | asterisk | set => exact List.cons_ne_nil _ _
    | literal c =>
        rw [Part.text, Spelled.text]
        split
        · exact List.cons_ne_nil _ _
        · exact List.cons_ne_nil _ _
  intro hnil
  exact hpart (List.append_eq_nil_iff.mp (List.map_eq_nil_iff.mp hnil)).1

theorem decides_nil {pattern : List Part} (h : ∀ part ∈ pattern, part.WellFormed) :
    Decides (matchIterators fold (codes (text pattern)) []) (Language fold pattern []) := by
  cases pattern with
  | nil =>
      refine decides_true ?_ .nil
      show matchIterators fold [] [] = _
      rw [matchIterators]
      rfl
  | cons part pattern =>
      obtain ⟨p, itp, hcons⟩ := List.exists_cons_of_ne_nil (text_cons_ne_nil part pattern)
      have hstep : matchIterators fold (codes (text (part :: pattern))) [] =
          .ok (decide ((codes (text (part :: pattern))).dropWhile (· = codePoint '*') = [])) := by
        rw [hcons, matchIterators]
      exact ⟨_, hstep, by rw [decide_eq_true_iff, dropWhile_text h, language_nil_iff]⟩

theorem literal_decides {c : Spelled} (hc : (Part.literal c).WellFormed) {pattern : List Part} {d : Char}
    {subject : List Char} (ih : fold (codePoint c.char) = fold (codePoint d) →
      Decides (matchIterators fold (codes (text pattern)) (codes subject)) (Language fold pattern subject)) :
    Decides (matchIterators fold (codes c.text ++ codes (text pattern)) (codePoint d :: codes subject))
      (Language fold (.literal c :: pattern) (d :: subject)) := by
  obtain ⟨p, itp, htext, ⟨hany, hasterisk, hset⟩, hfirst⟩ : ∃ p itp, codes c.text ++ codes (text pattern) = p :: itp ∧
      (p ≠ codePoint '?' ∧ p ≠ codePoint '*' ∧ p ≠ codePoint '[') ∧
      unescape p itp = codePoint c.char :: codes (text pattern) := by
    obtain ⟨c, escaped⟩ := c
    cases escaped with
    | true => exact ⟨codePoint '\\', codePoint c :: codes (text pattern), rfl, by decide, if_pos rfl⟩
    | false =>
        have hplain : c ∉ ['*', '?', '[', '\\'] := hc rfl
        have hne : ∀ e ∈ ['*', '?', '[', '\\'], codePoint c ≠ codePoint e := fun e he heq =>
          hplain (codePoint_inj.mp heq ▸ he)
        exact ⟨codePoint c, codes (text pattern), rfl, ⟨hne _ (by simp), hne _ (by simp), hne _ (by simp)⟩,
          if_neg (hne _ (by simp))⟩
  rw [htext, matchIterators_literal hany hasterisk hset hfirst]
  by_cases hfold : fold (codePoint c.char) = fold (codePoint d)
  · rw [if_neg (not_not.mpr hfold)]
    refine (ih hfold).congr rfl ⟨fun h => .literal hfold h, fun h => ?_⟩
    cases h with
    | literal _ h => exact h
  · rw [if_pos hfold]
    refine decides_false rfl fun h => ?_
    cases h with
    | literal hfold' _ => exact hfold hfold'

theorem asterisk_decides {pattern : List Part} (h : ∀ part ∈ pattern, part.WellFormed) {d : Char}
    {subject : List Char} (ih : ∀ subject, ¬Meets fold pattern subject →
      Decides (matchIterators fold (codes (text pattern)) (codes subject)) (Language fold pattern subject))
    (hmeets : ¬Meets fold (.asterisk :: pattern) (d :: subject)) :
    Decides (matchIterators fold (codePoint '*' :: codes (text pattern)) (codePoint d :: codes subject))
      (Language fold (.asterisk :: pattern) (d :: subject)) := by
  have hany : ¬codePoint '*' = codePoint '?' := by decide
  rw [matchIterators, if_neg hany, if_pos rfl]
  cases pattern with
  | nil =>
      have hlast : codes (text []) = [] := rfl
      rw [if_neg (not_not.mpr hlast)]
      have hall : Language fold [.asterisk] (d :: subject) := language_asterisks (by simp) (by simp) _
      exact decides_true rfl hall
  | cons part pattern =>
      rw [if_pos (text_cons_ne_nil part pattern)]
      refine (tryPositions_decides ih (d :: subject) hmeets).congr rfl ?_
      rw [language_asterisk_iff]
      constructor
      · rintro ⟨front, rest, hsplit, -, hrest⟩
        exact ⟨front, rest, hsplit, hrest⟩
      · rintro ⟨front, rest, hsplit, hrest⟩
        cases rest with
        | nil =>
            -- only asterisks stand for nothing, and they stand for the whole subject as well
            have hall : Language fold (part :: pattern) (d :: subject) :=
              language_asterisks (language_nil_iff.mp hrest) (List.cons_ne_nil part pattern) _
            exact ⟨[], d :: subject, rfl, List.cons_ne_nil _ _, hall⟩
        | cons e rest => exact ⟨front, e :: rest, hsplit, List.cons_ne_nil _ _, hrest⟩

theorem set_decides {invert : Bool} {items : List SetItem} (hset : (Part.set invert items).WellFormed) {d : Char}
    (hmeets : ¬MeetsSet fold items d) {pattern : List Part} {subject : List Char}
    (ih : ((∃ item ∈ items, item.Contains fold d) ↔ invert = false) →
      Decides (matchIterators fold (codes (text pattern)) (codes subject)) (Language fold pattern subject)) :
    Decides (matchIterators fold (codes (Part.set invert items).text ++ codes (text pattern))
        (codePoint d :: codes subject)) (Language fold (.set invert items :: pattern) (d :: subject)) := by
  have htext : codes (Part.set invert items).text ++ codes (text pattern) =
      codePoint '[' :: ((if invert then [codePoint '!'] else []) ++
        (codes (items.flatMap SetItem.text) ++ codePoint ']' :: codes (text pattern))) := by
    cases invert with
    | true => simp [Part.text, codes]
    | false => simp [Part.text, codes]
  have hbang : invert = false → (codes (items.flatMap SetItem.text) ++ codePoint ']' :: codes (text pattern)).head? ≠
      some (codePoint '!') := fun hinvert =>
    (head?_codes _ (codePoint ']' :: codes (text pattern)) '!' (by simp [codePoint_inj])).mpr (hset.2 hinvert)
  rw [htext, matchIterators_set invert hbang (by simp) (matchSet_set hset.1 hmeets (codes (text pattern)))]
  by_cases hcontains : ∃ item ∈ items, item.Contains fold d
  · rw [decide_eq_true hcontains]
    cases invert with
    | true =>
        refine decides_false rfl fun h => ?_
        cases h with
        | set hiff _ => exact absurd (hiff.mp hcontains) (by decide)
    | false =>
        have hfits := iff_of_true hcontains (rfl : false = false)
        refine (ih hfits).congr rfl ⟨fun h => .set hfits h, fun h => ?_⟩
        cases h with
        | set _ h => exact h
  · rw [decide_eq_false hcontains]
    cases invert with
    | true =>
        have hfits := iff_of_false hcontains (by decide : ¬true = false)
        refine (ih hfits).congr rfl ⟨fun h => .set hfits h, fun h => ?_⟩
        cases h with
        | set _ h => exact h
    | false =>
        refine decides_false rfl fun h => ?_
        cases h with
        | set hiff _ => exact hcontains (hiff.mpr rfl)

/-- **Matching.**  The answer of `match` is whether the subject is in the language of the pattern. -/
theorem matchIterators_decides {pattern : List Part} (h : ∀ part ∈ pattern, part.WellFormed) {subject : List Char}
    (hmeets : ¬Meets fold pattern subject) :
    Decides (matchIterators fold (codes (text pattern)) (codes subject)) (Language fold pattern subject) := by
  induction pattern generalizing subject with
  | nil =>
      cases subject with
      | nil => exact decides_nil h
      | cons d subject =>
          refine decides_false ?_ fun h => by cases h
          show matchIterators fold [] (codePoint d :: codes subject) = _
          rw [matchIterators]
          rfl
  | cons part pattern ih =>
      cases subject with
      | nil => exact decides_nil h
      | cons d subject =>
          have hpart := h part List.mem_cons_self
          have ih (subject) (hmeets : ¬Meets fold pattern subject) :=
            ih (fun part hmem => h part (List.mem_cons_of_mem _ hmem)) hmeets
          have htext : codes (text (part :: pattern)) = codes part.text ++ codes (text pattern) := codes_append _ _
          have hsubject : codes (d :: subject) = codePoint d :: codes subject := rfl
          rw [htext, hsubject]
          cases part with
          | any =>
              have hstep : matchIterators fold (codes Part.any.text ++ codes (text pattern))
                  (codePoint d :: codes subject) = matchIterators fold (codes (text pattern)) (codes subject) := by
                show matchIterators fold (codePoint '?' :: codes (text pattern)) _ = _
                rw [matchIterators, if_pos rfl]
              refine (ih subject hmeets).congr hstep ⟨.any, fun h => ?_⟩
              cases h with
              | any h => exact h
          | literal c => exact literal_decides hpart fun hfold => ih subject fun hsome => hmeets ⟨hfold, hsome⟩
          | asterisk => exact asterisk_decides (fun part hmem => h part (List.mem_cons_of_mem _ hmem)) ih hmeets
          | set invert items =>
              obtain ⟨hhere, hbehind⟩ := not_or.mp hmeets
              exact set_decides hpart hhere fun hfits => ih subject fun hsome => hbehind ⟨hfits, hsome⟩

end

/-! ### Subjects -/

/-- The first character of a pattern tells whether it begins with a question mark or an asterisk. -/
theorem wildcard_iff {part : Part} (h : part.WellFormed) (pattern : List Part) : ∃ p itp,
    codes (text (part :: pattern)) = p :: itp ∧
      ((p = codePoint '?' ∨ p = codePoint '*') ↔ (part = .any ∨ part = .asterisk)) := by
  cases part with
  | any => exact ⟨codePoint '?', codes (text pattern), rfl, by simp⟩
  | asterisk => exact ⟨codePoint '*', codes (text pattern), rfl, by simp⟩
  | set invert items =>
      refine ⟨codePoint '[', _, rfl, iff_of_false (by simp [codePoint_inj]) (by simp)⟩
  | literal c =>
      obtain ⟨c, escaped⟩ := c
      cases escaped with
      | true =>
          exact ⟨codePoint '\\', codePoint c :: codes (text pattern), rfl,
            iff_of_false (by simp [codePoint_inj]) (by simp)⟩
      | false =>
          have hplain : c ∉ ['*', '?', '[', '\\'] := h rfl
          have hany : c ≠ '?' := fun hc => hplain (by simp [hc])
          have hasterisk : c ≠ '*' := fun hc => hplain (by simp [hc])
          exact ⟨codePoint c, codes (text pattern), rfl,
            iff_of_false (by simp [codePoint_inj, hany, hasterisk]) (by simp)⟩

/-- **Main result.**  For a well-formed pattern `match` says whether the subject is in the language of the
pattern, if no character of it is compared with a range whose end is escaped. -/
theorem matchSubject_decides (toLower : ℤ → ℤ) (options : UInt32) {pattern : List Part}
    (h : ∀ part ∈ pattern, part.WellFormed) (hne : options &&& GLOB_DOT_SPECIAL ≠ 0 → pattern ≠ [])
    {subject : List Char}
    (hmeets : ¬Hidden options pattern subject → ¬Meets (fold toLower options) pattern subject) :
    Decides (matchSubject toLower options (UTF8.utf8 (text pattern)) (UTF8.utf8 subject))
      (Language (fold toLower options) pattern subject ∧ ¬Hidden options pattern subject) := by
  have hdecides (hvisible : ¬Hidden options pattern subject) :
      Decides _ (Language (fold toLower options) pattern subject) := matchIterators_decides h (hmeets hvisible)
  have hdot : (codes subject).head? = some (codePoint '.') ↔ subject.head? = some '.' := by
    cases subject with
    | nil => simp [codes]
    | cons d subject => simp [codes, codePoint_inj]
  rw [matchSubject, codePoints_utf8, codePoints_utf8]
  by_cases hspecial : options &&& GLOB_DOT_SPECIAL ≠ 0 ∧ subject.head? = some '.'
  · obtain ⟨part, pattern, rfl⟩ := List.exists_cons_of_ne_nil (hne hspecial.1)
    obtain ⟨p, itp, htext, hwildcard⟩ := wildcard_iff (h part List.mem_cons_self) pattern
    have hhidden : Hidden options (part :: pattern) subject ↔ (p = codePoint '?' ∨ p = codePoint '*') := by
      rw [hwildcard]
      simp [Hidden, hspecial]
    rw [if_pos ⟨hspecial.1, hdot.mpr hspecial.2⟩]
    change codes (text (part :: pattern)) = _ at htext
    simp only [codes] at htext hdecides
    rw [htext] at hdecides ⊢
    dsimp only
    by_cases hp : p = codePoint '?' ∨ p = codePoint '*'
    · rw [if_pos hp]
      exact decides_false rfl fun hboth => hboth.2 (hhidden.mpr hp)
    · have hvisible : ¬Hidden options (part :: pattern) subject := fun hh => hp (hhidden.mp hh)
      rw [if_neg hp]
      exact (hdecides hvisible).congr rfl (iff_self_and.mpr fun _ => hvisible)
  · have hvisible : ¬Hidden options pattern subject := fun hh => hspecial ⟨hh.1, hh.2.1⟩
    rw [if_neg fun hs => hspecial ⟨hs.1, hdot.mp hs.2⟩]
    exact (hdecides hvisible).congr rfl (iff_self_and.mpr fun _ => hvisible)

/-- A literal, an asterisk, a set of a character and of a range with an escaped end, and a question mark. -/
def guarded : List Part :=
  [.literal ⟨'*', true⟩, .asterisk, .set false [.single ⟨'a', false⟩, .range ⟨'[', true⟩ ⟨']', true⟩], .any]

/-- The set is tried with the character `a` only: the rest fits behind the second one. -/
theorem matchSubject_decides_guarded :
    Decides (matchSubject (· + 1) GLOB_CASELESS (UTF8.utf8 (text guarded)) (UTF8.utf8 ['*', 'a', 'a', 'b']))
      (Language (fold (· + 1) GLOB_CASELESS) guarded ['*', 'a', 'a', 'b'] ∧
        ¬Hidden GLOB_CASELESS guarded ['*', 'a', 'a', 'b']) := by
  have hcontains : (SetItem.single ⟨'a', false⟩).Contains (fold (· + 1) GLOB_CASELESS) 'a' := rfl
  have hend : (SetItem.single ⟨'a', false⟩).PlainEnd := trivial
  refine matchSubject_decides (· + 1) GLOB_CASELESS ?_ (fun _ => List.cons_ne_nil _ _) fun _ => ?_
  · simp [Part.WellFormed, Spelled.Plain, WellFormedSet, SetItem.WellFormed, SetItem.EndsBefore,
      SetItem.text, Spelled.text]
  · have hfits : Language (fold (· + 1) GLOB_CASELESS)
        [.set false [.single ⟨'a', false⟩, .range ⟨'[', true⟩ ⟨']', true⟩], .any] ['a', 'b'] :=
      .set (iff_of_true ⟨_, List.mem_cons_self, hcontains⟩ rfl) (.any .nil)
    simp [Meets, SomeTried, MeetsSet, hcontains, hend, hfits]

/-- The set of the characters from an opening to a closing bracket, with both escaped. -/
def brackets : List Part := [.set false [.range ⟨'[', true⟩ ⟨']', true⟩]]

/-- The range is read to end at the backslash, and the set at the bracket behind it. -/
theorem not_decides_escaped_end :
    (∀ part ∈ brackets, part.WellFormed) ∧ text brackets = ['[', '\\', '[', '-', '\\', ']', ']'] ∧
      Language (fold id 0) brackets [']'] ∧
      matchSubject id 0 (UTF8.utf8 (text brackets)) (UTF8.utf8 [']']) = .ok false ∧
      ¬Decides (matchSubject id 0 (UTF8.utf8 (text brackets)) (UTF8.utf8 [']']))
        (Language (fold id 0) brackets [']'] ∧ ¬Hidden 0 brackets [']']) := by
  have hlanguage : Language (fold id 0) brackets [']'] :=
    .set (iff_of_true ⟨_, List.mem_singleton_self _, by decide⟩ rfl) .nil
  have hset : matchSet (fold id 0) (fold id 0 (codePoint ']')) (codes ['\\', '[', '-', '\\', ']', ']']) =
      .ok ([codePoint ']'], false) := by
    show matchSet _ _ (codePoint '\\' :: codePoint '[' :: codePoint '-' :: codePoint '\\' :: codes [']', ']']) = _
    rw [matchSet_step (by decide) (if_pos rfl) (setLast_range _ _ _), if_neg (by decide), codes, List.map_cons,
      matchSet, if_pos rfl]
    rfl
  have hmatch : matchSubject id 0 (UTF8.utf8 (text brackets)) (UTF8.utf8 [']']) = .ok false := by
    rw [matchSubject, codePoints_utf8, codePoints_utf8, if_neg (fun h => h.1 rfl)]
    exact matchIterators_set false (fun _ => by decide) (List.cons_ne_nil _ _) hset
  refine ⟨?_, rfl, hlanguage, hmatch, ?_⟩
  · simp [brackets, Part.WellFormed, Spelled.Plain, WellFormedSet, SetItem.WellFormed, SetItem.EndsBefore,
      SetItem.text, Spelled.text]
  · rintro ⟨b, hb, hiff⟩
    rw [hmatch] at hb
    obtain rfl := Except.ok.inj hb
    exact absurd (hiff.mpr ⟨hlanguage, fun hh => hh.1 rfl⟩) (by decide)

end Glob

end Poco.Foundation
