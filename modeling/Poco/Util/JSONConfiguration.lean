import Poco.JSON.Query
import Poco.Lib.Bytes
import Poco.Util.PropertyExpansion

/-! # `JSONConfiguration`

A configuration is a JSON object; a key is the text of a path in it.  A value is read by a query; to set
one, the object that holds it is found first, and objects and arrays that are missing are made on the way
(`findStart`).  Objects are changed where they stand: here a function that changes an object is carried to
the place, and the objects around it are put together again.

Setting a value makes the path of the key lead to it when the arrays that are there have room
(`getString_setString`).  The references in a value are expanded as by `AbstractConfiguration`, over bytes and with a
`getRaw` that may throw; `getString_expands` says with the `Expands` of that class what is read. -/

namespace Poco.Util.JSONConfiguration

open Poco.Lib

/-! ### Reading -/

section Reading

variable (stringify : JSON.Var → List UInt8)

/-- `convert<std::string>`; an object or an array is written by `stringify`. -/
def convert : JSON.Var → List UInt8
  | .leaf (.string s) => s
  | .leaf (.other text) => text
  | v => stringify v

/-- `JSONConfiguration::getRaw`. -/
def getRaw (_object : JSON.Object) (key : List UInt8) : Except JSON.Exn (Option (List UInt8)) := do
  let result ← JSON.find (.object _object) key
  return if JSON.isEmpty result then none else some (convert stringify result)

/-- What stands between `${` and `}`: the property, its default value, and what follows. -/
def reference : List UInt8 → List UInt8 × Option (List UInt8) × List UInt8
  | [] => ([], none, [])
  | c :: text =>
      if c = '}'.toUInt8 then ([], none, text)
      else if c = ':'.toUInt8 ∧ text.head? = some '-'.toUInt8 then
        ([], some (text.tail.takeWhile (· ≠ '}'.toUInt8)), (text.tail.dropWhile (· ≠ '}'.toUInt8)).tail)
      else
        let (prop, deflt, rest) := reference text
        (c :: prop, deflt, rest)

/-- The loop of `uncheckedExpand`; every round takes a character. -/
def expandLoop (getRaw : List UInt8 → Except JSON.Exn (Option (List UInt8)))
    (internalExpand : List UInt8 → Except JSON.Exn (List UInt8)) :
    ℕ → List UInt8 → Except JSON.Exn (List UInt8)
  | 0, _ => .ok []
  | _ + 1, [] => .ok []
  | left + 1, c :: text =>
      if c = '$'.toUInt8 ∧ text.head? = some '{'.toUInt8 then do
        let (prop, deflt, rest) := reference text.tail
        let expanded ← match ← getRaw prop with
          | some propValue => internalExpand propValue
          | none => pure (deflt.getD ('$'.toUInt8 :: '{'.toUInt8 :: prop ++ ['}'.toUInt8]))
        let result ← expandLoop getRaw internalExpand left rest
        return expanded ++ result
      else do
        let result ← expandLoop getRaw internalExpand left text
        return c :: result

/-- `internalExpand`, with the number of calls that may still be nested. -/
def internalExpand (_object : JSON.Object) : ℕ → List UInt8 → Except JSON.Exn (List UInt8)
  | 0, _ => .error (.circularReferenceException "Too many property references encountered")
  | depth + 1, value =>
      expandLoop (getRaw stringify _object) (internalExpand _object depth) value.length value

/-- `AbstractConfiguration::getString`. -/
def getString (_object : JSON.Object) (key : List UInt8) : Except JSON.Exn (List UInt8) := do
  match ← getRaw stringify _object key with
  | some value => internalExpand stringify _object 10 value
  | none => .error (.notFoundException key)

end Reading

/-! ### Setting -/

/-- `JSONConfiguration::getIndexes`; a query has the same code. -/
abbrev getIndexes := JSON.getIndexes

/-- The arrays that `findStart` makes for indexes, with the value in the last one. -/
def newArrays : ℕ → List ℕ → JSON.Var → List JSON.Var
  | i, [], v => List.replicate i Tree.empty ++ [v]
  | i, j :: indexes, v => List.replicate i Tree.empty ++ [.array (newArrays j indexes v)]

/-- The way of `findStart` through the arrays that are there; what is missing is appended. -/
def changeElement (change : JSON.Object → Except JSON.Exn JSON.Object) :
    ℕ → List ℕ → List JSON.Var → Except JSON.Exn (List JSON.Var)
  | i, [], arr =>
      match Tree.element arr i with
      | .empty => do
          let newObject ← change []
          return arr ++ [.object newObject]
      | .object values => do
          let values ← change values
          return arr.set i (.object values)
      | _ => .error (.syntaxException "Expected a JSON object" [])
  | i, j :: indexes, arr =>
      match Tree.element arr i with
      | .array next => do
          let next ← changeElement change j indexes next
          return arr.set i (.array next)
      | _ => do
          let next ← changeElement change j indexes []
          return arr ++ [.array next]

/-- `JSONConfiguration::findStart`, and `change` for the object that it returns. -/
def findStart (change : JSON.Object → Except JSON.Exn JSON.Object) :
    List (List UInt8) → JSON.Object → Except JSON.Exn JSON.Object
  | [], currentObject => change currentObject
  | token :: tokens, currentObject => do
      let (name, indexes) ← getIndexes token
      match Tree.child currentObject name, indexes with
      | .empty, [] => do
          let newObject ← findStart change tokens []
          return Tree.setChild currentObject name (.object newObject)
      | .empty, i :: indexes => do
          let newObject ← findStart change tokens []
          return Tree.setChild currentObject name (.array (newArrays i indexes (.object newObject)))
      | .object values, [] => do
          let values ← findStart change tokens values
          return Tree.setChild currentObject name (.object values)
      | .array arr, i :: indexes => do
          let arr ← changeElement (findStart change tokens) i indexes arr
          return Tree.setChild currentObject name (.array arr)
      | _, [] => .error (.syntaxException "Expected a JSON object" [])
      | _, _ :: _ => .error (.syntaxException "Expected a JSON array" [])

/-- The way of `setValue` through the arrays behind the last name.  An array that is missing is appended
behind nulls that reach to its index. -/
def setIndexes : ℕ → List ℕ → JSON.Var → List JSON.Var → List JSON.Var
  | i, [], value, arr => Tree.setElement arr i value
  | i, j :: indexes, value, arr =>
      match Tree.element arr i with
      | .array next => arr.set i (.array (setIndexes j indexes value next))
      | _ => arr ++ List.replicate (i + 1 - arr.length) Tree.empty ++ [.array (setIndexes j indexes value [])]

/-- What `setValue` does to the object that `findStart` returns. -/
def setPart (lastPart : List UInt8) (value : JSON.Var) (parentObject : JSON.Object) :
    Except JSON.Exn JSON.Object := do
  let (name, indexes) ← getIndexes lastPart
  match indexes, Tree.child parentObject name with
  | [], _ => return Tree.setChild parentObject name value
  | i :: indexes, .empty => return Tree.setChild parentObject name (.array (setIndexes i indexes value []))
  | i :: indexes, .array arr => return Tree.setChild parentObject name (.array (setIndexes i indexes value arr))
  | _ :: _, _ => .error (.syntaxException "Expected a JSON array" [])

/-- `JSONConfiguration::setValue`. -/
def setValue (_object : JSON.Object) (key : List UInt8) (value : JSON.Var) :
    Except JSON.Exn JSON.Object :=
  match (JSON.tokenizer key).getLast? with
  | some lastPart => findStart (setPart lastPart value) (JSON.tokenizer key).dropLast _object
  | none => .error .rangeException

/-- `JSONConfiguration::setString`. -/
def setString (_object : JSON.Object) (key value : List UInt8) : Except JSON.Exn JSON.Object :=
  setValue _object key (.leaf (.string value))

/-! ### Room in the arrays on the way -/

/-- `findStart` finds an array or an object in an array, or takes the next free place. -/
def Fits (P : JSON.Object → Prop) : ℕ → List ℕ → List JSON.Var → Prop
  | i, [], arr =>
      match Tree.element arr i with
      | .object values => P values
      | _ => i = arr.length ∧ P []
  | i, j :: indexes, arr =>
      match Tree.element arr i with
      | .array next => Fits P j indexes next
      | _ => i = arr.length ∧ Fits P j indexes []

/-- `setValue` finds an array at every index but the last one. -/
def Nested : ℕ → List ℕ → List JSON.Var → Prop
  | _, [], _ => True
  | i, j :: indexes, arr =>
      match Tree.element arr i with
      | .array next => Nested j indexes next
      | _ => False

/-- The elements of an array; there are none where it is missing. -/
def elements : JSON.Var → List JSON.Var
  | .array arr => arr
  | _ => []

/-- There is room for the value at the end of a path: an array on the way holds what the path goes on with,
where an array that has to be made behind an earlier name may also take the next free place. -/
def Room (last : JSON.Token) : List JSON.Token → JSON.Object → Prop
  | [], object =>
      match last.indexes with
      | [] => True
      | i :: indexes => Nested i indexes (elements (Tree.child object last.name))
  | t :: ts, object =>
      match Tree.child object t.name, t.indexes with
      | .object values, [] => Room last ts values
      | .array arr, i :: indexes => Fits (Room last ts) i indexes arr
      | _, _ => Room last ts []

/-! ### A value is put at the end of its path -/

theorem bind_pure_ok {α β : Type} {x : Except JSON.Exn α} {f : α → β} {b : β}
    (h : (do let a ← x; return f a) = Except.ok b) : ∃ a, x = .ok a ∧ b = f a := by
  cases x with
  | error e => cases h
  | ok a => exact ⟨a, rfl, (Except.ok.inj h).symm⟩

section Put

variable {v t' : JSON.Var} {p : List (Step (List UInt8))}

theorem put_newObject (h : Tree.Put v (.object []) p t') : Tree.Put v .empty p t' := by
  cases h with
  | here => exact .here _
  | object h => exact .newObject h

theorem put_newArray (h : Tree.Put v (.array []) p t') : Tree.Put v .empty p t' := by
  cases h with
  | here => exact .here _
  | array h => exact .newArray h

theorem element_ge {arr : List JSON.Var} {i : ℕ} (h : arr.length ≤ i) : Tree.element arr i = .empty := by
  rw [Tree.element, List.getD_eq_getElem?_getD, List.getElem?_eq_none h]
  rfl

theorem lt_of_element {arr : List JSON.Var} {i : ℕ} (h : Tree.element arr i ≠ .empty) : i < arr.length := by
  by_contra hge
  exact h (element_ge (not_lt.mp hge))

theorem newArrays_put (h : Tree.Put v .empty p t') (i : ℕ) (indexes : List ℕ) :
    Tree.Put v .empty ((i :: indexes).map .index ++ p) (.array (newArrays i indexes t')) := by
  induction indexes generalizing i with
  | nil =>
      rw [newArrays, ← Tree.setElement_nil]
      exact .newArray h
  | cons j indexes ih =>
      rw [newArrays, ← Tree.setElement_nil]
      exact .newArray (ih j)

theorem put_element {arr : List JSON.Var} {i : ℕ} {old : JSON.Var} (hold : Tree.element arr i = old)
    (hne : old ≠ .empty) (h : Tree.Put v old p t') :
    Tree.Put v (.array arr) (.index i :: p) (.array (arr.set i t')) := by
  subst hold
  rw [← Tree.setElement_of_lt (lt_of_element hne)]
  exact .array h

theorem put_append {arr : List JSON.Var} (h : Tree.Put v .empty p t') :
    Tree.Put v (.array arr) (.index arr.length :: p) (.array (arr ++ [t'])) := by
  rw [← Tree.setElement_length]
  refine .array ?_
  rw [element_ge le_rfl]
  exact h

theorem setIndexes_put (v : JSON.Var) {i : ℕ} {indexes : List ℕ} {arr : List JSON.Var}
    (h : Nested i indexes arr) :
    Tree.Put v (.array arr) ((i :: indexes).map .index) (.array (setIndexes i indexes v arr)) := by
  induction indexes generalizing i arr with
  | nil => exact .array (.here _)
  | cons j indexes ih =>
      unfold Nested at h
      unfold setIndexes
      cases hold : Tree.element arr i with
      | array next =>
          rw [hold] at h
          exact put_element hold (by simp) (ih h)
      | empty | leaf a | object values =>
          rw [hold] at h
          exact h.elim

theorem changeElement_put {change : JSON.Object → Except JSON.Exn JSON.Object} {P : JSON.Object → Prop}
    (hchange : ∀ values values', P values → change values = .ok values' →
      Tree.Put v (.object values) p (.object values'))
    {i : ℕ} {indexes : List ℕ} {arr arr' : List JSON.Var} (hfits : Fits P i indexes arr)
    (h : changeElement change i indexes arr = .ok arr') :
    Tree.Put v (.array arr) ((i :: indexes).map .index ++ p) (.array arr') := by
  induction indexes generalizing i arr arr' with
  | nil =>
      unfold Fits at hfits
      unfold changeElement at h
      cases hold : Tree.element arr i with
      | empty =>
          rw [hold] at hfits h
          obtain ⟨rfl, hP⟩ := hfits
          obtain ⟨values, hvalues, rfl⟩ := bind_pure_ok h
          exact put_append (put_newObject (hchange _ _ hP hvalues))
      | object values =>
          rw [hold] at hfits h
          obtain ⟨values', hvalues, rfl⟩ := bind_pure_ok h
          exact put_element hold (by simp) (hchange _ _ hfits hvalues)
      | leaf a | array next =>
          rw [hold] at h
          cases h
  | cons j indexes ih =>
      unfold Fits at hfits
      unfold changeElement at h
      cases hold : Tree.element arr i with
      | array next =>
          rw [hold] at hfits h
          obtain ⟨next', hnext, rfl⟩ := bind_pure_ok h
          exact put_element hold (by simp) (ih hfits hnext)
      | empty | leaf a | object values =>
          rw [hold] at hfits h
          obtain ⟨rfl, hfits⟩ := hfits
          obtain ⟨next', hnext, rfl⟩ := bind_pure_ok h
          exact put_append (put_newArray (ih hfits hnext))

theorem setPart_put {text : List UInt8} {t : JSON.Token} {values values' : JSON.Object}
    (htext : JSON.TokenText text t) (hroom : Room t [] values) (h : setPart text v values = .ok values') :
    Tree.Put v (.object values) t.steps (.object values') := by
  obtain ⟨name, indexes⟩ := t
  unfold Room at hroom
  rw [setPart, getIndexes, JSON.getIndexes_text htext] at h
  dsimp only [JSON.Token.steps] at hroom ⊢
  cases indexes with
  | nil =>
      obtain rfl := Except.ok.inj h
      exact .object (.here _)
  | cons i indexes =>
      dsimp only at hroom
      change (match i :: indexes, Tree.child values name with
        | [], _ => _ | i :: indexes, .empty => _ | i :: indexes, .array arr => _ | _ :: _, _ => _) = _ at h
      cases hold : Tree.child values name with
      | empty =>
          rw [hold] at h hroom
          obtain rfl := Except.ok.inj h
          refine .object ?_
          rw [hold]
          exact put_newArray (setIndexes_put v hroom)
      | array arr =>
          rw [hold] at h hroom
          obtain rfl := Except.ok.inj h
          refine .object ?_
          rw [hold]
          exact setIndexes_put v hroom
      | leaf a | object child =>
          rw [hold] at h
          cases h

theorem findStart_put {change : JSON.Object → Except JSON.Exn JSON.Object} {last : JSON.Token}
    (hchange : ∀ values values', Room last [] values → change values = .ok values' →
      Tree.Put v (.object values) last.steps (.object values'))
    {texts : List (List UInt8)} {ts : List JSON.Token} (htexts : List.Forall₂ JSON.TokenText texts ts)
    {values values' : JSON.Object} (hroom : Room last ts values)
    (h : findStart change texts values = .ok values') :
    Tree.Put v (.object values) (JSON.steps (ts ++ [last])) (.object values') := by
  induction htexts generalizing values values' with
  | nil =>
      have hsteps : JSON.steps ([] ++ [last]) = last.steps := by simp [JSON.steps]
      rw [hsteps]
      exact hchange _ _ hroom h
  | @cons text t texts ts htext _ ih =>
      have hsteps : JSON.steps (t :: ts ++ [last]) =
          .name t.name :: (t.indexes.map .index ++ JSON.steps (ts ++ [last])) := rfl
      rw [hsteps]
      rw [findStart, getIndexes, JSON.getIndexes_text htext] at h
      unfold Room at hroom
      obtain ⟨name, indexes⟩ := t
      dsimp only at hroom h ⊢
      simp only [bind, Except.bind] at h
      cases hold : Tree.child values name with
      | empty =>
          cases indexes with
          | nil =>
              rw [hold] at h hroom
              obtain ⟨values₁, h₁, rfl⟩ := bind_pure_ok h
              refine .object ?_
              rw [hold]
              exact put_newObject (ih hroom h₁)
          | cons i indexes =>
              rw [hold] at h hroom
              obtain ⟨values₁, h₁, rfl⟩ := bind_pure_ok h
              refine .object ?_
              rw [hold]
              exact newArrays_put (put_newObject (ih hroom h₁)) i indexes
      | object child =>
          cases indexes with
          | nil =>
              rw [hold] at h hroom
              obtain ⟨child', h₁, rfl⟩ := bind_pure_ok h
              refine .object ?_
              rw [hold]
              exact ih hroom h₁
          | cons i indexes =>
              rw [hold] at h
              cases h
      | array arr =>
          cases indexes with
          | nil =>
              rw [hold] at h
              cases h
          | cons i indexes =>
              rw [hold] at h hroom
              obtain ⟨arr', h₁, rfl⟩ := bind_pure_ok h
              refine .object ?_
              rw [hold]
              exact changeElement_put (fun values values' => ih) hroom h₁
      | leaf a =>
          cases indexes with
          | nil | cons i indexes =>
              rw [hold] at h
              cases h

end Put

/-- What `setString` has set stands at the end of the path of its key. -/
theorem setString_put {object object' : JSON.Object} {key value : List UInt8} {ts : List JSON.Token}
    {last : JSON.Token} (hkey : JSON.KeyText key (ts ++ [last])) (hroom : Room last ts object)
    (h : setString object key value = .ok object') :
    Tree.Put (.leaf (.string value)) (.object object) (JSON.steps (ts ++ [last])) (.object object') := by
  obtain ⟨texts, htokens, htexts⟩ := hkey.tokens
  obtain ⟨front, text, rfl, hfront, htext⟩ := JSON.forall₂_concat htexts
  rw [setString, setValue, htokens, List.getLast?_concat, List.dropLast_concat] at h
  exact findStart_put (fun values values' => setPart_put htext) hfront hroom h

/-! ### Reading it back -/

section ReadBack

variable (stringify : JSON.Var → List UInt8)

theorem getRaw_eq {key : List UInt8} {ts : List JSON.Token} (hkey : JSON.KeyText key ts)
    (object : JSON.Object) : getRaw stringify object key =
      .ok (if JSON.isEmpty (Tree.follow (JSON.steps ts) (.object object)) then none
        else some (convert stringify (Tree.follow (JSON.steps ts) (.object object)))) := by
  rw [getRaw, JSON.find_eq_follow hkey]
  rfl

/-! #### Expanding as `AbstractConfiguration`

The bytes are taken for characters.  A key that cannot be read throws here, and has no value there. -/

/-- The characters of bytes. -/
def chars (s : List UInt8) : List Char := s.map fun c => Char.ofNat c.toNat

/-- `getRaw` for characters. -/
def rawChars (getRaw : List UInt8 → Except JSON.Exn (Option (List UInt8))) (name : List Char) : Option (List Char) :=
  match getRaw (name.map Char.toUInt8) with
  | .ok value => value.map chars
  | .error _ => none

theorem toUInt8_ofNat (c : UInt8) : (Char.ofNat c.toNat).toUInt8 = c := by
  revert c
  apply forall_byte
  decide +kernel

theorem map_toUInt8_chars (s : List UInt8) : (chars s).map Char.toUInt8 = s := by
  rw [chars, List.map_map]
  exact List.map_id'' toUInt8_ofNat s

theorem ofNat_eq_iff (c d : UInt8) : Char.ofNat c.toNat = Char.ofNat d.toNat ↔ c = d := by
  refine ⟨fun h => ?_, fun h => by rw [h]⟩
  rw [← toUInt8_ofNat c, h, toUInt8_ofNat]

theorem length_chars (s : List UInt8) : (chars s).length = s.length := List.length_map _

@[simp] theorem chars_nil : chars [] = [] := rfl

theorem chars_append (s t : List UInt8) : chars (s ++ t) = chars s ++ chars t := List.map_append

theorem tail_chars (s : List UInt8) : (chars s).tail = chars s.tail := by cases s <;> rfl

theorem head?_chars (s : List UInt8) (d : UInt8) : (chars s).head? = some (Char.ofNat d.toNat) ↔ s.head? = some d := by
  cases s with
  | nil => simp [chars]
  | cons c s => simp [chars, ofNat_eq_iff]

theorem takeWhile_chars (s : List UInt8) :
    (chars s).takeWhile (· != '}') = chars (s.takeWhile (· ≠ '}'.toUInt8)) ∧
      (chars s).dropWhile (· != '}') = chars (s.dropWhile (· ≠ '}'.toUInt8)) := by
  induction s with
  | nil => exact ⟨rfl, rfl⟩
  | cons c s ih =>
      have hc : Char.ofNat c.toNat = '}' ↔ c = '}'.toUInt8 := ofNat_eq_iff c '}'.toUInt8
      by_cases h : c = '}'.toUInt8
      · subst h
        exact ⟨rfl, rfl⟩
      · have hne : Char.ofNat c.toNat ≠ '}' := fun heq => h (hc.mp heq)
        constructor
        · simpa [chars, hne, h] using ih.1
        · simpa [chars, hne, h] using ih.2

theorem scanReference_chars (prop text : List UInt8) :
    AbstractConfiguration.scanReference (chars prop) (chars text) =
      (chars (prop ++ (reference text).1), (reference text).2.1.map chars, chars (reference text).2.2) := by
  induction text generalizing prop with
  | nil => simp [chars, reference, AbstractConfiguration.scanReference]
  | cons c text ih =>
      have hbrace : Char.ofNat c.toNat = '}' ↔ c = '}'.toUInt8 := ofNat_eq_iff c '}'.toUInt8
      have hcolon : Char.ofNat c.toNat = ':' ↔ c = ':'.toUInt8 := ofNat_eq_iff c ':'.toUInt8
      have hdash : (chars text).head? = some '-' ↔ text.head? = some '-'.toUInt8 := head?_chars text '-'.toUInt8
      have hcons : chars (c :: text) = Char.ofNat c.toNat :: chars text := rfl
      rw [hcons, reference]
      by_cases hc : c = '}'.toUInt8
      · rw [if_pos hc, hbrace.mpr hc, AbstractConfiguration.scanReference, List.append_nil]
        rfl
      rw [if_neg hc]
      by_cases hd : c = ':'.toUInt8 ∧ text.head? = some '-'.toUInt8
      · obtain ⟨text', rfl⟩ := List.head?_eq_some_iff.mp hd.2
        have htext : chars ('-'.toUInt8 :: text') = '-' :: chars text' := rfl
        rw [if_pos hd, hcolon.mpr hd.1, htext, AbstractConfiguration.scanReference, (takeWhile_chars text').1,
          (takeWhile_chars text').2, List.append_nil, List.tail_cons, tail_chars]
        rfl
      · rw [if_neg hd, AbstractConfiguration.scanReference]
        · have hsnoc : chars prop ++ [Char.ofNat c.toNat] = chars (prop ++ [c]) := (chars_append prop [c]).symm
          rw [hsnoc, ih, List.append_assoc]
          rfl
        · exact fun h => hc (hbrace.mp h)
        · intro it h htext
          exact hd ⟨hcolon.mp h, hdash.mp (by rw [htext]; rfl)⟩

theorem rawChars_of_ok {getRaw : List UInt8 → Except JSON.Exn (Option (List UInt8))} {key : List UInt8}
    {value : Option (List UInt8)} (h : getRaw key = .ok value) : rawChars getRaw (chars key) = value.map chars := by
  rw [rawChars, map_toUInt8_chars, h]

theorem exists_of_bind_ok {α β : Type} {x : Except JSON.Exn α} {f : α → Except JSON.Exn β} {b : β}
    (h : x >>= f = .ok b) : ∃ a, x = .ok a ∧ f a = .ok b := by
  cases x with
  | error e => cases h
  | ok a => exact ⟨a, rfl, h⟩

/-- A reference is replaced by the same text in `uncheckedExpand`, if the calls for values give the same. -/
theorem uncheckedExpand_reference {getRaw : List UInt8 → Except JSON.Exn (Option (List UInt8))}
    {internalExpand : List UInt8 → Except JSON.Exn (List UInt8)}
    {inner : List Char → ℤ → Option AbstractConfiguration.Outcome} {depth : ℤ}
    (hinner : ∀ value r, internalExpand value = .ok r → inner (chars value) depth = some (.ok (chars r), depth))
    {text expanded : List UInt8} {raw : Option (List UInt8)} (hraw : getRaw (reference text).1 = .ok raw)
    (hok : (match raw with
      | some propValue => internalExpand propValue
      | none => pure ((reference text).2.1.getD
          ('$'.toUInt8 :: '{'.toUInt8 :: (reference text).1 ++ ['}'.toUInt8]))) = .ok expanded)
    (result : List UInt8) :
    AbstractConfiguration.uncheckedExpand (rawChars getRaw) inner (chars result) ('$' :: '{' :: chars text) depth =
      AbstractConfiguration.uncheckedExpand (rawChars getRaw) inner (chars (result ++ expanded))
        (chars (reference text).2.2) depth := by
  have hscan := scanReference_chars [] text
  rw [chars_nil, List.nil_append] at hscan
  rw [AbstractConfiguration.uncheckedExpand, hscan]
  dsimp only
  rw [rawChars_of_ok hraw]
  cases raw with
  | some value =>
      rw [Option.map_some]
      dsimp only
      rw [hinner value expanded hok, chars_append]
  | none =>
      obtain rfl := Except.ok.inj hok
      rw [Option.map_none]
      dsimp only
      cases (reference text).2.1 with
      | some deflt =>
          rw [Option.map_some, Option.getD_some, chars_append]
      | none =>
          have hbraces : chars result ++ ['$', '{'] ++ chars (reference text).1 ++ ['}'] =
              chars (result ++ ('$'.toUInt8 :: '{'.toUInt8 :: (reference text).1 ++ ['}'.toUInt8])) := by
            simp only [chars, List.map_append, List.map_cons, List.append_assoc, List.cons_append]
            rfl
          rw [Option.map_none, Option.getD_none]
          dsimp only
          rw [hbraces]

/-- The loop writes what `uncheckedExpand` writes, if the calls for values do. -/
theorem uncheckedExpand_chars {getRaw : List UInt8 → Except JSON.Exn (Option (List UInt8))}
    {internalExpand : List UInt8 → Except JSON.Exn (List UInt8)}
    {inner : List Char → ℤ → Option AbstractConfiguration.Outcome} {depth : ℤ}
    (hinner : ∀ value r, internalExpand value = .ok r → inner (chars value) depth = some (.ok (chars r), depth))
    {left : ℕ} {text r : List UInt8} (hleft : text.length ≤ left) (result : List UInt8)
    (hok : expandLoop getRaw internalExpand left text = .ok r) :
    AbstractConfiguration.uncheckedExpand (rawChars getRaw) inner (chars result) (chars text) depth =
      some (.ok (chars (result ++ r)), depth) := by
  induction left generalizing text r result with
  | zero =>
      obtain rfl : text = [] := List.length_eq_zero_iff.mp (Nat.le_zero.mp hleft)
      obtain rfl := Except.ok.inj hok
      rw [List.append_nil, chars_nil, AbstractConfiguration.uncheckedExpand]
  | succ left ih =>
      cases text with
      | nil =>
          obtain rfl := Except.ok.inj hok
          rw [List.append_nil, chars_nil, AbstractConfiguration.uncheckedExpand]
      | cons c text =>
          rw [List.length_cons, Nat.add_le_add_iff_right] at hleft
          rw [expandLoop] at hok
          by_cases hreference : c = '$'.toUInt8 ∧ text.head? = some '{'.toUInt8
          · obtain ⟨text, rfl⟩ := List.head?_eq_some_iff.mp hreference.2
            have htext : chars (c :: '{'.toUInt8 :: text) = '$' :: '{' :: chars text := by rw [hreference.1]; rfl
            have hrest : (reference text).2.2.length ≤ left := by
              have hlen := AbstractConfiguration.length_scanReference [] (chars text)
              rw [← chars_nil, scanReference_chars, length_chars, length_chars] at hlen
              rw [List.length_cons] at hleft
              omega
            rw [if_pos hreference, List.tail_cons] at hok
            obtain ⟨raw, hraw, hok⟩ := exists_of_bind_ok hok
            obtain ⟨expanded, hexpanded, hok⟩ : ∃ expanded, (match raw with
                | some propValue => internalExpand propValue
                | none => pure ((reference text).2.1.getD
                    ('$'.toUInt8 :: '{'.toUInt8 :: (reference text).1 ++ ['}'.toUInt8]))) = .ok expanded ∧
                (expandLoop getRaw internalExpand left (reference text).2.2 >>=
                  fun result => pure (expanded ++ result)) = .ok r := by
              cases raw with
              | some value => exact exists_of_bind_ok hok
              | none => exact exists_of_bind_ok hok
            obtain ⟨behind, hbehind, hok⟩ := exists_of_bind_ok hok
            obtain rfl := Except.ok.inj hok
            rw [htext, uncheckedExpand_reference hinner hraw hexpanded, ih hrest _ hbehind, List.append_assoc]
          · rw [if_neg hreference] at hok
            obtain ⟨behind, hbehind, hok⟩ := exists_of_bind_ok hok
            obtain rfl := Except.ok.inj hok
            have hcons : chars (c :: text) = Char.ofNat c.toNat :: chars text := rfl
            have hsnoc : chars result ++ [Char.ofNat c.toNat] = chars (result ++ [c]) := (chars_append result [c]).symm
            rw [hcons, AbstractConfiguration.uncheckedExpand, hsnoc, ih hleft _ hbehind, List.append_assoc]
            · rfl
            · intro it h htext
              refine hreference ⟨(ofNat_eq_iff c '$'.toUInt8).mp h, (head?_chars text '{'.toUInt8).mp ?_⟩
              rw [htext]
              rfl

theorem internalExpand_chars {object : JSON.Object} {left fuel : ℕ} {value r : List UInt8} (hfuel : left ≤ fuel)
    (hok : internalExpand stringify object left value = .ok r) :
    AbstractConfiguration.internalExpand (rawChars (getRaw stringify object)) fuel (chars value) (10 - left) =
      some (.ok (chars r), (10 - left : ℤ)) := by
  induction left generalizing fuel value r with
  | zero => cases hok
  | succ left ih =>
      obtain ⟨fuel, rfl⟩ := Nat.exists_eq_add_of_le' (Nat.le_of_add_left_le hfuel)
      rw [internalExpand] at hok
      have hdepth : (10 : ℤ) - ((left + 1 : ℕ) : ℤ) + 1 = 10 - left := by omega
      rw [AbstractConfiguration.internalExpand, hdepth, if_neg (by omega)]
      have hloop := uncheckedExpand_chars (fun value r hr => ih (Nat.le_of_succ_le_succ hfuel) hr) le_rfl [] hok
      rw [chars_nil, List.nil_append] at hloop
      rw [hloop, Option.map_some, ← hdepth, Int.add_sub_cancel]

/-- What is read is the value of the key with its references replaced, as `AbstractConfiguration` replaces them. -/
theorem getString_expands {object : JSON.Object} {key r : List UInt8}
    (hok : getString stringify object key = .ok r) :
    ∃ value, getRaw stringify object key = .ok (some value) ∧
      AbstractConfiguration.Expands (rawChars (getRaw stringify object)) true (chars value) (chars r) := by
  obtain ⟨raw, hraw, hok⟩ := exists_of_bind_ok hok
  cases raw with
  | none => cases hok
  | some value =>
      have hanswers : AbstractConfiguration.Answers (rawChars (getRaw stringify object)) true (chars value) 0
          (AbstractConfiguration.internalExpand (rawChars (getRaw stringify object)) 11 (chars value) 0) :=
        AbstractConfiguration.internalExpand_answers (chars value) (by decide) (by decide)
      obtain ⟨returned, hreturned, hexpands⟩ := hanswers
      have hchars := internalExpand_chars stringify (show 10 ≤ 11 by decide) hok
      obtain ⟨rfl, -⟩ := Prod.mk.inj (Option.some.inj (hchars.symm.trans hreturned))
      refine ⟨value, hraw, ?_⟩
      rcases hexpands with ⟨e, he⟩ | ⟨text, htext, hexpands⟩
      · cases he
      · obtain rfl := Except.ok.inj htext
        exact hexpands

theorem expandLoop_plain (getRaw : List UInt8 → Except JSON.Exn (Option (List UInt8)))
    (expand : List UInt8 → Except JSON.Exn (List UInt8)) {value : List UInt8}
    (h : ¬ JSON.ascii "$\x7b" <:+: value) : expandLoop getRaw expand value.length value = .ok value := by
  induction value with
  | nil => rfl
  | cons c value ih =>
      have hrest : ¬ JSON.ascii "$\x7b" <:+: value :=
        fun h' => h (h'.trans (List.suffix_cons c value).isInfix)
      have hfirst : ¬ (c = '$'.toUInt8 ∧ value.head? = some '{'.toUInt8) := by
        rintro ⟨rfl, hhead⟩
        cases value with
        | nil => cases hhead
        | cons d value =>
            obtain rfl := Option.some.inj hhead
            exact h ⟨[], value, rfl⟩
      rw [List.length_cons, expandLoop, if_neg hfirst, ih hrest]
      rfl

/-- **What has been set is read back**, with its references expanded, when the arrays on the way have room;
what other paths lead to stays the same, unless they have an index where the key has a name. -/
theorem getString_setString {object object' : JSON.Object} {key value : List UInt8}
    {ts : List JSON.Token} {last : JSON.Token} (hkey : JSON.KeyText key (ts ++ [last]))
    (hroom : Room last ts object) (hset : setString object key value = .ok object') :
    getString stringify object' key = internalExpand stringify object' 10 value ∧
      (¬ JSON.ascii "$\x7b" <:+: value → getString stringify object' key = .ok value) ∧
      ∀ other us, JSON.KeyText other us → ¬ JSON.steps (ts ++ [last]) <+: JSON.steps us →
        ¬ JSON.steps us <+: JSON.steps (ts ++ [last]) →
        ¬ Tree.IndexForName (JSON.steps (ts ++ [last])) (JSON.steps us) →
        getRaw stringify object' other = getRaw stringify object other := by
  have hput := setString_put hkey hroom hset
  have hget : getString stringify object' key = internalExpand stringify object' 10 value := by
    rw [getString, getRaw_eq stringify hkey, hput.follow_eq]
    rfl
  refine ⟨hget, fun hplain => ?_, fun other us hother hpq hqp hkind => ?_⟩
  · rw [hget, internalExpand]
    exact expandLoop_plain _ _ hplain
  · rw [getRaw_eq stringify hother, getRaw_eq stringify hother, hput.follow_apart hpq hqp hkind]

end ReadBack

/-- A value behind an array that is missing. -/
theorem getString_setString_new : ∃ object,
    setString [] (JSON.ascii "a[1].b[0]") (JSON.ascii "v") = .ok object ∧
      getString (fun _ => []) object (JSON.ascii "a[1].b[0]") = .ok (JSON.ascii "v") := by
  have ha : JSON.TokenText (JSON.ascii "a[1]") ⟨JSON.ascii "a", [1]⟩ :=
    ⟨⟨by decide, by decide, by decide⟩, JSON.ascii "[1]", rfl,
      @JSON.IndexText.cons (JSON.ascii "1") [] 1 [] (by decide +kernel) (by decide +kernel) rfl .nil⟩
  have hb : JSON.TokenText (JSON.ascii "b[0]") ⟨JSON.ascii "b", [0]⟩ :=
    ⟨⟨by decide, by decide, by decide⟩, JSON.ascii "[0]", rfl,
      @JSON.IndexText.cons (JSON.ascii "0") [] 0 [] (by decide +kernel) (by decide +kernel) rfl .nil⟩
  have hkey : JSON.KeyText (JSON.ascii "a[1].b[0]") ([⟨JSON.ascii "a", [1]⟩] ++ [⟨JSON.ascii "b", [0]⟩]) :=
    ⟨by simp, _, .cons ha (.cons hb .nil), rfl⟩
  have hset : setString [] (JSON.ascii "a[1].b[0]") (JSON.ascii "v") = .ok
      [(JSON.ascii "a", .array [.empty, .object [(JSON.ascii "b", .array [.leaf (.string (JSON.ascii "v"))])]])] :=
    rfl
  have hroom : Room ⟨JSON.ascii "b", [0]⟩ [⟨JSON.ascii "a", [1]⟩] [] := trivial
  exact ⟨_, hset, (getString_setString _ hkey hroom hset).2.1 (by decide)⟩

/-- An array is put behind its place in an array that is new; the references in a value are expanded; an
index of an object is passed over. -/
theorem not_getString_setString :
    (do getString (fun _ => []) (← setString [] (JSON.ascii "a[0][0]") (JSON.ascii "v")) (JSON.ascii "a[0][0]")) =
        .error (.notFoundException (JSON.ascii "a[0][0]")) ∧
      (do getString (fun _ => []) (← setString [(JSON.ascii "b", .leaf (.string (JSON.ascii "w")))]
        (JSON.ascii "a") (JSON.ascii "${b}")) (JSON.ascii "a")) = .ok (JSON.ascii "w") ∧
      getRaw (fun _ => []) [] (JSON.ascii "a[0].b") = .ok none ∧
      (do getRaw (fun _ => []) (← setString [] (JSON.ascii "a.b") (JSON.ascii "v")) (JSON.ascii "a[0].b")) =
        .ok (some (JSON.ascii "v")) := by
  decide

end Poco.Util.JSONConfiguration
