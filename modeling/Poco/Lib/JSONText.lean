import Poco.Lib.JSON

/-! # Texts of RFC 8259

A JSON text is a value with white space around it.  A value is a literal name, a number, a string, or an array
or object of values; white space may stand before and behind each of the structural characters
(`JSONValue`).  Of the numbers only the integers are described. -/

namespace Poco.Lib

/-- A JSON value; an object is the list of its members. -/
inductive JSON
  | null
  | bool (b : Bool)
  | int (i : ℤ)
  | string (cs : List Char)
  | array (elements : List JSON)
  | object (members : List (List Char × JSON))

/-- White space: spaces, tabs, line feeds and carriage returns. -/
def IsWs (w : List UInt8) : Prop := ∀ c ∈ w, c = 0x20 ∨ c = 0x09 ∨ c = 0x0A ∨ c = 0x0D

/-- The number that decimal digits stand for. -/
def decimalNumber (ds : List UInt8) : ℕ := ds.foldl (fun n c => n * 10 + (c.toNat - 0x30)) 0

/-- An integer: digits without leading zeros, with a minus sign before those of a negative number. -/
def JSONInt (bs : List UInt8) (i : ℤ) : Prop :=
  ∃ (negative : Bool) (ds : List UInt8), bs = (if negative then [0x2D] else []) ++ ds ∧ ds ≠ [] ∧
    (∀ c ∈ ds, 0x30 ≤ c ∧ c ≤ 0x39) ∧ (ds.head? = some 0x30 → ds = [0x30]) ∧
    i = if negative then -(decimalNumber ds : ℤ) else decimalNumber ds

mutual

/-- `bs` is a value, without white space around it. -/
inductive JSONValue : List UInt8 → JSON → Prop
  | null : JSONValue [0x6E, 0x75, 0x6C, 0x6C] .null
  | false_ : JSONValue [0x66, 0x61, 0x6C, 0x73, 0x65] (.bool false)
  | true_ : JSONValue [0x74, 0x72, 0x75, 0x65] (.bool true)
  | int {bs : List UInt8} {i : ℤ} : JSONInt bs i → JSONValue bs (.int i)
  | string {bs : List UInt8} {cs : List Char} : JSONString bs cs → JSONValue bs (.string cs)
  | emptyArray {w : List UInt8} : IsWs w → JSONValue (0x5B :: w ++ [0x5D]) (.array [])
  | array {bs : List UInt8} {elements : List JSON} : JSONElements bs elements →
      JSONValue (0x5B :: bs ++ [0x5D]) (.array elements)
  | emptyObject {w : List UInt8} : IsWs w → JSONValue (0x7B :: w ++ [0x7D]) (.object [])
  | object {bs : List UInt8} {members : List (List Char × JSON)} : JSONMembers bs members →
      JSONValue (0x7B :: bs ++ [0x7D]) (.object members)

/-- One or more values with commas between them. -/
inductive JSONElements : List UInt8 → List JSON → Prop
  | one {w bs w' : List UInt8} {v : JSON} : IsWs w → JSONValue bs v → IsWs w' → JSONElements (w ++ bs ++ w') [v]
  | cons {w bs w' rest : List UInt8} {v : JSON} {elements : List JSON} : IsWs w → JSONValue bs v → IsWs w' →
      JSONElements rest elements → JSONElements (w ++ bs ++ w' ++ 0x2C :: rest) (v :: elements)

/-- One or more members, each a string, a colon and a value, with commas between them. -/
inductive JSONMembers : List UInt8 → List (List Char × JSON) → Prop
  | one {w k w₁ w₂ bs w' : List UInt8} {key : List Char} {v : JSON} : IsWs w → JSONString k key → IsWs w₁ →
      IsWs w₂ → JSONValue bs v → IsWs w' → JSONMembers (w ++ k ++ w₁ ++ 0x3A :: w₂ ++ bs ++ w') [(key, v)]
  | cons {w k w₁ w₂ bs w' rest : List UInt8} {key : List Char} {v : JSON} {members : List (List Char × JSON)} :
      IsWs w → JSONString k key → IsWs w₁ → IsWs w₂ → JSONValue bs v → IsWs w' → JSONMembers rest members →
      JSONMembers (w ++ k ++ w₁ ++ 0x3A :: w₂ ++ bs ++ w' ++ 0x2C :: rest) ((key, v) :: members)

end

/-- `bs` is a JSON text with the value `v`. -/
def JSONText (bs : List UInt8) (v : JSON) : Prop :=
  ∃ w text w', bs = w ++ text ++ w' ∧ IsWs w ∧ JSONValue text v ∧ IsWs w'

theorem isWs_nil : IsWs [] := fun _ h => absurd h List.not_mem_nil

theorem IsWs.append {w w' : List UInt8} (h : IsWs w) (h' : IsWs w') : IsWs (w ++ w') := by
  unfold IsWs
  rw [List.forall_mem_append]
  exact ⟨h, h'⟩

theorem isWs_spaces (n : ℕ) : IsWs (List.replicate n 0x20) :=
  fun _ h => Or.inl (List.eq_of_mem_replicate h)

/-- White space before the first element belongs to it. -/
theorem JSONElements.ws_append {w bs : List UInt8} {elements : List JSON} (hw : IsWs w)
    (h : JSONElements bs elements) : JSONElements (w ++ bs) elements := by
  cases h with
  | one h₁ hv h₂ =>
      simp only [← List.append_assoc]
      exact .one (hw.append h₁) hv h₂
  | cons h₁ hv h₂ hrest =>
      simp only [← List.append_assoc]
      exact .cons (hw.append h₁) hv h₂ hrest

theorem JSONMembers.ws_append {w bs : List UInt8} {members : List (List Char × JSON)} (hw : IsWs w)
    (h : JSONMembers bs members) : JSONMembers (w ++ bs) members := by
  cases h with
  | one h₁ hk h₂ h₃ hv h₄ =>
      have hone := JSONMembers.one (hw.append h₁) hk h₂ h₃ hv h₄
      simpa only [List.append_assoc] using hone
  | cons h₁ hk h₂ h₃ hv h₄ hrest =>
      have hcons := JSONMembers.cons (hw.append h₁) hk h₂ h₃ hv h₄ hrest
      simpa only [List.append_assoc] using hcons

end Poco.Lib
