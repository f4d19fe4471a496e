import Poco.Foundation.UTF8String
import Poco.Lib.OrderedMap

/-! # `ParseHandler`

The handler builds the value of a JSON text from the events of the parser.  It keeps a stack of the containers
that are open, and the key of the last member; `_result` is the container at the bottom of the stack.  A
value goes into the container at the top, and is a part of the result from then on (`sizeOf_lt_asVar_add`). -/

namespace Poco.JSON.Parser

open Poco.Lib Poco.Foundation

/-- The exceptions of a parser. -/
inductive Exn
  | jsonException (message : List UInt8)
  | syntaxException (message arg : List UInt8)
deriving DecidableEq, Repr

/-- What a `Dynamic::Var` holds, with numbers of type `double` from `φ`. -/
inductive Value (φ : Type)
  | empty
  | bool (b : Bool)
  | int64 (v : ℤ)
  | uint64 (v : ℤ)
  | double (d : φ)
  | string (s : List UInt8)
  | array (elements : List (Value φ))
  | object (members : List (List UInt8 × Value φ))

variable {φ : Type}

/-- A value is an `Array` or an `Object`. -/
def Value.IsContainer : Value φ → Prop
  | .array _ | .object _ => True
  | _ => False

/-- The members of an object, in the order of its iterators. -/
abbrev Members (φ : Type) := List (List UInt8 × Value φ)

/-- `Object::set` if the order of insertion is preserved: a new key comes last. -/
def setOrdered (key : List UInt8) (value : Value φ) : Members φ → Members φ
  | [] => [(key, value)]
  | m :: ms => if key = m.1 then (key, value) :: ms else m :: setOrdered key value ms

/-- `Object::set`. -/
def set (preserveInsOrder : Bool) (key : List UInt8) (value : Value φ) (ms : Members φ) : Members φ :=
  if preserveInsOrder then setOrdered key value ms else OrderedMap.insertEntry key value ms

/-- An `Array` or an `Object`. -/
inductive Container (φ : Type)
  | array (elements : List (Value φ))
  | object (members : Members φ)

namespace Container

def value : Container φ → Value φ
  | array elements => .array elements
  | object members => .object members

/-- `Array::add` or `Object::set`. -/
def put (preserveInsOrder : Bool) (key : List UInt8) (v : Value φ) : Container φ → Container φ
  | array elements => array (elements ++ [v])
  | object members => object (set preserveInsOrder key v members)

end Container

/-- A container on the stack, and its key in the container below it.  The container below points to it, so it gets
the value when the container is closed. -/
structure Level (φ : Type) where
  slot : List UInt8
  container : Container φ

/-- The data members.  While the stack is not empty, `_result` points to the container at its bottom. -/
structure ParseHandler (φ : Type) where
  _stack : List (Level φ)
  _key : List UInt8
  _result : Value φ
  _preserveObjectOrder : Bool

namespace ParseHandler

/-- `ParseHandler(preserveObjectOrder)`. -/
def create (preserveObjectOrder : Bool) : ParseHandler φ := ⟨[], [], .empty, preserveObjectOrder⟩

/-- A member of the container at the top needs a key no more. -/
def clearKey (h : ParseHandler φ) : List UInt8 :=
  match h._stack with
  | ⟨_, .object _⟩ :: _ => []
  | _ => h._key

/-- `startObject()` and `startArray()`. -/
def start (h : ParseHandler φ) (c : Container φ) : ParseHandler φ :=
  { h with _stack := ⟨h._key, c⟩ :: h._stack, _key := h.clearKey }

def startObject (h : ParseHandler φ) : ParseHandler φ := h.start (.object [])

def startArray (h : ParseHandler φ) : ParseHandler φ := h.start (.array [])

/-- `endObject()` and `endArray()`. -/
def close (h : ParseHandler φ) : ParseHandler φ :=
  match h._stack with
  | [] => h
  | [l] => { h with _stack := [], _result := l.container.value }
  | l :: below :: ls =>
      { h with
        _stack := ⟨below.slot, below.container.put h._preserveObjectOrder l.slot l.container.value⟩ :: ls }

def endObject (h : ParseHandler φ) : ParseHandler φ := h.close

def endArray (h : ParseHandler φ) : ParseHandler φ := h.close

/-- `key(k)`. -/
def key (h : ParseHandler φ) (k : List UInt8) : ParseHandler φ := { h with _key := k }

/-- `setValue(value)`. -/
def setValue (h : ParseHandler φ) (value : Value φ) : Except Exn (ParseHandler φ) :=
  match h._stack with
  | [] => .error (.jsonException (UTF8.text "Attempt to set value on an empty stack"))
  | l :: ls =>
      .ok { h with
        _stack := ⟨l.slot, l.container.put h._preserveObjectOrder h._key value⟩ :: ls
        _key := h.clearKey }

/-- The container at the bottom when all are closed. -/
def bottom (preserveInsOrder : Bool) : Level φ → List (Level φ) → Value φ
  | l, [] => l.container.value
  | l, below :: ls =>
      bottom preserveInsOrder ⟨below.slot, below.container.put preserveInsOrder l.slot l.container.value⟩ ls

/-- `asVar()`. -/
def asVar (h : ParseHandler φ) : Value φ :=
  match h._stack with
  | [] => h._result
  | l :: ls => bottom h._preserveObjectOrder l ls

/-! ### A value in the container at the top -/

/-- A value is added where the handler is, and some key is left. -/
def add (h : ParseHandler φ) (v : Value φ) (k : List UInt8) : ParseHandler φ :=
  match h._stack with
  | [] => { h with _result := v, _key := k }
  | l :: ls => { h with _stack := ⟨l.slot, l.container.put h._preserveObjectOrder h._key v⟩ :: ls, _key := k }

theorem add_of_nil {h : ParseHandler φ} (hstack : h._stack = []) (v : Value φ) (k : List UInt8) :
    h.add v k = { h with _result := v, _key := k } := by
  rw [add, hstack]

theorem add_of_cons {h : ParseHandler φ} {l : Level φ} {ls : List (Level φ)} (hstack : h._stack = l :: ls)
    (v : Value φ) (k : List UInt8) :
    h.add v k =
      { h with _stack := ⟨l.slot, l.container.put h._preserveObjectOrder h._key v⟩ :: ls, _key := k } := by
  rw [add, hstack]

theorem add_stack_eq_nil (h : ParseHandler φ) (v : Value φ) (k : List UInt8) :
    (h.add v k)._stack = [] ↔ h._stack = [] := by
  cases hstack : h._stack with
  | nil => simp [add_of_nil hstack, hstack]
  | cons l ls => simp [add_of_cons hstack]

theorem add_preserveObjectOrder (h : ParseHandler φ) (v : Value φ) (k : List UInt8) :
    (h.add v k)._preserveObjectOrder = h._preserveObjectOrder := by
  unfold add
  cases h._stack <;> rfl

theorem asVar_add_of_nil {h : ParseHandler φ} (hstack : h._stack = []) (v : Value φ) (k : List UInt8) :
    (h.add v k).asVar = v := by
  rw [add_of_nil hstack, asVar, hstack]

/-- A container that is filled and closed is added as a value. -/
theorem close_start (h : ParseHandler φ) (c c' : Container φ) (k : List UInt8) :
    close { h.start c with _stack := ⟨h._key, c'⟩ :: h._stack, _key := k } = h.add c'.value k := by
  cases hstack : h._stack with
  | nil =>
      rw [add_of_nil hstack]
      simp only [start, close, hstack]
  | cons l ls =>
      rw [add_of_cons hstack]
      simp only [start, close]

theorem setValue_of_cons {h : ParseHandler φ} (hstack : h._stack ≠ []) (v : Value φ) :
    h.setValue v = .ok (h.add v h.clearKey) := by
  obtain ⟨l, ls, hcons⟩ := List.exists_cons_of_ne_nil hstack
  rw [add_of_cons hcons, setValue, hcons]

theorem mem_setOrdered (key : List UInt8) (v : Value φ) (ms : Members φ) : (key, v) ∈ setOrdered key v ms := by
  induction ms with
  | nil => exact List.mem_singleton_self _
  | cons m ms ih =>
      rw [setOrdered]
      split_ifs
      · exact List.mem_cons_self
      · exact List.mem_cons_of_mem m ih

theorem mem_insertEntry_self (key : List UInt8) (v : Value φ) (ms : Members φ) :
    (key, v) ∈ OrderedMap.insertEntry key v ms := by
  induction ms with
  | nil => exact List.mem_singleton_self _
  | cons m ms ih =>
      rw [OrderedMap.insertEntry]
      split_ifs
      · exact List.mem_cons_self
      · exact List.mem_cons_self
      · exact List.mem_cons_of_mem m ih

/-- A value is smaller than the container that it is put into. -/
theorem sizeOf_lt_put (c : Container φ) (preserveInsOrder : Bool) (k : List UInt8) (v : Value φ) :
    sizeOf v < sizeOf (c.put preserveInsOrder k v).value := by
  cases c with
  | array elements =>
      have hlt := List.sizeOf_lt_of_mem (List.mem_append_right elements (List.mem_singleton_self v))
      rw [Container.put, Container.value, Value.array.sizeOf_spec]
      omega
  | object members =>
      have hmem : (k, v) ∈ set preserveInsOrder k v members := by
        unfold set
        split_ifs
        · exact mem_setOrdered k v members
        · exact mem_insertEntry_self k v members
      have hlt := List.sizeOf_lt_of_mem hmem
      rw [Prod.mk.sizeOf_spec] at hlt
      rw [Container.put, Container.value, Value.object.sizeOf_spec]
      omega

theorem sizeOf_le_bottom (preserveInsOrder : Bool) (l : Level φ) (ls : List (Level φ)) :
    sizeOf l.container.value ≤ sizeOf (bottom preserveInsOrder l ls) := by
  induction ls generalizing l with
  | nil => exact le_rfl
  | cons below ls ih =>
      have hput := sizeOf_lt_put below.container preserveInsOrder l.slot l.container.value
      exact hput.le.trans (ih ⟨below.slot, below.container.put preserveInsOrder l.slot l.container.value⟩)

/-- A value that is added where a container is open is a part of the result. -/
theorem sizeOf_lt_asVar_add {h : ParseHandler φ} (hstack : h._stack ≠ []) (v : Value φ) (k : List UInt8) :
    sizeOf v < sizeOf (h.add v k).asVar := by
  obtain ⟨l, ls, hcons⟩ := List.exists_cons_of_ne_nil hstack
  have hput := sizeOf_lt_put l.container h._preserveObjectOrder h._key v
  rw [add_of_cons hcons]
  exact hput.trans_le (sizeOf_le_bottom h._preserveObjectOrder ⟨l.slot, _⟩ ls)

end ParseHandler

end Poco.JSON.Parser
