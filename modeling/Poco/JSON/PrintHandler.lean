import Poco.Foundation.JSONString
import Poco.Foundation.NumberFormatter
import Poco.Lib.JSONText

/-! # `PrintHandler`

A `PrintHandler` writes the events of a JSON document to a stream.  Whether a comma stands before a value or a
key is decided by a flag, and the indentation is a text that grows and shrinks with the nesting.  For the
events of a value the output is a JSON text with this value (`print_json`): what one value writes is the text
of the value behind a separator (`run_events`), and the state is as before, but for the flag. -/

namespace Poco.JSON

open Poco.Lib Poco.Foundation NumericString

/-- The callbacks of a `Handler`; an integer comes to `value(int)`, `value(unsigned)`, `value(Int64)` or
`value(UInt64)`. -/
inductive Event
  | startObject
  | endObject
  | startArray
  | endArray
  | key (k : List UInt8)
  | null
  | int (v : ℤ)
  | string (value : List UInt8)
  | bool (b : Bool)

/-- The exceptions of a `PrintHandler`. -/
inductive PrintExn
  /-- `std::out_of_range`, of `erase`. -/
  | outOfRange
  /-- `AssertionViolationException`. -/
  | assertionViolation
deriving DecidableEq, Repr

/-- The data members; the stream is given by what has been written to it. -/
structure PrintHandler where
  _out : List UInt8
  _indent : ℕ
  _tab : List UInt8
  _array : ℤ
  _objStart : Bool
  _options : UInt32

namespace PrintHandler

/-- `PrintHandler(out, indent, options)` for an empty stream. -/
def create (indent : ℕ) (options : UInt32) : PrintHandler := ⟨[], indent, [], 0, true, options⟩

/-- `JSON_PRINT_FLAT`. -/
def JSON_PRINT_FLAT : ℕ := 0

def printFlat (h : PrintHandler) : Bool := h._indent = JSON_PRINT_FLAT

def endLine (h : PrintHandler) : List UInt8 := if h.printFlat then [] else ['\n'.toUInt8]

def indent (h : PrintHandler) : ℕ := if h.printFlat then 0 else h._indent

/-- `_out <<`. -/
def write (text : List UInt8) (h : PrintHandler) : PrintHandler := { h with _out := h._out ++ text }

def comma (h : PrintHandler) : PrintHandler := h.write (','.toUInt8 :: h.endLine)

def arrayValue (h : PrintHandler) : PrintHandler :=
  let h := if h._objStart then h else h.comma
  if 0 < h._array then h.write h._tab else h

/-- `_tab.append(indent(), ' ')`. -/
def appendTab (h : PrintHandler) : PrintHandler := { h with _tab := h._tab ++ List.replicate h.indent ' '.toUInt8 }

/-- `_tab.erase(_tab.length() - indent())`. -/
def eraseTab (h : PrintHandler) : Except PrintExn PrintHandler :=
  if h.indent ≤ h._tab.length then .ok { h with _tab := h._tab.take (h._tab.length - h.indent) }
  else .error .outOfRange

/-- `out << v` of an integer. -/
def integerText (v : ℤ) : List UInt8 := (if v < 0 then ['-'.toUInt8] else []) ++ numeral 10 v.natAbs 0 false

/-- A value that is written as `text`. -/
def value (text : List UInt8) (h : PrintHandler) : PrintHandler :=
  { h.arrayValue.write text with _objStart := false }

/-- The callbacks. -/
def handle (h : PrintHandler) : Event → Except PrintExn PrintHandler
  | .startObject =>
      let h := h.arrayValue
      .ok { (h.write ('{'.toUInt8 :: h.endLine)).appendTab with _objStart := true }
  | .endObject => do
      let h ← if h.indent ≤ h._tab.length then h.eraseTab else .ok h
      return { h.write (h.endLine ++ h._tab ++ ['}'.toUInt8]) with _objStart := false }
  | .startArray =>
      let h := h.arrayValue
      let h := (h.write ('['.toUInt8 :: h.endLine)).appendTab
      .ok { h with _array := h._array + 1, _objStart := true }
  | .endArray => do
      let h ← h.eraseTab
      let h := h.write (h.endLine ++ h._tab ++ [']'.toUInt8])
      let h := { h with _array := h._array - 1 }
      if (0 : ℤ) ≤ h._array then .ok { h with _objStart := false } else .error .assertionViolation
  | .key k =>
      let h := if h._objStart then h else h.comma
      let space := if h.printFlat then [] else [' '.toUInt8]
      .ok { h.write (h._tab ++ toJSON k h._options ++ space ++ [':'.toUInt8] ++ space) with _objStart := true }
  | .null => .ok (h.value (UTF8.text "null"))
  | .int v => .ok (h.value (integerText v))
  | .string s => .ok (h.value (toJSON s h._options))
  | .bool b => .ok (h.value (if b then UTF8.text "true" else UTF8.text "false"))

/-- A sequence of events. -/
def run (events : List Event) (h : PrintHandler) : Except PrintExn PrintHandler := events.foldlM handle h

end PrintHandler

/-! ### The events of a value -/

mutual

/-- The events of a value. -/
def events : JSON → List Event
  | .null => [.null]
  | .bool b => [.bool b]
  | .int i => [.int i]
  | .string cs => [.string (UTF8.utf8 cs)]
  | .array elements => .startArray :: elementEvents elements ++ [.endArray]
  | .object members => .startObject :: memberEvents members ++ [.endObject]

/-- The events of elements. -/
def elementEvents : List JSON → List Event
  | [] => []
  | v :: elements => events v ++ elementEvents elements

/-- The events of members. -/
def memberEvents : List (List Char × JSON) → List Event
  | [] => []
  | (k, v) :: members => .key (UTF8.utf8 k) :: events v ++ memberEvents members

end

namespace PrintHandler

/-! ### Integers -/

theorem isDigitOf_ten {ch : UInt8} (h : isDigitOf 10 ch = true) :
    (0x30 ≤ ch ∧ ch ≤ 0x39) ∧ Hex.digitValue ch = ch.toNat - 0x30 := by
  have hall : ∀ ch : UInt8, isDigitOf 10 ch = true →
      (0x30 ≤ ch ∧ ch ≤ 0x39) ∧ Hex.digitValue ch = ch.toNat - 0x30 := by
    apply forall_byte
    decide +kernel
  exact hall ch h

theorem decimalNumber_eq {ds : List UInt8} (h : ∀ ch ∈ ds, isDigitOf 10 ch = true) :
    decimalNumber ds = number 10 ds := by
  induction ds using List.reverseRecOn with
  | nil => rfl
  | append_singleton ds ch ih =>
      have hds : ∀ c ∈ ds, isDigitOf 10 c = true := fun c hc => h c (List.mem_append_left _ hc)
      have hch := h ch (List.mem_append_right _ List.mem_cons_self)
      have ih := ih hds
      unfold decimalNumber number at ih ⊢
      rw [List.foldl_append, List.foldl_append, ih]
      show _ * 10 + (ch.toNat - 0x30) = _ * 10 + Hex.digitValue ch
      rw [(isDigitOf_ten hch).2]

theorem numeral_ne_nil (n : ℕ) : numeral 10 n 0 false ≠ [] := by
  obtain ⟨ch, hch, -⟩ := @head?_numeral 10 0 (by decide) (by decide) false n
  intro hnil
  rw [hnil] at hch
  cases hch

theorem jsonInt_integerText (v : ℤ) : JSONInt (integerText v) v := by
  have hdigits := isDigitOf_numeral v.natAbs
  refine ⟨v < 0, numeral 10 v.natAbs 0 false, ?_, numeral_ne_nil _, fun c hc => (isDigitOf_ten (hdigits c hc)).1, ?_, ?_⟩
  · rw [integerText]
    simp only [decide_eq_true_eq]
    rfl
  · -- a number that begins with a zero is zero
    intro hhead
    have hzero : v.natAbs = 0 := by
      by_contra hne
      have hpos := @number_take_pos v.natAbs 1 (Nat.pos_of_ne_zero hne) Nat.one_pos
      obtain ⟨c, t, hcons⟩ := List.exists_cons_of_ne_nil (numeral_ne_nil v.natAbs)
      rw [hcons] at hhead hpos
      obtain rfl := Option.some.inj hhead
      rw [List.take_succ_cons, List.take_zero] at hpos
      exact absurd hpos (by decide)
    rw [hzero]
    decide
  · rw [decimalNumber_eq hdigits, number_numeral_ten]
    simp only [decide_eq_true_eq]
    split_ifs <;> omega

/-! ### What a value writes -/

/-- The handler behind a value. -/
def after (h : PrintHandler) (text : List UInt8) : PrintHandler :=
  { h with _out := h._out ++ text, _objStart := false }

/-- The comma before a value. -/
def separator (h : PrintHandler) : List UInt8 := if h._objStart then [] else ','.toUInt8 :: h.endLine

/-- The indentation before a value. -/
def tabText (h : PrintHandler) : List UInt8 := if 0 < h._array then h._tab else []

/-- The handler is within `_array` arrays and its texts are white space. -/
structure Ready (h : PrintHandler) : Prop where
  array_nonneg : 0 ≤ h._array
  tab_eq : ∃ n, h._tab = List.replicate n ' '.toUInt8
  wrap : h._options &&& JSON_WRAP_STRINGS ≠ 0

theorem isWs_endLine (h : PrintHandler) : IsWs h.endLine := by
  unfold endLine
  split_ifs
  · exact isWs_nil
  · intro c hc
    rw [List.mem_singleton.mp hc]
    exact Or.inr (Or.inr (Or.inl rfl))

section

variable {h : PrintHandler}

theorem Ready.isWs_tab (hr : h.Ready) : IsWs h._tab := by
  obtain ⟨n, hn⟩ := hr.tab_eq
  rw [hn]
  exact isWs_spaces n

theorem Ready.isWs_tabText (hr : h.Ready) : IsWs h.tabText := by
  unfold tabText
  split_ifs
  · exact hr.isWs_tab
  · exact isWs_nil

theorem Ready.after (hr : h.Ready) (text : List UInt8) : (h.after text).Ready :=
  ⟨hr.array_nonneg, hr.tab_eq, hr.wrap⟩

theorem after_after (text text' : List UInt8) : (h.after text).after text' = h.after (text ++ text') := by
  simp only [PrintHandler.after, List.append_assoc]

theorem arrayValue_eq : h.arrayValue = { h with _out := h._out ++ (h.separator ++ h.tabText) } := by
  obtain ⟨out, indent, tab, array, objStart, options⟩ := h
  unfold arrayValue separator tabText comma write
  by_cases harray : 0 < array
  · cases objStart with
    | true => simp [harray]
    | false => simp [harray, endLine, printFlat]
  · cases objStart with
    | true => simp [harray]
    | false => simp [harray, endLine, printFlat]

theorem value_eq (text : List UInt8) : h.value text = h.after (h.separator ++ (h.tabText ++ text)) := by
  rw [value, arrayValue_eq]
  simp only [write, PrintHandler.after, List.append_assoc]

theorem run_append (es es' : List Event) : run (es ++ es') h = run es h >>= run es' := List.foldlM_append

theorem run_of_append {es es' : List Event} {h' : PrintHandler} (hrun : run es h = .ok h') :
    run (es ++ es') h = run es' h' := by
  rw [run_append, hrun]
  rfl

theorem run_cons {e : Event} {es : List Event} {h' : PrintHandler} (hrun : h.handle e = .ok h') :
    run (e :: es) h = run es h' := by
  show h.handle e >>= run es = _
  rw [hrun]
  rfl

theorem run_singleton (e : Event) : run [e] h = h.handle e := by
  show h.handle e >>= run [] = _
  cases h.handle e with
  | error x => rfl
  | ok h' => rfl

/-- The handler within a container. -/
def inside (h : PrintHandler) (out : List UInt8) (depth : ℤ) (start : Bool) : PrintHandler :=
  { h with
    _out := out
    _tab := h._tab ++ List.replicate h.indent ' '.toUInt8
    _array := h._array + depth
    _objStart := start }

theorem Ready.inside (hr : h.Ready) (out : List UInt8) {depth : ℤ} (hdepth : 0 ≤ depth) (start : Bool) :
    (h.inside out depth start).Ready := by
  refine ⟨Int.add_nonneg hr.array_nonneg hdepth, ?_, hr.wrap⟩
  obtain ⟨n, hn⟩ := hr.tab_eq
  refine ⟨n + h.indent, ?_⟩
  show h._tab ++ _ = _
  rw [hn, List.replicate_add]

theorem inside_after (out : List UInt8) (depth : ℤ) (text : List UInt8) :
    (h.inside out depth true).after ((h.inside out depth true).separator ++ text) =
      h.inside (out ++ text) depth false := rfl

theorem startArray_eq : h.handle .startArray =
    .ok (h.inside (h._out ++ (h.separator ++ (h.tabText ++ '['.toUInt8 :: h.endLine))) 1 true) := by
  simp only [handle, arrayValue_eq, appendTab, write, PrintHandler.inside, List.append_assoc]
  rfl

theorem startObject_eq : h.handle .startObject =
    .ok (h.inside (h._out ++ (h.separator ++ (h.tabText ++ '{'.toUInt8 :: h.endLine))) 0 true) := by
  simp only [handle, arrayValue_eq, appendTab, write, PrintHandler.inside, List.append_assoc, Int.add_zero]
  rfl

/-- The end of a container takes back what its start has added to the indentation. -/
theorem eraseTab_inside (out : List UInt8) (depth : ℤ) (start : Bool) :
    h.indent ≤ (h.inside out depth start)._tab.length ∧ eraseTab (h.inside out depth start) =
      .ok { h with _out := out, _array := h._array + depth, _objStart := start } := by
  have hlen : (h._tab ++ List.replicate h.indent ' '.toUInt8).length = h._tab.length + h.indent := by
    rw [List.length_append, List.length_replicate]
  have hle : h.indent ≤ (h._tab ++ List.replicate h.indent ' '.toUInt8).length := by
    rw [hlen]
    exact Nat.le_add_left _ _
  have htake : (h._tab ++ List.replicate h.indent ' '.toUInt8).take
      ((h._tab ++ List.replicate h.indent ' '.toUInt8).length - h.indent) = h._tab := by
    rw [hlen, Nat.add_sub_cancel, List.take_left]
  refine ⟨hle, ?_⟩
  unfold eraseTab
  show (if h.indent ≤ (h._tab ++ List.replicate h.indent ' '.toUInt8).length then
    Except.ok { h with
      _out := out
      _tab := (h._tab ++ List.replicate h.indent ' '.toUInt8).take
        ((h._tab ++ List.replicate h.indent ' '.toUInt8).length - h.indent)
      _array := h._array + depth
      _objStart := start }
    else .error PrintExn.outOfRange) = _
  rw [if_pos hle, htake]

theorem endArray_eq (hr : h.Ready) (out : List UInt8) (start : Bool) :
    handle (h.inside out 1 start) .endArray =
      .ok { h with _out := out ++ (h.endLine ++ (h._tab ++ [']'.toUInt8])), _objStart := false } := by
  have harray : h._array + 1 - 1 = h._array := Int.add_sub_cancel _ _
  have hnonneg := hr.array_nonneg
  simp only [handle, eraseTab_inside, write]
  show (if (0 : ℤ) ≤ h._array + 1 - 1 then _ else _) = _
  rw [harray, if_pos hnonneg]
  simp only [List.append_assoc]
  rfl

theorem endObject_eq (out : List UInt8) (start : Bool) :
    handle (h.inside out 0 start) .endObject =
      .ok { h with _out := out ++ (h.endLine ++ (h._tab ++ ['}'.toUInt8])), _objStart := false } := by
  obtain ⟨hle, herase⟩ := @eraseTab_inside h out 0 start
  have hindent : (h.inside out 0 start).indent = h.indent := rfl
  simp only [handle, hindent]
  rw [if_pos hle, herase]
  simp only [write, Int.add_zero, List.append_assoc]
  rfl

/-- The space around the colon. -/
def space (h : PrintHandler) : List UInt8 := if h.printFlat then [] else [' '.toUInt8]

theorem isWs_space : IsWs h.space := by
  unfold space
  split_ifs
  · exact isWs_nil
  · intro c hc
    rw [List.mem_singleton.mp hc]
    exact Or.inl rfl

/-- The handler behind a key. -/
def afterKey (h : PrintHandler) (k : List UInt8) : PrintHandler :=
  { h with
    _out := h._out ++ (h.separator ++ (h._tab ++ toJSON k h._options ++ h.space ++ ':'.toUInt8 :: h.space))
    _objStart := true }

theorem Ready.afterKey (hr : h.Ready) (k : List UInt8) : (h.afterKey k).Ready := ⟨hr.array_nonneg, hr.tab_eq, hr.wrap⟩

theorem key_eq {k : List UInt8} : h.handle (.key k) = .ok (h.afterKey k) := by
  obtain ⟨out, indent, tab, array, objStart, options⟩ := h
  cases objStart with
  | true => simp [handle, PrintHandler.afterKey, separator, write, space, printFlat]
  | false => simp [handle, PrintHandler.afterKey, separator, write, space, comma, endLine, printFlat]

theorem afterKey_after (k text : List UInt8) : (h.afterKey k).after text =
    h.after (h.separator ++
      (h._tab ++ toJSON k h._options ++ h.space ++ ':'.toUInt8 :: (h.space ++ text))) := by
  simp only [PrintHandler.afterKey, PrintHandler.after, List.append_assoc, List.cons_append]

end

/-! ### Whole values -/

theorem comma_append (text newline rest w : List UInt8) :
    text ++ ','.toUInt8 :: (newline ++ rest) ++ w = text ++ 0x2C :: (newline ++ (rest ++ w)) := by
  rw [List.append_assoc, List.cons_append, List.append_assoc]
  rfl

mutual

/-- What a value writes is its text, behind a separator and the indentation. -/
theorem run_events : ∀ (v : JSON) {h : PrintHandler}, h.Ready →
    ∃ text, JSONValue text v ∧ run (events v) h = .ok (h.after (h.separator ++ (h.tabText ++ text)))
  | .null, h, _ => ⟨_, .null, by rw [events, run_singleton, handle, value_eq]; rfl⟩
  | .bool true, h, _ => ⟨_, .true_, by rw [events, run_singleton, handle, value_eq]; rfl⟩
  | .bool false, h, _ => ⟨_, .false_, by rw [events, run_singleton, handle, value_eq]; rfl⟩
  | .int i, h, _ => ⟨_, .int (jsonInt_integerText i), by rw [events, run_singleton, handle, value_eq]⟩
  | .string cs, h, hr =>
      ⟨_, .string (toJSON_jsonString cs hr.wrap), by rw [events, run_singleton, handle, value_eq]⟩
  | .array elements, h, hr => by
      have hws := h.isWs_endLine.append hr.isWs_tab
      rw [events, List.cons_append, run_cons startArray_eq]
      by_cases hnil : elements = []
      · subst hnil
        refine ⟨'['.toUInt8 :: (h.endLine ++ (h.endLine ++ h._tab)) ++ [']'.toUInt8],
          .emptyArray (h.isWs_endLine.append hws), ?_⟩
        rw [elementEvents, List.nil_append, run_singleton, endArray_eq hr]
        simp only [PrintHandler.after, List.append_assoc, List.cons_append]
      · have hinside := hr.inside (h._out ++ (h.separator ++ (h.tabText ++ '['.toUInt8 :: h.endLine)))
          Int.one_nonneg true
        obtain ⟨bs, hbs, hrun⟩ := run_elementEvents elements hnil hinside
        have helements := (hbs _ hws).ws_append h.isWs_endLine
        refine ⟨'['.toUInt8 :: (h.endLine ++ (bs ++ (h.endLine ++ h._tab))) ++ [']'.toUInt8], .array helements, ?_⟩
        rw [run_of_append hrun, run_singleton, inside_after, endArray_eq hr]
        simp only [PrintHandler.after, List.append_assoc, List.cons_append]
  | .object members, h, hr => by
      have hws := h.isWs_endLine.append hr.isWs_tab
      rw [events, List.cons_append, run_cons startObject_eq]
      by_cases hnil : members = []
      · subst hnil
        refine ⟨'{'.toUInt8 :: (h.endLine ++ (h.endLine ++ h._tab)) ++ ['}'.toUInt8],
          .emptyObject (h.isWs_endLine.append hws), ?_⟩
        rw [memberEvents, List.nil_append, run_singleton, endObject_eq]
        simp only [PrintHandler.after, List.append_assoc, List.cons_append]
      · have hinside := hr.inside (h._out ++ (h.separator ++ (h.tabText ++ '{'.toUInt8 :: h.endLine))) le_rfl true
        obtain ⟨bs, hbs, hrun⟩ := run_memberEvents members hnil hinside
        have hmembers := (hbs _ hws).ws_append h.isWs_endLine
        refine ⟨'{'.toUInt8 :: (h.endLine ++ (bs ++ (h.endLine ++ h._tab))) ++ ['}'.toUInt8], .object hmembers, ?_⟩
        rw [run_of_append hrun, run_singleton, inside_after, endObject_eq]
        simp only [PrintHandler.after, List.append_assoc, List.cons_append]

/-- The elements of an array, with commas between them. -/
theorem run_elementEvents : ∀ (elements : List JSON), elements ≠ [] → ∀ {h : PrintHandler}, h.Ready →
    ∃ bs, (∀ w, IsWs w → JSONElements (bs ++ w) elements) ∧
      run (elementEvents elements) h = .ok (h.after (h.separator ++ bs))
  | [], hne, _, _ => absurd rfl hne
  | v :: elements, _, h, hr => by
      obtain ⟨text, htext, hrun⟩ := run_events v hr
      rw [elementEvents, run_of_append hrun]
      by_cases hnil : elements = []
      · subst hnil
        refine ⟨h.tabText ++ text, fun w hw => .one hr.isWs_tabText htext hw, rfl⟩
      · obtain ⟨bs, hbs, hrest⟩ := run_elementEvents elements hnil (hr.after (h.separator ++ (h.tabText ++ text)))
        have hsep : (h.after (h.separator ++ (h.tabText ++ text))).separator = ','.toUInt8 :: h.endLine := rfl
        refine ⟨h.tabText ++ text ++ [] ++ ','.toUInt8 :: (h.endLine ++ bs), fun w hw => ?_, ?_⟩
        · rw [comma_append]
          exact .cons hr.isWs_tabText htext isWs_nil ((hbs w hw).ws_append h.isWs_endLine)
        · rw [hrest, after_after, hsep]
          simp only [List.append_assoc, List.cons_append, List.nil_append]

/-- The members of an object, with commas between them. -/
theorem run_memberEvents : ∀ (members : List (List Char × JSON)), members ≠ [] → ∀ {h : PrintHandler}, h.Ready →
    ∃ bs, (∀ w, IsWs w → JSONMembers (bs ++ w) members) ∧
      run (memberEvents members) h = .ok (h.after (h.separator ++ bs))
  | [], hne, _, _ => absurd rfl hne
  | (k, v) :: members, _, h, hr => by
      have hkey := toJSON_jsonString k hr.wrap
      obtain ⟨text, htext, hrun⟩ := run_events v (hr.afterKey (UTF8.utf8 k))
      have hspace : IsWs (h.space ++ h.tabText) := isWs_space.append hr.isWs_tabText
      rw [memberEvents, List.cons_append, run_cons key_eq, run_of_append hrun]
      by_cases hnil : members = []
      · subst hnil
        refine ⟨h._tab ++ toJSON (UTF8.utf8 k) h._options ++ h.space ++
          ':'.toUInt8 :: (h.space ++ h.tabText) ++ text, fun w hw => ?_, ?_⟩
        · exact .one hr.isWs_tab hkey isWs_space hspace htext hw
        · simp only [afterKey_after, List.append_assoc, List.cons_append]
          rfl
      · obtain ⟨bs, hbs, hrest⟩ := run_memberEvents members hnil ((hr.afterKey (UTF8.utf8 k)).after _)
        refine ⟨h._tab ++ toJSON (UTF8.utf8 k) h._options ++ h.space ++ ':'.toUInt8 :: (h.space ++ h.tabText) ++ text ++
          [] ++ ','.toUInt8 :: (h.endLine ++ bs), fun w hw => ?_, ?_⟩
        · rw [comma_append]
          exact .cons hr.isWs_tab hkey isWs_space hspace htext isWs_nil ((hbs w hw).ws_append h.isWs_endLine)
        · have hsep : ∀ t, ((h.afterKey (UTF8.utf8 k)).after t).separator = ','.toUInt8 :: h.endLine := fun _ => rfl
          rw [hrest, after_after, hsep, afterKey_after]
          simp only [List.append_assoc, List.cons_append, List.nil_append]
          rfl

end

/-- **Main result.** The events of a value write a JSON text with this value, for any indentation. -/
theorem print_json (v : JSON) (indent : ℕ) {options : UInt32} (hwrap : options &&& JSON_WRAP_STRINGS ≠ 0) :
    ∃ h, run (events v) (create indent options) = .ok h ∧ JSONText h._out v := by
  have hready : (create indent options).Ready := ⟨le_rfl, ⟨0, rfl⟩, hwrap⟩
  obtain ⟨text, htext, hrun⟩ := run_events v hready
  exact ⟨_, hrun, [], text, [], (List.append_nil _).symm, isWs_nil, htext, isWs_nil⟩

/-- An object within an array within an object, with empty ones beside them, as `PrintHandler` prints by default. -/
theorem print_json_nested :
    let v : JSON := .object [(['a'], .array [.object [], .object [(['b'], .int (-1))], .array []]), ([], .null)]
    ∃ h, run (events v) (create 2 JSON_WRAP_STRINGS) = .ok h ∧ JSONText h._out v := by
  intro v
  exact print_json v 2 (by decide)

end PrintHandler

end Poco.JSON
