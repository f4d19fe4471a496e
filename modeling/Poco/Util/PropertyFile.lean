import Mathlib.Data.List.DropRight
import Mathlib.Data.List.TakeWhile
import Poco.Lib.OrderedMap
import Poco.Foundation.NumericString

/-! # `PropertyFileConfiguration`

A configuration in a file of lines `key = value`.  `save` escapes the control characters and the
backslashes of a value; `load` takes the escape sequences out, joins lines that end with a backslash,
follows include directives, and removes white space around keys and values.  What `save` writes is loaded
as the same map, with the white space around the values removed (`load_save`).

A stream is given by the characters that are left, and is at its end when a character is asked for behind
the last one. -/

namespace Poco.Util

open Poco.Lib Poco.Foundation Hex

/-- Character strings. -/
abbrev Str := List UInt8

/-- The characters of a literal. -/
def str (s : String) : Str := s.toList.map Char.toUInt8

/-- The exceptions of `load`. -/
inductive Exn
  | syntaxException (message : String)
  | fileException (message : String) (path : Str)
  | openFileException (path : Str)
  /-- An exception of `expand`. -/
  | other
deriving DecidableEq, Repr

/-- The files, and what the code does with paths. -/
structure FileSystem where
  /-- The files that exist, with their contents if they can be opened. -/
  files : List (Str × Option Str)
  /-- `resolveIncludePath`, which also uses the properties that have been loaded. -/
  resolveIncludePath : OrderedMap Str Str → Str → Str → Except Exn Str
  /-- `Path(path).parent().toString()`. -/
  parent : Str → Str

/-- The members of `PropertyFileConfiguration`. -/
structure PropertyFileConfiguration where
  _map : OrderedMap Str Str
  _sourceMap : OrderedMap Str Str
  _removedSourceFiles : List Str
  _rootFile : Str

/-- `Poco::trim`. -/
def trim (s : Str) : Str := (s.dropWhile isSpace).rdropWhile isSpace

namespace PropertyFileConfiguration

/-! ### Saving -/

/-- One character of `escapeValue`. -/
def escapeChar (ch : UInt8) : Str :=
  if ch = '\t'.toUInt8 then ['\\'.toUInt8, 't'.toUInt8]
  else if ch = '\r'.toUInt8 then ['\\'.toUInt8, 'r'.toUInt8]
  else if ch = '\n'.toUInt8 then ['\\'.toUInt8, 'n'.toUInt8]
  else if ch = 0x0C then ['\\'.toUInt8, 'f'.toUInt8]
  else if ch = '\\'.toUInt8 then ['\\'.toUInt8, '\\'.toUInt8]
  else [ch]

/-- `escapeValue`. -/
def escapeValue (value : Str) : Str := value.flatMap escapeChar

/-- The line of an entry. -/
def entryLine (e : Str × Str) : Str :=
  e.1 ++ [' '.toUInt8, '='.toUInt8, ' '.toUInt8] ++ escapeValue e.2 ++ ['\n'.toUInt8]

/-- `save(ostr)`: what is written. -/
def save (conf : PropertyFileConfiguration) : Str := conf._map.entries.flatMap entryLine

/-! ### Lines -/

/-- What a line says. -/
inductive Statement
  | nothing
  | property (key value : Str)
  | includeFile (path : Str) (isOptional : Bool)
deriving DecidableEq, Repr

/-- A character that is not the end of a line. -/
def inLine (c : UInt8) : Bool := c ≠ '\n'.toUInt8 ∧ c ≠ '\r'.toUInt8

/-- A character of a key. -/
def inKey (c : UInt8) : Bool := c ≠ '='.toUInt8 ∧ c ≠ ':'.toUInt8 ∧ inLine c

/-- What is left behind the character that has ended a loop; `none` at the end of file. -/
def behind : Str → Option Str
  | [] => none
  | _ :: rest => some rest

/-- `extractIncludePath`: the path, which is empty if there is none, and whether the directive is optional. -/
def extractIncludePath (line : Str) : Except Exn (Str × Bool) :=
  let sv := line.dropWhile isSpace
  let isOptional := sv.head? = some '?'.toUInt8
  let directive := if isOptional then str "?include" else str "!include"
  if sv.length > directive.length ∧ sv.take directive.length = directive ∧
      isSpace (sv.getD directive.length 0) then
    let path := trim (sv.drop directive.length)
    if path = [] then
      if isOptional then .ok ([], false)
      else .error (.syntaxException "Missing path in !include directive")
    else .ok (path, isOptional)
  else .ok ([], false)

/-- `readChar`: the character, which is zero at the end of a line, and what is left.  Behind an escaped
carriage return (`afterReturn`), a line feed is skipped. -/
def readChar (afterReturn : Bool) : Str → Option UInt8 × Str
  | [] => (none, [])
  | c :: rest =>
      if afterReturn ∧ c = '\n'.toUInt8 then readChar false rest
      else if c = '\\'.toUInt8 then
        match rest with
        | [] => (none, [])
        | d :: rest =>
            if d = 't'.toUInt8 then (some '\t'.toUInt8, rest)
            else if d = 'r'.toUInt8 then (some '\r'.toUInt8, rest)
            else if d = 'n'.toUInt8 then (some '\n'.toUInt8, rest)
            else if d = 'f'.toUInt8 then (some 0x0C, rest)
            else if d = '\r'.toUInt8 then readChar true rest
            else if d = '\n'.toUInt8 then readChar false rest
            else (some d, rest)
      else if inLine c then (some c, rest)
      else (some 0, rest)

/-- The loop that reads a value from at most `fuel` characters. -/
def valueLoop : ℕ → Str → Str × Option Str
  | 0, _ => ([], none)
  | fuel + 1, s =>
      match readChar false s with
      | (none, _) => ([], none)
      | (some c, rest) =>
          if c = 0 then ([], some rest)
          else
            let (value, left) := valueLoop fuel rest
            (c :: value, left)

/-- The value of a property, and what is left behind the end of its last line. -/
def readValue (s : Str) : Str × Option Str := valueLoop s.length s

/-- The property whose key begins with `pfx`. -/
def readProperty (pfx text : Str) : Statement × Option Str :=
  let key := pfx ++ text.takeWhile inKey
  match text.dropWhile inKey with
  | [] => (.property (trim key) [], none)
  | c :: rest =>
      if c = '='.toUInt8 ∨ c = ':'.toUInt8 then
        let (value, left) := readValue rest
        (.property (trim key) (trim value), left)
      else (.property (trim key) [], some rest)

/-- The characters that agree with those of a directive. -/
def commonPrefix : Str → Str → Str
  | d :: directive, c :: text => if c = d then c :: commonPrefix directive text else []
  | _, _ => []

/-- `parseLine`, without what the statement does. -/
def parseLine (istr : Str) : Except Exn (Statement × Option Str) :=
  match istr.dropWhile isSpace with
  | [] => .ok (.nothing, none)
  | c :: rest =>
      let text := c :: rest
      let left := behind (text.dropWhile inLine)
      if c = '#'.toUInt8 then .ok (.nothing, left)
      else if c = '!'.toUInt8 then
        match extractIncludePath (text.takeWhile inLine) with
        | .error e => .error e
        | .ok (path, _) => .ok (if path = [] then .nothing else .includeFile path false, left)
      else if c = '?'.toUInt8 then
        let pfx := commonPrefix (str "?include") text
        let more := text.drop pfx.length
        if pfx = str "?include" ∧ ∃ d ∈ more.head?, inLine d = true ∧ isSpace d = true then
          match extractIncludePath (text.takeWhile inLine) with
          | .error e => .error e
          | .ok (path, isOptional) =>
              .ok (if path = [] then .property pfx [] else .includeFile path isOptional, left)
        else .ok (readProperty pfx more)
      else .ok (readProperty [] text)

/-! ### Loading -/

/-- `setRaw(key, value)`, with the file that the property comes from. -/
def setProperty (conf : PropertyFileConfiguration) (currentFile key value : Str) : PropertyFileConfiguration :=
  { conf with
    _map := conf._map.insert key value
    _sourceMap := if currentFile = [] then conf._sourceMap else conf._sourceMap.insert key currentFile }

/-- The loop of `loadStream` over at most `fuel` characters: `includeFile` is `processInclude`. -/
def loadLoop (includeFile : Str → Bool → PropertyFileConfiguration → Except Exn PropertyFileConfiguration)
    (currentFile : Str) : ℕ → PropertyFileConfiguration → Str → Except Exn PropertyFileConfiguration
  | 0, conf, _ => .ok conf
  | fuel + 1, conf, istr => do
      let (statement, left) ← parseLine istr
      let conf ← match statement with
        | .nothing => pure conf
        | .property key value => pure (conf.setProperty currentFile key value)
        | .includeFile path isOptional => includeFile path isOptional conf
      match left with
      | none => return conf
      | some rest => loadLoop includeFile currentFile fuel conf rest

theorem length_filter_lt {α : Type} {p q : α → Bool} {l : List α} (h : ∀ x, q x = true → p x = true) {x : α}
    (hx : x ∈ l) (hp : p x = true) (hq : q x = false) : (l.filter q).length < (l.filter p).length := by
  have hfilter : l.filter q = (l.filter p).filter q := by
    rw [List.filter_filter]
    congr 1
    funext y
    by_cases hy : q y = true
    · simp [hy, h y hy]
    · simp [hy]
  rw [hfilter, List.length_filter_lt_length_iff_exists]
  exact ⟨x, List.mem_filter.mpr ⟨hx, hp⟩, by simp [hq]⟩

/-- `processInclude` and `loadStream` for the file that is included.  A file is not included within itself, so
that the files that are not on the stack become fewer. -/
def processInclude (fs : FileSystem) (includeStack : List Str) (includePath : Str) (isOptional : Bool)
    (basePath : Str) (conf : PropertyFileConfiguration) : Except Exn PropertyFileConfiguration :=
  match fs.resolveIncludePath conf._map includePath basePath with
  | .error e => .error e
  | .ok absPath =>
      if _ : absPath ∈ includeStack then
        .error (.fileException "Cyclic property file include detected" absPath)
      else
        match hfile : fs.files.find? fun f => f.1 = absPath with
        | none => if isOptional then .ok conf else .error (.openFileException absPath)
        | some (_, none) => .error (.openFileException absPath)
        | some (_, some text) =>
            loadLoop (fun path isOptional conf =>
              processInclude fs (absPath :: includeStack) path isOptional (fs.parent absPath) conf)
              absPath (text.length + 1) conf text
termination_by (fs.files.filter fun f => f.1 ∉ includeStack).length
decreasing_by
  have hmem := List.mem_of_find?_eq_some hfile
  have hpath := List.find?_some hfile
  refine length_filter_lt (fun f hf => ?_) hmem ?_ ?_
  · rw [decide_eq_true_eq] at hf ⊢
    exact fun h => hf (List.mem_cons_of_mem _ h)
  · rw [decide_eq_true_eq] at hpath ⊢
    exact hpath ▸ ‹absPath ∉ includeStack›
  · rw [decide_eq_true_eq] at hpath
    exact decide_eq_false (not_not_intro (hpath ▸ List.mem_cons_self))

/-- `load(istr)`. -/
def load (fs : FileSystem) (istr : Str) : Except Exn PropertyFileConfiguration :=
  let conf : PropertyFileConfiguration :=
    { _map := .empty, _sourceMap := .empty, _removedSourceFiles := [], _rootFile := [] }
  loadLoop (fun path isOptional conf => processInclude fs [] path isOptional [] conf) [] (istr.length + 1) conf istr

/-! ### The bounds on the loops -/

theorem length_readChar {afterReturn : Bool} {s rest : Str} {c : UInt8}
    (h : readChar afterReturn s = (some c, rest)) : rest.length < s.length := by
  fun_induction readChar afterReturn s
  case case1 | case3 => cases h
  case case2 ih | case8 ih | case9 ih =>
    have hlt := ih h
    simp only [List.length_cons]
    omega
  all_goals
    obtain ⟨-, rfl⟩ := Prod.mk.inj h
    simp only [List.length_cons]
    omega

/-- As many rounds as characters are enough for a value. -/
theorem valueLoop_of_le {fuel : ℕ} {s : Str} (h : s.length ≤ fuel) : valueLoop fuel s = valueLoop s.length s := by
  induction fuel using Nat.strong_induction_on generalizing s with
  | _ fuel ih =>
      cases s with
      | nil =>
          cases fuel with
          | zero => rfl
          | succ fuel => rfl
      | cons c s =>
          obtain ⟨fuel, rfl⟩ : ∃ n, fuel = n + 1 := ⟨fuel - 1, by simp only [List.length_cons] at h; omega⟩
          rw [List.length_cons, valueLoop, valueLoop]
          cases hread : readChar false (c :: s) with
          | mk d rest =>
              cases d with
              | none => rfl
              | some d =>
                  have hlt := length_readChar hread
                  simp only [List.length_cons] at h hlt
                  dsimp only
                  rw [ih fuel (Nat.lt_succ_self _) (show rest.length ≤ fuel by omega)]
                  rcases Nat.lt_or_ge s.length (fuel + 1) with hs | hs
                  · rw [ih s.length hs (show rest.length ≤ s.length by omega)]
                  · omega

theorem length_valueLoop {fuel : ℕ} {s value rest : Str} (h : valueLoop fuel s = (value, some rest)) :
    rest.length < s.length := by
  induction fuel generalizing s value with
  | zero => cases h
  | succ fuel ih =>
      rw [valueLoop] at h
      cases hread : readChar false s with
      | mk c more =>
          rw [hread] at h
          cases c with
          | none => cases h
          | some c =>
              have hlt := length_readChar hread
              dsimp only at h
              split_ifs at h with hc
              · obtain ⟨-, hrest⟩ := Prod.mk.inj h
                rwa [← Option.some.inj hrest]
              · cases hmore : valueLoop fuel more with
                | mk v left =>
                    rw [hmore] at h
                    obtain ⟨-, rfl⟩ := Prod.mk.inj h
                    exact (ih hmore).trans hlt

theorem length_behind {s t rest : Str} (hs : s <:+ t) (h : behind s = some rest) : rest.length < t.length := by
  cases s with
  | nil => cases h
  | cons c s =>
      obtain rfl := Option.some.inj h
      exact hs.length_le

theorem length_readProperty {pfx text rest : Str} {st : Statement} (h : readProperty pfx text = (st, some rest)) :
    rest.length < text.length := by
  have hle := (List.dropWhile_suffix inKey (l := text)).length_le
  unfold readProperty at h
  cases hdrop : text.dropWhile inKey with
  | nil =>
      rw [hdrop] at h
      cases h
  | cons c more =>
      rw [hdrop] at h hle
      rw [List.length_cons] at hle
      dsimp only at h
      split_ifs at h with hc
      · have hlt := length_valueLoop (Prod.ext rfl (Prod.mk.inj h).2 : readValue more = (_, some rest))
        omega
      · obtain ⟨-, hrest⟩ := Prod.mk.inj h
        obtain rfl := Option.some.inj hrest
        omega

theorem length_parseLine {istr rest : Str} {st : Statement} (h : parseLine istr = .ok (st, some rest)) :
    rest.length < istr.length := by
  have hsuffix := List.dropWhile_suffix isSpace (l := istr)
  unfold parseLine at h
  generalize istr.dropWhile isSpace = text at h hsuffix
  have hline := (List.dropWhile_suffix inLine (l := text)).trans hsuffix
  cases text with
  | nil => cases h
  | cons c more =>
      dsimp only at h
      split_ifs at h with hhash hbang hquery hdirective
      · exact length_behind hline (Prod.mk.inj (Except.ok.inj h)).2
      · cases hpath : extractIncludePath ((c :: more).takeWhile inLine) with
        | error e =>
            rw [hpath] at h
            cases h
        | ok path =>
            rw [hpath] at h
            exact length_behind hline (Prod.mk.inj (Except.ok.inj h)).2
      · cases hpath : extractIncludePath ((c :: more).takeWhile inLine) with
        | error e =>
            rw [hpath] at h
            cases h
        | ok path =>
            rw [hpath] at h
            exact length_behind hline (Prod.mk.inj (Except.ok.inj h)).2
      · have hlt := length_readProperty (Except.ok.inj h)
        exact hlt.trans_le ((List.drop_suffix _ _).trans hsuffix).length_le
      · exact (length_readProperty (Except.ok.inj h)).trans_le hsuffix.length_le

/-- One round more than there are characters is enough for a stream. -/
theorem loadLoop_of_lt {includeFile : Str → Bool → PropertyFileConfiguration → Except Exn PropertyFileConfiguration}
    {currentFile : Str} {fuel : ℕ} {conf : PropertyFileConfiguration} {istr : Str} (h : istr.length < fuel) :
    loadLoop includeFile currentFile fuel conf istr =
      loadLoop includeFile currentFile (istr.length + 1) conf istr := by
  induction fuel using Nat.strong_induction_on generalizing istr conf with
  | _ fuel ih =>
      obtain ⟨fuel, rfl⟩ : ∃ n, fuel = n + 1 := ⟨fuel - 1, by omega⟩
      rw [loadLoop, loadLoop]
      cases hparse : parseLine istr with
      | error e => rfl
      | ok result =>
          obtain ⟨st, left⟩ := result
          cases left with
          | none => rfl
          | some rest =>
              have hlt := length_parseLine hparse
              have hrest : ∀ conf, loadLoop includeFile currentFile fuel conf rest =
                  loadLoop includeFile currentFile istr.length conf rest := by
                intro conf
                rw [ih fuel (by omega) (by omega)]
                rcases Nat.lt_or_ge istr.length (fuel + 1) with hs | hs
                · rw [ih istr.length hs hlt]
                · omega
              simp only [Bind.bind, Except.bind, hrest]

/-! ### What is saved is loaded -/

/-- Keys that can be saved. -/
structure LegalKey (key : Str) : Prop where
  ne_nil : key ≠ []
  first : ∀ c ∈ key.head?, isSpace c = false ∧ c ≠ '#'.toUInt8 ∧ c ≠ '!'.toUInt8 ∧ c ≠ '?'.toUInt8
  last : ∀ c ∈ key.getLast?, isSpace c = false
  inKey : ∀ c ∈ key, inKey c = true

/-- A character that is no backslash stands for itself, or ends the line. -/
theorem readChar_plain {c : UInt8} (h : c ≠ '\\'.toUInt8) (rest : Str) :
    readChar false (c :: rest) = (if inLine c then some c else some 0, rest) := by
  have hreturn : ¬(false = true ∧ c = '\n'.toUInt8) := fun h => Bool.false_ne_true h.1
  rw [readChar.eq_def]
  dsimp only
  rw [if_neg hreturn, if_neg h]
  split_ifs <;> rfl

theorem readChar_escapeChar (c : UInt8) (rest : Str) : readChar false (escapeChar c ++ rest) = (some c, rest) := by
  unfold escapeChar
  split_ifs with htab hcr hlf hff hback
  · subst htab
    rfl
  · subst hcr
    rfl
  · subst hlf
    rfl
  · subst hff
    rfl
  · subst hback
    rfl
  · have hline : inLine c = true := decide_eq_true ⟨hlf, hcr⟩
    rw [List.singleton_append, readChar_plain hback, if_pos hline]

theorem length_escapeChar_pos (c : UInt8) : 0 < (escapeChar c).length := by
  unfold escapeChar
  split_ifs <;> exact Nat.succ_pos _

theorem valueLoop_escapeValue {value : Str} (h : 0 ∉ value) {e : UInt8} (he : e = 0 ∨ inLine e = false) (rest : Str)
    {fuel : ℕ} (hfuel : (escapeValue value).length < fuel) :
    valueLoop fuel (escapeValue value ++ e :: rest) = (value, some rest) := by
  induction value generalizing fuel with
  | nil =>
      cases fuel with
      | zero => exact absurd hfuel (Nat.not_lt_zero _)
      | succ fuel =>
          have hend : readChar false (escapeValue [] ++ e :: rest) = (some 0, rest) := by
            have hback : e ≠ '\\'.toUInt8 := by
              rintro rfl
              exact absurd he (by decide)
            rw [escapeValue, List.flatMap_nil, List.nil_append, readChar_plain hback]
            rcases he with rfl | he
            · rfl
            · rw [he, if_neg (by decide)]
          rw [valueLoop, hend]
          rfl
  | cons c value ih =>
      have hesc : escapeValue (c :: value) = escapeChar c ++ escapeValue value := List.flatMap_cons
      have hpos := length_escapeChar_pos c
      rw [hesc, List.length_append] at hfuel
      obtain ⟨fuel, rfl⟩ : ∃ n, fuel = n + 1 := ⟨fuel - 1, by omega⟩
      have hc : c ≠ 0 := fun h0 => h (h0 ▸ List.mem_cons_self)
      rw [hesc, List.append_assoc, valueLoop, readChar_escapeChar]
      dsimp only
      rw [if_neg hc, ih (fun hmem => h (List.mem_cons_of_mem c hmem)) (by omega)]

/-- The value behind the sign, with the blank in front of it. -/
theorem readValue_escapeValue {value : Str} (h : 0 ∉ value) {e : UInt8} (he : e = 0 ∨ inLine e = false) (rest : Str) :
    readValue (' '.toUInt8 :: escapeValue value ++ e :: rest) = (' '.toUInt8 :: value, some rest) := by
  have hblank : readChar false (' '.toUInt8 :: (escapeValue value ++ e :: rest)) =
      (some ' '.toUInt8, escapeValue value ++ e :: rest) := readChar_plain (by decide) _
  rw [readValue, List.cons_append, List.length_cons, valueLoop, hblank]
  dsimp only
  rw [if_neg (by decide), valueLoop_escapeValue h he rest (by simp)]

theorem trim_blank (s : Str) : trim (' '.toUInt8 :: s) = trim s := rfl

theorem trim_eq_self {s : Str} (hfirst : ∀ c ∈ s.head?, isSpace c = false)
    (hlast : ∀ c ∈ s.getLast?, isSpace c = false) : trim s = s := by
  have hhead : s.dropWhile isSpace = s := by
    cases s with
    | nil => rfl
    | cons c s => exact List.dropWhile_cons_of_neg (by simp [hfirst c rfl])
  rw [trim, hhead, List.rdropWhile_eq_self_iff]
  intro hne hspace
  have := hlast _ (List.getLast?_eq_getLast_of_ne_nil hne)
  rw [this] at hspace
  cases hspace

theorem trim_key {key : Str} (h : LegalKey key) : trim (key ++ [' '.toUInt8]) = key := by
  have hhead : (key ++ [' '.toUInt8]).dropWhile isSpace = key ++ [' '.toUInt8] := by
    obtain ⟨c, s, rfl⟩ := List.exists_cons_of_ne_nil h.ne_nil
    exact List.dropWhile_cons_of_neg (by simp [(h.first c rfl).1])
  have hself := trim_eq_self (fun c hc => (h.first c hc).1) h.last
  have hhead' : key.dropWhile isSpace = key := by
    obtain ⟨c, s, rfl⟩ := List.exists_cons_of_ne_nil h.ne_nil
    exact List.dropWhile_cons_of_neg (by simp [(h.first c rfl).1])
  rw [trim, hhead'] at hself
  rw [trim, hhead, List.rdropWhile_concat_pos _ _ _ (by decide), hself]

theorem parseLine_entry {key value : Str} (hkey : LegalKey key) (hvalue : 0 ∉ value) (rest : Str) :
    parseLine (key ++ [' '.toUInt8, '='.toUInt8, ' '.toUInt8] ++ escapeValue value ++ ['\n'.toUInt8] ++ rest) =
      .ok (.property key (trim value), some rest) := by
  have htext : key ++ [' '.toUInt8, '='.toUInt8, ' '.toUInt8] ++ escapeValue value ++ ['\n'.toUInt8] ++ rest =
      (key ++ [' '.toUInt8]) ++ '='.toUInt8 :: (' '.toUInt8 :: escapeValue value ++ '\n'.toUInt8 :: rest) := by
    simp
  have hchars : ∀ c ∈ key ++ [' '.toUInt8], inKey c = true := by
    rw [List.forall_mem_append, List.forall_mem_singleton]
    exact ⟨hkey.inKey, by decide⟩
  obtain ⟨c, s, rfl⟩ := List.exists_cons_of_ne_nil hkey.ne_nil
  obtain ⟨hspace, hhash, hbang, hquery⟩ := hkey.first c rfl
  have hread : readProperty [] (((c :: s) ++ [' '.toUInt8]) ++
        '='.toUInt8 :: (' '.toUInt8 :: escapeValue value ++ '\n'.toUInt8 :: rest)) =
      (.property (c :: s) (trim value), some rest) := by
    unfold readProperty
    rw [List.takeWhile_append_of_pos hchars, List.dropWhile_append_of_pos hchars,
      List.takeWhile_cons_of_neg (by decide), List.dropWhile_cons_of_neg (by decide), List.append_nil,
      List.nil_append]
    dsimp only
    rw [if_pos (Or.inl rfl), readValue_escapeValue hvalue (by decide), trim_key hkey]
    rfl
  rw [htext, parseLine, List.cons_append, List.cons_append, List.dropWhile_cons_of_neg (by simp [hspace])]
  dsimp only
  rw [if_neg hhash, if_neg hbang, if_neg hquery]
  exact congrArg Except.ok hread

/-- Lines that have been saved set their properties one after another; none of them includes a file. -/
theorem loadLoop_entries (includeFile : Str → Bool → PropertyFileConfiguration → Except Exn PropertyFileConfiguration)
    {l : List (Str × Str)} (hkeys : ∀ e ∈ l, LegalKey e.1) (hvalues : ∀ e ∈ l, 0 ∉ e.2) {fuel : ℕ}
    (hfuel : (l.flatMap entryLine).length < fuel) (conf : PropertyFileConfiguration) :
    loadLoop includeFile [] fuel conf (l.flatMap entryLine) =
      .ok (l.foldl (fun conf e => conf.setProperty [] e.1 (trim e.2)) conf) := by
  induction l generalizing fuel conf with
  | nil =>
      cases fuel with
      | zero => exact absurd hfuel (Nat.not_lt_zero _)
      | succ fuel => rfl
  | cons e l ih =>
      rw [List.forall_mem_cons] at hkeys hvalues
      have hpos : 0 < (entryLine e).length := by
        rw [entryLine, List.length_append]
        exact Nat.succ_pos _
      rw [List.flatMap_cons, List.length_append] at hfuel
      obtain ⟨fuel, rfl⟩ : ∃ n, fuel = n + 1 := ⟨fuel - 1, by omega⟩
      have hline : parseLine (entryLine e ++ l.flatMap entryLine) =
          .ok (.property e.1 (trim e.2), some (l.flatMap entryLine)) := parseLine_entry hkeys.1 hvalues.1 _
      have hshort : (l.flatMap entryLine).length < fuel := by omega
      have hrest := ih hkeys.2 hvalues.2 hshort (conf.setProperty [] e.1 (trim e.2))
      rw [List.flatMap_cons, loadLoop, hline, List.foldl_cons, ← hrest]
      rfl

theorem map_foldl_setProperty (l : List (Str × Str)) (conf : PropertyFileConfiguration) :
    (l.foldl (fun conf e => conf.setProperty [] e.1 (trim e.2)) conf)._map =
      (l.map fun e => (e.1, trim e.2)).foldl (fun m e => m.insert e.1 e.2) conf._map := by
  induction l generalizing conf with
  | nil => rfl
  | cons e l ih =>
      rw [List.foldl_cons, ih]
      rfl

/-- **Main result.** What has been saved is loaded as the same keys, each with its value without the white
space at its ends. -/
theorem load_save (fs : FileSystem) {conf : PropertyFileConfiguration}
    (hkeys : ∀ e ∈ conf._map.entries, LegalKey e.1) (hvalues : ∀ e ∈ conf._map.entries, 0 ∉ e.2) :
    (load fs conf.save).map (·._map) = .ok (conf._map.mapValues trim) := by
  have hmap := OrderedMap.foldl_insert_entries (conf._map.mapValues trim)
  rw [load, save, loadLoop_entries _ hkeys hvalues (Nat.lt_succ_self _), Except.map, map_foldl_setProperty]
  exact congrArg Except.ok hmap

/-- A value that needs every escape sequence, under a key with a blank inside. -/
theorem load_save_escaped :
    (load ⟨[], fun _ _ _ => .error .other, id⟩
        { _map := .insert .empty (str "my key") (str "\t = a\\b\r\n!c:"), _sourceMap := .empty,
          _removedSourceFiles := [], _rootFile := [] : PropertyFileConfiguration }.save).map (·._map) =
      .ok ((OrderedMap.insert .empty (str "my key") (str "\t = a\\b\r\n!c:")).mapValues trim) := by
  refine load_save ⟨[], fun _ _ _ => .error .other, id⟩ ?_ ?_
  · intro e he
    obtain rfl := List.mem_singleton.mp he
    refine ⟨?_, ?_, ?_, ?_⟩ <;> decide +kernel
  · intro e he
    obtain rfl := List.mem_singleton.mp he
    decide

/-- A value with a blank in front loses the blank. -/
theorem not_load_save :
    let conf : PropertyFileConfiguration :=
      { _map := .insert .empty (str "key") (str " value"), _sourceMap := .empty, _removedSourceFiles := [],
        _rootFile := [] }
    (∀ e ∈ conf._map.entries, LegalKey e.1) ∧
      (load ⟨[], fun _ _ _ => .error .other, id⟩ conf.save).map (·._map.entries) ≠ .ok conf._map.entries := by
  refine ⟨fun e he => ?_, ?_⟩
  · obtain rfl := List.mem_singleton.mp he
    refine ⟨?_, ?_, ?_, ?_⟩ <;> decide +kernel
  · decide +kernel

end PropertyFileConfiguration

end Poco.Util
