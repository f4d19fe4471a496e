import Poco.Lib.Segments
import Mathlib.Data.List.GetD
import Poco.Util.PropertyFile

/-! # `PropertyFileConfiguration::saveToFile`

`saveToFile` writes a map over an existing property file line by line: comments, blank lines and include
directives stay, the properties get their new values or go away with the lines that continue them, and new
properties are put behind the last line.  A line without a separator stays too.

`layout` says what the lines of a file are.  The loop writes line by line what stands for the lines of the old
file (`rewriteLoop_eq`), and what it has written has the layout that was meant (`layout_written`). -/

namespace Poco.Util.PropertyFileConfiguration

open Poco.Lib Poco.Foundation Hex

/-! ### Saving to a file -/

/-- The lines that `std::getline` reads. -/
def getlines (text : Str) : List Str :=
  let (lines, last) := split (· == '\n'.toUInt8) text
  lines ++ if last = [] then [] else [last]

/-- A carriage return at the end of a line is removed. -/
def popReturn (line : Str) : Str := if line.getLast? = some '\r'.toUInt8 then line.dropLast else line

/-- The lines of a text without their ends. -/
def readLines (text : Str) : List Str := (getlines text).map popReturn

/-- A comment or an include directive. -/
def isDirective (line : Str) : Bool :=
  match line.dropWhile isSpace with
  | [] => false
  | c :: _ =>
      c == '#'.toUInt8 || c == '!'.toUInt8 ||
        c == '?'.toUInt8 && match extractIncludePath line with
          | .ok (path, _) => path != []
          | .error _ => false

/-- A character that does not end the key. -/
def noSeparator (c : UInt8) : Bool := c ≠ '='.toUInt8 ∧ c ≠ ':'.toUInt8

/-- The key of a line and its separator; `none` if there is no separator. -/
def findSeparator (line : Str) : Option (Str × UInt8) :=
  match line.dropWhile noSeparator with
  | [] => none
  | sepChar :: _ => some (trim (line.takeWhile noSeparator), sepChar)

/-- The line of a property. -/
def propertyLine (key : Str) (sepChar : UInt8) (value : Str) : Str :=
  key ++ [' '.toUInt8, sepChar, ' '.toUInt8] ++ escapeValue value

/-- The line ends in a backslash. -/
def endsInBackslash (line : Str) : Bool := line.getLast? = some '\\'.toUInt8

/-- The loop over the lines of the old file: the lines that are written, and the keys.  Lines are skipped behind
a line of a property that ends in a backslash. -/
def rewriteLoop (values : OrderedMap Str Str) : Bool → List Str → List Str × List Str
  | _, [] => ([], [])
  | true, line :: rest => rewriteLoop values (endsInBackslash line) rest
  | false, line :: rest =>
      if line = [] ∨ isDirective line then
        let (out, written) := rewriteLoop values false rest
        (line :: out, written)
      else
        match findSeparator line with
        | some (key, sepChar) =>
            let (out, written) := rewriteLoop values (endsInBackslash line) rest
            match values.find? key with
            | some value => (propertyLine key sepChar value :: out, key :: written)
            | none => (out, written)
        | none =>
            let (out, written) := rewriteLoop values false rest
            (line :: out, written)

theorem lawfulBEq_str : LawfulBEq Str := inferInstance

attribute [local instance] lawfulBEq_str

/-- The new keys with their values. -/
def newLines (values : OrderedMap Str Str) (written : List Str) : List Str :=
  (values.entries.filter fun e => e.1 ∉ written).map fun e => propertyLine e.1 '='.toUInt8 e.2

/-- `OutputLineEndingConverter` behind the character `lastChar`. -/
def writeToDevice (newLine : Str) : UInt8 → Str → Str
  | _, [] => []
  | lastChar, c :: s =>
      (if c = '\r'.toUInt8 ∨ c = '\n'.toUInt8 ∧ lastChar ≠ '\r'.toUInt8 then newLine else []) ++
        (if c ≠ '\n'.toUInt8 ∧ c ≠ '\r'.toUInt8 then [c] else []) ++ writeToDevice newLine c s

/-- The line ends that are the default of a platform. -/
inductive LineEnding
  | lf
  | crlf
deriving DecidableEq, Repr

/-- `NEWLINE_DEFAULT`. -/
def LineEnding.newLine : LineEnding → Str
  | lf => ['\n'.toUInt8]
  | crlf => ['\r'.toUInt8, '\n'.toUInt8]

/-- `saveToFile`: what is written over the old text, which is missing if the file does not exist. -/
def saveToFile (ending : LineEnding) (old : Option Str) (values : OrderedMap Str Str) : Str :=
  let (out, written) := match old with
    | some text => rewriteLoop values false (readLines text)
    | none => ([], [])
  writeToDevice ending.newLine 0 (join '\n'.toUInt8 (out ++ newLines values written))

/-- `load(path)` for the file `absPath` with the given text. -/
def loadFile (fs : FileSystem) (absPath text : Str) : Except Exn PropertyFileConfiguration :=
  let conf : PropertyFileConfiguration :=
    { _map := .empty, _sourceMap := .empty, _removedSourceFiles := [], _rootFile := absPath }
  loadLoop (fun path isOptional conf => processInclude fs [absPath] path isOptional (fs.parent absPath) conf) absPath
    (text.length + 1) conf text

/-! ### The layout of a file -/

/-- The lines of a file. -/
inductive Line
  /-- A comment, a blank line or an include directive. -/
  | kept (text : Str)
  /-- A line without a separator. -/
  | bare (text : Str)
  /-- The first line of a property. -/
  | property (key : Str) (sepChar : UInt8) (text : Str)
  /-- A line that continues the value of the property in front of it. -/
  | continuation (text : Str)
deriving DecidableEq, Repr

/-- The name of an included file stands in the line. -/
def namesFile (text : Str) : Bool :=
  match extractIncludePath text with
  | .ok (path, _) => path != []
  | .error _ => false

/-- A comment, a blank line or an include directive. -/
def isKept (text : Str) : Bool :=
  text.all isSpace || text.find? (!isSpace ·) == some '#'.toUInt8 || text.find? (!isSpace ·) == some '!'.toUInt8 ||
    namesFile text

/-- The line ends in a backslash that is not escaped. -/
def continues (text : Str) : Bool := (text.reverse.takeWhile (· == '\\'.toUInt8)).length % 2 = 1

/-- The lines of a file, behind a line that is continued or not. -/
def layout : Bool → List Str → List Line
  | _, [] => []
  | true, text :: rest => .continuation text :: layout (continues text) rest
  | false, text :: rest =>
      if isKept text then .kept text :: layout false rest
      else
        match findSeparator text with
        | some (key, sepChar) => .property key sepChar text :: layout (continues text) rest
        | none => .bare text :: layout false rest

/-- The layout of a text. -/
def linesOf (text : Str) : List Line := layout false (readLines text)

/-- The text of a comment, a blank line or an include directive. -/
def Line.kept? : Line → Option Str
  | kept text => some text
  | _ => none

/-- The comments, blank lines and include directives of a text in their order. -/
def keptLines (text : Str) : List Str := (linesOf text).filterMap Line.kept?

/-- A line of a property ends in a backslash only if the value goes on in the next line. -/
def Line.Ends : Line → Prop
  | property _ _ text | continuation text => endsInBackslash text = true → continues text = true
  | _ => True

/-- The line that is written for the entry says what the entry is. -/
def Survives (e : Str × Str) : Prop := parseLine (entryLine e) = .ok (.property e.1 e.2, some [])

instance (e : Str × Str) : Decidable (Survives e) := inferInstanceAs (Decidable (_ = _))

/-! ### What is written for a line -/

/-- A line that is written. -/
inductive Written
  | kept (text : Str)
  | bare (text : Str)
  | entry (key : Str) (sepChar : UInt8) (value : Str)

namespace Written

/-- The line itself. -/
def text : Written → Str
  | kept text | bare text => text
  | entry key sepChar value => propertyLine key sepChar value

/-- The key that is marked as written. -/
def key? : Written → Option Str
  | entry key _ _ => some key
  | _ => none

/-- The line as a line of the new file. -/
def toLine : Written → Line
  | kept text => .kept text
  | bare text => .bare text
  | entry key sepChar value => .property key sepChar (propertyLine key sepChar value)

end Written

/-- What is written for a line. -/
def Line.rewrite (values : OrderedMap Str Str) : Line → Option Written
  | kept text => some (.kept text)
  | bare text => some (.bare text)
  | property key sepChar _ => (values.find? key).map (.entry key sepChar)
  | continuation _ => none

theorem namesFile_head {text : Str} {c : UInt8} {rest : Str} (hsplit : text.dropWhile isSpace = c :: rest)
    (h : namesFile text = true) : c = '!'.toUInt8 ∨ c = '?'.toUInt8 := by
  by_cases hquery : c = '?'.toUInt8
  · exact .inr hquery
  left
  have hno : ¬(c :: rest).head? = some '?'.toUInt8 := fun hc => hquery (Option.some.inj hc)
  rw [namesFile, extractIncludePath, hsplit] at h
  dsimp only at h
  simp only [if_neg hno] at h
  by_cases hdirective : (c :: rest).length > (str "!include").length ∧
      (c :: rest).take (str "!include").length = str "!include" ∧
      isSpace ((c :: rest).getD (str "!include").length 0) = true
  · exact (List.cons.inj hdirective.2.1).1
  · simp only [if_neg hdirective] at h
    exact absurd h (by decide)

/-- The test of the loop, and the blank lines that it leaves to the search for a separator. -/
theorem isKept_iff (text : Str) : isKept text = true ↔ text.all isSpace = true ∨ isDirective text = true := by
  rw [isKept, isDirective, List.find?_eq_head?_dropWhile_not]
  cases hsplit : text.dropWhile isSpace with
  | nil =>
      have hall : text.all isSpace = true := by
        rw [List.all_eq_true]
        exact List.dropWhile_eq_nil_iff.mp hsplit
      simp [hall]
  | cons c rest =>
      have hhead := namesFile_head hsplit
      have hnames : (match extractIncludePath text with
        | .ok (path, _) => path != []
        | .error _ => false) = namesFile text := rfl
      simp only [Bool.not_not, hsplit, List.head?_cons, hnames, Bool.or_eq_true, Bool.and_eq_true, beq_iff_eq,
        Option.some.injEq]
      by_cases hfile : namesFile text = true
      · rcases hhead hfile with rfl | rfl <;> simp [hfile]
      · simp [hfile, or_assoc]

theorem findSeparator_blank {text : Str} (h : text.all isSpace = true) : findSeparator text = none := by
  have hall : ∀ c ∈ text, noSeparator c = true := by
    intro c hc
    have hspace := List.all_eq_true.mp h c hc
    rw [noSeparator, decide_eq_true_eq]
    constructor <;> rintro rfl <;> exact absurd hspace (by decide)
  rw [findSeparator, List.dropWhile_eq_nil_iff.mpr hall]

theorem endsInBackslash_of_continues {text : Str} (h : continues text = true) : endsInBackslash text = true := by
  rw [continues, decide_eq_true_eq] at h
  rw [endsInBackslash, decide_eq_true_eq, ← List.head?_reverse]
  cases hrev : text.reverse with
  | nil =>
      rw [hrev] at h
      cases h
  | cons c rest =>
      by_cases hc : c = '\\'.toUInt8
      · rw [hc, List.head?_cons]
      · rw [hrev, List.takeWhile_cons_of_neg (by simpa using hc)] at h
        cases h

/-- The lines that are skipped are those that the value goes on in. -/
theorem endsInBackslash_eq {text : Str} (h : endsInBackslash text = true → continues text = true) :
    endsInBackslash text = continues text :=
  Bool.eq_iff_iff.mpr ⟨h, endsInBackslash_of_continues⟩

/-- The loop writes line by line what stands for the lines of the old file. -/
theorem rewriteLoop_eq (values : OrderedMap Str Str) {continued : Bool} {lines : List Str}
    (hends : ∀ l ∈ layout continued lines, l.Ends) :
    rewriteLoop values continued lines =
      (((layout continued lines).filterMap (Line.rewrite values)).map Written.text,
        ((layout continued lines).filterMap (Line.rewrite values)).filterMap Written.key?) := by
  induction lines generalizing continued with
  | nil => cases continued <;> rfl
  | cons text rest ih =>
      cases continued with
      | true =>
          rw [layout, List.forall_mem_cons] at hends
          rw [rewriteLoop, endsInBackslash_eq hends.1, ih hends.2, layout]
          rfl
      | false =>
          rw [layout] at hends ⊢
          rw [rewriteLoop]
          by_cases hkept : isKept text = true
          · rw [if_pos hkept, List.forall_mem_cons] at hends
            rw [if_pos hkept, ih hends.2]
            by_cases hline : text = [] ∨ isDirective text = true
            · rw [if_pos hline]
              rfl
            · have hblank : text.all isSpace = true :=
                ((isKept_iff text).mp hkept).resolve_right fun hd => hline (.inr hd)
              rw [if_neg hline, findSeparator_blank hblank]
              rfl
          · have hline : ¬(text = [] ∨ isDirective text = true) := by
              rintro (rfl | hd)
              · exact hkept (by decide)
              · exact hkept ((isKept_iff text).mpr (.inr hd))
            rw [if_neg hkept] at hends ⊢
            rw [if_neg hline]
            cases hsep : findSeparator text with
            | none =>
                rw [hsep] at hends
                rw [ih (List.forall_mem_cons.mp hends).2]
                rfl
            | some found =>
                obtain ⟨key, sepChar⟩ := found
                rw [hsep] at hends
                obtain ⟨hend, hrest⟩ := List.forall_mem_cons.mp hends
                dsimp only
                rw [endsInBackslash_eq hend, ih hrest]
                cases hfind : values.find? key with
                | none => simp [Line.rewrite, hfind]
                | some value => simp [Line.rewrite, hfind, Written.text, Written.key?]

/-! ### Entries that survive -/

theorem trim_trim (s : Str) : trim (trim s) = trim s := by
  apply trim_eq_self
  · intro c hc
    rw [trim] at hc
    cases hdrop : s.dropWhile isSpace with
    | nil =>
        rw [hdrop] at hc
        cases hc
    | cons d rest =>
        have hd := List.head?_dropWhile_not isSpace s
        rw [hdrop, List.head?_cons] at hd
        rw [hdrop] at hc
        have hhead : ((d :: rest).rdropWhile isSpace).head? = some c := hc
        have hpre := List.rdropWhile_prefix isSpace (d :: rest)
        cases hr : (d :: rest).rdropWhile isSpace with
        | nil =>
            rw [hr] at hhead
            cases hhead
        | cons x xs =>
            rw [hr] at hhead hpre
            rw [← Option.some.inj hhead, (List.cons_prefix_cons.mp hpre).1]
            exact hd
  · intro c hc
    rw [trim] at hc
    have hne : (s.dropWhile isSpace).rdropWhile isSpace ≠ [] := by
      intro hnil
      rw [hnil] at hc
      cases hc
    rw [List.getLast?_eq_getLast_of_ne_nil hne] at hc
    rw [← Option.some.inj hc]
    exact Bool.eq_false_iff.mpr (List.rdropWhile_last_not isSpace _ hne)

/-- The line is an optional include directive, perhaps without a path. -/
def QueryInclude (line : Str) : Prop := ∃ c, inLine c = true ∧ isSpace c = true ∧ str "?include" ++ [c] <+: line

/-- What an entry must be to survive. -/
structure Sound (key value : Str) : Prop where
  inKey : ∀ c ∈ key, inKey c = true
  trim_key : trim key = key
  first : ∀ c ∈ key.head?, c ≠ '#'.toUInt8 ∧ c ≠ '!'.toUInt8
  noInclude : ¬QueryInclude (key ++ [' '.toUInt8])
  nul : 0 ∉ value
  trim_value : trim value = value

theorem isPrefix_commonPrefix (directive text : Str) : commonPrefix directive text <+: directive := by
  fun_induction commonPrefix directive text with
  | case1 directive c text ih => exact (List.prefix_cons_inj c).mpr ih
  | case2 => exact List.nil_prefix
  | case3 => exact List.nil_prefix

theorem commonPrefix_append_drop (directive text : Str) :
    commonPrefix directive text ++ text.drop (commonPrefix directive text).length = text := by
  fun_induction commonPrefix directive text with
  | case1 directive c text ih => rw [List.length_cons, List.drop_succ_cons, List.cons_append, ih]
  | case2 => rfl
  | case3 => rfl

theorem commonPrefix_append (directive rest : Str) : commonPrefix directive (directive ++ rest) = directive := by
  induction directive with
  | nil => cases rest <;> rfl
  | cons d directive ih => rw [List.cons_append, commonPrefix, if_pos rfl, ih]

/-- The directive is met if the line begins with it and a blank. -/
theorem queryInclude_iff (text : Str) :
    (commonPrefix (str "?include") text = str "?include" ∧
      ∃ d ∈ (text.drop (commonPrefix (str "?include") text).length).head?, inLine d = true ∧ isSpace d = true) ↔
      QueryInclude text := by
  constructor
  · rintro ⟨hall, d, hd, hline, hspace⟩
    refine ⟨d, hline, hspace, ?_⟩
    have happend := commonPrefix_append_drop (str "?include") text
    rw [hall] at happend hd
    cases hdrop : text.drop (str "?include").length with
    | nil =>
        rw [hdrop] at hd
        cases hd
    | cons x rest =>
        rw [hdrop] at happend hd
        obtain rfl := Option.some.inj hd
        exact ⟨rest, by rw [← happend, List.append_assoc, List.singleton_append]⟩
  · rintro ⟨c, hline, hspace, rest, rfl⟩
    rw [List.append_assoc, commonPrefix_append]
    exact ⟨rfl, c, by simp, hline, hspace⟩

theorem queryInclude_append {key : Str} (rest : Str) :
    QueryInclude (key ++ ' '.toUInt8 :: rest) ↔ QueryInclude (key ++ [' '.toUInt8]) := by
  have happend : key ++ ' '.toUInt8 :: rest = (key ++ [' '.toUInt8]) ++ rest := by simp
  constructor
  · rintro ⟨c, hline, hspace, hpre⟩
    refine ⟨c, hline, hspace, ?_⟩
    rw [happend] at hpre
    have hkey := List.prefix_append (key ++ [' '.toUInt8]) rest
    rcases Nat.le_total (str "?include" ++ [c]).length (key ++ [' '.toUInt8]).length with hle | hle
    · exact List.prefix_of_prefix_length_le hpre hkey hle
    · -- the blank would be one of the letters of the directive
      obtain ⟨tail, htail⟩ := List.prefix_of_prefix_length_le hkey hpre hle
      cases tail with
      | nil =>
          rw [List.append_nil] at htail
          exact htail ▸ List.prefix_rfl
      | cons d tail =>
          have hmem : ' '.toUInt8 ∈ str "?include" := by
            have hlast := congrArg List.dropLast htail
            rw [List.dropLast_concat, List.dropLast_append_of_ne_nil (List.cons_ne_nil d tail)] at hlast
            rw [← hlast]
            simp
          exact absurd hmem (by decide)
  · rintro ⟨c, hline, hspace, hpre⟩
    exact ⟨c, hline, hspace, happend ▸ hpre.trans (List.prefix_append _ _)⟩

theorem parseLine_append_blank {w : Str} (h : ∀ c ∈ w, isSpace c = true) (text : Str) :
    parseLine (w ++ text) = parseLine text := by
  unfold parseLine
  rw [List.dropWhile_append_of_pos h]

/-- The letters that agree with the directive belong to the key. -/
theorem readProperty_commonPrefix (text : Str) :
    readProperty (commonPrefix (str "?include") text)
      (text.drop (commonPrefix (str "?include") text).length) = readProperty [] text := by
  have hletters : ∀ c ∈ commonPrefix (str "?include") text, inKey c = true := fun c hc =>
    List.all_eq_true.mp (by decide : (str "?include").all inKey = true) c ((isPrefix_commonPrefix _ _).subset hc)
  have happend := commonPrefix_append_drop (str "?include") text
  generalize commonPrefix (str "?include") text = pfx at hletters happend ⊢
  generalize text.drop pfx.length = more at happend ⊢
  subst happend
  simp only [readProperty, List.takeWhile_append_of_pos hletters, List.dropWhile_append_of_pos hletters,
    List.nil_append]

/-- A line that is neither a comment nor a directive is read as a property. -/
theorem parseLine_property {c : UInt8} {text : Str} (hspace : isSpace c = false) (hhash : c ≠ '#'.toUInt8)
    (hbang : c ≠ '!'.toUInt8) (hquery : ¬QueryInclude (c :: text)) :
    parseLine (c :: text) = .ok (readProperty [] (c :: text)) := by
  rw [parseLine, List.dropWhile_cons_of_neg (by simp [hspace])]
  dsimp only
  rw [if_neg hhash, if_neg hbang]
  split_ifs with hc hdirective
  · exact absurd ((queryInclude_iff _).mp hdirective) hquery
  · rw [readProperty_commonPrefix]
  · rfl

theorem readProperty_entry {k : Str} (hk : ∀ c ∈ k, inKey c = true) {sepChar : UInt8}
    (hsep : sepChar = '='.toUInt8 ∨ sepChar = ':'.toUInt8) {value : Str} (hnul : 0 ∉ value) {e : UInt8}
    (he : e = 0 ∨ inLine e = false) (rest : Str) :
    readProperty [] (k ++ sepChar :: (' '.toUInt8 :: escapeValue value ++ e :: rest)) =
      (.property (trim k) (trim value), some rest) := by
  have hstop : ¬inKey sepChar = true := by
    rcases hsep with rfl | rfl <;> decide
  unfold readProperty
  rw [List.takeWhile_append_of_pos hk, List.dropWhile_append_of_pos hk, List.takeWhile_cons_of_neg hstop,
    List.dropWhile_cons_of_neg hstop, List.append_nil, List.nil_append]
  dsimp only
  rw [if_pos hsep, readValue_escapeValue hnul he, trim_blank]

theorem isSpace_head {c : UInt8} {key : Str} (h : trim (c :: key) = c :: key) : isSpace c = false := by
  rw [Bool.eq_false_iff]
  intro hspace
  have hle : (trim key).length ≤ key.length :=
    (List.rdropWhile_prefix isSpace _).length_le.trans (List.dropWhile_suffix isSpace).length_le
  rw [trim, List.dropWhile_cons_of_pos hspace, ← trim] at h
  rw [h] at hle
  simp at hle

theorem trim_append_blank {key : Str} (h : trim key = key) : trim (key ++ [' '.toUInt8]) = key := by
  cases key with
  | nil => decide
  | cons c key =>
      have hdrop : (c :: key).dropWhile isSpace = c :: key := List.dropWhile_cons_of_neg (by simp [isSpace_head h])
      have hdrop' : (c :: key ++ [' '.toUInt8]).dropWhile isSpace = c :: key ++ [' '.toUInt8] :=
        List.dropWhile_cons_of_neg (by simp [isSpace_head h])
      rw [trim, hdrop] at h
      rw [trim, hdrop', List.rdropWhile_concat_pos _ _ _ (by decide), h]

theorem propertyLine_append (key : Str) (sepChar : UInt8) (value rest : Str) :
    propertyLine key sepChar value ++ rest =
      (key ++ [' '.toUInt8]) ++ sepChar :: (' '.toUInt8 :: escapeValue value ++ rest) := by
  simp [propertyLine]

/-- The line of an entry is read as the entry, up to what ends the value. -/
theorem parseLine_propertyLine {key : Str} (hkey : ∀ c ∈ key, inKey c = true) (htrim : trim key = key)
    (hfirst : ∀ c ∈ key.head?, c ≠ '#'.toUInt8 ∧ c ≠ '!'.toUInt8)
    (hquery : ¬QueryInclude (key ++ [' '.toUInt8])) {sepChar : UInt8}
    (hsep : sepChar = '='.toUInt8 ∨ sepChar = ':'.toUInt8) {value : Str} (hnul : 0 ∉ value) {e : UInt8}
    (he : e = 0 ∨ inLine e = false) (rest : Str) :
    parseLine (propertyLine key sepChar value ++ e :: rest) = .ok (.property key (trim value), some rest) := by
  have hblank : ∀ c ∈ [' '.toUInt8], isSpace c = true := List.forall_mem_singleton.mpr (by decide)
  rw [propertyLine_append]
  cases key with
  | nil =>
      rw [List.nil_append, parseLine_append_blank hblank, parseLine_property]
      · exact congrArg Except.ok (readProperty_entry (k := []) (by simp) hsep hnul he rest)
      · rcases hsep with rfl | rfl <;> decide
      · rcases hsep with rfl | rfl <;> decide
      · rcases hsep with rfl | rfl <;> decide
      · rintro ⟨c, -, -, hpre⟩
        have hhead : '?'.toUInt8 = sepChar := (List.cons_prefix_cons.mp hpre).1
        rcases hsep with rfl | rfl <;> exact absurd hhead (by decide)
  | cons c key =>
      obtain ⟨hhash, hbang⟩ := hfirst c rfl
      have hall : ∀ d ∈ c :: key ++ [' '.toUInt8], inKey d = true := by
        rw [List.forall_mem_append, List.forall_mem_singleton]
        exact ⟨hkey, by decide⟩
      have hno : ¬QueryInclude
          (c :: key ++ [' '.toUInt8] ++ sepChar :: (' '.toUInt8 :: escapeValue value ++ e :: rest)) := by
        rw [List.append_assoc, List.singleton_append, queryInclude_append]
        exact hquery
      have hread := readProperty_entry hall hsep hnul he rest
      rw [trim_append_blank htrim] at hread
      rw [← hread]
      exact parseLine_property (isSpace_head htrim) hhash hbang hno

theorem extractIncludePath_query {line : Str} (h : QueryInclude line) :
    extractIncludePath line = .ok (if trim (line.drop 8) = [] then ([], false) else (trim (line.drop 8), true)) := by
  obtain ⟨c, -, hspace, rest, rfl⟩ := h
  have hline : str "?include" ++ [c] ++ rest = '?'.toUInt8 :: (str "include" ++ c :: rest) := by
    rw [List.append_assoc]
    rfl
  have htake : (str "?include" ++ [c] ++ rest).take 8 = str "?include" := by
    rw [List.append_assoc]
    rfl
  have hlen : 8 < (str "?include" ++ [c] ++ rest).length := by
    have h8 : (str "?include").length = 8 := by decide
    rw [List.length_append, List.length_append, h8, List.length_singleton]
    omega
  have hget : (str "?include" ++ [c] ++ rest).getD 8 0 = c := by
    rw [List.append_assoc]
    rfl
  have hdrop : (str "?include" ++ [c] ++ rest).dropWhile isSpace = str "?include" ++ [c] ++ rest := by
    rw [hline]
    exact List.dropWhile_cons_of_neg (by decide)
  have hhead : (str "?include" ++ [c] ++ rest).head? = some '?'.toUInt8 := by
    rw [hline]
    rfl
  have hlength : (str "?include").length = 8 := by decide
  unfold extractIncludePath
  simp only [hdrop, hhead, decide_true, if_true, hlength, htake, hget, hspace, hlen, true_and]
  split_ifs <;> rfl

/-- What is read as a property has a key that could be saved. -/
theorem parseLine_property_key {text k v : Str} {left : Option Str} (h : parseLine text = .ok (.property k v, left)) :
    trim k = k ∧ ∀ c ∈ k, inKey c = true := by
  have htrim (s : Str) (hs : ∀ c ∈ s, inKey c = true) : trim (trim s) = trim s ∧ ∀ c ∈ trim s, inKey c = true :=
    ⟨trim_trim s, fun c hc =>
      hs c ((List.dropWhile_suffix isSpace).subset ((List.rdropWhile_prefix isSpace _).subset hc))⟩
  have hread {pfx more : Str} (hpfx : ∀ c ∈ pfx, inKey c = true)
      (hprop : (Except.ok (readProperty pfx more) : Except Exn _) = .ok (.property k v, left)) :
      trim k = k ∧ ∀ c ∈ k, inKey c = true := by
    have hall : ∀ c ∈ pfx ++ more.takeWhile inKey, inKey c = true := by
      rw [List.forall_mem_append]
      exact ⟨hpfx, fun c hc => List.mem_takeWhile_imp hc⟩
    have hprop := Except.ok.inj hprop
    unfold readProperty at hprop
    cases hdrop : more.dropWhile inKey with
    | nil =>
        rw [hdrop] at hprop
        obtain ⟨rfl, -⟩ := Statement.property.inj (Prod.mk.inj hprop).1
        exact htrim _ hall
    | cons d rest =>
        rw [hdrop] at hprop
        dsimp only at hprop
        split_ifs at hprop
        · obtain ⟨rfl, -⟩ := Statement.property.inj (Prod.mk.inj hprop).1
          exact htrim _ hall
        · obtain ⟨rfl, -⟩ := Statement.property.inj (Prod.mk.inj hprop).1
          exact htrim _ hall
  have hletters : ∀ c ∈ commonPrefix (str "?include") (text.dropWhile isSpace), inKey c = true := fun c hc =>
    List.all_eq_true.mp (by decide : (str "?include").all inKey = true) c ((isPrefix_commonPrefix _ _).subset hc)
  unfold parseLine at h
  generalize text.dropWhile isSpace = line at h hletters
  cases line with
  | nil => cases h
  | cons c rest =>
      dsimp only at h
      split_ifs at h with hhash hbang hquery hdirective
      · cases h
      · cases hpath : extractIncludePath ((c :: rest).takeWhile inLine) with
        | error e =>
            rw [hpath] at h
            cases h
        | ok path =>
            rw [hpath] at h
            dsimp only at h
            split_ifs at h <;> cases h
      · cases hpath : extractIncludePath ((c :: rest).takeWhile inLine) with
        | error e =>
            rw [hpath] at h
            cases h
        | ok path =>
            rw [hpath] at h
            dsimp only at h
            split_ifs at h
            · have hk := (Statement.property.inj (Prod.mk.inj (Except.ok.inj h)).1).1
              rw [← hk, hdirective.1]
              exact ⟨by decide, List.all_eq_true.mp (by decide)⟩
            · cases h
      · exact hread hletters h
      · exact hread (by simp) h

theorem inLine_escapeValue (value : Str) : ∀ c ∈ escapeValue value, inLine c = true := by
  have hchar (ch : UInt8) : ∀ c ∈ escapeChar ch, inLine c = true := by
    unfold escapeChar
    split_ifs with htab hcr hlf hff hback
    all_goals first
      | exact List.all_eq_true.mp (by decide)
      | exact List.forall_mem_singleton.mpr (decide_eq_true ⟨hlf, hcr⟩)
  intro c hc
  obtain ⟨ch, -, hmem⟩ := List.mem_flatMap.mp hc
  exact hchar ch c hmem

theorem inLine_of_inKey {c : UInt8} (h : inKey c = true) : inLine c = true := (of_decide_eq_true h).2.2

theorem trim_eq_nil {s : Str} (h : trim s = []) : ∀ c ∈ s, isSpace c = true := by
  rw [trim, List.rdropWhile_eq_nil_iff] at h
  have hnil : s.dropWhile isSpace = [] := by
    cases hdrop : s.dropWhile isSpace with
    | nil => rfl
    | cons c rest =>
        have hc := List.head?_dropWhile_not isSpace s
        rw [hdrop, List.head?_cons] at hc
        have hspace : isSpace c = false := hc
        exact absurd (h c (hdrop ▸ List.mem_cons_self)) (by simp [hspace])
  exact List.dropWhile_eq_nil_iff.mp hnil

theorem queryInclude_of_namesFile {text rest : Str} (hline : ∀ c ∈ text, inLine c = true)
    (hdrop : text.dropWhile isSpace = '?'.toUInt8 :: rest) (h : namesFile text = true) :
    QueryInclude (text.dropWhile isSpace) := by
  rw [namesFile] at h
  unfold extractIncludePath at h
  rw [hdrop] at h
  simp only [List.head?_cons, decide_true, if_true] at h
  by_cases hdirective : ('?'.toUInt8 :: rest).length > (str "?include").length ∧
      ('?'.toUInt8 :: rest).take (str "?include").length = str "?include" ∧
      isSpace (('?'.toUInt8 :: rest).getD (str "?include").length 0) = true
  · obtain ⟨hlen, htake, hspace⟩ := hdirective
    have hget := List.take_concat_get' ('?'.toUInt8 :: rest) (str "?include").length hlen
    rw [htake, ← List.getD_eq_getElem _ 0 hlen] at hget
    have hpre : str "?include" ++ [('?'.toUInt8 :: rest).getD (str "?include").length 0] <+:
        text.dropWhile isSpace := by
      rw [hdrop, hget]
      exact List.take_prefix _ _
    exact ⟨_, hline _ ((List.dropWhile_suffix isSpace).subset (hpre.subset (by simp))), hspace, hpre⟩
  · simp only [if_neg hdirective] at h
    exact absurd h (by decide)

theorem entryLine_eq (key value : Str) :
    entryLine (key, value) = propertyLine key '='.toUInt8 value ++ '\n'.toUInt8 :: [] := by
  simp [entryLine, propertyLine]

theorem inLine_propertyLine {key : Str} (hkey : ∀ c ∈ key, inKey c = true) {sepChar : UInt8}
    (hsep : inLine sepChar = true) (value : Str) : ∀ c ∈ propertyLine key sepChar value, inLine c = true := by
  simp only [propertyLine, List.forall_mem_append, List.forall_mem_cons]
  exact ⟨⟨fun c hc => inLine_of_inKey (hkey c hc), by decide, hsep, by decide, by simp⟩, inLine_escapeValue value⟩

theorem takeWhile_line {line : Str} (h : ∀ c ∈ line, inLine c = true) {e : UInt8} (he : inLine e = false) (rest : Str) :
    (line ++ e :: rest).takeWhile inLine = line := by
  rw [List.takeWhile_append_of_pos h, List.takeWhile_cons_of_neg (by simp [he]), List.append_nil]

theorem behind_line {line : Str} (h : ∀ c ∈ line, inLine c = true) {e : UInt8} (he : inLine e = false) (rest : Str) :
    behind ((line ++ e :: rest).dropWhile inLine) = some rest := by
  rw [List.dropWhile_append_of_pos h, List.dropWhile_cons_of_neg (by simp [he])]
  rfl

/-- A line whose key is a directive is read as a directive. -/
theorem parseLine_include {key : Str} (hkey : ∀ c ∈ key, inKey c = true)
    (hquery : QueryInclude (key ++ [' '.toUInt8])) (value : Str) :
    ∃ path, parseLine (entryLine (key, value)) = .ok (.includeFile path true, some []) := by
  have happend := propertyLine_append key '='.toUInt8 value []
  rw [List.append_nil, List.append_assoc, List.singleton_append] at happend
  have hentry : QueryInclude (propertyLine key '='.toUInt8 value) := happend ▸ (queryInclude_append _).mpr hquery
  have hpath := extractIncludePath_query hentry
  obtain ⟨c, hline, hspace, hpre⟩ := hentry
  have hne : trim ((propertyLine key '='.toUInt8 value).drop 8) ≠ [] := by
    intro hnil
    have hmem : '='.toUInt8 ∈ propertyLine key '='.toUInt8 value := by simp [propertyLine]
    rw [← List.take_append_drop 8 (propertyLine key '='.toUInt8 value), List.mem_append] at hmem
    rcases hmem with hmem | hmem
    · obtain ⟨rest, hrest⟩ := hpre
      have htake : (propertyLine key '='.toUInt8 value).take 8 = str "?include" := by
        rw [← hrest, List.append_assoc]
        rfl
      exact absurd (htake ▸ hmem) (by decide)
    · exact absurd (trim_eq_nil hnil _ hmem) (by decide)
  have hletters := inLine_propertyLine hkey (show inLine '='.toUInt8 = true by decide) value
  have htake := takeWhile_line hletters (e := '\n'.toUInt8) (by decide) []
  have hleft := behind_line hletters (e := '\n'.toUInt8) (by decide) []
  have hdirective := (queryInclude_iff _).mpr ⟨c, hline, hspace, hpre.trans (List.prefix_append _ ('\n'.toUInt8 :: []))⟩
  obtain ⟨tail, htail⟩ := hpre.trans (List.prefix_append _ ('\n'.toUInt8 :: []))
  obtain ⟨more, hmore⟩ : ∃ more, propertyLine key '='.toUInt8 value ++ '\n'.toUInt8 :: [] = '?'.toUInt8 :: more :=
    ⟨str "include" ++ [c] ++ tail, htail.symm⟩
  refine ⟨trim ((propertyLine key '='.toUInt8 value).drop 8), ?_⟩
  rw [entryLine_eq]
  rw [hmore] at hdirective hleft htake ⊢
  rw [parseLine, List.dropWhile_cons_of_neg (by decide)]
  dsimp only
  rw [if_neg (by decide), if_neg (by decide), if_pos rfl, if_pos hdirective, htake, hpath, if_neg hne, hleft]
  dsimp only
  rw [if_neg hne]

theorem Survives.sound {key value : Str} (h : Survives (key, value)) : Sound key value := by
  have hparse : parseLine (entryLine (key, value)) = .ok (.property key value, some []) := h
  obtain ⟨htrim, hkey⟩ := parseLine_property_key hparse
  have hfirst : ∀ c ∈ key.head?, c ≠ '#'.toUInt8 ∧ c ≠ '!'.toUInt8 := by
    intro c hc
    cases key with
    | nil => cases hc
    | cons d key =>
        obtain rfl := Option.some.inj hc
        have hcons : entryLine (d :: key, value) = d :: entryLine (key, value) := rfl
        rw [hcons, parseLine, List.dropWhile_cons_of_neg (by simp [isSpace_head htrim])] at hparse
        dsimp only at hparse
        constructor
        · rintro rfl
          rw [if_pos rfl] at hparse
          cases hparse
        · rintro rfl
          rw [if_neg (by decide), if_pos rfl] at hparse
          split at hparse
          · cases hparse
          · split_ifs at hparse <;> cases hparse
  have hno : ¬QueryInclude (key ++ [' '.toUInt8]) := by
    intro hquery
    obtain ⟨path, hpath⟩ := parseLine_include hkey hquery value
    rw [hpath] at hparse
    cases hparse
  have hnul : 0 ∉ value := by
    intro hmem
    obtain ⟨a, b, rfl, ha⟩ := List.eq_append_cons_of_mem hmem
    have htext : entryLine (key, a ++ 0 :: b) =
        propertyLine key '='.toUInt8 a ++ 0 :: (escapeValue b ++ ['\n'.toUInt8]) := by
      have hzero : escapeChar 0 = [0] := rfl
      simp [entryLine, propertyLine, escapeValue, hzero]
    rw [htext, parseLine_propertyLine hkey htrim hfirst hno (.inl rfl) ha (.inl rfl)] at hparse
    have hleft := Option.some.inj (Prod.mk.inj (Except.ok.inj hparse)).2
    simp at hleft
  rw [entryLine_eq, parseLine_propertyLine hkey htrim hfirst hno (.inl rfl) hnul (.inr (by decide))] at hparse
  exact ⟨hkey, htrim, hfirst, hno, hnul, (Statement.property.inj (Prod.mk.inj (Except.ok.inj hparse)).1).2⟩

/-! ### The layout of what is written -/

/-- A line that is written is read back as such a line. -/
def Written.Fits : Written → Prop
  | kept text => isKept text = true
  | bare text => isKept text = false ∧ findSeparator text = none
  | entry key sepChar value => Sound key value ∧ (sepChar = '='.toUInt8 ∨ sepChar = ':'.toUInt8)

theorem noSeparator_of_inKey {c : UInt8} (h : inKey c = true) : noSeparator c = true :=
  decide_eq_true ⟨(of_decide_eq_true h).1, (of_decide_eq_true h).2.1⟩

section Entry
variable {key value : Str} {sepChar : UInt8}

theorem Sound.letters (h : Sound key value) : ∀ c ∈ key ++ [' '.toUInt8], PropertyFileConfiguration.inKey c = true := by
  rw [List.forall_mem_append, List.forall_mem_singleton]
  exact ⟨h.inKey, by decide⟩

theorem Sound.findSeparator_propertyLine (h : Sound key value)
    (hsep : sepChar = '='.toUInt8 ∨ sepChar = ':'.toUInt8) :
    findSeparator (propertyLine key sepChar value) = some (key, sepChar) := by
  have happend := propertyLine_append key sepChar value []
  have hall : ∀ c ∈ key ++ [' '.toUInt8], noSeparator c = true := fun c hc =>
    noSeparator_of_inKey (h.letters c hc)
  have hstop : ¬noSeparator sepChar = true := by
    rcases hsep with rfl | rfl <;> decide
  rw [List.append_nil] at happend
  rw [findSeparator, happend, List.dropWhile_append_of_pos hall, List.takeWhile_append_of_pos hall,
    List.dropWhile_cons_of_neg hstop, List.takeWhile_cons_of_neg hstop]
  dsimp only
  rw [List.append_nil, trim_append_blank h.trim_key]

theorem Sound.inLine_propertyLine (h : Sound key value) (hsep : sepChar = '='.toUInt8 ∨ sepChar = ':'.toUInt8) :
    ∀ c ∈ propertyLine key sepChar value, inLine c = true := by
  apply PropertyFileConfiguration.inLine_propertyLine h.inKey
  rcases hsep with rfl | rfl <;> decide

theorem Sound.dropWhile_propertyLine (h : Sound key value)
    (hsep : sepChar = '='.toUInt8 ∨ sepChar = ':'.toUInt8) :
    ∃ c rest, (propertyLine key sepChar value).dropWhile isSpace = c :: rest ∧ c ≠ '#'.toUInt8 ∧ c ≠ '!'.toUInt8 ∧
      (c = '?'.toUInt8 → (propertyLine key sepChar value).dropWhile isSpace = propertyLine key sepChar value) := by
  cases hkey : key with
  | nil =>
      refine ⟨sepChar, ' '.toUInt8 :: escapeValue value, ?_, ?_, ?_, ?_⟩
      · have hline : propertyLine [] sepChar value = ' '.toUInt8 :: sepChar :: ' '.toUInt8 :: escapeValue value := rfl
        rw [hline, List.dropWhile_cons_of_pos (by decide), List.dropWhile_cons_of_neg]
        rcases hsep with rfl | rfl <;> decide
      · rcases hsep with rfl | rfl <;> decide
      · rcases hsep with rfl | rfl <;> decide
      · rcases hsep with rfl | rfl <;> exact fun hc => absurd hc (by decide)
  | cons c tail =>
      subst hkey
      have hline : propertyLine (c :: tail) sepChar value = c :: propertyLine tail sepChar value := rfl
      have hdrop : (propertyLine (c :: tail) sepChar value).dropWhile isSpace =
          propertyLine (c :: tail) sepChar value := by
        rw [hline]
        exact List.dropWhile_cons_of_neg (by simp [isSpace_head h.trim_key])
      obtain ⟨hhash, hbang⟩ := h.first c rfl
      exact ⟨c, propertyLine tail sepChar value, hdrop.trans hline, hhash, hbang, fun _ => hdrop⟩

theorem Sound.not_isKept (h : Sound key value) (hsep : sepChar = '='.toUInt8 ∨ sepChar = ':'.toUInt8) :
    isKept (propertyLine key sepChar value) = false := by
  obtain ⟨c, rest, hdrop, hhash, hbang, hquery⟩ := h.dropWhile_propertyLine hsep
  rw [Bool.eq_false_iff]
  intro hkept
  rw [isKept, List.find?_eq_head?_dropWhile_not] at hkept
  simp only [Bool.not_not, hdrop, List.head?_cons, Bool.or_eq_true, beq_iff_eq, Option.some.injEq] at hkept
  rcases hkept with ((hblank | hc) | hc) | hfile
  · have hnil : (propertyLine key sepChar value).dropWhile isSpace = [] :=
      List.dropWhile_eq_nil_iff.mpr (List.all_eq_true.mp hblank)
    rw [hnil] at hdrop
    cases hdrop
  · exact hhash hc
  · exact hbang hc
  · -- the name of a file stands behind a directive only
    have hc := (namesFile_head hdrop hfile).resolve_left hbang
    have hwhole := hquery hc
    have happend := propertyLine_append key sepChar value []
    rw [List.append_nil, List.append_assoc, List.singleton_append] at happend
    apply h.noInclude
    rw [← queryInclude_append, ← happend, ← hwhole]
    refine queryInclude_of_namesFile (h.inLine_propertyLine hsep) (hdrop.trans (by rw [hc])) hfile

end Entry

/-- Backslashes stand in pairs at the end of what has been escaped. -/
theorem continues_escapeValue (front value : Str) (hfront : endsInBackslash front = false) :
    continues (front ++ escapeValue value) = false := by
  induction value using List.reverseRecOn with
  | nil =>
      rw [escapeValue, List.flatMap_nil, List.append_nil, Bool.eq_false_iff]
      intro hcont
      rw [endsInBackslash_of_continues hcont] at hfront
      cases hfront
  | append_singleton value c ih =>
      have happend : escapeValue (value ++ [c]) = escapeValue value ++ escapeChar c := by
        simp [escapeValue]
      rw [happend, ← List.append_assoc]
      by_cases hc : c = '\\'.toUInt8
      · have hesc : escapeChar c = ['\\'.toUInt8] ++ ['\\'.toUInt8] := by
          rw [hc]
          rfl
        rw [hesc, ← List.append_assoc]
        rw [continues] at ih ⊢
        rw [List.reverse_append, List.reverse_append, List.reverse_singleton, List.singleton_append,
          List.singleton_append, List.takeWhile_cons_of_pos (by decide), List.takeWhile_cons_of_pos (by decide)]
        simp only [List.length_cons, decide_eq_false_iff_not] at ih ⊢
        omega
      · have hlast : endsInBackslash (front ++ escapeValue value ++ escapeChar c) = false := by
          have hchar : ∃ w d, escapeChar c = w ++ [d] ∧ d ≠ '\\'.toUInt8 := by
            unfold escapeChar
            split_ifs
            · exact ⟨['\\'.toUInt8], 't'.toUInt8, rfl, by decide⟩
            · exact ⟨['\\'.toUInt8], 'r'.toUInt8, rfl, by decide⟩
            · exact ⟨['\\'.toUInt8], 'n'.toUInt8, rfl, by decide⟩
            · exact ⟨['\\'.toUInt8], 'f'.toUInt8, rfl, by decide⟩
            · exact ⟨[], c, rfl, hc⟩
          obtain ⟨w, d, hesc, hd⟩ := hchar
          rw [hesc, ← List.append_assoc, endsInBackslash, List.getLast?_concat]
          exact decide_eq_false fun h => hd (Option.some.inj h)
        rw [Bool.eq_false_iff]
        intro hcont
        rw [endsInBackslash_of_continues hcont] at hlast
        cases hlast

theorem continues_propertyLine (key : Str) (sepChar : UInt8) (value : Str) :
    continues (propertyLine key sepChar value) = false := by
  apply continues_escapeValue
  have hlast : key ++ [' '.toUInt8, sepChar, ' '.toUInt8] = (key ++ [' '.toUInt8, sepChar]) ++ [' '.toUInt8] := by simp
  rw [hlast, endsInBackslash, List.getLast?_concat]
  decide

/-- The lines that are written are the lines of the new file. -/
theorem layout_written {lines : List Written} (h : ∀ o ∈ lines, o.Fits) :
    layout false (lines.map Written.text) = lines.map Written.toLine := by
  induction lines with
  | nil => rfl
  | cons o lines ih =>
      rw [List.forall_mem_cons] at h
      have hrest := ih h.2
      rw [List.map_cons, layout, List.map_cons, ← hrest]
      cases o with
      | kept text => rw [if_pos (show isKept (Written.text (.kept text)) = true from h.1)]; rfl
      | bare text =>
          obtain ⟨hkept, hsep⟩ := h.1
          rw [if_neg (show ¬isKept (Written.text (.bare text)) = true by simpa [Written.text] using hkept)]
          rw [show findSeparator (Written.text (.bare text)) = none from hsep]
          rfl
      | entry key sepChar value =>
          obtain ⟨hsound, hsep⟩ := h.1
          rw [Written.text, if_neg (by simp [hsound.not_isKept hsep]), hsound.findSeparator_propertyLine hsep]
          dsimp only
          rw [continues_propertyLine]
          rfl

end Poco.Util.PropertyFileConfiguration
