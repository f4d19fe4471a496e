import Poco.Util.PropertySaving

/-! # Loading what `saveToFile` has saved

What `saveToFile` writes over a file is loaded again.  `load` reads a line without a separator as a key with an empty
value, and `saveToFile` keeps such a line.  It is the only way in which the file says something else than the map
(`saveToFile_keeps`), if no line of a property ends in an escaped backslash, which `saveToFile` takes for a
continuation. -/

namespace Poco.Util.PropertyFileConfiguration

open Poco.Lib Poco.Foundation Hex

/-! ### Loading what is written -/

/-- What a comment, a blank line or an include directive does in the file `absPath`. -/
def includeLine (fs : FileSystem) (absPath text : Str) (conf : PropertyFileConfiguration) :
    Except Exn PropertyFileConfiguration :=
  match extractIncludePath text with
  | .error e => .error e
  | .ok (path, isOptional) =>
      if path = [] then .ok conf else processInclude fs [absPath] path isOptional (fs.parent absPath) conf

/-- What a line that is written does when it is loaded. -/
def Written.load (fs : FileSystem) (absPath : Str) (conf : PropertyFileConfiguration) :
    Written → Except Exn PropertyFileConfiguration
  | kept text => includeLine fs absPath text conf
  | bare text => .ok (conf.setProperty absPath (trim text) [])
  | entry key _ value => .ok (conf.setProperty absPath key value)

theorem extractIncludePath_dropWhile (text : Str) :
    extractIncludePath (text.dropWhile isSpace) = extractIncludePath text := by
  unfold extractIncludePath
  rw [List.dropWhile_idempotent]

theorem trim_dropWhile (text : Str) : trim (text.dropWhile isSpace) = trim text := by
  rw [trim, List.dropWhile_idempotent, trim]

theorem rdropWhile_append_blank (s : Str) {w : Str} (h : ∀ c ∈ w, isSpace c = true) :
    (s ++ w).rdropWhile isSpace = s.rdropWhile isSpace := by
  have hrev : ∀ c ∈ w.reverse, isSpace c = true := fun c hc => h c (List.mem_reverse.mp hc)
  rw [List.rdropWhile, List.reverse_append, List.dropWhile_append_of_pos hrev, List.rdropWhile]

theorem extractIncludePath_optional {text rest : Str} {c : UInt8} (hdrop : text.dropWhile isSpace = c :: rest)
    (hc : c ≠ '?'.toUInt8) {path : Str} {isOptional : Bool} (h : extractIncludePath text = .ok (path, isOptional)) :
    isOptional = false := by
  have hno : ¬(c :: rest).head? = some '?'.toUInt8 := fun h => hc (Option.some.inj h)
  unfold extractIncludePath at h
  rw [hdrop] at h
  simp only [decide_eq_false hno] at h
  split_ifs at h
  · exact (Prod.mk.inj (Except.ok.inj h)).2.symm
  · exact (Prod.mk.inj (Except.ok.inj h)).2.symm

theorem extractIncludePath_of_head {text rest : Str} {c : UInt8} (hdrop : text.dropWhile isSpace = c :: rest)
    (hbang : c ≠ '!'.toUInt8) (hquery : c ≠ '?'.toUInt8) : extractIncludePath text = .ok ([], false) := by
  have hno : ¬(c :: rest).head? = some '?'.toUInt8 := fun h => hquery (Option.some.inj h)
  have hdirective : ¬((c :: rest).length > (str "!include").length ∧
      (c :: rest).take (str "!include").length = str "!include" ∧
      isSpace ((c :: rest).getD (str "!include").length 0) = true) := fun h => hbang (List.cons.inj h.2.1).1
  unfold extractIncludePath
  rw [hdrop]
  simp only [if_neg hno, if_neg hdirective]

theorem extractIncludePath_blank {text : Str} (h : text.dropWhile isSpace = []) :
    extractIncludePath text = .ok ([], false) := by
  unfold extractIncludePath
  rw [h]
  rfl

theorem queryInclude_line {line : Str} (h : ∀ c ∈ line, inLine c = true) {e : UInt8} (he : inLine e = false)
    (rest : Str) :
    QueryInclude (line ++ e :: rest) ↔ QueryInclude line := by
  constructor
  · rintro ⟨c, hline, hspace, hpre⟩
    refine ⟨c, hline, hspace, ?_⟩
    have hletters : ∀ d ∈ str "?include" ++ [c], inLine d = true := by
      rw [List.forall_mem_append, List.forall_mem_singleton]
      exact ⟨List.all_eq_true.mp (by decide : (str "?include").all inLine = true), hline⟩
    obtain ⟨more, hmore⟩ := hpre
    have htake := takeWhile_line h he rest
    rw [← hmore, List.takeWhile_append_of_pos hletters] at htake
    exact ⟨_, htake⟩
  · rintro ⟨c, hline, hspace, hpre⟩
    exact ⟨c, hline, hspace, hpre.trans (List.prefix_append _ _)⟩

section Parse
variable {text : Str} {e : UInt8}

theorem parseLine_kept (hkept : isKept text = true) (hline : ∀ c ∈ text, inLine c = true)
    (hblank : text.dropWhile isSpace ≠ []) (he : inLine e = false) (rest : Str) :
    parseLine (text ++ e :: rest) = (extractIncludePath text).map fun directive =>
      (if directive.1 = [] then .nothing else .includeFile directive.1 directive.2, some rest) := by
  obtain ⟨c, tail, hdrop⟩ := List.exists_cons_of_ne_nil hblank
  have hsub : ∀ d ∈ c :: tail, inLine d = true := fun d hd =>
    hline d ((List.dropWhile_suffix isSpace).subset (hdrop ▸ hd))
  have hpath : extractIncludePath (c :: tail) = extractIncludePath text := by
    rw [← hdrop, extractIncludePath_dropWhile]
  have hdropAll : (text ++ e :: rest).dropWhile isSpace = c :: tail ++ e :: rest := by
    rw [List.dropWhile_append, hdrop]
    rfl
  have htake := takeWhile_line hsub he rest
  have hleft := behind_line hsub he rest
  rw [isKept, List.find?_eq_head?_dropWhile_not] at hkept
  simp only [Bool.not_not, hdrop, List.head?_cons, Bool.or_eq_true, beq_iff_eq, Option.some.injEq] at hkept
  rw [parseLine, hdropAll, List.cons_append]
  rw [List.cons_append] at htake hleft
  dsimp only
  rw [htake, hleft, hpath]
  rcases hkept with ((hspace | hc) | hc) | hfile
  · exact absurd (List.dropWhile_eq_nil_iff.mpr (List.all_eq_true.mp hspace)) hblank
  · rw [if_pos hc, extractIncludePath_of_head hdrop (hc ▸ by decide) (hc ▸ by decide)]
    rfl
  · rw [if_neg (hc ▸ by decide), if_pos hc]
    cases hextract : extractIncludePath text with
    | error x => rfl
    | ok directive =>
        obtain ⟨path, isOptional⟩ := directive
        rw [extractIncludePath_optional hdrop (hc ▸ by decide) hextract]
        rfl
  · by_cases hbang : c = '!'.toUInt8
    · rw [if_neg (hbang ▸ by decide), if_pos hbang]
      cases hextract : extractIncludePath text with
      | error x => rfl
      | ok directive =>
          obtain ⟨path, isOptional⟩ := directive
          rw [extractIncludePath_optional hdrop (hbang ▸ by decide) hextract]
          rfl
    · have hc := (namesFile_head hdrop hfile).resolve_left hbang
      have hquery := queryInclude_of_namesFile hline (hdrop.trans (by rw [hc])) hfile
      rw [hdrop, ← queryInclude_line hsub he rest] at hquery
      have hdirective := (queryInclude_iff _).mpr hquery
      rw [List.cons_append] at hdirective
      rw [if_neg (hc ▸ by decide), if_neg hbang, if_pos hc, if_pos hdirective]
      rw [namesFile] at hfile
      cases hextract : extractIncludePath text with
      | error x =>
          rw [hextract] at hfile
          cases hfile
      | ok directive =>
          rw [hextract] at hfile
          have hne : directive.1 ≠ [] := by simpa using hfile
          dsimp only [Except.map]
          rw [if_neg hne, if_neg hne]

/-- A line without a separator is read as a key with an empty value. -/
theorem parseLine_bare (hkept : isKept text = false) (hsep : findSeparator text = none)
    (hline : ∀ c ∈ text, inLine c = true) (he : inLine e = false) (rest : Str) :
    parseLine (text ++ e :: rest) = .ok (.property (trim text) [], some rest) := by
  rw [isKept, List.find?_eq_head?_dropWhile_not] at hkept
  simp only [Bool.not_not, Bool.or_eq_false_iff, beq_eq_false_iff_ne] at hkept
  obtain ⟨⟨⟨hblank, hhash⟩, hbang⟩, hfile⟩ := hkept
  have hne : text.dropWhile isSpace ≠ [] := by
    intro hnil
    rw [List.all_eq_true.mpr (List.dropWhile_eq_nil_iff.mp hnil)] at hblank
    cases hblank
  obtain ⟨c, tail, hdrop⟩ := List.exists_cons_of_ne_nil hne
  have hsub : ∀ d ∈ c :: tail, inLine d = true := fun d hd =>
    hline d ((List.dropWhile_suffix isSpace).subset (hdrop ▸ hd))
  have hkeys : ∀ d ∈ c :: tail, inKey d = true := by
    intro d hd
    have hno : ∀ d ∈ text, noSeparator d = true := by
      apply List.dropWhile_eq_nil_iff.mp
      rw [findSeparator] at hsep
      split at hsep
      · assumption
      · cases hsep
    obtain ⟨hequal, hcolon⟩ := of_decide_eq_true (hno d ((List.dropWhile_suffix isSpace).subset (hdrop ▸ hd)))
    exact decide_eq_true ⟨hequal, hcolon, hsub d hd⟩
  have hdropAll : (text ++ e :: rest).dropWhile isSpace = c :: tail ++ e :: rest := by
    rw [List.dropWhile_append, hdrop]
    rfl
  rw [hdrop, List.head?_cons, ne_eq, Option.some.injEq] at hhash hbang
  have hspace : isSpace c = false := by
    have hc := List.head?_dropWhile_not isSpace text
    rw [hdrop, List.head?_cons] at hc
    exact hc
  have hskip : parseLine (text ++ e :: rest) = parseLine (c :: (tail ++ e :: rest)) := by
    unfold parseLine
    rw [hdropAll, List.cons_append, List.dropWhile_cons_of_neg (by simp [hspace])]
  rw [hskip, ← trim_dropWhile, hdrop]
  by_cases hquery : QueryInclude (c :: (tail ++ e :: rest))
  · -- `?include` without a path
    have hinclude : QueryInclude (c :: tail) := (queryInclude_line hsub he rest).mp hquery
    have hpath := extractIncludePath_query hinclude
    have htake := takeWhile_line hsub he rest
    have hleft := behind_line hsub he rest
    obtain ⟨hall, hd⟩ := (queryInclude_iff _).mpr hquery
    have hempty : trim ((c :: tail).drop 8) = [] := by
      by_contra hno
      rw [if_neg hno, ← hdrop, extractIncludePath_dropWhile] at hpath
      rw [namesFile, hpath, hdrop] at hfile
      exact hno (by simpa using hfile)
    rw [if_pos hempty] at hpath
    obtain ⟨d, -, -, more, hmore⟩ := hinclude
    have hc : c = '?'.toUInt8 := (List.cons.inj hmore).1.symm
    have htrim : trim (c :: tail) = str "?include" := by
      have hsplit : c :: tail = str "?include" ++ (c :: tail).drop 8 := by
        rw [← hmore, List.append_assoc]
        rfl
      rw [trim, List.dropWhile_cons_of_neg (by simp [hspace]), hsplit,
        rdropWhile_append_blank _ (trim_eq_nil hempty)]
      decide
    rw [List.cons_append] at htake hleft
    rw [parseLine, List.dropWhile_cons_of_neg (by simp [hspace])]
    dsimp only
    rw [if_neg hhash, if_neg hbang, if_pos hc, if_pos ⟨hall, hd⟩, htake, hleft, hpath, hall, htrim]
    rfl
  · have hstop : ¬inKey e = true := fun h => by
      rw [inLine_of_inKey h] at he
      cases he
    rw [parseLine_property hspace hhash hbang hquery, readProperty, ← List.cons_append,
      List.takeWhile_append_of_pos hkeys, List.dropWhile_append_of_pos hkeys, List.takeWhile_cons_of_neg hstop,
      List.dropWhile_cons_of_neg hstop, List.append_nil]
    dsimp only
    have hsign : ¬(e = '='.toUInt8 ∨ e = ':'.toUInt8) := by
      rintro (rfl | rfl) <;> exact absurd he (by decide)
    rw [if_neg hsign, List.nil_append]

end Parse

theorem inLine_iff {c : UInt8} : inLine c = true ↔ c ≠ '\n'.toUInt8 ∧ c ≠ '\r'.toUInt8 := decide_eq_true_iff

theorem isSpace_of_not_inLine {c : UInt8} (h : inLine c = false) : isSpace c = true := by
  by_cases hlf : c = '\n'.toUInt8
  · rw [hlf]
    decide
  · by_cases hcr : c = '\r'.toUInt8
    · rw [hcr]
      decide
    · rw [inLine_iff.mpr ⟨hlf, hcr⟩] at h
      cases h

section Load
variable {fs : FileSystem} {absPath : Str} {e : UInt8} {more : Str}

/-- `processInclude` for the file. -/
abbrev includeFrom (fs : FileSystem) (absPath path : Str) (isOptional : Bool) (conf : PropertyFileConfiguration) :
    Except Exn PropertyFileConfiguration := processInclude fs [absPath] path isOptional (fs.parent absPath) conf

theorem loadLoop_written {o : Written} (hfits : o.Fits) (hline : ∀ c ∈ o.text, inLine c = true)
    (hblank : o.text.dropWhile isSpace ≠ []) (he : inLine e = false) (rest : Str) (fuel : ℕ)
    (conf : PropertyFileConfiguration) :
    loadLoop (includeFrom fs absPath) absPath (fuel + 1) conf (o.text ++ e :: rest) =
      (o.load fs absPath conf).bind fun conf => loadLoop (includeFrom fs absPath) absPath fuel conf rest := by
  rw [loadLoop]
  cases o with
  | kept text =>
      rw [Written.text] at hline hblank ⊢
      rw [parseLine_kept hfits hline hblank he, Written.load, includeLine]
      cases hextract : extractIncludePath text with
      | error x => rfl
      | ok directive =>
          obtain ⟨path, isOptional⟩ := directive
          by_cases hpath : path = []
          · subst hpath
            rfl
          · simp only [Except.map, if_neg hpath, Bind.bind, Except.bind]
  | bare text =>
      obtain ⟨hkept, hsep⟩ := hfits
      rw [Written.text] at hline ⊢
      rw [parseLine_bare hkept hsep hline he]
      rfl
  | entry key sepChar value =>
      obtain ⟨hsound, hsep⟩ := hfits
      rw [Written.text, parseLine_propertyLine hsound.inKey hsound.trim_key hsound.first hsound.noInclude hsep
        hsound.nul (.inr he), hsound.trim_value]
      rfl

/-- Lines that have been written are loaded one after another; `w` is left of the lines in front of them. -/
theorem loadLoop_lines (he : inLine e = false) (hmore : ∀ c ∈ more, isSpace c = true) {lines : List Written}
    (hfits : ∀ o ∈ lines, o.Fits) (hlines : ∀ o ∈ lines, ∀ c ∈ o.text, inLine c = true) {w : Str}
    (hw : ∀ c ∈ w, isSpace c = true) {fuel : ℕ}
    (hfuel : (w ++ lines.flatMap fun o => o.text ++ e :: more).length < fuel) (conf : PropertyFileConfiguration) :
    loadLoop (includeFrom fs absPath) absPath fuel conf (w ++ lines.flatMap fun o => o.text ++ e :: more) =
      lines.foldlM (Written.load fs absPath) conf := by
  induction lines generalizing w fuel conf with
  | nil =>
      obtain ⟨fuel, rfl⟩ : ∃ n, fuel = n + 1 := ⟨fuel - 1, by omega⟩
      rw [List.flatMap_nil, loadLoop, parseLine_append_blank hw]
      rfl
  | cons o lines ih =>
      rw [List.forall_mem_cons] at hfits hlines
      rw [List.flatMap_cons] at hfuel ⊢
      by_cases hblank : o.text.dropWhile isSpace = []
      · -- a blank line is skipped in front of the next one
        have hspaces : ∀ c ∈ w ++ (o.text ++ e :: more), isSpace c = true := by
          rw [List.forall_mem_append, List.forall_mem_append, List.forall_mem_cons]
          exact ⟨hw, List.dropWhile_eq_nil_iff.mp hblank, isSpace_of_not_inLine he, hmore⟩
        have hload : o.load fs absPath conf = .ok conf := by
          cases o with
          | kept text =>
              have hnothing : extractIncludePath text = .ok ([], false) := extractIncludePath_blank hblank
              rw [Written.load, includeLine, hnothing]
              rfl
          | bare text =>
              have hall : text.all isSpace = true := List.all_eq_true.mpr (List.dropWhile_eq_nil_iff.mp hblank)
              have hkept := hfits.1.1
              rw [(isKept_iff text).mpr (.inl hall)] at hkept
              cases hkept
          | entry key sepChar value =>
              obtain ⟨hsound, hsep⟩ := hfits.1
              obtain ⟨c, rest, hdrop, -⟩ := hsound.dropWhile_propertyLine hsep
              rw [Written.text, hdrop] at hblank
              cases hblank
        rw [← List.append_assoc] at hfuel ⊢
        rw [ih hfits.2 hlines.2 hspaces hfuel, List.foldlM_cons, hload]
        rfl
      · obtain ⟨fuel, rfl⟩ : ∃ n, fuel = n + 1 := ⟨fuel - 1, by omega⟩
        have hskip : loadLoop (includeFrom fs absPath) absPath (fuel + 1) conf
            (w ++ (o.text ++ e :: more ++ lines.flatMap fun o => o.text ++ e :: more)) =
            loadLoop (includeFrom fs absPath) absPath (fuel + 1) conf
              (o.text ++ e :: (more ++ lines.flatMap fun o => o.text ++ e :: more)) := by
          rw [loadLoop, loadLoop, parseLine_append_blank hw, List.append_assoc, List.cons_append]
        have hlen : (more ++ lines.flatMap fun o => o.text ++ e :: more).length < fuel := by
          simp only [List.length_append, List.length_cons] at hfuel ⊢
          omega
        rw [hskip, loadLoop_written hfits.1 hlines.1 hblank he, List.foldlM_cons]
        congr 1
        funext conf
        exact ih hfits.2 hlines.2 hmore hlen conf

end Load

/-! ### The text of a file -/

section Text
variable {lines : List Str}

theorem writeToDevice_line (newLine : Str) {line : Str} (h : ∀ c ∈ line, inLine c = true) (rest : Str)
    {lastChar : UInt8} (hlast : lastChar ≠ '\r'.toUInt8) :
    writeToDevice newLine lastChar (line ++ '\n'.toUInt8 :: rest) =
      line ++ newLine ++ writeToDevice newLine '\n'.toUInt8 rest := by
  induction line generalizing lastChar with
  | nil =>
      rw [List.nil_append, writeToDevice, if_pos (.inr ⟨rfl, hlast⟩), if_neg (by decide)]
      simp
  | cons c line ih =>
      rw [List.forall_mem_cons, inLine_iff] at h
      obtain ⟨⟨hlf, hcr⟩, hrest⟩ := h
      rw [List.cons_append, writeToDevice, if_neg (by simp [hlf, hcr]), if_pos ⟨hlf, hcr⟩, ih hrest hcr]
      simp

theorem writeToDevice_join (newLine : Str) (h : ∀ line ∈ lines, ∀ c ∈ line, inLine c = true) {lastChar : UInt8}
    (hlast : lastChar ≠ '\r'.toUInt8) :
    writeToDevice newLine lastChar (join '\n'.toUInt8 lines) = lines.flatMap (· ++ newLine) := by
  induction lines generalizing lastChar with
  | nil => rfl
  | cons line lines ih =>
      rw [List.forall_mem_cons] at h
      rw [join] at ih ⊢
      rw [List.flatMap_cons, List.append_assoc, List.singleton_append, writeToDevice_line newLine h.1 _ hlast,
        ih h.2 (by decide), List.flatMap_cons]

theorem popReturn_of_inLine {line : Str} (h : ∀ c ∈ line, inLine c = true) : popReturn line = line := by
  rw [popReturn, if_neg]
  intro hlast
  exact absurd (h _ (List.mem_of_getLast? hlast)) (by decide)

theorem readLines_flatMap (ending : LineEnding) (h : ∀ line ∈ lines, ∀ c ∈ line, inLine c = true) :
    readLines (lines.flatMap (· ++ ending.newLine)) = lines := by
  have hsplit (ls : List Str) (hls : ∀ l ∈ ls, ∀ c ∈ l, (c == '\n'.toUInt8) = false) :
      getlines (ls.flatMap (· ++ ['\n'.toUInt8])) = ls := by
    have hjoin : split (· == '\n'.toUInt8) (join '\n'.toUInt8 ls ++ []) = (ls, []) :=
      split_join (by decide) hls (by simp)
    rw [List.append_nil, join] at hjoin
    rw [getlines, hjoin]
    exact List.append_nil ls
  have hnewline (c : UInt8) (hc : inLine c = true) : (c == '\n'.toUInt8) = false :=
    beq_eq_false_iff_ne.mpr (inLine_iff.mp hc).1
  cases ending with
  | lf =>
      rw [LineEnding.newLine, readLines, hsplit lines fun l hl c hc => hnewline c (h l hl c hc)]
      exact (List.map_congr_left fun l hl => popReturn_of_inLine (h l hl)).trans (List.map_id lines)
  | crlf =>
      have hends : lines.flatMap (· ++ LineEnding.crlf.newLine) =
          (lines.map (· ++ ['\r'.toUInt8])).flatMap (· ++ ['\n'.toUInt8]) := by
        rw [List.flatMap_map]
        congr 1
        funext l
        rw [List.append_assoc]
        rfl
      have hclean : ∀ l ∈ lines.map (· ++ ['\r'.toUInt8]), ∀ c ∈ l, (c == '\n'.toUInt8) = false := by
        rw [List.forall_mem_map]
        intro l hl
        rw [List.forall_mem_append, List.forall_mem_singleton]
        exact ⟨fun c hc => hnewline c (h l hl c hc), by decide⟩
      rw [hends, readLines, hsplit _ hclean, List.map_map]
      refine (List.map_congr_left fun l hl => ?_).trans (List.map_id lines)
      rw [Function.comp_apply, popReturn, List.getLast?_concat, if_pos rfl, List.dropLast_concat]
      rfl

theorem lineFeed_readLines (text : Str) : ∀ line ∈ readLines text, '\n'.toUInt8 ∉ line := by
  have hno := split_no_sep (· == '\n'.toUInt8) text
  intro line hline hmem
  rw [readLines, List.mem_map] at hline
  obtain ⟨l, hl, rfl⟩ := hline
  have hsub : '\n'.toUInt8 ∈ l := by
    rw [popReturn] at hmem
    split_ifs at hmem
    · exact List.dropLast_subset l hmem
    · exact hmem
  rw [getlines] at hl
  rcases List.mem_append.mp hl with hl | hl
  · exact absurd (hno.1 l hl _ hsub) (by decide)
  · split_ifs at hl with hlast
    · cases hl
    · rw [List.mem_singleton.mp hl] at hsub
      exact absurd (hno.2 _ hsub) (by decide)

end Text

/-! ### What a key is loaded as -/

/-- The value that a line gives to the key. -/
def Written.sets (key : Str) : Written → Option Str
  | kept _ => none
  | bare text => if trim text = key then some [] else none
  | entry k _ value => if k = key then some value else none

/-- The line has only the key. -/
def Line.isBare (key : Str) : Line → Bool
  | bare text => trim text == key
  | _ => false

/-- The line begins an entry of the key. -/
def Line.isEntry (key : Str) : Line → Bool
  | property k _ _ => k == key
  | _ => false

/-- The value with which a key is loaded when `values` have been saved over a file with these lines.  A line that
has only the key stays; it counts if the map lacks the key, or if it stands behind the last entry of the key. -/
def loadedValue (values : OrderedMap Str Str) (lines : List Line) (key : Str) : Option Str :=
  match values.find? key with
  | none => if lines.any (·.isBare key) then some [] else none
  | some value =>
      if lines.any (·.isEntry key) ∧
          (lines.reverse.find? fun l => l.isBare key || l.isEntry key).any (·.isBare key) then some []
      else some value

section Value
variable {fs : FileSystem} {absPath key : Str} {values : OrderedMap Str Str}

/-- The last line that gives a value to the key counts, if the kept lines spare the key. -/
theorem find?_load {lines : List Written} {conf conf' : PropertyFileConfiguration}
    (hspares : ∀ text, .kept text ∈ lines → ∀ c c', includeLine fs absPath text c = .ok c' →
      c'._map.find? key = c._map.find? key)
    (h : lines.foldlM (Written.load fs absPath) conf = .ok conf') :
    conf'._map.find? key = lines.foldl (fun found o => (o.sets key).or found) (conf._map.find? key) := by
  induction lines generalizing conf with
  | nil =>
      cases h
      rfl
  | cons o lines ih =>
      rw [List.foldlM_cons] at h
      cases hload : o.load fs absPath conf with
      | error x =>
          rw [hload] at h
          cases h
      | ok next =>
          rw [hload] at h
          have hstep : next._map.find? key = (o.sets key).or (conf._map.find? key) := by
            cases o with
            | kept text => exact hspares text List.mem_cons_self conf next hload
            | bare text =>
                cases hload
                rw [setProperty, Written.sets]
                dsimp only
                rw [OrderedMap.find?_insert]
                split_ifs <;> rfl
            | entry k sepChar value =>
                cases hload
                rw [setProperty, Written.sets]
                dsimp only
                rw [OrderedMap.find?_insert]
                split_ifs <;> rfl
          rw [ih (fun text htext => hspares text (List.mem_cons_of_mem o htext)) h, hstep, List.foldl_cons]

theorem exists_load {lines : List Written}
    (hincludes : ∀ text, .kept text ∈ lines → ∀ c, ∃ c', includeLine fs absPath text c = .ok c')
    (conf : PropertyFileConfiguration) : ∃ conf', lines.foldlM (Written.load fs absPath) conf = .ok conf' := by
  induction lines generalizing conf with
  | nil => exact ⟨conf, rfl⟩
  | cons o lines ih =>
      have hload : ∃ next, o.load fs absPath conf = .ok next := by
        cases o with
        | kept text => exact hincludes text List.mem_cons_self conf
        | bare text => exact ⟨_, rfl⟩
        | entry k sepChar value => exact ⟨_, rfl⟩
      obtain ⟨next, hload⟩ := hload
      obtain ⟨conf', hrest⟩ := ih (fun text htext => hincludes text (List.mem_cons_of_mem o htext)) next
      exact ⟨conf', by rw [List.foldlM_cons, hload]; exact hrest⟩

/-- The value that the key gets from what is written for a line. -/
def Line.sets (values : OrderedMap Str Str) (key : Str) (l : Line) : Option Str :=
  (l.rewrite values).bind (Written.sets key)

theorem foldl_rewrite (lines : List Line) (found : Option Str) :
    (lines.filterMap (Line.rewrite values)).foldl (fun found o => (o.sets key).or found) found =
      lines.foldl (fun found l => (l.sets values key).or found) found := by
  induction lines generalizing found with
  | nil => rfl
  | cons l lines ih =>
      rw [List.filterMap_cons, List.foldl_cons, ← ih, Line.sets]
      cases l.rewrite values <;> rfl

/-- A key that is not in the map is set by a line that has only the key. -/
theorem Line.sets_none (hkey : values.find? key = none) (l : Line) :
    l.sets values key = if l.isBare key then some [] else none := by
  cases l with
  | kept text => rfl
  | bare text => simp [Line.sets, Line.rewrite, Line.isBare, Written.sets]
  | property k sepChar text =>
      cases hfind : values.find? k with
      | none => simp [Line.sets, Line.rewrite, Line.isBare, hfind]
      | some value =>
          have hne : k ≠ key := by
            rintro rfl
            rw [hkey] at hfind
            cases hfind
          simp [Line.sets, Line.rewrite, Line.isBare, Written.sets, hfind, hne]
  | continuation text => rfl

/-- A key of the map is also set by a line that begins an entry of the key. -/
theorem Line.sets_some {value : Str} (hkey : values.find? key = some value) (l : Line) :
    l.sets values key = if l.isBare key then some [] else if l.isEntry key then some value else none := by
  cases l with
  | kept text => rfl
  | bare text => simp [Line.sets, Line.rewrite, Line.isBare, Line.isEntry, Written.sets]
  | property k sepChar text =>
      by_cases hk : k = key
      · subst hk
        simp [Line.sets, Line.rewrite, Line.isBare, Line.isEntry, Written.sets, hkey]
      · cases hfind : values.find? k <;>
          simp [Line.sets, Line.rewrite, Line.isBare, Line.isEntry, Written.sets, hfind, hk]
  | continuation text => rfl

theorem foldl_sets_none (hkey : values.find? key = none) (lines : List Line) :
    lines.foldl (fun found l => (l.sets values key).or found) none =
      if lines.any (·.isBare key) then some [] else none := by
  induction lines using List.reverseRecOn with
  | nil => rfl
  | append_singleton lines l ih =>
      rw [List.foldl_append, ih, List.foldl_cons, List.foldl_nil, Line.sets_none hkey, List.any_append]
      by_cases hbare : l.isBare key = true
      · simp [hbare]
      · simp [hbare]

theorem foldl_sets_some {value : Str} (hkey : values.find? key = some value) (lines : List Line) :
    lines.foldl (fun found l => (l.sets values key).or found) none =
      (lines.reverse.find? fun l => l.isBare key || l.isEntry key).map fun l =>
        if l.isBare key then [] else value := by
  induction lines using List.reverseRecOn with
  | nil => rfl
  | append_singleton lines l ih =>
      rw [List.foldl_append, ih, List.foldl_cons, List.foldl_nil, Line.sets_some hkey, List.reverse_append,
        List.reverse_singleton, List.singleton_append, List.find?_cons]
      cases hbare : l.isBare key with
      | true => simp [hbare]
      | false => cases hentry : l.isEntry key <;> simp [hbare]

theorem foldl_entries {l : List (Str × Str)} {v : Str} (h : ∀ e ∈ l, e.1 = key → e.2 = v)
    (found : Option Str) :
    (l.map fun e => Written.entry e.1 '='.toUInt8 e.2).foldl (fun found o => (o.sets key).or found) found =
      if key ∈ l.map Prod.fst then some v else found := by
  induction l generalizing found with
  | nil => rfl
  | cons e l ih =>
      rw [List.forall_mem_cons] at h
      rw [List.map_cons, List.foldl_cons, ih h.2, List.map_cons, Written.sets]
      by_cases hk : e.1 = key
      · simp [hk, h.1 hk]
      · have hother : key ≠ e.1 := Ne.symm hk
        simp only [if_neg hk, Option.none_or, List.mem_cons, or_iff_right hother]

theorem mem_written {lines : List Line} :
    key ∈ (lines.filterMap (Line.rewrite values)).filterMap Written.key? ↔
      lines.any (·.isEntry key) = true ∧ (values.find? key).isSome = true := by
  induction lines with
  | nil => simp
  | cons l lines ih =>
      cases l with
      | kept text => simpa [Line.rewrite, Line.isEntry, Written.key?] using ih
      | bare text => simpa [Line.rewrite, Line.isEntry, Written.key?] using ih
      | continuation text => simpa [Line.rewrite, Line.isEntry] using ih
      | property k sepChar text =>
          rw [List.filterMap_cons, List.any_cons]
          by_cases hk : k = key
          · subst hk
            cases hfind : values.find? k with
            | none => simpa [Line.rewrite, Line.isEntry, hfind] using ih
            | some value => simp [Line.rewrite, Line.isEntry, Written.key?, hfind]
          · cases hfind : values.find? k with
            | none => simpa [Line.rewrite, Line.isEntry, hfind, hk] using ih
            | some value => simpa [Line.rewrite, Line.isEntry, Written.key?, hfind, hk, Ne.symm hk] using ih

attribute [local instance] lawfulBEq_str

/-- The lines that are written over a file. -/
def writtenLines (values : OrderedMap Str Str) (lines : List Line) : List Written :=
  lines.filterMap (Line.rewrite values) ++
    (values.entries.filter fun e => e.1 ∉ (lines.filterMap (Line.rewrite values)).filterMap Written.key?).map
      fun e => .entry e.1 '='.toUInt8 e.2

theorem foldl_writtenLines (lines : List Line) :
    (writtenLines values lines).foldl (fun found o => (o.sets key).or found) none = loadedValue values lines key := by
  rw [writtenLines, List.foldl_append, loadedValue]
  have hentry {value : Str} : (key, value) ∈ values.entries ↔ values.find? key = some value :=
    OrderedMap.find?_eq_some.symm
  cases hkey : values.find? key with
  | none =>
      have hno : key ∉ (values.entries.filter fun e =>
          e.1 ∉ (lines.filterMap (Line.rewrite values)).filterMap Written.key?).map Prod.fst := by
        intro hmem
        obtain ⟨e, he, rfl⟩ := List.mem_map.mp hmem
        rw [hentry.mp (List.mem_filter.mp he).1] at hkey
        cases hkey
      rw [foldl_rewrite, foldl_sets_none hkey, foldl_entries (v := []), if_neg hno]
      intro e he hk
      exact absurd (List.mem_map.mpr ⟨e, he, hk⟩) hno
  | some value =>
      have hsame : ∀ e ∈ values.entries.filter fun e =>
          e.1 ∉ (lines.filterMap (Line.rewrite values)).filterMap Written.key?, e.1 = key → e.2 = value := by
        rintro e he rfl
        rw [hentry.mp (List.mem_filter.mp he).1] at hkey
        exact Option.some.inj hkey
      rw [foldl_rewrite, foldl_sets_some hkey, foldl_entries hsame]
      have hmem : key ∈ (values.entries.filter fun e =>
          e.1 ∉ (lines.filterMap (Line.rewrite values)).filterMap Written.key?).map Prod.fst ↔
          lines.any (·.isEntry key) = false := by
        rw [List.mem_map]
        constructor
        · rintro ⟨e, he, rfl⟩
          have hno := of_decide_eq_true (List.mem_filter.mp he).2
          rw [mem_written, hkey] at hno
          simpa using hno
        · intro hno
          refine ⟨(key, value), List.mem_filter.mpr ⟨hentry.mpr hkey, decide_eq_true ?_⟩, rfl⟩
          rw [mem_written, hno]
          exact fun h => Bool.false_ne_true h.1
      dsimp only
      by_cases hany : lines.any (·.isEntry key) = true
      · rw [if_neg (by rw [hmem, hany]; decide)]
        -- there is a line that names the key
        cases hlast : lines.reverse.find? fun l => l.isBare key || l.isEntry key with
        | none =>
            obtain ⟨l, hl, hentry⟩ := List.any_eq_true.mp hany
            have := List.find?_eq_none.mp hlast l (List.mem_reverse.mpr hl)
            simp [hentry] at this
        | some l =>
            by_cases hbare : l.isBare key = true
            · simp [hbare, hany]
            · simp [hbare]
      · rw [if_pos (by rw [hmem]; simpa using hany), if_neg (fun h => hany h.1)]

end Value

/-! ### What is saved over a file -/

/-- What the layout knows about one of its lines. -/
def Line.Of (lines : List Str) : Line → Prop
  | kept text => text ∈ lines ∧ isKept text = true
  | bare text => text ∈ lines ∧ isKept text = false ∧ findSeparator text = none
  | property key sepChar text => findSeparator text = some (key, sepChar)
  | continuation _ => True

theorem Line.Of.cons {lines : List Str} {l : Line} (h : l.Of lines) (text : Str) : l.Of (text :: lines) := by
  cases l with
  | kept t => exact ⟨List.mem_cons_of_mem _ h.1, h.2⟩
  | bare t => exact ⟨List.mem_cons_of_mem _ h.1, h.2⟩
  | property key sepChar t => exact h
  | continuation t => trivial

theorem mem_layout {continued : Bool} {lines : List Str} {l : Line} (h : l ∈ layout continued lines) :
    l.Of lines := by
  induction lines generalizing continued with
  | nil => cases continued <;> cases h
  | cons text rest ih =>
      cases continued with
      | true =>
          rcases List.mem_cons.mp h with rfl | h
          · trivial
          · exact (ih h).cons text
      | false =>
          rw [layout] at h
          split_ifs at h with hkept
          · rcases List.mem_cons.mp h with rfl | h
            · exact ⟨List.mem_cons_self, hkept⟩
            · exact (ih h).cons text
          · cases hsep : findSeparator text with
            | none =>
                rw [hsep] at h
                rcases List.mem_cons.mp h with rfl | h
                · exact ⟨List.mem_cons_self, by simpa using hkept, hsep⟩
                · exact (ih h).cons text
            | some found =>
                rw [hsep] at h
                rcases List.mem_cons.mp h with rfl | h
                · exact hsep
                · exact (ih h).cons text

theorem findSeparator_sepChar {text key : Str} {sepChar : UInt8} (h : findSeparator text = some (key, sepChar)) :
    sepChar = '='.toUInt8 ∨ sepChar = ':'.toUInt8 := by
  rw [findSeparator] at h
  cases hdrop : text.dropWhile noSeparator with
  | nil =>
      rw [hdrop] at h
      cases h
  | cons c rest =>
      rw [hdrop] at h
      obtain ⟨-, rfl⟩ := Prod.mk.inj (Option.some.inj h)
      have hc := List.head?_dropWhile_not noSeparator text
      rw [hdrop, List.head?_cons] at hc
      have hno : ¬(c ≠ '='.toUInt8 ∧ c ≠ ':'.toUInt8) := of_decide_eq_false hc
      by_contra hneither
      rw [not_or] at hneither
      exact hno hneither

section Saved
variable {values : OrderedMap Str Str} {old : Str}

/-- The lines that are written fit, and hold no line ends. -/
theorem writtenLines_fit (hvalues : ∀ e ∈ values.entries, Survives e)
    (hreturns : ∀ line ∈ readLines old, '\r'.toUInt8 ∉ line) {o : Written} (h : o ∈ writtenLines values (linesOf old)) :
    o.Fits ∧ ∀ c ∈ o.text, inLine c = true := by
  have hentry {key sepChar value} (hvalue : values.find? key = some value)
      (hsep : sepChar = '='.toUInt8 ∨ sepChar = ':'.toUInt8) :
      (Written.entry key sepChar value).Fits ∧ ∀ c ∈ (Written.entry key sepChar value).text, inLine c = true := by
    have hsound := Survives.sound (hvalues _ (OrderedMap.find?_eq_some.mp hvalue))
    exact ⟨⟨hsound, hsep⟩, hsound.inLine_propertyLine hsep⟩
  have hline {text : Str} (hmem : text ∈ readLines old) : ∀ c ∈ text, inLine c = true := by
    intro c hc
    rw [inLine_iff]
    constructor
    · rintro rfl
      exact lineFeed_readLines old text hmem hc
    · rintro rfl
      exact hreturns text hmem hc
  rw [writtenLines, List.mem_append] at h
  rcases h with h | h
  · obtain ⟨l, hl, hrewrite⟩ := List.mem_filterMap.mp h
    have hlayout := mem_layout hl
    cases l with
    | kept text =>
        cases hrewrite
        exact ⟨hlayout.2, hline hlayout.1⟩
    | bare text =>
        cases hrewrite
        exact ⟨hlayout.2, hline hlayout.1⟩
    | property key sepChar text =>
        rw [Line.rewrite, Option.map_eq_some_iff] at hrewrite
        obtain ⟨value, hvalue, rfl⟩ := hrewrite
        exact hentry hvalue (findSeparator_sepChar hlayout)
    | continuation text => cases hrewrite
  · obtain ⟨e, he, rfl⟩ := List.mem_map.mp h
    exact hentry (OrderedMap.find?_eq_some.mpr (List.mem_filter.mp he).1) (.inl rfl)

theorem saveToFile_eq (ending : LineEnding) (old : Option Str) (hvalues : ∀ e ∈ values.entries, Survives e)
    (hreturns : ∀ line ∈ readLines (old.getD []), '\r'.toUInt8 ∉ line)
    (hends : ∀ l ∈ linesOf (old.getD []), l.Ends) :
    saveToFile ending old values =
      ((writtenLines values (linesOf (old.getD []))).map Written.text).flatMap (· ++ ending.newLine) := by
  have hsaved : saveToFile ending old values = writeToDevice ending.newLine 0
      (join '\n'.toUInt8 ((rewriteLoop values false (readLines (old.getD []))).1 ++
        newLines values (rewriteLoop values false (readLines (old.getD []))).2)) := by
    cases old <;> rfl
  have hlines : ∀ line ∈ (writtenLines values (linesOf (old.getD []))).map Written.text,
      ∀ c ∈ line, inLine c = true := by
    rw [List.forall_mem_map]
    exact fun o ho => (writtenLines_fit hvalues hreturns ho).2
  rw [← writeToDevice_join ending.newLine hlines (show (0 : UInt8) ≠ '\r'.toUInt8 by decide), hsaved,
    rewriteLoop_eq values hends, writtenLines, List.map_append, List.map_map, newLines]
  rfl

/-- **Main result.** What is saved over a file keeps its comments, blank lines and include directives, unchanged and
in their order.  Loaded again, it gives every key the value of the map (`loadedValue`), if the included files spare
the key. -/
theorem saveToFile_keeps (ending : LineEnding) (old : Option Str) (hvalues : ∀ e ∈ values.entries, Survives e)
    (hreturns : ∀ line ∈ readLines (old.getD []), '\r'.toUInt8 ∉ line)
    (hends : ∀ l ∈ linesOf (old.getD []), l.Ends) :
    keptLines (saveToFile ending old values) = keptLines (old.getD []) ∧
      ∀ fs absPath,
        ((∀ text ∈ keptLines (old.getD []), ∀ c, ∃ c', includeLine fs absPath text c = .ok c') →
          ∃ conf, loadFile fs absPath (saveToFile ending old values) = .ok conf) ∧
        ∀ conf, loadFile fs absPath (saveToFile ending old values) = .ok conf →
          ∀ key, (∀ text ∈ keptLines (old.getD []), ∀ c c', includeLine fs absPath text c = .ok c' →
              c'._map.find? key = c._map.find? key) →
            conf._map.find? key = loadedValue values (linesOf (old.getD [])) key := by
  have hfits : ∀ o ∈ writtenLines values (linesOf (old.getD [])), o.Fits := fun o ho =>
    (writtenLines_fit hvalues hreturns ho).1
  have hlines : ∀ o ∈ writtenLines values (linesOf (old.getD [])), ∀ c ∈ o.text, inLine c = true := fun o ho =>
    (writtenLines_fit hvalues hreturns ho).2
  have hkept {text : Str} (h : .kept text ∈ writtenLines values (linesOf (old.getD []))) :
      text ∈ keptLines (old.getD []) := by
    rcases List.mem_append.mp h with h | h
    · obtain ⟨l, hl, hrewrite⟩ := List.mem_filterMap.mp h
      refine List.mem_filterMap.mpr ⟨l, hl, ?_⟩
      cases l with
      | kept t =>
          cases hrewrite
          rfl
      | bare t => cases hrewrite
      | property key sepChar t =>
          rw [Line.rewrite, Option.map_eq_some_iff] at hrewrite
          obtain ⟨value, -, hvalue⟩ := hrewrite
          cases hvalue
      | continuation t => cases hrewrite
    · obtain ⟨e, -, hentry⟩ := List.mem_map.mp h
      cases hentry
  have hload (fs : FileSystem) (absPath : Str) : loadFile fs absPath (saveToFile ending old values) =
      (writtenLines values (linesOf (old.getD []))).foldlM (Written.load fs absPath)
        { _map := .empty, _sourceMap := .empty, _removedSourceFiles := [], _rootFile := absPath } := by
    obtain ⟨e, more, hnewLine, he, hmore⟩ : ∃ e more, ending.newLine = e :: more ∧ inLine e = false ∧
        ∀ c ∈ more, isSpace c = true := by
      cases ending with
      | lf => exact ⟨_, [], rfl, by decide, List.forall_mem_nil _⟩
      | crlf => exact ⟨_, ['\n'.toUInt8], rfl, by decide, List.forall_mem_singleton.mpr (by decide)⟩
    rw [loadFile, saveToFile_eq ending old hvalues hreturns hends, List.flatMap_map, hnewLine]
    exact loadLoop_lines he hmore hfits hlines (w := []) (by simp) (Nat.lt_succ_self _) _
  refine ⟨?_, fun fs absPath => ⟨fun hincludes => ?_, fun conf hconf key hspares => ?_⟩⟩
  · have hread : linesOf (saveToFile ending old values) =
        (writtenLines values (linesOf (old.getD []))).map Written.toLine := by
      rw [linesOf, saveToFile_eq ending old hvalues hreturns hends, readLines_flatMap, layout_written hfits]
      rw [List.forall_mem_map]
      exact hlines
    have hnew (l : List (Str × Str)) : ((l.map fun e => Written.entry e.1 '='.toUInt8 e.2).map
        Written.toLine).filterMap Line.kept? = [] := by
      induction l with
      | nil => rfl
      | cons e l ih => exact ih
    have hold (lines : List Line) : ((lines.filterMap (Line.rewrite values)).map Written.toLine).filterMap Line.kept? =
        lines.filterMap Line.kept? := by
      rw [List.map_filterMap, List.filterMap_filterMap]
      congr 1
      funext l
      cases l with
      | kept text => rfl
      | bare text => rfl
      | property key sepChar text =>
          cases hfind : values.find? key <;> simp [Line.rewrite, hfind, Line.kept?, Written.toLine]
      | continuation text => rfl
    rw [keptLines, hread, writtenLines, List.map_append, List.filterMap_append, hnew, hold, List.append_nil, keptLines]
  · rw [hload]
    exact exists_load (fun text htext => hincludes text (hkept htext)) _
  · rw [hload] at hconf
    rw [find?_load (fun text htext => hspares text (hkept htext)) hconf]
    exact foldl_writtenLines _

end Saved

/-- A file with lines of every kind; the optional file is missing. -/
theorem saveToFile_keeps_sample :
    let old := str "# c\n\nfoo\n?include x\r\na : 1\\\n  2\nb=2"
    let values : OrderedMap Str Str := (OrderedMap.insert .empty (str "a") (str "v\\")).insert (str "n") (str "1")
    keptLines (saveToFile .crlf (some old) values) = [str "# c", [], str "?include x"] ∧
      ∃ conf, loadFile ⟨[], fun _ path _ => .ok path, id⟩ (str "f") (saveToFile .crlf (some old) values) = .ok conf ∧
        conf._map.find? (str "a") = some (str "v\\") ∧ conf._map.find? (str "b") = none ∧
        conf._map.find? (str "foo") = some [] := by
  intro old values
  have hvalues : ∀ e ∈ values.entries, Survives e := by
    decide
  have hreturns : ∀ line ∈ readLines ((some old).getD []), '\r'.toUInt8 ∉ line := by
    decide
  have hlines : linesOf ((some old).getD []) =
      [.kept (str "# c"), .kept [], .bare (str "foo"), .kept (str "?include x"),
        .property (str "a") ':'.toUInt8 (str "a : 1\\"), .continuation (str "  2"),
        .property (str "b") '='.toUInt8 (str "b=2")] := by
    decide
  have hends : ∀ l ∈ linesOf ((some old).getD []), l.Ends := by
    rw [hlines]
    simp only [List.forall_mem_cons, Line.Ends]
    exact ⟨trivial, trivial, trivial, trivial, by decide, by decide, by decide, by simp⟩
  obtain ⟨hkept, hload⟩ := saveToFile_keeps .crlf (some old) hvalues hreturns hends
  have hold : keptLines ((some old).getD []) = [str "# c", [], str "?include x"] := by
    rw [keptLines, hlines]
    rfl
  have hinclude : ∀ text ∈ keptLines ((some old).getD []), ∀ c,
      includeLine ⟨[], fun _ path _ => .ok path, id⟩ (str "f") text c = .ok c := by
    rw [hold]
    simp only [List.forall_mem_cons]
    refine ⟨fun c => rfl, fun c => rfl, fun c => ?_, by simp⟩
    have hpath : extractIncludePath (str "?include x") = .ok (str "x", true) := by decide
    have hstack : str "x" ∉ [str "f"] := by decide
    rw [includeLine, hpath]
    dsimp only
    rw [if_neg (by decide), processInclude]
    simp [hstack]
  obtain ⟨hexists, hvalue⟩ := hload ⟨[], fun _ path _ => .ok path, id⟩ (str "f")
  obtain ⟨conf, hconf⟩ := hexists fun text htext c => ⟨c, hinclude text htext c⟩
  have hkey := hvalue conf hconf
  have hspares : ∀ key, ∀ text ∈ keptLines ((some old).getD []), ∀ c c',
      includeLine ⟨[], fun _ path _ => .ok path, id⟩ (str "f") text c = .ok c' →
        c'._map.find? key = c._map.find? key := by
    intro key text htext c c' hc
    rw [hinclude text htext c] at hc
    rw [Except.ok.inj hc]
  refine ⟨hkept.trans hold, conf, hconf, ?_, ?_, ?_⟩
  · rw [hkey _ (hspares _), hlines]
    decide
  · rw [hkey _ (hspares _), hlines]
    decide
  · rw [hkey _ (hspares _), hlines]
    decide

end Poco.Util.PropertyFileConfiguration
