import Poco.Foundation.PathRoundTrip
import Poco.Zip.ZipLocalFileHeader

/-! # Where entries are extracted

`Decompress` writes the entries of an archive below its output directory.  The name of an entry is
checked by `isValidPath`, which refuses absolute names and looks for steps up by their text.  A step
up at the end of a name, behind a separator, is not among the texts it looks for.

Native paths are those of a Unix or of a Windows system.  Where a path lies is told from the text
that is printed for it: the text is cut at the separators of the system, and the segments are put on a
stack on which a step up takes a name away (`lexical`).  A path is inside a directory if the stack
of the directory is the bottom of its own. -/

namespace Poco.Zip

open Poco.Lib Poco.Foundation Poco.Foundation.Path

/-! ### Native paths -/

/-- The system that `Path` is compiled for. -/
inductive Native
  | unix
  | windows
deriving DecidableEq, Repr

/-- What stops an entry from being extracted.  The last two are no exceptions: the parser of Unix paths
does not end, because the home directory begins with a tilde; and the last character of an empty name is
read. -/
inductive EntryException
  | pathSyntax (path : List Char)
  | illegalEntryName (fileName : List Char)
  | unsupportedCompressionMethod (method : CompressionMethod) (fileName : List Char)
  | endless
  | undefined
deriving DecidableEq, Repr

namespace Native

/-- `Path(path)`. -/
def parse (os : Native) (home path : List Char) : Except EntryException Path :=
  match os with
  | .unix =>
    match parseUnix home path with
    | none => .error .endless
    | some p => .ok p
  | .windows =>
    match parseWindows path with
    | .error e => .error (.pathSyntax e.path)
    | .ok p => .ok p

/-- `toString()`. -/
def build (os : Native) (p : Path) : List Char :=
  match os with
  | .unix => p.buildUnix
  | .windows => p.buildWindows

/-- The separator that is printed. -/
def separator : Native → Char
  | .unix => '/'
  | .windows => '\\'

/-- The separators that are understood. -/
def isSeparator : Native → Char → Bool
  | .unix => (· == '/')
  | .windows => isSlash

end Native

/-! ### The check of a name -/

/-- The tests of `isValidPath` on the text. -/
def isValidText (path : List Char) : Bool :=
  if path = "..".toList then false
  else if path.length ≥ 3 ∧ path.take 3 = "../".toList then false
  else if path.length ≥ 3 ∧ path.take 3 = "..\\".toList then false
  else if "/../".toList <:+: path then false
  else if "\\..\\".toList <:+: path then false
  else if "/..\\".toList <:+: path then false
  else if "\\../".toList <:+: path then false
  else if path.length ≥ 2 ∧ path.take 2 = "~/".toList then false
  else true

/-- `ZipCommon::isValidPath`; `none` if it does not return. -/
def isValidPath (home path : List Char) : Option Bool :=
  (parseUnix home path).map fun unix =>
    if unix._absolute then false
    else match parseWindows path with
      | .error _ => false
      | .ok windows => if windows._absolute then false else isValidText path

/-! ### `Decompress` -/

/-- The members that decide where an entry goes.  The constructor makes the output directory absolute
and a directory. -/
structure Decompress where
  _outDir : Path
  _flattenDirs : Bool
  absolute : _outDir._absolute = true
  directory : _outDir._name = []

namespace Decompress

/-- The constructor, where `cwd` is the current directory, which is absolute. -/
def create (cwd : { p : Path // p._absolute = true }) (outputDir : Path) (flattenDirs : Bool) : Decompress where
  _outDir := (outputDir.makeAbsolute cwd).makeDirectory
  _flattenDirs := flattenDirs
  absolute := by
    rw [makeDirectory_absolute, Path.makeAbsolute]
    split
    · exact cwd.2
    · simp_all
  directory := rfl

/-- What is created for an entry. -/
inductive Target
  | directory (dir : Path)
  | file (dest : Path)
deriving DecidableEq, Repr

/-- The path of what is created. -/
def Target.path : Target → Path
  | .directory dir => dir
  | .file dest => dest

/-- The name under which an entry is extracted. -/
def usedName (os : Native) (home : List Char) (d : Decompress) (hdr : ZipLocalFileHeader) :
    Except EntryException (List Char) :=
  let fileName := charsOf hdr._fileName
  match hdr.isDirectory with
  | none => .error .undefined
  | some isDirectory =>
      if !isDirectory && d._flattenDirs then
        (os.parse home fileName).map fun p => p.makeFile._name
      else .ok fileName

/-- `handleZipEntry` up to the creation of what is extracted, if anything is. -/
def handleZipEntry (os : Native) (home : List Char) (d : Decompress) (hdr : ZipLocalFileHeader) :
    Except EntryException (Option Target) := do
  match hdr.isDirectory with
  | none => .error .undefined
  | some true =>
      if d._flattenDirs then return none
      else
        let dirName ← usedName os home d hdr
        match isValidPath home dirName with
        | none => .error .endless
        | some false => .error (.illegalEntryName dirName)
        | some true =>
          let dir := { d._outDir.makeDirectory with _name := dirName }
          return some (.directory dir.makeDirectory)
  | some false =>
      let fileName ← usedName os home d hdr
      match isValidPath home fileName with
      | none => .error .endless
      | some false => .error (.illegalEntryName fileName)
      | some true =>
        if hdr.getCompressionMethod ≠ CM_DEFLATE ∧ hdr.getCompressionMethod ≠ CM_STORE then
          .error (.unsupportedCompressionMethod hdr.getCompressionMethod fileName)
        else
          let file ← os.parse home fileName
          let dest := d._outDir.resolve file.makeFile
          return some (.file dest.makeFile)

end Decompress

/-! ### Lexical places -/

/-- The names that lead from the root to a path. -/
def lexical (os : Native) (text : List Char) : List (List Char) :=
  (allSegments os.isSeparator text).foldl (push kind true) []

/-- The text of `p` stays below the text of `dir`. -/
def Inside (os : Native) (dir p : Path) : Prop :=
  lexical os (os.build dir) <+: lexical os (os.build p)

instance (os : Native) (dir p : Path) : Decidable (Inside os dir p) :=
  inferInstanceAs (Decidable (lexical os (os.build dir) <+: lexical os (os.build p)))

/-- What is promised of a name. -/
structure Safe (home s : List Char) : Prop where
  components : ['.', '.'] ∉ allSegments isSlash s
  unix : ∀ p, parseUnix home s = some p → p._absolute = false
  windows : ∀ p, parseWindows s = .ok p → p._absolute = false
  inside : ∀ (os : Native) (d : Decompress) (hdr : ZipLocalFileHeader) (target : Decompress.Target),
    Decompress.usedName os home d hdr = .ok s →
    Decompress.handleZipEntry os home d hdr = .ok (some target) → Inside os d._outDir target.path

/-- A step up is the last component, and not the only one. -/
def EndsWithStepUp (s : List Char) : Prop := "/..".toList <:+ s ∨ "\\..".toList <:+ s

instance (s : List Char) : Decidable (EndsWithStepUp s) := inferInstanceAs (Decidable (_ ∨ _))

/-! ### What an accepted name has -/

/-- A name that is accepted is relative on both systems. -/
theorem isValidPath_cases {home s : List Char} (h : isValidPath home s = some true) :
    ∃ unix windows, parseUnix home s = some unix ∧ parseWindows s = .ok windows ∧
      unix._absolute = false ∧ windows._absolute = false ∧ isValidText s = true := by
  rw [isValidPath] at h
  obtain ⟨unix, hunix, h⟩ := Option.map_eq_some_iff.mp h
  cases hwindows : parseWindows s with
  | error e => simp [hwindows] at h
  | ok windows =>
      simp only [hwindows] at h
      split_ifs at h with hu hw
      rw [Bool.not_eq_true] at hu hw
      exact ⟨unix, windows, hunix, rfl, hu, hw, h⟩

theorem isValidText_cases {s : List Char} (h : isValidText s = true) :
    s ≠ "..".toList ∧ ¬(s.length ≥ 3 ∧ s.take 3 = "../".toList) ∧
      ¬(s.length ≥ 3 ∧ s.take 3 = "..\\".toList) ∧ ¬"/../".toList <:+: s ∧
      ¬"\\..\\".toList <:+: s ∧ ¬"/..\\".toList <:+: s ∧ ¬"\\../".toList <:+: s := by
  rw [isValidText] at h
  split_ifs at h with h1 h2 h3 h4 h5 h6 h7 h8
  exact ⟨h1, h2, h3, h4, h5, h6, h7⟩

theorem isSlash_iff {c : Char} : isSlash c = true ↔ c = '\\' ∨ c = '/' := by
  simp [isSlash]

theorem up_no_slash : ∀ c ∈ ['.', '.'], isSlash c = false := by
  simp [isSlash]

theorem up_mem_allSegments_iff {home s : List Char} (h : isValidPath home s = some true) :
    ['.', '.'] ∈ allSegments isSlash s ↔ EndsWithStepUp s := by
  obtain ⟨-, -, -, -, -, -, htext⟩ := isValidPath_cases h
  obtain ⟨hself, hslash, hback, hss, hbb, hsb, hbs⟩ := isValidText_cases htext
  rw [mem_allSegments up_no_slash]
  constructor
  · rintro (rfl | ⟨c, t, hc, rfl⟩ | ⟨u, c, hc, rfl⟩ | ⟨u, c, c', t, hc, hc', rfl⟩)
    · exact absurd rfl hself
    · rcases isSlash_iff.mp hc with rfl | rfl
      · exact absurd ⟨by simp, rfl⟩ hback
      · exact absurd ⟨by simp, rfl⟩ hslash
    · rcases isSlash_iff.mp hc with rfl | rfl
      · exact Or.inr ⟨u, rfl⟩
      · exact Or.inl ⟨u, rfl⟩
    · rcases isSlash_iff.mp hc with rfl | rfl <;> rcases isSlash_iff.mp hc' with rfl | rfl
      · exact absurd ⟨u, t, by simp⟩ hbb
      · exact absurd ⟨u, t, by simp⟩ hbs
      · exact absurd ⟨u, t, by simp⟩ hsb
      · exact absurd ⟨u, t, by simp⟩ hss
  · rintro (⟨u, rfl⟩ | ⟨u, rfl⟩)
    · exact Or.inr (Or.inr (Or.inl ⟨u, '/', rfl, rfl⟩))
    · exact Or.inr (Or.inr (Or.inl ⟨u, '\\', rfl, rfl⟩))

/-! ### Where an accepted name leads -/

namespace Native

theorem isSeparator_separator (os : Native) : os.isSeparator os.separator = true := by
  cases os <;> rfl

theorem isSlash_of_isSeparator (os : Native) {c : Char} (h : os.isSeparator c = true) :
    isSlash c = true := by
  cases os with
  | unix => exact isSlash_iff.mpr (Or.inr (by simpa [isSeparator] using h))
  | windows => exact h

/-- What is printed in front of the directories. -/
def front (os : Native) (p : Path) : List Char := os.build { p with _dirs := [], _name := [] }

theorem build_eq (os : Native) (p : Path) :
    os.build p = os.front p ++ (join os.separator p._dirs ++ p._name) := by
  cases os <;> simp [front, build, buildUnix, buildWindows, separator, join]

/-- An absolute path has a separator in front of its directories. -/
theorem front_eq_append (os : Native) {p : Path} (h : p._absolute = true) :
    ∃ pre, os.front p = pre ++ [os.separator] := by
  cases os with
  | unix =>
      by_cases hdevice : p._device = []
      · exact ⟨[], by simp [front, build, buildUnix, separator, join, h, hdevice]⟩
      · exact ⟨['/'] ++ p._device ++ [':'], by simp [front, build, buildUnix, separator, join, hdevice]⟩
  | windows =>
      by_cases hnode : p._node = []
      · by_cases hdevice : p._device = []
        · exact ⟨[], by simp [front, build, buildWindows, separator, join, h, hnode, hdevice]⟩
        · exact ⟨p._device ++ [':'], by simp [front, build, buildWindows, separator, join, hnode, hdevice]⟩
      · exact ⟨['\\', '\\'] ++ p._node, by simp [front, build, buildWindows, separator, join, hnode]⟩

end Native

theorem lexical_append (os : Native) (pre t : List Char) :
    lexical os (pre ++ os.separator :: t) =
      (allSegments os.isSeparator t).foldl (push kind true) (lexical os pre) := by
  rw [lexical, allSegments_append_sep pre os.isSeparator_separator, List.foldl_append]
  rfl

theorem lexical_separator (os : Native) (pre : List Char) :
    lexical os (pre ++ [os.separator]) = lexical os pre := by
  rw [lexical_append]
  rfl

/-- A text without steps up, behind the text of a directory, stays inside. -/
theorem lexical_prefix_append (os : Native) (pre : List Char) {t : List Char}
    (h : ['.', '.'] ∉ allSegments os.isSeparator t) :
    lexical os (pre ++ [os.separator]) <+: lexical os (pre ++ os.separator :: t) := by
  rw [lexical_separator, lexical_append]
  apply prefix_foldl_push
  rintro d hd hup
  rw [kind_eq_up] at hup
  exact h (hup ▸ hd)

/-- A directory is printed with a separator at its end. -/
theorem build_eq_append (os : Native) {p : Path} (habs : p._absolute = true) (hname : p._name = []) :
    ∃ pre, os.build p = pre ++ [os.separator] := by
  rw [os.build_eq, hname, List.append_nil]
  rcases List.eq_nil_or_concat p._dirs with hdirs | ⟨ds, d, hdirs⟩
  · obtain ⟨pre, hpre⟩ := os.front_eq_append habs
    exact ⟨pre, by simp [hpre, hdirs, join]⟩
  · exact ⟨os.front p ++ (join os.separator ds ++ d), by simp [hdirs, join]⟩

/-- A relative path that is printed segment by segment, and has no steps up. -/
structure Downward (os : Native) (p : Path) : Prop where
  relative : p._absolute = false
  dirs : ∀ d ∈ p._dirs, kind d = .name ∧ ∀ c ∈ d, os.isSeparator c = false
  name : p._name ≠ ['.', '.'] ∧ ∀ c ∈ p._name, os.isSeparator c = false

theorem Downward.makeFile {os : Native} {p : Path} (h : Downward os p) : Downward os p.makeFile := by
  rw [Path.makeFile]
  split
  · rename_i d hlast
    split_ifs with hname
    · obtain ⟨hkind, hsep⟩ := h.dirs d (List.mem_of_getLast? hlast)
      exact ⟨h.relative, fun e he => h.dirs e (List.mem_of_mem_dropLast he), (kind_eq_name.mp hkind).2.2, hsep⟩
    · exact h
  · exact h

theorem Downward.up_not_mem {os : Native} {p : Path} (h : Downward os p) :
    ['.', '.'] ∉ allSegments os.isSeparator (join os.separator p._dirs ++ p._name) := by
  rw [allSegments, split_join os.isSeparator_separator (fun d hd => (h.dirs d hd).2) h.name.2]
  simp only [List.mem_append, List.mem_singleton, not_or]
  constructor
  · intro hmem
    have hkind := (h.dirs _ hmem).1
    simp [kind] at hkind
  · exact h.name.1.symm

/-- What is parsed from a relative name without steps up. -/
theorem downward_of_components {os : Native} {p : Path} {s : List Char} {ds : List (List Char)}
    (hrel : p._absolute = false) (hwf : p.WellFormed) (hsplit : (split os.isSeparator s).1 = ds)
    (hdirs : ∀ d ∈ p._dirs, d ∈ ds) (hname : p._name = (split os.isSeparator s).2)
    (hup : ['.', '.'] ∉ allSegments os.isSeparator s) : Downward os p := by
  obtain ⟨hds, hn⟩ := split_no_sep os.isSeparator s
  subst hsplit
  rw [allSegments, List.mem_append, List.mem_singleton, not_or] at hup
  refine ⟨hrel, ?_, ?_⟩
  · intro d hd
    refine ⟨?_, hds d (hdirs d hd)⟩
    have hskip := Normal.not_skip hwf d hd
    rw [ne_eq, kind_eq_skip, not_or] at hskip
    rw [kind_eq_name]
    refine ⟨hskip.1, hskip.2, ?_⟩
    rintro rfl
    exact hup.1 (hdirs _ hd)
  · rw [hname]
    exact ⟨fun hn => hup.2 hn.symm, hn⟩

theorem downward_unix {home s : List Char} {p : Path} (h : parseUnix home s = some p) (hrel : p._absolute = false)
    (hup : ['.', '.'] ∉ allSegments (· == '/') s) : Downward .unix p := by
  have hcomp : p = componentsUnix {} s := by
    rw [parseUnix, parseUnixAt_eq] at h
    split at h
    · obtain rfl := Option.some.inj h
      rw [componentsUnix_absolute rfl] at hrel
      cases hrel
    · split at h
      · obtain ⟨cwd, -, rfl⟩ := Option.map_eq_some_iff.mp h
        rw [componentsUnix_absolute rfl] at hrel
        cases hrel
      · exact (Option.some.inj h).symm
  have hwf : p.WellFormed := hcomp ▸ wellFormed_of_nil.componentsUnix s
  rw [componentsUnix_eq] at hcomp
  have hno : NoDevice (split (· == '/') s).1 := by
    by_contra hdevice
    rw [hcomp] at hrel
    simp only [foldl_directoryUnix_device hdevice] at hrel
    cases hrel
  rw [foldl_directoryUnix_relative hno] at hcomp
  refine downward_of_components hrel hwf rfl ?_ (by rw [hcomp]; rfl) hup
  intro d hd
  rw [hcomp] at hd
  exact (mem_foldl_push hd).resolve_left (by simp)

theorem downward_windows {s : List Char} {p : Path} (h : parseWindows s = .ok p) (hrel : p._absolute = false)
    (hup : ['.', '.'] ∉ allSegments isSlash s) : Downward .windows p := by
  obtain ⟨q, htext, rfl⟩ := textWindows_of_parse h
  rw [(endWindows_frame q).2.2] at hrel
  have hq : q = componentsWindows {} s := by
    rcases textWindows_cases htext with ⟨-, node, it, -, -, rfl⟩ | ⟨-, d, it, -, rfl⟩ | ⟨absolute, it, hbare, rfl⟩
    · rw [componentsWindows_eq] at hrel
      cases hrel
    · rw [componentsWindows_eq] at hrel
      cases hrel
    · obtain rfl : absolute = false := by rwa [componentsWindows_eq] at hrel
      unfold bareWindows at hbare
      split at hbare
      · obtain ⟨-, rfl⟩ := Prod.mk.inj (Option.some.inj hbare)
        rfl
      · split_ifs at hbare
        · split at hbare
          · cases hbare
          · split_ifs at hbare <;> cases hbare
        · obtain ⟨-, rfl⟩ := Prod.mk.inj (Option.some.inj hbare)
          rfl
  have hend : endWindows q = q := endWindows_of_node (by rw [hq, componentsWindows_eq])
  rw [hend]
  have hwf : q.WellFormed := hq ▸ ((printableWindows_of_nil rfl rfl).componentsWindows s).wellFormed
  rw [componentsWindows_eq] at hq
  refine downward_of_components hrel hwf rfl ?_ (by rw [hq]; rfl) hup
  intro d hd
  rw [hq] at hd
  exact (mem_foldl_push hd).resolve_left (by simp)

/-- A name without steps up is parsed to a path that leads downward. -/
theorem Native.downward_of_parse {os : Native} {home s : List Char} {p : Path}
    (h : isValidPath home s = some true) (hup : ['.', '.'] ∉ allSegments isSlash s)
    (hparse : os.parse home s = .ok p) : Downward os p := by
  obtain ⟨unix, windows, hunix, hwindows, hu, hw, -⟩ := isValidPath_cases h
  have hup' : ['.', '.'] ∉ allSegments os.isSeparator s := fun hmem =>
    hup (mem_allSegments_of_imp (fun _ => os.isSlash_of_isSeparator) up_no_slash hmem)
  cases os with
  | unix =>
      rw [parse, hunix] at hparse
      obtain rfl := Except.ok.inj hparse
      exact downward_unix hunix hu hup'
  | windows =>
      rw [parse, hwindows] at hparse
      obtain rfl := Except.ok.inj hparse
      exact downward_windows hwindows hw hup'

/-- The directory that is created for a name without steps up. -/
theorem inside_directory (os : Native) {dir : Path} (habs : dir._absolute = true) (hname : dir._name = [])
    {name : List Char} (hup : ['.', '.'] ∉ allSegments isSlash name) :
    Inside os dir ({ dir.makeDirectory with _name := name } : Path).makeDirectory := by
  have hup' : ['.', '.'] ∉ allSegments os.isSeparator name := fun hmem =>
    hup (mem_allSegments_of_imp (fun _ => os.isSlash_of_isSeparator) up_no_slash hmem)
  have hdirectory : dir.makeDirectory = { dir with _name := [], _version := [] } := by
    rw [makeDirectory, hname, pushDirectory_eq]
    simp [push, kind]
  obtain ⟨pre, hpre⟩ := build_eq_append os habs hname
  have hpath : ({ dir.makeDirectory with _name := name } : Path).makeDirectory =
      { dir with _dirs := push kind true dir._dirs name, _name := [], _version := [] } := by
    rw [hdirectory, makeDirectory, pushDirectory_eq]
    simp [habs]
  rw [hpath, Inside, hpre]
  have hbuild (ds : List (List Char)) : os.build { dir with _dirs := ds, _name := [], _version := [] } =
      os.front dir ++ join os.separator ds := by
    rw [os.build_eq]
    cases os <;> simp [Native.front, Native.build, buildUnix, buildWindows]
  have hdir : os.build dir = os.front dir ++ join os.separator dir._dirs := by
    rw [os.build_eq, hname, List.append_nil]
  rw [hbuild]
  cases hkind : kind name with
  | skip => simp [push, hkind, ← hdir, hpre]
  | up =>
      rw [kind_eq_up] at hkind
      rw [hkind, allSegments_of_no_sep (fun c hc => ?_)] at hup'
      · simp at hup'
      · cases hsep : os.isSeparator c with
        | false => rfl
        | true =>
            have hslash := up_no_slash c hc
            rw [os.isSlash_of_isSeparator hsep] at hslash
            cases hslash
  | name =>
      have happend : os.front dir ++ join os.separator (push kind true dir._dirs name) =
          (pre ++ os.separator :: name) ++ [os.separator] := by
        have hjoin : join os.separator (push kind true dir._dirs name) =
            join os.separator dir._dirs ++ (name ++ [os.separator]) := by
          simp [push, hkind, join]
        rw [hjoin, ← List.append_assoc, ← hdir, hpre]
        simp
      rw [happend, lexical_separator os (pre ++ os.separator :: name)]
      exact lexical_prefix_append os pre hup'

theorem lexical_makeFile (os : Native) (p : Path) :
    lexical os (os.build p.makeFile) = lexical os (os.build p) := by
  rw [Path.makeFile]
  split
  · rename_i d hlast
    split_ifs with hname
    · obtain ⟨ds, hdirs⟩ := List.getLast?_eq_some_iff.mp hlast
      have hbuild : os.build p = os.build { p with _name := d, _dirs := p._dirs.dropLast } ++
          [os.separator] := by
        rw [os.build_eq, os.build_eq { p with _name := d, _dirs := p._dirs.dropLast }, hname, hdirs,
          List.dropLast_concat]
        simp [join, Native.front]
      rw [hbuild, lexical_separator]
    · rfl
  · rfl

/-- The file that is created for a path that leads downward. -/
theorem inside_file (os : Native) {dir file : Path} (habs : dir._absolute = true) (hname : dir._name = [])
    (hfile : Downward os file) : Inside os dir (dir.resolve file).makeFile := by
  have hresolve : dir.resolve file = { dir with _dirs := dir._dirs ++ file._dirs, _name := file._name } := by
    rw [resolve, if_neg (by simp [hfile.relative]), foldl_pushDirectory,
      foldl_push_of_names fun d hd => (hfile.dirs d hd).1]
  obtain ⟨pre, hpre⟩ := build_eq_append os habs hname
  have hbuild : os.build (dir.resolve file) =
      pre ++ os.separator :: (join os.separator file._dirs ++ file._name) := by
    have hdir : os.front dir ++ join os.separator dir._dirs = pre ++ [os.separator] := by
      rw [← hpre, os.build_eq, hname, List.append_nil]
    rw [hresolve, os.build_eq, ← List.singleton_append, ← List.append_assoc pre, ← hdir]
    simp [join, Native.front]
  rw [Inside, lexical_makeFile, hbuild, hpre]
  exact lexical_prefix_append os pre hfile.up_not_mem

/-- An entry whose name has no steps up is extracted inside the output directory. -/
theorem inside_handleZipEntry {os : Native} {home s : List Char} {d : Decompress} {hdr : ZipLocalFileHeader}
    {target : Decompress.Target} (hvalid : isValidPath home s = some true) (hup : ['.', '.'] ∉ allSegments isSlash s)
    (hused : Decompress.usedName os home d hdr = .ok s)
    (h : Decompress.handleZipEntry os home d hdr = .ok (some target)) : Inside os d._outDir target.path := by
  have hused' : Decompress.usedName os home d hdr = pure s := hused
  rw [Decompress.handleZipEntry, hused'] at h
  simp only [pure_bind, hvalid] at h
  cases hdir : hdr.isDirectory with
  | none =>
      rw [hdir] at h
      cases h
  | some isDirectory =>
      rw [hdir] at h
      cases isDirectory with
      | true =>
          dsimp only at h
          split_ifs at h
          · cases h
          · obtain rfl := Option.some.inj (Except.ok.inj h)
            exact inside_directory os d.absolute d.directory hup
      | false =>
          dsimp only at h
          split_ifs at h
          cases hparse : os.parse home s with
          | error e =>
              rw [hparse] at h
              cases h
          | ok file =>
              rw [hparse] at h
              obtain rfl := Option.some.inj (Except.ok.inj h)
              exact inside_file os d.absolute d.directory (Native.downward_of_parse hvalid hup hparse).makeFile

/-- An accepted name is safe exactly if it does not end with a step up behind a separator. -/
theorem entry_safe_iff {home s : List Char} (h : isValidPath home s = some true) : Safe home s ↔ ¬EndsWithStepUp s := by
  rw [← up_mem_allSegments_iff h]
  constructor
  · exact Safe.components
  · intro hup
    obtain ⟨unix, windows, hunix, hwindows, hu, hw, -⟩ := isValidPath_cases h
    refine ⟨hup, ?_, ?_, fun os d hdr target hused htarget => inside_handleZipEntry h hup hused htarget⟩
    · intro p hp
      rw [hunix] at hp
      exact Option.some.inj hp ▸ hu
    · intro p hp
      rw [hwindows] at hp
      exact Except.ok.inj hp ▸ hw

theorem entry_safe_iff_file :
    isValidPath "/home/u/".toList "docs/read.me".toList = some true ∧
      (Safe "/home/u/".toList "docs/read.me".toList ↔ ¬EndsWithStepUp "docs/read.me".toList) := by
  have h : isValidPath "/home/u/".toList "docs/read.me".toList = some true := by decide
  exact ⟨h, entry_safe_iff h⟩

/-- A decompression into a directory `/out`. -/
def outDirectory : Decompress where
  _outDir := { _dirs := ["out".toList], _absolute := true }
  _flattenDirs := false
  absolute := rfl
  directory := rfl

/-- The header of an entry `./..`. -/
def parentHeader : ZipLocalFileHeader where
  _fileName := bytesOf "./..".toList
  _lastModifiedAt := ⟨0, 1582, 10, 15, 0, 0, 0, 0, 0⟩

/-- The entry `./..` is accepted, and leads to the directory above the output directory. -/
theorem not_safe_parent :
    isValidPath "/home/u/".toList "./..".toList = some true ∧ ¬Safe "/home/u/".toList "./..".toList ∧
      Decompress.handleZipEntry .unix "/home/u/".toList outDirectory parentHeader =
        .ok (some (.file { _dirs := ["out".toList], _name := "..".toList, _absolute := true })) ∧
      ¬Inside .unix outDirectory._outDir { _dirs := ["out".toList], _name := "..".toList, _absolute := true } := by
  refine ⟨by decide, ?_, by decide, by decide⟩
  intro h
  exact h.components (by decide)

end Poco.Zip
