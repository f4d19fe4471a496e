import Poco.Lib.Segments

/-! # `Path`

A path is a node, a device, a list of directories and a file name.  `parseUnix` and
`parseWindows` read it from a text, `buildUnix` and `buildWindows` write it, and the operations
that change a path keep its directory list normalised, as far as they go through
`pushDirectory`.

Strings are lists of characters.  `home` is what `Path::home()` gives, on a system where native
paths are Unix paths: `parseUnix` parses it when the text begins with a tilde, and has no result
(`none`) when the text of `home` begins with a tilde as well, because the parser then calls itself
without end.  The version of a file, which only VMS paths have, is carried along as the source
does.  An argument is another object than the path that is changed. -/

namespace Poco.Foundation

open Poco.Lib

/-- The members of `Path`. -/
structure Path where
  _node : List Char := []
  _device : List Char := []
  _name : List Char := []
  _version : List Char := []
  _dirs : List (List Char) := []
  _absolute : Bool := false
deriving DecidableEq, Repr

namespace Path

/-! ### Operations on a path -/

/-- `pushDirectory`. -/
def pushDirectory (p : Path) (dir : List Char) : Path :=
  if dir ≠ [] ∧ dir ≠ ['.'] then
    if dir = ['.', '.'] then
      if p._dirs ≠ [] ∧ p._dirs.getLast? ≠ some ['.', '.'] then
        { p with _dirs := p._dirs.dropLast }
      else if !p._absolute then { p with _dirs := p._dirs ++ [dir] }
      else p
    else { p with _dirs := p._dirs ++ [dir] }
  else p

/-- `popDirectory`; `none` is the failed assertion. -/
def popDirectory (p : Path) : Option Path :=
  if p._dirs ≠ [] then some { p with _dirs := p._dirs.dropLast } else none

/-- `makeDirectory`. -/
def makeDirectory (p : Path) : Path :=
  { p.pushDirectory p._name with _name := [], _version := [] }

/-- `makeFile`. -/
def makeFile (p : Path) : Path :=
  match p._dirs.getLast? with
  | some d => if p._name = [] then { p with _name := d, _dirs := p._dirs.dropLast } else p
  | none => p

/-- `makeAbsolute(base)`. -/
def makeAbsolute (p base : Path) : Path :=
  if !p._absolute then
    let tmp := p._dirs.foldl pushDirectory base.makeDirectory
    { p with _node := tmp._node, _device := tmp._device, _dirs := tmp._dirs,
             _absolute := base._absolute }
  else p

/-- `makeParent`. -/
def makeParent (p : Path) : Path :=
  if p._name = [] then
    match p._dirs.getLast? with
    | none => if !p._absolute then { p with _dirs := p._dirs ++ [['.', '.']] } else p
    | some d =>
      if d = ['.', '.'] then { p with _dirs := p._dirs ++ [['.', '.']] }
      else { p with _dirs := p._dirs.dropLast }
  else { p with _name := [], _version := [] }

/-- `append`. -/
def append (p path : Path) : Path :=
  let p := p.makeDirectory
  { p with _dirs := p._dirs ++ path._dirs, _name := path._name, _version := path._version }

/-- `resolve`. -/
def resolve (p path : Path) : Path :=
  if path._absolute then path
  else { path._dirs.foldl pushDirectory p with _name := path._name }

/-! ### Unix paths -/

/-- A directory of the text of a Unix path. -/
def directoryUnix (p : Path) (name : List Char) : Path :=
  if p._dirs = [] then
    if name ≠ [] ∧ name.getLast? = some ':' then
      { p with _absolute := true, _device := name.dropLast }
    else p.pushDirectory name
  else p.pushDirectory name

/-- The loop of `parseUnix`. -/
def componentsUnix (p : Path) (it : List Char) : Path :=
  let (p, name) := scan (· == '/') directoryUnix p [] it
  { p with _name := name }

/-- `parseUnix`, with `cwd` for `Path cwd(home())`. -/
def parseUnixAt (cwd : Option Path) (path : List Char) : Option Path :=
  match path with
  | '/' :: it => some (componentsUnix { _absolute := true } it)
  | '~' :: it =>
    if it = [] ∨ it.head? = some '/' then
      cwd.map fun cwd => componentsUnix { _dirs := cwd._dirs, _absolute := true } it
    else some (componentsUnix {} ('~' :: it))
  | it => some (componentsUnix {} it)

/-- `parseUnix`. -/
def parseUnix (home path : List Char) : Option Path := parseUnixAt (parseUnixAt none home) path

/-- `buildUnix`. -/
def buildUnix (p : Path) : List Char :=
  (if p._device ≠ [] then ['/'] ++ p._device ++ [':', '/'] else if p._absolute then ['/'] else []) ++
    join '/' p._dirs ++ p._name

/-! ### Windows paths -/

/-- `*it == '\\' || *it == '/'`. -/
def isSlash (c : Char) : Bool := c == '\\' || c == '/'

/-- The letters of a drive. -/
def isDriveLetter (d : Char) : Bool := ('a' ≤ d && d ≤ 'z') || ('A' ≤ d && d ≤ 'Z')

/-- `PathSyntaxException(path)`. -/
structure PathSyntaxException where
  path : List Char
deriving DecidableEq, Repr

/-- The loop of `parseWindows`. -/
def componentsWindows (p : Path) (it : List Char) : Path :=
  let (p, name) := scan isSlash pushDirectory p [] it
  { p with _name := name }

/-- What `parseWindows` does behind a drive letter and its colon: `it` is the rest, `path` the whole
text. -/
def driveWindows (path : List Char) (d : Char) (it : List Char) :
    Except PathSyntaxException Path :=
  match it with
  | [] => .ok { _absolute := true, _device := [d] }
  | c :: it =>
    if !isSlash c then .error ⟨path⟩
    else .ok (componentsWindows { _absolute := true, _device := [d] } it)

/-- `parseWindows` for a text that does not begin with two separators: a drive may follow. -/
def bareText (path : List Char) (absolute : Bool) (it : List Char) :
    Except PathSyntaxException Path :=
  match it with
  | d :: ':' :: it =>
    if absolute ∨ !isDriveLetter d then .error ⟨path⟩ else driveWindows path d it
  | it => .ok (componentsWindows { _absolute := absolute } it)

/-- `parseWindows` up to the end of its loop. -/
def textWindows (path : List Char) : Except PathSyntaxException Path :=
  let (absolute, it) : Bool × List Char :=
    match path with
    | c :: it => if isSlash c then (true, it) else (false, path)
    | [] => (false, path)
  if absolute ∧ it.head?.any isSlash then
    let it := it.tail
    .ok (componentsWindows { _absolute := true, _node := it.takeWhile (!isSlash ·) }
      (it.dropWhile (!isSlash ·)).tail)
  else bareText path absolute it

/-- The end of `parseWindows`: a name alone behind a node is a directory. -/
def endWindows (p : Path) : Path :=
  if p._node ≠ [] ∧ p._dirs = [] ∧ p._name ≠ [] then p.makeDirectory else p

/-- `parseWindows`. -/
def parseWindows (path : List Char) : Except PathSyntaxException Path :=
  (textWindows path).map endWindows

/-- `buildWindows`. -/
def buildWindows (p : Path) : List Char :=
  (if p._node ≠ [] then ['\\', '\\'] ++ p._node ++ ['\\']
    else if p._device ≠ [] then p._device ++ [':', '\\']
    else if p._absolute then ['\\'] else []) ++
    join '\\' p._dirs ++ p._name

/-! ### The beginning of a Unix path -/

/-- The text begins with a tilde that stands for the home directory. -/
def hasTilde : List Char → Bool
  | '~' :: it => it == [] || it.head? == some '/'
  | _ => false

theorem parseUnixAt_eq (cwd : Option Path) (s : List Char) :
    parseUnixAt cwd s =
      if s.head? = some '/' then some (componentsUnix { _absolute := true } s.tail)
      else if hasTilde s = true then
        cwd.map fun cwd => componentsUnix { _dirs := cwd._dirs, _absolute := true } s.tail
      else some (componentsUnix {} s) := by
  unfold parseUnixAt hasTilde
  split
  · simp
  · simp
  · rename_i hslash _
    cases s with
    | nil => simp
    | cons c s =>
        have hc : c ≠ '/' := fun h => hslash s (by rw [h])
        simp [hc]

/-! ### `pushDirectory` is a step of a normalising stack -/

/-- What a directory does to the list. -/
def kind (d : List Char) : Kind :=
  if d = [] ∨ d = ['.'] then .skip else if d = ['.', '.'] then .up else .name

@[simp] theorem kind_eq_up {d : List Char} : kind d = .up ↔ d = ['.', '.'] := by
  rw [kind]
  split
  · rename_i h
    rcases h with rfl | rfl <;> simp
  · split <;> simp_all

@[simp] theorem kind_eq_skip {d : List Char} : kind d = .skip ↔ d = [] ∨ d = ['.'] := by
  rw [kind]
  split
  · simp_all
  · split <;> simp_all

theorem kind_eq_name {d : List Char} :
    kind d = .name ↔ d ≠ [] ∧ d ≠ ['.'] ∧ d ≠ ['.', '.'] := by
  rw [kind]
  split
  · simp_all
    tauto
  · split <;> simp_all

theorem pushDirectory_eq (p : Path) (d : List Char) :
    p.pushDirectory d = { p with _dirs := push kind p._absolute p._dirs d } := by
  rw [pushDirectory, push]
  cases hd : kind d with
  | skip =>
      rw [kind_eq_skip] at hd
      rw [if_neg (by tauto)]
  | name =>
      rw [kind_eq_name] at hd
      rw [if_pos (by tauto), if_neg hd.2.2]
  | up =>
      rw [kind_eq_up] at hd
      have htop : (p._dirs ≠ [] ∧ p._dirs.getLast? ≠ some ['.', '.']) ↔
          ∃ e ∈ p._dirs.getLast?, kind e ≠ .up := by
        cases h : p._dirs.getLast? with
        | none => simp_all
        | some e => simp [List.ne_nil_of_mem (List.mem_of_getLast? h)]
      rw [if_pos (by simp [hd]), if_pos hd]
      by_cases h : ∃ e ∈ p._dirs.getLast?, kind e ≠ .up
      · simp only [if_pos h, if_pos (htop.mpr h)]
      · simp only [if_neg h, if_neg (mt htop.mp h)]
        obtain ⟨_, _, _, _, _, a⟩ := p
        cases a <;> rfl

theorem foldl_pushDirectory (p : Path) (ds : List (List Char)) :
    ds.foldl pushDirectory p = { p with _dirs := ds.foldl (push kind p._absolute) p._dirs } := by
  induction ds generalizing p with
  | nil => rfl
  | cons d ds ih => rw [List.foldl_cons, ih, pushDirectory_eq, List.foldl_cons]

/-! ### Paths stay below their root -/

/-- The directory list is normalised. -/
def WellFormed (p : Path) : Prop := Normal kind p._absolute p._dirs

theorem wellFormed_of_nil {a : Bool} : WellFormed { _absolute := a } := Normal.nil

theorem WellFormed.up_not_mem {p : Path} (h : p.WellFormed) (habs : p._absolute = true) :
    ['.', '.'] ∉ p._dirs := by
  intro hmem
  rw [WellFormed, habs] at h
  simpa [kind_eq_name] using h.names _ hmem

/-- Without steps up, a normalised directory list may be that of an absolute path. -/
theorem WellFormed.of_up_not_mem {p : Path} (h : p.WellFormed) (hno : ['.', '.'] ∉ p._dirs) :
    WellFormed { _dirs := p._dirs, _absolute := true } := by
  apply Normal.of_names
  intro d hd
  have hskip := Normal.not_skip h d hd
  rw [kind_eq_name]
  simp only [ne_eq, kind_eq_skip, not_or] at hskip
  refine ⟨hskip.1, hskip.2, ?_⟩
  rintro rfl
  exact hno hd

theorem WellFormed.pushDirectory {p : Path} (h : p.WellFormed) (d : List Char) :
    (p.pushDirectory d).WellFormed := by
  rw [pushDirectory_eq]
  exact Normal.push h d

theorem WellFormed.foldl_pushDirectory {p : Path} (h : p.WellFormed) (ds : List (List Char)) :
    (ds.foldl Path.pushDirectory p).WellFormed := by
  rw [Path.foldl_pushDirectory]
  exact Normal.foldl h ds

theorem WellFormed.popDirectory {p p' : Path} (h : p.WellFormed)
    (hp : p.popDirectory = some p') : p'.WellFormed := by
  rw [Path.popDirectory] at hp
  split at hp
  · obtain rfl := Option.some.inj hp
    exact Normal.dropLast h
  · cases hp

theorem WellFormed.makeDirectory {p : Path} (h : p.WellFormed) : p.makeDirectory.WellFormed :=
  h.pushDirectory p._name

theorem makeDirectory_absolute (p : Path) : p.makeDirectory._absolute = p._absolute := by
  rw [makeDirectory, pushDirectory_eq]

theorem WellFormed.makeFile {p : Path} (h : p.WellFormed) : p.makeFile.WellFormed := by
  rw [Path.makeFile]
  split
  · split
    · exact Normal.dropLast h
    · exact h
  · exact h

theorem WellFormed.makeAbsolute {p base : Path} (h : p.WellFormed) (hbase : base.WellFormed) :
    (p.makeAbsolute base).WellFormed := by
  rw [Path.makeAbsolute]
  split
  · have htmp := hbase.makeDirectory.foldl_pushDirectory p._dirs
    rw [WellFormed, Path.foldl_pushDirectory] at htmp
    rw [WellFormed, Path.foldl_pushDirectory]
    simpa [makeDirectory_absolute] using htmp
  · exact h

theorem WellFormed.makeParent {p : Path} (h : p.WellFormed) : p.makeParent.WellFormed := by
  rw [Path.makeParent]
  split
  · split
    · rename_i hlast
      split
      · rename_i hrel
        simp only [Bool.not_eq_eq_eq_not, Bool.not_true] at hrel
        simp only [List.getLast?_eq_none_iff] at hlast
        rw [WellFormed, hrel, hlast]
        exact Normal.append_up (by simp) (by simp)
      · exact h
    · rename_i d hlast
      split
      · rename_i hd
        have hmem : ['.', '.'] ∈ p._dirs := hd ▸ List.mem_of_getLast? hlast
        have hrel : p._absolute = false := by
          by_contra habs
          rw [Bool.not_eq_false] at habs
          exact h.up_not_mem habs hmem
        have hall : ∀ e ∈ p._dirs, kind e = .up := Normal.all_up h (by simp [hlast, hd])
        rw [WellFormed]
        simp only [hrel]
        exact Normal.append_up hall (by simp)
      · exact Normal.dropLast h
  · exact h

theorem WellFormed.resolve {p path : Path} (h : p.WellFormed) (hpath : path.WellFormed) :
    (p.resolve path).WellFormed := by
  rw [Path.resolve]
  split
  · exact hpath
  · exact h.foldl_pushDirectory path._dirs

/-- `append` keeps a path normalised exactly if the other path goes nowhere up, or if there is
nothing but steps up to append it to. -/
theorem append_wellFormed_iff {p path : Path} (h : p.WellFormed) (hpath : path.WellFormed) :
    (p.append path).WellFormed ↔ ['.', '.'] ∉ path._dirs ∨
      p._absolute = false ∧ ∀ d ∈ p.makeDirectory._dirs, d = ['.', '.'] := by
  have hdirs : Normal kind p._absolute p.makeDirectory._dirs := by
    simpa [WellFormed, makeDirectory_absolute] using h.makeDirectory
  have hiff := normal_append_iff hdirs hpath
  simp only [ne_eq, kind_eq_up] at hiff
  have hmem : (∀ e ∈ path._dirs, ¬e = ['.', '.']) ↔ ['.', '.'] ∉ path._dirs := by
    constructor
    · intro h hmem
      exact h _ hmem rfl
    · rintro h e he rfl
      exact h he
  rw [hmem] at hiff
  rw [← hiff, append, WellFormed]
  simp only [makeDirectory_absolute]

theorem WellFormed.directoryUnix {p : Path} (h : p.WellFormed) (name : List Char) :
    (directoryUnix p name).WellFormed := by
  rw [Path.directoryUnix]
  split
  · rename_i hnil
    split
    · rw [WellFormed]
      simp only [hnil]
      exact Normal.nil
    · exact h.pushDirectory name
  · exact h.pushDirectory name

theorem WellFormed.foldl_directoryUnix {p : Path} (h : p.WellFormed) (ds : List (List Char)) :
    (ds.foldl Path.directoryUnix p).WellFormed := by
  induction ds generalizing p with
  | nil => exact h
  | cons d ds ih => exact ih (h.directoryUnix d)

theorem componentsUnix_eq (p : Path) (it : List Char) :
    componentsUnix p it = { (split (· == '/') it).1.foldl directoryUnix p with
      _name := (split (· == '/') it).2 } := by
  rw [componentsUnix, scan_nil]

theorem WellFormed.componentsUnix {p : Path} (h : p.WellFormed) (it : List Char) :
    (componentsUnix p it).WellFormed := by
  rw [Path.componentsUnix_eq]
  exact h.foldl_directoryUnix _

/-! ### The directories of a Unix text -/

theorem directoryUnix_of_nil {p : Path} {d : List Char} (h : p._dirs = [])
    (hd : d.getLast? = some ':') :
    directoryUnix p d = { p with _absolute := true, _device := d.dropLast } := by
  have hne : d ≠ [] := by
    rintro rfl
    cases hd
  rw [directoryUnix, if_pos h, if_pos ⟨hne, hd⟩]

theorem directoryUnix_eq_push {p : Path} {d : List Char}
    (h : p._dirs = [] → d.getLast? ≠ some ':') : directoryUnix p d = p.pushDirectory d := by
  rw [directoryUnix]
  split
  · rename_i hnil
    rw [if_neg fun hd => h hnil hd.2]
  · rfl

theorem directoryUnix_cases (p : Path) (d : List Char) :
    (p._dirs = [] ∧ d.getLast? = some ':' ∧
      directoryUnix p d = { p with _absolute := true, _device := d.dropLast }) ∨
    ((p._dirs = [] → d.getLast? ≠ some ':') ∧
      directoryUnix p d = { p with _dirs := push kind p._absolute p._dirs d }) := by
  by_cases h : p._dirs = [] ∧ d.getLast? = some ':'
  · exact Or.inl ⟨h.1, h.2, directoryUnix_of_nil h.1 h.2⟩
  · have h' : p._dirs = [] → d.getLast? ≠ some ':' := fun hnil hd => h ⟨hnil, hd⟩
    exact Or.inr ⟨h', by rw [directoryUnix_eq_push h', pushDirectory_eq]⟩

theorem directoryUnix_absolute {p : Path} (h : p._absolute = true) (d : List Char) :
    (directoryUnix p d)._absolute = true := by
  rcases directoryUnix_cases p d with ⟨-, -, heq⟩ | ⟨-, heq⟩
  · rw [heq]
  · rw [heq]
    exact h

theorem componentsUnix_absolute {p : Path} (h : p._absolute = true) (it : List Char) :
    (componentsUnix p it)._absolute = true := by
  rw [componentsUnix_eq]
  generalize (split (· == '/') it).1 = ds
  induction ds generalizing p with
  | nil => exact h
  | cons d ds ih => exact ih (directoryUnix_absolute h d)

/-- No directory is a device: where nothing is left of what stands before it, it has no colon at
its end. -/
def NoDevice (ds : List (List Char)) : Prop :=
  ∀ pre d post, ds = pre ++ d :: post → d.getLast? = some ':' → ¬Cancels kind false pre

theorem noDevice_concat {ds : List (List Char)} {d : List Char} :
    NoDevice (ds ++ [d]) ↔ NoDevice ds ∧ (d.getLast? = some ':' → ¬Cancels kind false ds) := by
  constructor
  · intro h
    refine ⟨?_, h ds d [] rfl⟩
    rintro pre e post rfl he
    exact h pre e (post ++ [d]) (by simp) he
  · rintro ⟨h, hd⟩ pre e post heq he
    rcases List.eq_nil_or_concat post with rfl | ⟨post, f, rfl⟩
    · obtain ⟨rfl, h1⟩ := List.append_inj' heq rfl
      obtain rfl : d = e := by simpa using h1
      exact hd he
    · have heq' : ds ++ [d] = (pre ++ e :: post) ++ [f] := by simpa using heq
      exact h pre e post (List.append_inj' heq' rfl).1 he

theorem foldl_directoryUnix_relative {ds : List (List Char)} (h : NoDevice ds) :
    ds.foldl directoryUnix {} = { _dirs := ds.foldl (push kind false) [] } := by
  induction ds using List.reverseRecOn with
  | nil => rfl
  | append_singleton ds d ih =>
      obtain ⟨hds, hd⟩ := noDevice_concat.mp h
      have hcolon : ds.foldl (push kind false) [] = [] → d.getLast? ≠ some ':' :=
        fun hnil hcolon => hd hcolon (foldl_eq_nil.mp hnil)
      rw [List.foldl_append, List.foldl_append, ih hds, List.foldl_cons, List.foldl_nil,
        directoryUnix_eq_push hcolon, pushDirectory_eq]
      rfl

theorem foldl_directoryUnix_device {ds : List (List Char)} (h : ¬NoDevice ds) :
    (ds.foldl directoryUnix {})._absolute = true := by
  induction ds using List.reverseRecOn with
  | nil =>
      exfalso
      apply h
      rintro pre d post heq
      simp at heq
  | append_singleton ds d ih =>
      rw [List.foldl_append, List.foldl_cons, List.foldl_nil]
      by_cases hds : NoDevice ds
      · have hd : d.getLast? = some ':' ∧ Cancels kind false ds := by
          by_contra hd
          exact h (noDevice_concat.mpr ⟨hds, fun h1 h2 => hd ⟨h1, h2⟩⟩)
        rw [foldl_directoryUnix_relative hds, directoryUnix_of_nil (foldl_eq_nil.mpr hd.2) hd.1]
      · exact directoryUnix_absolute (ih hds) d

theorem up_mem_directoryUnix {p : Path} {d : List Char} (h : ['.', '.'] ∈ p._dirs) :
    ['.', '.'] ∈ (directoryUnix p d)._dirs := by
  have happend : ['.', '.'] ∈ p._dirs ++ [d] := List.mem_append_left _ h
  rcases directoryUnix_cases p d with ⟨hnil, -, -⟩ | ⟨-, heq⟩
  · simp [hnil] at h
  · rw [heq]
    change _ ∈ push kind p._absolute p._dirs d
    rw [push]
    split
    · exact h
    · exact happend
    · split
      · rename_i htop
        obtain ⟨e, he, hne⟩ := htop
        obtain ⟨init, hinit⟩ := List.getLast?_eq_some_iff.mp he
        rw [hinit, List.mem_append, List.mem_singleton] at h
        rw [hinit, List.dropLast_concat]
        rcases h with h | rfl
        · exact h
        · simp at hne
      · split
        · exact h
        · exact happend

theorem up_mem_foldl {p : Path} (h : ['.', '.'] ∈ p._dirs) (ds : List (List Char)) :
    ['.', '.'] ∈ (ds.foldl directoryUnix p)._dirs := by
  induction ds generalizing p with
  | nil => exact h
  | cons d ds ih => exact ih (up_mem_directoryUnix h)

/-- A step up is left of a text: it stands where nothing is left of what comes before it, in a
relative path. -/
def StepsUp (s : List Char) : Prop :=
  s.head? ≠ some '/' ∧ hasTilde s = false ∧
    ∃ pre post, (split (· == '/') s).1 = pre ++ ['.', '.'] :: post ∧ NoDevice pre ∧
      Cancels kind false pre

theorem up_mem_foldl_iff {ds : List (List Char)} :
    ['.', '.'] ∈ (ds.foldl directoryUnix {})._dirs ↔
      ∃ pre post, ds = pre ++ ['.', '.'] :: post ∧ NoDevice pre ∧ Cancels kind false pre := by
  constructor
  · intro h
    induction ds using List.reverseRecOn with
    | nil => simp at h
    | append_singleton ds d ih =>
        by_cases hds : ['.', '.'] ∈ (ds.foldl directoryUnix {})._dirs
        · obtain ⟨pre, post, rfl, hpre⟩ := ih hds
          exact ⟨pre, post ++ [d], by simp, hpre⟩
        · -- the last directory is the step up, and there was nothing to take away
          rw [List.foldl_append, List.foldl_cons, List.foldl_nil] at h
          have hwf : WellFormed (ds.foldl directoryUnix {}) := wellFormed_of_nil.foldl_directoryUnix ds
          rcases directoryUnix_cases (ds.foldl directoryUnix {}) d with ⟨-, -, heq⟩ | ⟨-, heq⟩
          · rw [heq] at h
            exact absurd h hds
          · rw [heq] at h
            obtain rfl : ['.', '.'] = d := (mem_push h).resolve_left hds
            obtain ⟨hnil, hrel⟩ := push_up_mem hwf hds (by simp) h
            have hno : NoDevice ds := by
              by_contra hdev
              rw [foldl_directoryUnix_device hdev] at hrel
              cases hrel
            rw [foldl_directoryUnix_relative hno] at hnil
            exact ⟨ds, [], rfl, hno, foldl_eq_nil.mp hnil⟩
  · rintro ⟨pre, post, rfl, hno, hpre⟩
    rw [List.foldl_append, foldl_directoryUnix_relative hno, foldl_eq_nil.mpr hpre, List.foldl_cons]
    apply up_mem_foldl
    decide

theorem parseUnixAt_none_wellFormed {s : List Char} {p : Path} (h : parseUnixAt none s = some p) :
    p.WellFormed := by
  rw [parseUnixAt_eq] at h
  split at h
  · obtain rfl := Option.some.inj h
    exact wellFormed_of_nil.componentsUnix _
  · split at h
    · cases h
    · obtain rfl := Option.some.inj h
      exact wellFormed_of_nil.componentsUnix _

theorem up_mem_parseUnixAt_none {s : List Char} {p : Path} (h : parseUnixAt none s = some p) :
    ['.', '.'] ∈ p._dirs ↔ StepsUp s := by
  rw [parseUnixAt_eq] at h
  split at h
  · rename_i hslash
    obtain rfl := Option.some.inj h
    have hno := (wellFormed_of_nil.componentsUnix s.tail).up_not_mem (componentsUnix_absolute rfl _)
    simp [StepsUp, hslash, hno]
  · split at h
    · cases h
    · rename_i hslash htilde
      obtain rfl := Option.some.inj h
      rw [componentsUnix_eq]
      rw [Bool.not_eq_true] at htilde
      simp only [up_mem_foldl_iff, StepsUp, ne_eq, hslash, not_false_eq_true, htilde, true_and]

/-! ### Runs of operations -/

/-- The operations of a run on a path. -/
inductive Op
  | pushDirectory (dir : List Char)
  | popDirectory
  | append (path : Path)
  | resolve (path : Path)
  | makeAbsolute (base : Path)
  | makeParent
  | makeDirectory
  | makeFile

/-- The paths an operation takes. -/
def Op.args : Op → List Path
  | .append path => [path]
  | .resolve path => [path]
  | .makeAbsolute base => [base]
  | _ => []

/-- What an operation does to a path. -/
def Op.apply (p : Path) : Op → Option Path
  | .pushDirectory dir => some (p.pushDirectory dir)
  | .popDirectory => p.popDirectory
  | .append path => some (p.append path)
  | .resolve path => some (p.resolve path)
  | .makeAbsolute base => some (p.makeAbsolute base)
  | .makeParent => some p.makeParent
  | .makeDirectory => some p.makeDirectory
  | .makeFile => some p.makeFile

/-- The paths that are reached from parsed texts that meet `P`, by operations that meet `Q` in the
state before them, on paths reached in the same way. -/
inductive Reachable (home : List Char) (P : List Char → Prop) (Q : Path → Op → Prop) : Path → Prop
  | parse {s : List Char} {p : Path} : P s → parseUnix home s = some p → Reachable home P Q p
  | step {p p' : Path} (op : Op) : Reachable home P Q p → (∀ q ∈ op.args, Reachable home P Q q) →
      Q p op → op.apply p = some p' → Reachable home P Q p'

/-- A path that stays below its root: an absolute one has no steps up, a relative one has them in
front only, and no entry is empty or the directory itself. -/
def Confined (p : Path) : Prop :=
  (p._absolute = true → ['.', '.'] ∉ p._dirs) ∧
    (p._absolute = false →
      ∃ k rest, p._dirs = List.replicate k ['.', '.'] ++ rest ∧ ['.', '.'] ∉ rest) ∧
    ∀ d ∈ p._dirs, d ≠ [] ∧ d ≠ ['.']

theorem WellFormed.confined {p : Path} (h : p.WellFormed) : p.Confined := by
  refine ⟨?_, ?_, ?_⟩
  · exact h.up_not_mem
  · rintro -
    obtain ⟨us, ns, heq, hus, hns, -⟩ := h
    refine ⟨us.length, ns, ?_, ?_⟩
    · have hrep : us = List.replicate us.length ['.', '.'] := by
        rw [List.eq_replicate_iff]
        exact ⟨rfl, fun u hu => kind_eq_up.mp (hus u hu)⟩
      rw [heq, ← hrep]
    · intro hmem
      simpa [kind_eq_name] using hns _ hmem
  · intro d hd
    have := Normal.not_skip h d hd
    simpa using this

/-- A text with a tilde takes no steps up from the home directory. -/
def HomeConfined (home s : List Char) : Prop := hasTilde s = true → ¬StepsUp home

/-- A path is appended only if it has no steps up, or to a relative path that has no names. -/
def AppendConfined (p : Path) : Op → Prop
  | .append path => ['.', '.'] ∉ path._dirs ∨
      p._absolute = false ∧ ∀ d ∈ p.makeDirectory._dirs, d = ['.', '.']
  | _ => True

theorem parseUnix_wellFormed {home s : List Char} {p : Path} (hhome : HomeConfined home s)
    (h : parseUnix home s = some p) : p.WellFormed := by
  rw [parseUnix, parseUnixAt_eq] at h
  split at h
  · obtain rfl := Option.some.inj h
    exact wellFormed_of_nil.componentsUnix _
  · split at h
    · rename_i htilde
      obtain ⟨cwd, hcwd, rfl⟩ := Option.map_eq_some_iff.mp h
      have hno := mt (up_mem_parseUnixAt_none hcwd).mp (hhome htilde)
      exact ((parseUnixAt_none_wellFormed hcwd).of_up_not_mem hno).componentsUnix _
    · obtain rfl := Option.some.inj h
      exact wellFormed_of_nil.componentsUnix _

theorem Op.apply_wellFormed {p p' : Path} {op : Op} (h : p.WellFormed)
    (hargs : ∀ q ∈ op.args, q.WellFormed) (hop : AppendConfined p op)
    (hp : op.apply p = some p') : p'.WellFormed := by
  cases op with
  | popDirectory => exact h.popDirectory hp
  | append path =>
      obtain rfl := Option.some.inj hp
      exact (append_wellFormed_iff h (hargs path (by simp [args]))).mpr hop
  | resolve path =>
      obtain rfl := Option.some.inj hp
      exact h.resolve (hargs path (by simp [args]))
  | makeAbsolute base =>
      obtain rfl := Option.some.inj hp
      exact h.makeAbsolute (hargs base (by simp [args]))
  | pushDirectory dir =>
      obtain rfl := Option.some.inj hp
      exact h.pushDirectory dir
  | makeParent =>
      obtain rfl := Option.some.inj hp
      exact h.makeParent
  | makeDirectory =>
      obtain rfl := Option.some.inj hp
      exact h.makeDirectory
  | makeFile =>
      obtain rfl := Option.some.inj hp
      exact h.makeFile

/-- **Main result.**  Every path that is reached from parsed Unix paths stays below its root, as
long as no path with steps up is appended to a path with names. -/
theorem reachable_confined {home : List Char} {p : Path}
    (h : Reachable home (HomeConfined home) AppendConfined p) : p.Confined := by
  suffices hwf : p.WellFormed from hwf.confined
  induction h with
  | parse hhome hp => exact parseUnix_wellFormed hhome hp
  | step op _ _ hop hp ih ihargs => exact Op.apply_wellFormed ih ihargs hop hp

/-- A relative path is resolved against an absolute one, beyond the root, and a directory is
appended. -/
theorem reachable_confined_resolve :
    ∃ p, Reachable "/home/u/".toList (HomeConfined "/home/u/".toList) AppendConfined p ∧
      p.buildUnix = "/b/c/d".toList ∧ p.Confined := by
  have hparse (s : List Char) (p : Path) (hs : hasTilde s = false)
      (hp : parseUnix "/home/u/".toList s = some p) :
      Reachable "/home/u/".toList (HomeConfined "/home/u/".toList) AppendConfined p :=
    Reachable.parse (by simp [HomeConfined, hs]) hp
  have ha := hparse "/a/".toList ⟨[], [], [], [], ["a".toList], true⟩ (by decide) (by decide)
  have hb := hparse "../../b".toList ⟨[], [], "b".toList, [], ["..".toList, "..".toList], false⟩
    (by decide) (by decide)
  have hc := hparse "c/d".toList ⟨[], [], "d".toList, [], ["c".toList], false⟩ (by decide) (by decide)
  have hab := Reachable.step (.resolve _) ha (by simpa [Op.args] using hb) trivial rfl
  have habc := Reachable.step (.append _) hab (by simpa [Op.args] using hc) (Or.inl (by decide)) rfl
  exact ⟨_, habc, by decide, reachable_confined habc⟩

/-- Appending `../../b` to `/a/` leaves two steps up in an absolute path. -/
theorem append_escapes_root :
    ∃ p, Reachable "/home/u/".toList (fun _ => True) (fun _ _ => True) p ∧
      p.buildUnix = "/a/../../b".toList ∧ p._absolute = true ∧ ['.', '.'] ∈ p._dirs ∧
      ¬p.Confined := by
  have hparse (s : List Char) (p : Path) (hp : parseUnix "/home/u/".toList s = some p) :
      Reachable "/home/u/".toList (fun _ => True) (fun _ _ => True) p :=
    Reachable.parse trivial hp
  have ha := hparse "/a/".toList ⟨[], [], [], [], ["a".toList], true⟩ (by decide)
  have hb := hparse "../../b".toList ⟨[], [], "b".toList, [], ["..".toList, "..".toList], false⟩
    (by decide)
  have hab := Reachable.step (.append _) ha (by simpa [Op.args] using hb) trivial rfl
  refine ⟨_, hab, by decide, rfl, by decide, ?_⟩
  intro h
  exact h.1 rfl (by decide)

end Path

end Poco.Foundation
