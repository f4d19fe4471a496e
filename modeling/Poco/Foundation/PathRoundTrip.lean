import Poco.Foundation.Path
import Mathlib.Data.List.TakeWhile

/-! # Printing and parsing a path

A printed path is parsed back as it was, unless the first component that is printed has a meaning
of its own at the beginning of a text: a tilde in a relative Unix path, a drive in a Windows path
without node and device.  Such a component is read as a plain one behind dot segments that
normalisation removes (`./~/x`, `a\..\c:\x`).  Whether this happens is told from the text alone, by
counting names and steps up (`Bottom`, `Cancels`). -/

namespace Poco.Foundation

open Poco.Lib

namespace Path

/-! ### Unix -/

/-- The members that `parseUnix` sets can be told apart in the text that is printed. -/
structure PrintableUnix (p : Path) : Prop where
  wellFormed : p.WellFormed
  node : p._node = []
  version : p._version = []
  /-- A component with a colon behind it would be a device. -/
  head : ∀ d ∈ p._dirs.head?, d.getLast? ≠ some ':'
  dirs : ∀ d ∈ p._dirs, ∀ c ∈ d, (c == '/') = false
  name : ∀ c ∈ p._name, (c == '/') = false
  device : ∀ c ∈ p._device, (c == '/') = false
  absolute : p._device ≠ [] → p._absolute = true

theorem PrintableUnix.directoryUnix {p : Path} (h : PrintableUnix p) {d : List Char}
    (hd : ∀ c ∈ d, (c == '/') = false) : PrintableUnix (directoryUnix p d) := by
  have hwf := h.wellFormed.directoryUnix d
  rcases directoryUnix_cases p d with ⟨hnil, hcolon, heq⟩ | ⟨hcolon, heq⟩
  · rw [heq] at hwf ⊢
    refine { h with wellFormed := hwf, device := ?_, absolute := fun _ => rfl }
    intro c hc
    exact hd c (List.mem_of_mem_dropLast hc)
  · rw [heq] at hwf ⊢
    refine { h with wellFormed := hwf, head := ?_, dirs := ?_ }
    · intro e he
      rcases mem_head?_push he with he | ⟨hnil, rfl⟩
      · exact h.head e he
      · exact hcolon hnil
    · intro e he
      rcases mem_push he with he | rfl
      · exact h.dirs e he
      · exact hd

theorem PrintableUnix.componentsUnix {p : Path} (h : PrintableUnix p) (it : List Char) :
    PrintableUnix (componentsUnix p it) := by
  obtain ⟨hds, hn⟩ := split_no_sep (· == '/') it
  rw [Path.componentsUnix_eq]
  generalize (split (· == '/') it).1 = ds at *
  generalize (split (· == '/') it).2 = n at *
  suffices hp : PrintableUnix (ds.foldl Path.directoryUnix p) from { hp with name := hn }
  induction ds generalizing p with
  | nil => exact h
  | cons d ds ih =>
      have hd := hds d List.mem_cons_self
      exact ih (h.directoryUnix hd) fun e he => hds e (List.mem_cons_of_mem _ he)

/-- The directories of a printed path are taken as they are. -/
theorem foldl_directoryUnix {p : Path} {ds : List (List Char)} (hp : p._dirs = [])
    (h : Normal kind p._absolute ds) (hhead : ∀ d ∈ ds.head?, d.getLast? ≠ some ':') :
    ds.foldl directoryUnix p = { p with _dirs := ds } := by
  induction ds using List.reverseRecOn with
  | nil => rw [List.foldl_nil, ← hp]
  | append_singleton ds d ih =>
      have hinit : Normal kind p._absolute ds := by simpa using h.dropLast
      have hhead' : ∀ d ∈ ds.head?, d.getLast? ≠ some ':' := by
        intro e he
        apply hhead
        rw [Option.mem_def] at he
        simp [List.head?_append, he]
      have hd : ds = [] → d.getLast? ≠ some ':' := by
        rintro rfl
        exact hhead d rfl
      rw [List.foldl_append, ih hinit hhead', List.foldl_cons, List.foldl_nil,
        directoryUnix_eq_push hd, pushDirectory_eq, h.push_top]

theorem componentsUnix_join {p : Path} {ds : List (List Char)} {n : List Char} (hp : p._dirs = [])
    (h : Normal kind p._absolute ds) (hhead : ∀ d ∈ ds.head?, d.getLast? ≠ some ':')
    (hds : ∀ d ∈ ds, ∀ c ∈ d, (c == '/') = false) (hn : ∀ c ∈ n, (c == '/') = false) :
    componentsUnix p (join '/' ds ++ n) = { p with _dirs := ds, _name := n } := by
  rw [componentsUnix_eq, split_join (by rfl) hds hn]
  simp only [foldl_directoryUnix hp h hhead]

theorem hasTilde_iff (s : List Char) : hasTilde s = true ↔ s.takeWhile (!· == '/') = ['~'] := by
  unfold hasTilde
  split
  · rename_i it
    cases it with
    | nil => simp
    | cons c it => by_cases hc : c = '/' <;> simp [hc]
  · rename_i htilde
    cases s with
    | nil => simp
    | cons c s =>
        have hc : c ≠ '~' := fun h => htilde s (by rw [h])
        by_cases hslash : c = '/' <;> simp [hslash, hc]

/-- The text of a relative path begins with a tilde only if its first component is one. -/
theorem hasTilde_join {ds : List (List Char)} {n : List Char}
    (hds : ∀ d ∈ ds, ∀ c ∈ d, (c == '/') = false) (hn : ∀ c ∈ n, (c == '/') = false) :
    hasTilde (join '/' ds ++ n) = true ↔ ds.head? = some ['~'] ∨ ds = [] ∧ n = ['~'] := by
  rw [hasTilde_iff]
  cases ds with
  | nil =>
      have htake : n.takeWhile (!· == '/') = n := by
        rw [List.takeWhile_eq_self_iff]
        intro c hc
        simp [hn c hc]
      simp [join, htake]
  | cons d ds =>
      have htake : (d ++ '/' :: (join '/' ds ++ n)).takeWhile (!· == '/') = d := by
        rw [List.takeWhile_append_of_pos]
        · simp
        · intro c hc
          simp [hds d List.mem_cons_self c hc]
      have hjoin : join '/' (d :: ds) ++ n = d ++ '/' :: (join '/' ds ++ n) := by simp [join]
      rw [hjoin, htake]
      simp

/-- The text of a relative path does not begin with a slash. -/
theorem head?_join {sep : Char → Bool} {c : Char} {ds : List (List Char)} {n : List Char}
    (hne : ∀ d ∈ ds, d ≠ []) (hds : ∀ d ∈ ds, ∀ a ∈ d, sep a = false) (hn : ∀ a ∈ n, sep a = false) :
    ∀ a ∈ (join c ds ++ n).head?, sep a = false := by
  cases ds with
  | nil =>
      intro a ha
      exact hn a (List.mem_of_mem_head? (by simpa [join] using ha))
  | cons d ds =>
      intro a ha
      obtain ⟨b, d, rfl⟩ := List.exists_cons_of_ne_nil (hne d List.mem_cons_self)
      obtain rfl : b = a := by simpa [join] using ha
      exact hds _ List.mem_cons_self b List.mem_cons_self

theorem WellFormed.ne_nil {p : Path} (h : p.WellFormed) : ∀ d ∈ p._dirs, d ≠ [] := by
  intro d hd hnil
  exact Normal.not_skip h d hd (by simp [hnil])

/-- A printed path is parsed back, if its text does not begin with a tilde. -/
theorem parseUnix_buildUnix (home : List Char) {p : Path} (h : PrintableUnix p)
    (ht : p._absolute = false → hasTilde (join '/' p._dirs ++ p._name) = false) :
    parseUnix home p.buildUnix = some p := by
  have hne := h.wellFormed.ne_nil
  obtain ⟨node, device, name, version, dirs, absolute⟩ := p
  obtain rfl : node = [] := h.node
  obtain rfl : version = [] := h.version
  have hwf : Normal kind absolute dirs := h.wellFormed
  have hhead : ∀ d ∈ dirs.head?, d.getLast? ≠ some ':' := h.head
  by_cases hdev : device = []
  · subst hdev
    cases absolute with
    | true =>
        change some (componentsUnix { _absolute := true } (join '/' dirs ++ name)) = _
        rw [componentsUnix_join rfl hwf hhead h.dirs h.name]
    | false =>
        have hslash : (join '/' dirs ++ name).head? ≠ some '/' := by
          intro hslash
          have := head?_join hne h.dirs h.name '/' hslash
          simp at this
        change parseUnixAt _ (join '/' dirs ++ name) = _
        rw [parseUnixAt_eq, if_neg hslash, ht rfl, if_neg Bool.false_ne_true,
          componentsUnix_join rfl hwf hhead h.dirs h.name]
  · obtain rfl : absolute = true := h.absolute hdev
    have hcomp : ∀ c ∈ device ++ [':'], (c == '/') = false := by
      intro c hc
      rcases List.mem_append.mp hc with hc | hc
      · exact h.device c hc
      · rw [List.mem_singleton.mp hc]
        rfl
    have hbuild : buildUnix ⟨[], device, name, [], dirs, true⟩ =
        '/' :: ((device ++ [':']) ++ '/' :: (join '/' dirs ++ name)) := by
      simp [buildUnix, hdev]
    rw [hbuild]
    change some (componentsUnix { _absolute := true } _) = _
    rw [componentsUnix_eq, split_append_sep hcomp (by rfl), split_join (by rfl) h.dirs h.name,
      List.foldl_cons, directoryUnix_of_nil rfl (by simp), foldl_directoryUnix rfl hwf hhead,
      List.dropLast_concat]

/-- The first component that is left of the text is a tilde, though the text does not begin with
one. -/
def TildeExposed (s : List Char) : Prop :=
  s.head? ≠ some '/' ∧ hasTilde s = false ∧ NoDevice (split (· == '/') s).1 ∧
    (Bottom kind false (split (· == '/') s).1 ['~'] ∨
      Cancels kind false (split (· == '/') s).1 ∧ (split (· == '/') s).2 = ['~'])

/-- The text is parsed, and what is printed is parsed as the same path. -/
def RoundTripsUnix (home s : List Char) : Prop :=
  ∃ p, parseUnix home s = some p ∧ parseUnix home p.buildUnix = some p

theorem printableUnix_of_nil {a : Bool} : PrintableUnix { _absolute := a } where
  wellFormed := wellFormed_of_nil
  node := rfl
  version := rfl
  head := by simp
  dirs := by simp
  name := by simp
  device := by simp
  absolute := by simp

theorem head?_of_hasTilde {s : List Char} (h : hasTilde s = true) : s.head? ≠ some '/' := by
  rw [hasTilde_iff] at h
  cases s with
  | nil => simp
  | cons c s =>
      rintro hc
      obtain rfl : c = '/' := by simpa using hc
      simp at h

/-- A relative path whose text begins with a tilde is not parsed back. -/
theorem parseUnix_buildUnix_ne {home : List Char} {p : Path} (hrel : p._absolute = false)
    (hdev : p._device = []) (ht : hasTilde (join '/' p._dirs ++ p._name) = true) :
    parseUnix home p.buildUnix ≠ some p := by
  intro hbuild
  have htext : p.buildUnix = join '/' p._dirs ++ p._name := by simp [buildUnix, hdev, hrel]
  rw [htext, parseUnix, parseUnixAt_eq, if_neg (head?_of_hasTilde ht), if_pos ht] at hbuild
  obtain ⟨cwd, -, heq⟩ := Option.map_eq_some_iff.mp hbuild
  rw [← heq, componentsUnix_absolute rfl] at hrel
  cases hrel

/-- An absolute path with a step up is not parsed back. -/
theorem parseUnix_buildUnix_ne_of_up {home : List Char} {p : Path} (habs : p._absolute = true)
    (hup : ['.', '.'] ∈ p._dirs) : parseUnix home p.buildUnix ≠ some p := by
  intro hbuild
  have hslash : p.buildUnix.head? = some '/' := by
    rw [buildUnix, habs]
    split <;> rfl
  rw [parseUnix, parseUnixAt_eq, if_pos hslash] at hbuild
  have hwf : p.WellFormed := Option.some.inj hbuild ▸ wellFormed_of_nil.componentsUnix _
  exact hwf.up_not_mem habs hup

theorem printableUnix_home {home : List Char} {cwd : Path} (h : parseUnixAt none home = some cwd)
    (hno : ¬StepsUp home) : PrintableUnix { _dirs := cwd._dirs, _absolute := true } := by
  have hcwd : PrintableUnix cwd := by
    rw [parseUnixAt_eq] at h
    split at h
    · obtain rfl := Option.some.inj h
      exact printableUnix_of_nil.componentsUnix _
    · split at h
      · cases h
      · obtain rfl := Option.some.inj h
        exact printableUnix_of_nil.componentsUnix _
  refine { printableUnix_of_nil (a := true) with wellFormed := ?_, head := hcwd.head, dirs := hcwd.dirs }
  exact hcwd.wellFormed.of_up_not_mem (mt (up_mem_parseUnixAt_none h).mp hno)

theorem roundTripsUnix_of_slash (home : List Char) {s : List Char} (hslash : s.head? = some '/') :
    RoundTripsUnix home s := by
  refine ⟨componentsUnix { _absolute := true } s.tail, ?_, ?_⟩
  · rw [parseUnix, parseUnixAt_eq, if_pos hslash]
  · apply parseUnix_buildUnix home (printableUnix_of_nil.componentsUnix _)
    intro hrel
    rw [componentsUnix_absolute rfl] at hrel
    cases hrel

theorem roundTripsUnix_iff_of_tilde (home : List Char) {s : List Char} (htilde : hasTilde s = true) :
    RoundTripsUnix home s ↔ hasTilde home = false ∧ ¬StepsUp home := by
  have hparse : parseUnix home s = (parseUnixAt none home).map fun cwd =>
      componentsUnix { _dirs := cwd._dirs, _absolute := true } s.tail := by
    rw [parseUnix, parseUnixAt_eq, if_neg (head?_of_hasTilde htilde), if_pos htilde]
  by_cases hhome : hasTilde home = true
  · have hnone : parseUnixAt none home = none := by
      rw [parseUnixAt_eq, if_neg (head?_of_hasTilde hhome), if_pos hhome]
      rfl
    simp [RoundTripsUnix, hparse, hnone, hhome]
  · rw [Bool.not_eq_true] at hhome
    obtain ⟨cwd, hcwd⟩ : ∃ cwd, parseUnixAt none home = some cwd := by
      rw [parseUnixAt_eq, hhome]
      split
      · exact ⟨_, rfl⟩
      · exact ⟨_, rfl⟩
    rw [hcwd] at hparse
    have habs : (componentsUnix { _dirs := cwd._dirs, _absolute := true } s.tail)._absolute = true :=
      componentsUnix_absolute rfl _
    constructor
    · rintro ⟨p, hp, hbuild⟩
      obtain rfl := Option.some.inj (hparse.symm.trans hp)
      refine ⟨hhome, fun hup => ?_⟩
      rw [← up_mem_parseUnixAt_none hcwd] at hup
      apply parseUnix_buildUnix_ne_of_up habs _ hbuild
      rw [componentsUnix_eq]
      exact up_mem_foldl (p := { _dirs := cwd._dirs, _absolute := true }) hup _
    · rintro ⟨-, hno⟩
      refine ⟨_, hparse, ?_⟩
      apply parseUnix_buildUnix home ((printableUnix_home hcwd hno).componentsUnix _)
      rw [habs]
      simp

theorem roundTripsUnix_iff_of_plain (home : List Char) {s : List Char} (hslash : s.head? ≠ some '/')
    (htilde : hasTilde s = false) : RoundTripsUnix home s ↔ ¬TildeExposed s := by
  have hparse : parseUnix home s = some (componentsUnix {} s) := by
    rw [parseUnix, parseUnixAt_eq, if_neg hslash, htilde, if_neg Bool.false_ne_true]
  have hprint : PrintableUnix (componentsUnix {} s) := printableUnix_of_nil.componentsUnix s
  have hiff : RoundTripsUnix home s ↔
      parseUnix home (componentsUnix {} s).buildUnix = some (componentsUnix {} s) := by
    simp [RoundTripsUnix, hparse]
  have htext := hasTilde_join hprint.dirs hprint.name
  rw [hiff]
  by_cases hno : NoDevice (split (· == '/') s).1
  · have heq : componentsUnix {} s =
        { _dirs := (split (· == '/') s).1.foldl (push kind false) [],
          _name := (split (· == '/') s).2 } := by
      rw [componentsUnix_eq, foldl_directoryUnix_relative hno]
    have hrel : (componentsUnix {} s)._absolute = false := by rw [heq]
    have hdev : (componentsUnix {} s)._device = [] := by rw [heq]
    have hexposed : TildeExposed s ↔
        hasTilde (join '/' (componentsUnix {} s)._dirs ++ (componentsUnix {} s)._name) = true := by
      have htildeKind : kind ['~'] = .name := by decide
      rw [htext, List.head?_eq_some_iff]
      simp only [heq, foldl_eq_nil, foldl_eq_cons htildeKind]
      simp only [TildeExposed, ne_eq, hslash, not_false_eq_true, htilde, hno, true_and]
    rw [hexposed]
    constructor
    · intro hbuild ht
      exact parseUnix_buildUnix_ne hrel hdev ht hbuild
    · intro ht
      exact parseUnix_buildUnix home hprint fun _ => by simpa using ht
  · have habs : (componentsUnix {} s)._absolute = true := by
      rw [componentsUnix_eq]
      exact foldl_directoryUnix_device hno
    have hbuild := parseUnix_buildUnix home hprint (by simp [habs])
    simp [TildeExposed, hno, hbuild]

/-- **Main result.**  A Unix path that is parsed, printed and parsed again is the same path exactly
if its text does not begin with a tilde for a home directory that has one itself or steps up, and
if no tilde gets to the front when the path is normalised. -/
theorem roundTripsUnix_iff (home s : List Char) :
    RoundTripsUnix home s ↔
      (hasTilde s = true → hasTilde home = false ∧ ¬StepsUp home) ∧ ¬TildeExposed s := by
  by_cases htilde : hasTilde s = true
  · rw [roundTripsUnix_iff_of_tilde home htilde]
    simp [TildeExposed, htilde]
  · by_cases hslash : s.head? = some '/'
    · have hround := roundTripsUnix_of_slash home hslash
      simp [hround, htilde, TildeExposed, hslash]
    · rw [roundTripsUnix_iff_of_plain home hslash (by simpa using htilde)]
      simp [htilde]

/-- `./~/x` is printed as `~/x`, which is in the home directory. -/
theorem tilde_behind_dot :
    parseUnix "/home/u/".toList "./~/x".toList =
        some { _dirs := ["~".toList], _name := "x".toList } ∧
      buildUnix { _dirs := ["~".toList], _name := "x".toList } = "~/x".toList ∧
      parseUnix "/home/u/".toList "~/x".toList =
        some { _dirs := ["home".toList, "u".toList], _name := "x".toList, _absolute := true } ∧
      ¬RoundTripsUnix "/home/u/".toList "./~/x".toList := by
  have hparse : parseUnix "/home/u/".toList "./~/x".toList =
      some { _dirs := ["~".toList], _name := "x".toList } := by decide
  refine ⟨hparse, by decide, by decide, ?_⟩
  rintro ⟨p, hp, hbuild⟩
  obtain rfl := Option.some.inj (hparse.symm.trans hp)
  revert hbuild
  decide

/-! ### Windows -/

/-- What is left of a text without node and drive behind its first separators, and whether there are
any. -/
def bareWindows (s : List Char) : Option (Bool × List Char) :=
  match s with
  | [] => some (false, [])
  | c :: it =>
    if isSlash c then
      match it with
      | [] => some (true, [])
      | d :: rest =>
        if isSlash d then if (rest.head?.all isSlash) then some (true, rest.tail) else none
        else some (true, it)
    else if it.head? = some ':' then none else some (false, s)

/-- The first component that is left of the text has a colon at its second place, though the text has
no drive. -/
def DriveExposed (s : List Char) : Prop :=
  ∃ absolute it x, bareWindows s = some (absolute, it) ∧ x[1]? = some ':' ∧
    (Bottom kind absolute (split isSlash it).1 x ∨
      Cancels kind absolute (split isSlash it).1 ∧ (split isSlash it).2 = x)

theorem componentsWindows_eq (p : Path) (it : List Char) :
    componentsWindows p it =
      { p with _dirs := (split isSlash it).1.foldl (push kind p._absolute) p._dirs,
               _name := (split isSlash it).2 } := by
  rw [componentsWindows, scan_nil]
  simp only [foldl_pushDirectory]

theorem textWindows_node {a b : Char} {it : List Char} (ha : isSlash a = true)
    (hb : isSlash b = true) :
    textWindows (a :: b :: it) =
      .ok (componentsWindows { _absolute := true, _node := it.takeWhile (!isSlash ·) }
        (it.dropWhile (!isSlash ·)).tail) := by
  simp [textWindows, ha, hb]

theorem textWindows_root {a : Char} {it : List Char} (ha : isSlash a = true)
    (hit : ∀ c ∈ it.head?, isSlash c = false) : textWindows (a :: it) = bareText (a :: it) true it := by
  have hany : it.head?.any isSlash = false := by
    cases it with
    | nil => rfl
    | cons c it => exact hit c rfl
  simp [textWindows, ha, hany]

theorem textWindows_relative {s : List Char} (hs : ∀ c ∈ s.head?, isSlash c = false) :
    textWindows s = bareText s false s := by
  cases s with
  | nil => rfl
  | cons c it =>
      have hc : isSlash c = false := hs c rfl
      simp [textWindows, hc]

theorem bareText_of_ne {s : List Char} {absolute : Bool} {it : List Char}
    (h : it[1]? ≠ some ':') :
    bareText s absolute it = .ok (componentsWindows { _absolute := absolute } it) := by
  unfold bareText
  split
  · simp at h
  · rfl

theorem textWindows_cases {s : List Char} {p : Path} (h : textWindows s = .ok p) :
    (bareWindows s = none ∧ ∃ node it, node ≠ [] ∧ (∀ c ∈ node, isSlash c = false) ∧
      p = componentsWindows { _absolute := true, _node := node } it) ∨
    (bareWindows s = none ∧ ∃ d it, isDriveLetter d = true ∧
      p = componentsWindows { _absolute := true, _device := [d] } it) ∨
    (∃ absolute it, bareWindows s = some (absolute, it) ∧
      p = componentsWindows { _absolute := absolute } it) := by
  rcases s with _ | ⟨a, it⟩
  · obtain rfl := Except.ok.inj h
    exact Or.inr (Or.inr ⟨false, [], rfl, rfl⟩)
  · by_cases ha : isSlash a = true
    · rcases it with _ | ⟨b, it⟩
      · rw [textWindows_root ha (by simp)] at h
        obtain rfl := Except.ok.inj h
        exact Or.inr (Or.inr ⟨true, [], by simp [bareWindows, ha], rfl⟩)
      · by_cases hb : isSlash b = true
        · rw [textWindows_node ha hb] at h
          obtain rfl := Except.ok.inj h
          by_cases hit : it.head?.all isSlash = true
          · right
            right
            refine ⟨true, it.tail, by simp [bareWindows, ha, hb, hit], ?_⟩
            cases it with
            | nil => rfl
            | cons c it => simp_all
          · left
            refine ⟨by simp [bareWindows, ha, hb, hit], _, _, ?_, ?_, rfl⟩
            · cases it with
              | nil => simp at hit
              | cons c it => simp_all
            · intro c hc
              simpa using List.mem_takeWhile_imp hc
        · rw [Bool.not_eq_true] at hb
          rw [textWindows_root ha (by simpa using hb)] at h
          right
          right
          refine ⟨true, b :: it, by simp [bareWindows, ha, hb], ?_⟩
          unfold bareText at h
          split at h
          · simp at h
          · exact (Except.ok.inj h).symm
    · rw [Bool.not_eq_true] at ha
      rw [textWindows_relative (by simpa using ha)] at h
      unfold bareText at h
      split at h
      · rename_i d it' heq
        obtain ⟨rfl, rfl⟩ := List.cons.inj heq
        split at h
        · cases h
        · rename_i hd
          right
          left
          refine ⟨by simp [bareWindows, ha], a, it'.tail, by simpa using hd, ?_⟩
          unfold driveWindows at h
          split at h
          · exact (Except.ok.inj h).symm
          · split at h
            · cases h
            · exact (Except.ok.inj h).symm
      · rename_i hno
        right
        right
        refine ⟨false, a :: it, ?_, (Except.ok.inj h).symm⟩
        have hcolon : it.head? ≠ some ':' := by
          intro hcolon
          obtain ⟨rest, rfl⟩ := List.head?_eq_some_iff.mp hcolon
          exact hno a rest rfl
        simp [bareWindows, ha, hcolon]

theorem componentsWindows_join {p : Path} {ds : List (List Char)} {n : List Char} (hp : p._dirs = [])
    (h : Normal kind p._absolute ds) (hds : ∀ d ∈ ds, ∀ c ∈ d, isSlash c = false)
    (hn : ∀ c ∈ n, isSlash c = false) :
    componentsWindows p (join '\\' ds ++ n) = { p with _dirs := ds, _name := n } := by
  rw [componentsWindows_eq, split_join (by rfl) hds hn, hp, h.foldl_self]

/-- The directories and the name of a text have no separators, and the directories are normalised. -/
structure PrintableWindows (p : Path) : Prop where
  wellFormed : p.WellFormed
  dirs : ∀ d ∈ p._dirs, ∀ c ∈ d, isSlash c = false
  name : ∀ c ∈ p._name, isSlash c = false

theorem PrintableWindows.pushDirectory {p : Path} (h : PrintableWindows p) {d : List Char}
    (hd : ∀ c ∈ d, isSlash c = false) : PrintableWindows (p.pushDirectory d) := by
  have hwf := h.wellFormed.pushDirectory d
  rw [pushDirectory_eq] at hwf ⊢
  refine ⟨hwf, ?_, h.name⟩
  intro e he
  rcases mem_push he with he | rfl
  · exact h.dirs e he
  · exact hd

theorem PrintableWindows.componentsWindows {p : Path} (h : PrintableWindows p) (it : List Char) :
    PrintableWindows (componentsWindows p it) := by
  obtain ⟨hds, hn⟩ := split_no_sep isSlash it
  rw [Path.componentsWindows, scan_nil]
  generalize (split isSlash it).1 = ds at *
  suffices hp : PrintableWindows (ds.foldl Path.pushDirectory p) from ⟨hp.wellFormed, hp.dirs, hn⟩
  induction ds generalizing p with
  | nil => exact h
  | cons d ds ih =>
      have hd := hds d List.mem_cons_self
      exact ih (h.pushDirectory hd) fun e he => hds e (List.mem_cons_of_mem _ he)

theorem printableWindows_of_nil {p : Path} (hdirs : p._dirs = []) (hname : p._name = []) :
    PrintableWindows p := by
  refine ⟨?_, by simp [hdirs], by simp [hname]⟩
  rw [WellFormed, hdirs]
  exact Normal.nil

theorem parseWindows_of_text {s : List Char} {p : Path} (h : textWindows s = .ok p)
    (hend : endWindows p = p) : parseWindows s = .ok p := by
  rw [parseWindows, h, Except.map, hend]

theorem textWindows_of_parse {s : List Char} {p : Path} (h : parseWindows s = .ok p) :
    ∃ q, textWindows s = .ok q ∧ endWindows q = p := by
  rw [parseWindows] at h
  cases htext : textWindows s with
  | error e =>
      rw [htext] at h
      cases h
  | ok q =>
      rw [htext] at h
      exact ⟨q, rfl, Except.ok.inj h⟩

theorem endWindows_frame (p : Path) :
    (endWindows p)._device = p._device ∧ (endWindows p)._node = p._node ∧
      (endWindows p)._absolute = p._absolute := by
  rw [endWindows, makeDirectory, pushDirectory_eq]
  split
  · exact ⟨rfl, rfl, rfl⟩
  · exact ⟨rfl, rfl, rfl⟩

theorem endWindows_version {p : Path} (h : p._version = []) : (endWindows p)._version = [] := by
  rw [endWindows, makeDirectory]
  split
  · rfl
  · exact h

theorem endWindows_endWindows (p : Path) : endWindows (endWindows p) = endWindows p := by
  by_cases h : p._node ≠ [] ∧ p._dirs = [] ∧ p._name ≠ []
  · have hname : (endWindows p)._name = [] := by
      rw [endWindows, if_pos h]
      rfl
    rw [endWindows, if_neg (by simp [hname])]
  · have heq : endWindows p = p := by rw [endWindows, if_neg h]
    rw [heq, heq]

theorem PrintableWindows.endWindows {p : Path} (h : PrintableWindows p) :
    PrintableWindows (endWindows p) := by
  rw [Path.endWindows]
  split
  · have hpush := h.pushDirectory h.name
    exact ⟨hpush.wellFormed, hpush.dirs, by simp [makeDirectory]⟩
  · exact h

theorem endWindows_of_node {p : Path} (h : p._node = []) : endWindows p = p := by
  rw [endWindows, if_neg (by simp [h])]

theorem parseWindows_node {p : Path} (h : PrintableWindows p) (habs : p._absolute = true)
    (hnode : p._node ≠ []) (hslash : ∀ c ∈ p._node, isSlash c = false) (hdev : p._device = [])
    (hver : p._version = []) (hend : endWindows p = p) : parseWindows p.buildWindows = .ok p := by
  apply parseWindows_of_text _ hend
  obtain ⟨node, device, name, version, dirs, absolute⟩ := p
  obtain rfl : device = [] := hdev
  obtain rfl : version = [] := hver
  obtain rfl : absolute = true := habs
  have hwf : Normal kind true dirs := h.wellFormed
  have hbuild : buildWindows ⟨node, [], name, [], dirs, true⟩ =
      '\\' :: '\\' :: (node ++ '\\' :: (join '\\' dirs ++ name)) := by
    rw [buildWindows, if_pos hnode]
    simp
  have hnot : ∀ c ∈ node, (!isSlash c) = true := by
    intro c hc
    rw [hslash c hc]
    rfl
  rw [hbuild, textWindows_node (by rfl) (by rfl), List.takeWhile_append_of_pos hnot,
    List.dropWhile_append_of_pos hnot]
  simp only [List.takeWhile_cons, List.dropWhile_cons, show isSlash '\\' = true from rfl,
    Bool.not_true, Bool.false_eq_true, if_false, List.append_nil, List.tail_cons]
  rw [componentsWindows_join rfl hwf h.dirs h.name]

theorem parseWindows_drive {p : Path} {d : Char} (h : PrintableWindows p) (habs : p._absolute = true)
    (hnode : p._node = []) (hdev : p._device = [d]) (hd : isDriveLetter d = true)
    (hver : p._version = []) : parseWindows p.buildWindows = .ok p := by
  apply parseWindows_of_text _ (endWindows_of_node hnode)
  obtain ⟨node, device, name, version, dirs, absolute⟩ := p
  obtain rfl : node = [] := hnode
  obtain rfl : device = [d] := hdev
  obtain rfl : version = [] := hver
  obtain rfl : absolute = true := habs
  have hwf : Normal kind true dirs := h.wellFormed
  have hbuild : buildWindows ⟨[], [d], name, [], dirs, true⟩ =
      d :: ':' :: '\\' :: (join '\\' dirs ++ name) := by
    simp [buildWindows]
  have hslash : isSlash d = false := by
    by_contra hslash
    rw [Bool.not_eq_false, isSlash, Bool.or_eq_true, beq_iff_eq, beq_iff_eq] at hslash
    rcases hslash with rfl | rfl <;> revert hd <;> decide
  rw [hbuild, textWindows_relative (by simpa using hslash)]
  simp only [bareText, hd, Bool.false_eq_true, Bool.not_true, or_self, if_false, driveWindows,
    show isSlash '\\' = true from rfl]
  rw [componentsWindows_join rfl hwf h.dirs h.name]

/-- The second letter of a text is that of its first component, or a separator. -/
theorem second_join {ds : List (List Char)} {n : List Char} (hne : ∀ d ∈ ds, d ≠ []) :
    (join '\\' ds ++ n)[1]? = some ':' ↔
      ∃ x, x[1]? = some ':' ∧ (ds.head? = some x ∨ ds = [] ∧ n = x) := by
  cases ds with
  | nil => simp [join]
  | cons d ds =>
      obtain ⟨a, d, rfl⟩ := List.exists_cons_of_ne_nil (hne d List.mem_cons_self)
      cases d with
      | nil => simp [join]
      | cons b d => simp [join]

theorem bareText_drive {s it : List Char} {absolute : Bool} {p : Path} (hcolon : it[1]? = some ':')
    (h : bareText s absolute it = .ok p) : p._device ≠ [] := by
  unfold bareText at h
  split at h
  · split at h
    · cases h
    · unfold driveWindows at h
      split at h
      · obtain rfl := Except.ok.inj h
        simp
      · split at h
        · cases h
        · obtain rfl := Except.ok.inj h
          simp [componentsWindows_eq]
  · rename_i hno
    exfalso
    rcases it with _ | ⟨a, _ | ⟨b, it⟩⟩
    · simp at hcolon
    · simp at hcolon
    · obtain rfl : b = ':' := by simpa using hcolon
      exact hno a it rfl

/-- Without node and drive, a path is parsed back if its text has no colon at the second place. -/
theorem parseWindows_bare {p : Path} (h : PrintableWindows p) (hnode : p._node = [])
    (hdev : p._device = []) (hver : p._version = []) :
    parseWindows p.buildWindows = .ok p ↔ (join '\\' p._dirs ++ p._name)[1]? ≠ some ':' := by
  have hne := h.wellFormed.ne_nil
  have hhead := head?_join (c := '\\') hne h.dirs h.name
  have htext : textWindows p.buildWindows =
      bareText p.buildWindows p._absolute (join '\\' p._dirs ++ p._name) := by
    cases habs : p._absolute with
    | true =>
        have hbuild : p.buildWindows = '\\' :: (join '\\' p._dirs ++ p._name) := by
          simp [buildWindows, hnode, hdev, habs]
        rw [hbuild, textWindows_root (by rfl) hhead]
    | false =>
        have hbuild : p.buildWindows = join '\\' p._dirs ++ p._name := by
          simp [buildWindows, hnode, hdev, habs]
        rw [hbuild, textWindows_relative hhead]
  constructor
  · intro hparse hcolon
    obtain ⟨q, hq, hend⟩ := textWindows_of_parse hparse
    rw [htext] at hq
    apply bareText_drive hcolon hq
    rw [← (endWindows_frame q).1, hend, hdev]
  · intro hcolon
    apply parseWindows_of_text _ (endWindows_of_node hnode)
    rw [htext, bareText_of_ne hcolon]
    obtain ⟨node, device, name, version, dirs, absolute⟩ := p
    obtain rfl : node = [] := hnode
    obtain rfl : device = [] := hdev
    obtain rfl : version = [] := hver
    have hwf : Normal kind absolute dirs := h.wellFormed
    rw [componentsWindows_join rfl hwf h.dirs h.name]

/-- The first component of a text without node and drive. -/
theorem exposed_iff {s it : List Char} {absolute : Bool} (h : bareWindows s = some (absolute, it)) :
    (∃ x, x[1]? = some ':' ∧
      (((split isSlash it).1.foldl (push kind absolute) []).head? = some x ∨
        (split isSlash it).1.foldl (push kind absolute) [] = [] ∧ (split isSlash it).2 = x)) ↔
      DriveExposed s := by
  have hkind (x : List Char) (hx : x[1]? = some ':') : kind x = .name := by
    rw [kind_eq_name]
    refine ⟨?_, ?_, ?_⟩ <;> rintro rfl <;> simp at hx
  constructor
  · rintro ⟨x, hx, hfirst⟩
    refine ⟨absolute, it, x, h, hx, ?_⟩
    rwa [List.head?_eq_some_iff, foldl_eq_nil, foldl_eq_cons (hkind x hx)] at hfirst
  · rintro ⟨absolute', it', x, h', hx, hfirst⟩
    obtain ⟨rfl, rfl⟩ : absolute = absolute' ∧ it = it' := by simpa [h] using h'
    refine ⟨x, hx, ?_⟩
    rwa [List.head?_eq_some_iff, foldl_eq_nil, foldl_eq_cons (hkind x hx)]

/-- **Main result.**  For every text that `parseWindows` accepts, the path is parsed back from its
printed form exactly if no component with a colon at its second place gets to the front when the
path is normalised. -/
theorem parseWindows_buildWindows_iff {s : List Char} {p : Path} (h : parseWindows s = .ok p) :
    parseWindows p.buildWindows = .ok p ↔ ¬DriveExposed s := by
  obtain ⟨q, htext, rfl⟩ := textWindows_of_parse h
  rcases textWindows_cases htext with ⟨hbare, node, it, hne, hslash, rfl⟩ |
    ⟨hbare, d, it, hd, rfl⟩ | ⟨absolute, it, hbare, rfl⟩
  · have hprint : PrintableWindows (componentsWindows { _absolute := true, _node := node } it) :=
      (printableWindows_of_nil rfl rfl).componentsWindows it
    have hframe := endWindows_frame (componentsWindows { _absolute := true, _node := node } it)
    have hver := endWindows_version (p := componentsWindows { _absolute := true, _node := node } it)
      (by rw [componentsWindows_eq])
    have heq := componentsWindows_eq { _absolute := true, _node := node } it
    have hparse := parseWindows_node hprint.endWindows (by rw [hframe.2.2, heq])
      (by rwa [hframe.2.1, heq]) (by rwa [hframe.2.1, heq]) (by rw [hframe.1, heq]) hver
      (endWindows_endWindows _)
    simp [hparse, DriveExposed, hbare]
  · have hprint : PrintableWindows (componentsWindows { _absolute := true, _device := [d] } it) :=
      (printableWindows_of_nil rfl rfl).componentsWindows it
    rw [endWindows_of_node (by rw [componentsWindows_eq])]
    have hparse := parseWindows_drive (d := d) hprint (by rw [componentsWindows_eq])
      (by rw [componentsWindows_eq]) (by rw [componentsWindows_eq]) hd (by rw [componentsWindows_eq])
    simp [hparse, DriveExposed, hbare]
  · have hprint : PrintableWindows (componentsWindows { _absolute := absolute } it) :=
      (printableWindows_of_nil rfl rfl).componentsWindows it
    rw [endWindows_of_node (by rw [componentsWindows_eq]),
      parseWindows_bare hprint (by rw [componentsWindows_eq]) (by rw [componentsWindows_eq])
        (by rw [componentsWindows_eq]),
      ne_eq, not_iff_not, second_join hprint.wellFormed.ne_nil, componentsWindows_eq]
    exact exposed_iff hbare

/-- A path on a drive is parsed back. -/
theorem parseWindows_buildWindows_drive :
    parseWindows "c:/a/../b\\x.txt".toList =
        .ok { _device := "c".toList, _dirs := ["b".toList], _name := "x.txt".toList,
              _absolute := true } ∧
      (parseWindows "c:\\b\\x.txt".toList =
        .ok { _device := "c".toList, _dirs := ["b".toList], _name := "x.txt".toList,
              _absolute := true } ↔ ¬DriveExposed "c:/a/../b\\x.txt".toList) := by
  have hparse : parseWindows "c:/a/../b\\x.txt".toList =
      .ok { _device := "c".toList, _dirs := ["b".toList], _name := "x.txt".toList,
            _absolute := true } := by decide
  exact ⟨hparse, parseWindows_buildWindows_iff hparse⟩

/-- `.\c:\x` is printed as `c:\x`, which is on a drive, and `\.\c:\x` is printed as `\c:\x`, which
is no path. -/
theorem drive_behind_dot :
    (∃ p, parseWindows ".\\c:\\x".toList = .ok p ∧ p.buildWindows = "c:\\x".toList ∧
      parseWindows p.buildWindows =
        .ok { _device := "c".toList, _name := "x".toList, _absolute := true } ∧
      parseWindows p.buildWindows ≠ .ok p) ∧
    ∃ p, parseWindows "\\.\\c:\\x".toList = .ok p ∧ p.buildWindows = "\\c:\\x".toList ∧
      parseWindows p.buildWindows = .error ⟨"\\c:\\x".toList⟩ := by
  refine ⟨⟨{ _dirs := ["c:".toList], _name := "x".toList }, ?_⟩,
    ⟨{ _dirs := ["c:".toList], _name := "x".toList, _absolute := true }, ?_⟩⟩
  · decide
  · decide

end Path

end Poco.Foundation
