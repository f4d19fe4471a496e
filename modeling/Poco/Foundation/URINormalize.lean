import Poco.Foundation.URIResolve

/-! # `normalize`

The result of `normalize` has no dot segment that could be removed, and to normalise it again
changes nothing.  `buildPath` writes the leading slash before the first segment only, so that a path of
which no segment is left is a slash if the path ended with one, and empty if not, whatever it began
with: `normalizes_iff` says when a path keeps its leading slash. -/

namespace Poco.Foundation
namespace URI

open Poco.Lib

open RFC3986 (kind)

/-- `normalize`. -/
def normalize (u : URI) : URI := u.removeDotSegments (!u.isRelative)

/-! ### What is expected -/

/-- What stands between the slashes of a path. -/
def pieces (path : Bytes) : List Bytes := (cut path).1 ++ [(cut path).2]

/-- There is no segment `.` but the one that protects a colon in the first segment of a relative path. -/
def WithoutDots (u : URI) : Prop :=
  bytes "." ∉ pieces u._path ∨
    u.isRelative = true ∧ ∃ s rest, pieces u._path = bytes "." :: s :: rest ∧ ':'.toUInt8 ∈ s ∧
      bytes "." ∉ s :: rest

/-- The path begins with a slash. -/
def Rooted (u : URI) : Prop := u._path.head? = some '/'.toUInt8

instance (u : URI) : Decidable u.Rooted := inferInstanceAs (Decidable (_ = _))

/-- `normalize` does to the URI what it should. -/
structure Normalizes (u : URI) : Prop where
  idempotent : u.normalize.normalize = u.normalize
  dots : u.normalize.WithoutDots
  doubleDots : u.isRelative = false → bytes ".." ∉ pieces u.normalize._path
  rooted : u.normalize.Rooted ↔ u.Rooted

/-- A path of which no segment is left has a slash at both ends or at none. -/
def KeepsRoot (u : URI) : Prop :=
  u._path ≠ [] → Cancels kind (!u.isRelative) (getPathSegments u._path) →
    (u.Rooted ↔ u._path.getLast? = some '/'.toUInt8)

instance (u : URI) : Decidable u.KeepsRoot := inferInstanceAs (Decidable (_ → _ → (_ ↔ _)))

/-! ### Pieces of a path -/

theorem intercalate_concat (ds : List Bytes) (n : Bytes) :
    ['/'.toUInt8].intercalate (ds ++ [n]) = join '/'.toUInt8 ds ++ n := by
  induction ds with
  | nil => simp [join]
  | cons d ds ih =>
      obtain ⟨e, es, hes⟩ : ∃ e es, ds ++ [n] = e :: es := List.exists_cons_of_ne_nil (by simp)
      rw [List.cons_append, hes, List.intercalate_cons_cons, ← hes, ih]
      simp [join]

theorem pieces_intercalate {segs : List Bytes} (hne : segs ≠ []) (h : ∀ s ∈ segs, '/'.toUInt8 ∉ s) :
    pieces (['/'.toUInt8].intercalate segs) = segs := by
  rcases List.eq_nil_or_concat segs with rfl | ⟨ds, n, rfl⟩
  · exact absurd rfl hne
  · rw [List.concat_eq_append] at h ⊢
    have hds : ∀ d ∈ ds, ∀ a ∈ d, (a == '/'.toUInt8) = false := by
      intro d hd a ha
      have hslash := h d (by simp [hd])
      exact beq_eq_false_iff_ne.mpr fun heq => hslash (heq ▸ ha)
    have hn : ∀ a ∈ n, (a == '/'.toUInt8) = false := by
      intro a ha
      have hslash := h n (by simp)
      exact beq_eq_false_iff_ne.mpr fun heq => hslash (heq ▸ ha)
    rw [intercalate_concat, pieces, cut, split_join (by simp) hds hn]

theorem foldl_addSegment_filter (ds out : List Bytes) :
    ds.foldl addSegment out = out ++ ds.filter (· ≠ []) := by
  induction ds generalizing out with
  | nil => simp
  | cons d ds ih =>
      rw [List.foldl_cons, ih, addSegment]
      by_cases hd : d = [] <;> simp [hd]

theorem getPathSegments_pieces (path : Bytes) : getPathSegments path = (pieces path).filter (· ≠ []) := by
  rw [getPathSegments_eq, foldl_addSegment_filter, List.nil_append, pieces, List.filter_append, addSegment]
  by_cases hn : (cut path).2 = [] <;> simp [hn]

theorem mem_getPathSegments {path s : Bytes} (h : s ∈ getPathSegments path) : s ≠ [] ∧ '/'.toUInt8 ∉ s := by
  rw [getPathSegments_pieces, List.mem_filter, decide_eq_true_eq, pieces, List.mem_append,
    List.mem_singleton] at h
  obtain ⟨hmem, hne⟩ := h
  obtain ⟨hds, hn⟩ := slash_not_mem_cut path
  rcases hmem with hmem | rfl
  · exact ⟨hne, hds s hmem⟩
  · exact ⟨hne, hn⟩

theorem getLast?_pieces {path : Bytes} (h : path ≠ []) :
    path.getLast? = some '/'.toUInt8 ↔ (pieces path).getLast? = some [] := by
  rw [getLast?_cut h, pieces, List.getLast?_concat, Option.some_inj]

/-! ### The segments that are left -/

/-- The segments that `normalize` keeps. -/
def normalSegments (u : URI) : List Bytes :=
  (getPathSegments u._path).foldl (push kind (!u.isRelative)) []

theorem kind_eq_up {s : Bytes} : kind s = .up ↔ s = bytes ".." := by
  rw [kind]
  split_ifs with h2 h1
  · simp [h2]
  · simp [h2]
  · simp [h2]

theorem kind_eq_skip {s : Bytes} : kind s = .skip ↔ s = bytes "." := by
  rw [kind]
  split_ifs with h2 h1
  · simp [h2, bytes]
  · simp [h1]
  · simp [h1]

/-- The loop of `removeDotSegments` pushes each segment. -/
theorem normalizeSegment_push {root : Bool} {out : List Bytes} (h : Normal kind root out) (s : Bytes) :
    normalizeSegment root out s = push kind root out s := by
  cases root with
  | true => exact normalizeSegment_eq h.names s
  | false =>
      rw [normalizeSegment, push]
      by_cases h2 : s = bytes ".."
      · rw [if_pos h2, kind_eq_up.mpr h2]
        rcases List.eq_nil_or_concat out with rfl | ⟨out, e, rfl⟩
        · rfl
        · have htop : (∃ e' ∈ (out.concat e).getLast?, kind e' ≠ .up) ↔ ¬e = bytes ".." := by
            simp [kind_eq_up]
          by_cases he : e = bytes ".." <;> simp [he, kind_eq_up]
      · by_cases h1 : s = bytes "."
        · rw [if_neg h2, if_neg (not_not.mpr h1), kind_eq_skip.mpr h1]
        · have hname : kind s = .name := by simp [kind, h1, h2]
          rw [if_neg h2, if_pos h1, hname]

theorem foldl_normalizeSegment_push (root : Bool) (w : List Bytes) :
    w.foldl (normalizeSegment root) [] = w.foldl (push kind root) [] := by
  induction w using List.reverseRecOn with
  | nil => rfl
  | append_singleton w s ih =>
      rw [List.foldl_append, List.foldl_append, ih, List.foldl_cons, List.foldl_nil,
        normalizeSegment_push (Normal.nil.foldl w)]
      rfl

theorem normalize_eq {u : URI} (h : u._path ≠ []) :
    u.normalize = u.buildPath u.normalSegments u.Rooted (u._path.getLast? = some '/'.toUInt8) := by
  rw [normalize, removeDotSegments, if_neg h, foldl_normalizeSegment_push]
  rfl

theorem normal_normalSegments (u : URI) : Normal kind (!u.isRelative) u.normalSegments :=
  Normal.nil.foldl _

theorem mem_normalSegments {u : URI} {s : Bytes} (h : s ∈ u.normalSegments) :
    s ≠ [] ∧ '/'.toUInt8 ∉ s ∧ s ≠ bytes "." := by
  have hskip := (normal_normalSegments u).not_skip s h
  rcases mem_foldl_push h with hnil | hmem
  · cases hnil
  · obtain ⟨hne, hslash⟩ := mem_getPathSegments hmem
    exact ⟨hne, hslash, fun hdot => hskip (kind_eq_skip.mpr hdot)⟩

/-! ### The path that is built -/

/-- The pieces that `buildPath` puts before the first segment. -/
def frontPieces (u : URI) (s : Bytes) (leadingSlash : Bool) : List Bytes :=
  if leadingSlash then [[]] else if u._scheme = [] ∧ ':'.toUInt8 ∈ s then [bytes "."] else []

theorem buildPath_pieces (u : URI) (s : Bytes) (segs : List Bytes) (leadingSlash trailingSlash : Bool) :
    (u.buildPath (s :: segs) leadingSlash trailingSlash)._path =
      ['/'.toUInt8].intercalate
        (u.frontPieces s leadingSlash ++ (s :: segs) ++ if trailingSlash then [[]] else []) := by
  have htrail : ['/'.toUInt8].intercalate ((s :: segs) ++ if trailingSlash then [[]] else []) =
      ['/'.toUInt8].intercalate (s :: segs) ++ if trailingSlash then ['/'.toUInt8] else [] := by
    cases trailingSlash with
    | false => simp
    | true =>
        obtain ⟨ds, n, hconcat⟩ : ∃ ds n, s :: segs = ds ++ [n] :=
          ⟨_, _, (List.dropLast_append_getLast (List.cons_ne_nil s segs)).symm⟩
        simp only [if_true]
        rw [intercalate_concat, hconcat, intercalate_concat]
        simp [join]
  have hcons : ∀ front : Bytes, ['/'.toUInt8].intercalate
      ([front] ++ (s :: segs) ++ if trailingSlash then [[]] else []) =
      front ++ '/'.toUInt8 :: (['/'.toUInt8].intercalate (s :: segs) ++
        if trailingSlash then ['/'.toUInt8] else []) := by
    intro front
    rw [← htrail, List.append_assoc, List.singleton_append, List.cons_append, List.intercalate_cons_cons]
    simp
  cases leadingSlash with
  | true =>
      have hfront : u.frontPieces s true = [[]] := rfl
      rw [hfront, hcons]
      simp [buildPath]
  | false =>
      by_cases hcolon : u._scheme = [] ∧ ':'.toUInt8 ∈ s
      · have hfront : u.frontPieces s false = [bytes "."] := by simp [frontPieces, hcolon]
        have hdot : bytes "./" = bytes "." ++ ['/'.toUInt8] := by decide
        rw [hfront, hcons]
        simp [buildPath, hcolon, hdot]
      · have hfront : u.frontPieces s false = [] := by simp [frontPieces, hcolon]
        rw [hfront, List.nil_append, htrail]
        simp [buildPath, hcolon]

theorem pieces_normalize {u : URI} (h : u._path ≠ []) {s : Bytes} {segs : List Bytes}
    (hsegs : u.normalSegments = s :: segs) :
    pieces u.normalize._path = u.frontPieces s u.Rooted ++ (s :: segs) ++
      if u._path.getLast? = some '/'.toUInt8 then [[]] else [] := by
  have hslash : ∀ x ∈ u.frontPieces s u.Rooted ++ (s :: segs) ++
      (if u._path.getLast? = some '/'.toUInt8 then [[]] else []), '/'.toUInt8 ∉ x := by
    intro x hx
    rcases List.mem_append.mp hx with hx | hx
    · rcases List.mem_append.mp hx with hx | hx
      · rw [frontPieces] at hx
        split_ifs at hx
        · rw [List.mem_singleton.mp hx]
          exact List.not_mem_nil
        · rw [List.mem_singleton.mp hx]
          decide
        · cases hx
      · exact (mem_normalSegments (hsegs ▸ hx)).2.1
    · split_ifs at hx
      · rw [List.mem_singleton.mp hx]
        exact List.not_mem_nil
      · cases hx
  rw [normalize_eq h, hsegs, buildPath_pieces]
  simp only [decide_eq_true_eq]
  exact pieces_intercalate (by simp) hslash

/-- If segments are left, the path begins with a slash if it did before. -/
theorem rooted_normalize {u : URI} (h : u._path ≠ []) {s : Bytes} {segs : List Bytes}
    (hsegs : u.normalSegments = s :: segs) : u.normalize.Rooted ↔ u.Rooted := by
  obtain ⟨hne, hslash, -⟩ := mem_normalSegments (hsegs ▸ List.mem_cons_self : s ∈ u.normalSegments)
  obtain ⟨c, s', rfl⟩ := List.exists_cons_of_ne_nil hne
  have hc : c ≠ '/'.toUInt8 := fun heq => hslash (by simp [heq])
  rw [normalize_eq h, hsegs, Rooted]
  by_cases hroot : u.Rooted
  · simp [buildPath, hroot]
  · by_cases hcolon : u._scheme = [] ∧ ':'.toUInt8 ∈ c :: s'
    · have hhead : (bytes "./").head? = some '.'.toUInt8 := by decide
      have hdot : '.'.toUInt8 ≠ '/'.toUInt8 := by decide
      simp [buildPath, hroot, hcolon, hhead, hdot]
    · rw [List.mem_cons] at hcolon
      cases segs with
      | nil => simp [buildPath, hroot, hcolon, hc]
      | cons d segs => simp [buildPath, hroot, hcolon, hc, List.intercalate_cons_cons]

theorem normalize_scheme (u : URI) : u.normalize._scheme = u._scheme := by
  rw [normalize, removeDotSegments]
  split
  · rfl
  · rfl

theorem isRelative_normalize (u : URI) : u.normalize.isRelative = u.isRelative := by
  rw [isRelative, isRelative, normalize_scheme]

theorem normalize_ne_nil {u : URI} (h : u._path ≠ []) {s : Bytes} {segs : List Bytes}
    (hsegs : u.normalSegments = s :: segs) : u.normalize._path ≠ [] := by
  intro hnil
  have hpieces := pieces_normalize h hsegs
  obtain ⟨hne, -, -⟩ := mem_normalSegments (hsegs ▸ List.mem_cons_self : s ∈ u.normalSegments)
  have hmem : s ∈ pieces u.normalize._path := by simp [hpieces]
  rw [hnil] at hmem
  exact hne (by simpa [pieces, cut, split] using hmem)

theorem normalSegments_normalize {u : URI} (h : u._path ≠ []) {s : Bytes} {segs : List Bytes}
    (hsegs : u.normalSegments = s :: segs) : u.normalize.normalSegments = u.normalSegments := by
  have hfilter : (s :: segs).filter (· ≠ []) = s :: segs := by
    apply List.filter_eq_self.mpr
    intro x hx
    exact decide_eq_true (mem_normalSegments (hsegs ▸ hx)).1
  have hfront : ((u.frontPieces s u.Rooted).filter (· ≠ [])).foldl (push kind (!u.isRelative)) [] = [] := by
    rw [frontPieces]
    split_ifs
    · rfl
    · have hdot : kind (bytes ".") = .skip := kind_eq_skip.mpr rfl
      have hne : bytes "." ≠ [] := by decide
      simp [push, hdot, hne]
    · rfl
  have htrail : (if u._path.getLast? = some '/'.toUInt8 then [([] : Bytes)] else []).filter (· ≠ []) = [] := by
    split_ifs <;> rfl
  rw [normalSegments, isRelative_normalize, getPathSegments_pieces, pieces_normalize h hsegs, List.filter_append,
    List.filter_append, htrail, List.append_nil, hfilter, List.foldl_append, hfront, ← hsegs]
  exact (normal_normalSegments u).foldl_self

theorem getLast?_normalize {u : URI} (h : u._path ≠ []) {s : Bytes} {segs : List Bytes}
    (hsegs : u.normalSegments = s :: segs) :
    u.normalize._path.getLast? = some '/'.toUInt8 ↔ u._path.getLast? = some '/'.toUInt8 := by
  rw [getLast?_pieces (normalize_ne_nil h hsegs), pieces_normalize h hsegs]
  split_ifs with htrail
  · rw [List.getLast?_concat]
    exact iff_of_true rfl htrail
  · have hlast : (s :: segs).getLast? ≠ some [] := fun hnil =>
      (mem_normalSegments (hsegs ▸ List.mem_of_getLast? hnil)).1 rfl
    rw [List.append_nil, List.getLast?_append_of_ne_nil _ (List.cons_ne_nil s segs)]
    exact iff_of_false hlast htrail

/-! ### Paths of which nothing is left -/

theorem normalize_of_nil {u : URI} (h : u._path ≠ []) (hsegs : u.normalSegments = []) :
    u.normalize = { u with _path := if u._path.getLast? = some '/'.toUInt8 then bytes "/" else [] } := by
  rw [normalize_eq h, hsegs]
  split_ifs with htrail
  · simp [buildPath, htrail, bytes]
  · simp [buildPath, htrail]

theorem pieces_root : pieces (bytes "/") = [[], []] := by decide

theorem normalize_root {u : URI} (h : u._path = bytes "/") : u.normalize = u := by
  have hne : u._path ≠ [] := by
    rw [h]
    decide
  have hsegs : u.normalSegments = [] := by
    rw [normalSegments, h, getPathSegments_pieces, pieces_root]
    rfl
  have hlast : (bytes "/").getLast? = some '/'.toUInt8 := by decide
  rw [normalize_of_nil hne hsegs, h, if_pos hlast, ← h]

theorem normalize_empty {u : URI} (h : u._path = []) : u.normalize = u := by
  rw [normalize, removeDotSegments, if_pos h]

/-! ### `normalize` -/

theorem normalize_normalize (u : URI) : u.normalize.normalize = u.normalize := by
  by_cases h : u._path = []
  · rw [normalize_empty h, normalize_empty h]
  · cases hsegs : u.normalSegments with
    | nil =>
        rw [normalize_of_nil h hsegs]
        split_ifs
        · exact normalize_root rfl
        · exact normalize_empty rfl
    | cons s segs =>
        have hslash : decide u.normalize.Rooted = decide u.Rooted := by simp only [rooted_normalize h hsegs]
        have hlast := getLast?_normalize h hsegs
        rw [normalize_eq (normalize_ne_nil h hsegs), normalSegments_normalize h hsegs, hslash]
        simp only [hlast]
        rw [normalize_eq h]
        rfl

theorem withoutDots_normalize (u : URI) : u.normalize.WithoutDots := by
  by_cases h : u._path = []
  · rw [normalize_empty h, WithoutDots, h]
    exact Or.inl (by decide)
  · cases hsegs : u.normalSegments with
    | nil =>
        rw [normalize_of_nil h hsegs, WithoutDots]
        split_ifs
        · refine Or.inl ?_
          show bytes "." ∉ pieces (bytes "/")
          decide
        · refine Or.inl ?_
          show bytes "." ∉ pieces []
          decide
    | cons s segs =>
        have htrail : bytes "." ∉ (s :: segs) ++
            if u._path.getLast? = some '/'.toUInt8 then [[]] else [] := by
          intro hmem
          rcases List.mem_append.mp hmem with hmem | hmem
          · exact (mem_normalSegments (hsegs ▸ hmem)).2.2 rfl
          · split_ifs at hmem
            · exact absurd (List.mem_singleton.mp hmem) (by decide)
            · cases hmem
        rw [WithoutDots, pieces_normalize h hsegs, frontPieces, List.append_assoc]
        generalize (if u._path.getLast? = some '/'.toUInt8 then [([] : Bytes)] else []) = trail at htrail ⊢
        split_ifs with hroot hcolon
        · refine Or.inl fun hmem => ?_
          rcases List.mem_cons.mp hmem with hmem | hmem
          · exact absurd hmem (by decide)
          · exact htrail hmem
        · refine Or.inr ⟨?_, s, _, rfl, hcolon.2, htrail⟩
          rw [isRelative_normalize, isRelative, hcolon.1]
          rfl
        · exact Or.inl htrail

theorem doubleDots_normalize {u : URI} (habs : u.isRelative = false) :
    bytes ".." ∉ pieces u.normalize._path := by
  by_cases h : u._path = []
  · rw [normalize_empty h, h]
    decide
  · cases hsegs : u.normalSegments with
    | nil =>
        rw [normalize_of_nil h hsegs]
        split_ifs
        · show bytes ".." ∉ pieces (bytes "/")
          decide
        · show bytes ".." ∉ pieces []
          decide
    | cons s segs =>
        have hnames : ∀ x ∈ u.normalSegments, kind x = .name := by
          have hnormal := normal_normalSegments u
          rw [habs] at hnormal
          exact hnormal.names
        have hscheme : ¬u._scheme = [] := by simpa [isRelative] using habs
        rw [pieces_normalize h hsegs]
        intro hmem
        rcases List.mem_append.mp hmem with hmem | hmem
        · rcases List.mem_append.mp hmem with hmem | hmem
          · rw [frontPieces] at hmem
            split_ifs at hmem with hroot hcolon
            · exact absurd (List.mem_singleton.mp hmem) (by decide)
            · exact hscheme hcolon.1
            · cases hmem
          · have hname := hnames _ (hsegs ▸ hmem)
            rw [kind_eq_up.mpr rfl] at hname
            cases hname
        · split_ifs at hmem
          · exact absurd (List.mem_singleton.mp hmem) (by decide)
          · cases hmem

/-- The path begins with a slash if it did before, unless nothing is left of it and it had one slash only. -/
theorem rooted_normalize_iff (u : URI) : (u.normalize.Rooted ↔ u.Rooted) ↔ u.KeepsRoot := by
  by_cases h : u._path = []
  · rw [normalize_empty h]
    exact iff_of_true Iff.rfl fun hne => absurd h hne
  · cases hsegs : u.normalSegments with
    | nil =>
        have hcancels : Cancels kind (!u.isRelative) (getPathSegments u._path) := foldl_eq_nil.mp hsegs
        have hkeeps : u.KeepsRoot ↔ (u.Rooted ↔ u._path.getLast? = some '/'.toUInt8) :=
          ⟨fun hkeeps => hkeeps h hcancels, fun hkeeps _ _ => hkeeps⟩
        have hroot : u.normalize.Rooted ↔ u._path.getLast? = some '/'.toUInt8 := by
          rw [normalize_of_nil h hsegs, Rooted]
          split_ifs with htrail
          · exact iff_of_true rfl htrail
          · exact iff_of_false (by simp) htrail
        rw [hkeeps, hroot]
        exact iff_comm
    | cons s segs =>
        refine iff_of_true (rooted_normalize h hsegs) fun _ hcancels => ?_
        have hnil : u.normalSegments = [] := foldl_eq_nil.mpr hcancels
        rw [hnil] at hsegs
        cases hsegs

/-- **Main result.** `normalize` does what it should exactly if the path keeps its root. -/
theorem normalizes_iff (u : URI) : u.Normalizes ↔ u.KeepsRoot := by
  constructor
  · intro h
    exact (rooted_normalize_iff u).mp h.rooted
  · intro h
    exact ⟨normalize_normalize u, withoutDots_normalize u, doubleDots_normalize, (rooted_normalize_iff u).mpr h⟩

/-- The absolute path `/a/..` becomes the empty path, the relative path `a/../` becomes the root. -/
theorem not_normalizes_cancelled :
    (∃ u, parse (bytes "http://h/a/..") = .ok u ∧ ¬u.Normalizes ∧ u._path = bytes "/a/.." ∧ u.normalize._path = []) ∧
    ∃ u, parse (bytes "a/../") = .ok u ∧ ¬u.Normalizes ∧ u._path = bytes "a/../" ∧ u.normalize._path = bytes "/" := by
  refine ⟨⟨{ _scheme := bytes "http", _host := bytes "h", _path := bytes "/a/.." }, by decide +kernel, ?_, rfl,
    by decide +kernel⟩, ⟨{ _path := bytes "a/../" }, by decide +kernel, ?_, rfl, by decide +kernel⟩⟩
  · exact fun h => absurd ((rooted_normalize_iff _).mp h.rooted) (by decide +kernel)
  · exact fun h => absurd ((rooted_normalize_iff _).mp h.rooted) (by decide +kernel)

end URI

end Poco.Foundation
