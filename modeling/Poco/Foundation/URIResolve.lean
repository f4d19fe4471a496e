import Mathlib.Data.List.DropRight
import Poco.Foundation.URI

/-! # Relative references

Section 5.2 of RFC 3986 says how a relative reference is resolved: with a text of the path, from
which `.` and `..` are taken in five cases (`RFC3986.removeDots`).  `URI::resolve` cuts the paths
into segments instead, normalises the list of segments and builds a path of them again.  Both are
compared here for paths without empty segments (`resolve_iff`): they agree, unless a path that is
not merged ends with a dot segment, or the base has no path. -/

namespace Poco.Foundation

/-! ### The algorithm of the RFC -/

namespace RFC3986

open Poco.Lib

/-- The components of a reference; a component that is not defined is `none`. -/
structure Reference where
  scheme : Option Bytes
  authority : Option (Bytes × Bytes × ℕ)
  path : Bytes
  query : Option Bytes
  fragment : Option Bytes
deriving DecidableEq, Repr

/-- The output without its last segment and the slash before it. -/
def removeLast (output : Bytes) : Bytes := (output.rdropWhile (· ≠ '/'.toUInt8)).dropLast

/-- The first segment of the input, with the slash before it. -/
def firstSegment : Bytes → Bytes
  | [] => []
  | c :: input => c :: input.takeWhile (· ≠ '/'.toUInt8)

theorem firstSegment_pos {input : Bytes} (h : input ≠ []) : 0 < (firstSegment input).length := by
  cases input with
  | nil => exact absurd rfl h
  | cons c input => simp [firstSegment]

/-- Section 5.2.4, the steps A to E. -/
def removeDots (input output : Bytes) : Bytes :=
  if input = [] then output
  else if bytes "../" <+: input then removeDots (input.drop 3) output
  else if bytes "./" <+: input then removeDots (input.drop 2) output
  else if bytes "/./" <+: input then removeDots (input.drop 2) output
  else if input = bytes "/." then removeDots (bytes "/") output
  else if bytes "/../" <+: input then removeDots (input.drop 3) (removeLast output)
  else if input = bytes "/.." then removeDots (bytes "/") (removeLast output)
  else if input = bytes "." ∨ input = bytes ".." then removeDots [] output
  else removeDots (input.drop (firstSegment input).length) (output ++ firstSegment input)
termination_by input.length
decreasing_by
  all_goals have hpos : 0 < input.length := List.length_pos_iff.mpr ‹¬input = []›
  · rw [List.length_drop]
    omega
  · rw [List.length_drop]
    omega
  · rw [List.length_drop]
    omega
  · simp_all [bytes]
  · rw [List.length_drop]
    omega
  · simp_all [bytes]
  · exact hpos
  · have hfirst := firstSegment_pos ‹¬input = []›
    rw [List.length_drop]
    omega

/-- Section 5.2.4. -/
def removeDotSegments (path : Bytes) : Bytes := removeDots path []

/-- Section 5.2.3. -/
def merge (base : Reference) (path : Bytes) : Bytes :=
  if base.authority.isSome ∧ base.path = [] then '/'.toUInt8 :: path
  else base.path.rdropWhile (· ≠ '/'.toUInt8) ++ path

/-- Section 5.2.2. -/
def transform (base r : Reference) : Reference :=
  if r.scheme.isSome then { r with path := removeDotSegments r.path }
  else if r.authority.isSome then
    { r with scheme := base.scheme, path := removeDotSegments r.path }
  else if r.path = [] then
    { base with query := if r.query.isSome then r.query else base.query, fragment := r.fragment }
  else
    { base with
      path :=
        if r.path.head? = some '/'.toUInt8 then removeDotSegments r.path
        else removeDotSegments (merge base r.path)
      query := r.query
      fragment := r.fragment }

/-! ### Segments -/

section

variable {s d rest : Bytes}

/-- A text that is empty or begins with a slash: what can follow a segment. -/
def Rest (rest : Bytes) : Prop := rest = [] ∨ rest.head? = some '/'.toUInt8

theorem Rest.noHead (h : Rest rest) : NoHead (fun c => decide (c ≠ '/'.toUInt8)) rest := by
  intro c hc
  rcases h with rfl | h
  · cases hc
  · obtain rfl : '/'.toUInt8 = c := by
      rw [h] at hc
      simpa using hc
    decide

theorem takeWhile_segment (hs : '/'.toUInt8 ∉ s) (h : Rest rest) :
    (s ++ rest).takeWhile (· ≠ '/'.toUInt8) = s := by
  refine takeWhile_append_of_noHead ?_ h.noHead
  intro c hc
  rw [decide_eq_true_eq]
  rintro rfl
  exact hs hc

theorem segment_prefix (hd : '/'.toUInt8 ∉ d) (hs : '/'.toUInt8 ∉ s) (h : Rest rest) :
    d ++ ['/'.toUInt8] <+: s ++ rest ↔ s = d ∧ rest ≠ [] := by
  constructor
  · rintro ⟨tail, htail⟩
    rw [List.append_assoc] at htail
    have hseg := congrArg (List.takeWhile (· ≠ '/'.toUInt8)) htail
    rw [takeWhile_segment hd (Or.inr rfl), takeWhile_segment hs h] at hseg
    subst hseg
    rw [List.append_cancel_left_eq] at htail
    exact ⟨rfl, by rw [← htail]; simp⟩
  · rintro ⟨rfl, hne⟩
    rcases h with h | h
    · exact absurd h hne
    · cases rest with
      | nil => exact absurd rfl hne
      | cons c rest =>
          obtain rfl : c = '/'.toUInt8 := by simpa using h
          exact ⟨rest, by simp⟩

theorem eq_segment (hd : '/'.toUInt8 ∉ d) (hs : '/'.toUInt8 ∉ s) (h : Rest rest) :
    s ++ rest = d ↔ s = d ∧ rest = [] := by
  constructor
  · intro heq
    have hseg := congrArg (List.takeWhile (· ≠ '/'.toUInt8)) heq
    have hd' := takeWhile_segment hd (Or.inl rfl)
    rw [List.append_nil] at hd'
    rw [takeWhile_segment hs h, hd'] at hseg
    subst hseg
    exact ⟨rfl, List.append_right_eq_self.mp heq⟩
  · rintro ⟨rfl, rfl⟩
    simp

end

theorem removeDots_segment {s rest : Bytes} (hs : '/'.toUInt8 ∉ s) (h : Rest rest) (output : Bytes) :
    removeDots ('/'.toUInt8 :: (s ++ rest)) output =
      if s = bytes "." then removeDots (if rest = [] then bytes "/" else rest) output
      else if s = bytes ".." then
        removeDots (if rest = [] then bytes "/" else rest) (removeLast output)
      else removeDots rest (output ++ '/'.toUInt8 :: s) := by
  have hdot {d : Bytes} : ¬('.'.toUInt8 :: d <+: '/'.toUInt8 :: (s ++ rest)) := by
    rw [List.cons_prefix_cons]
    exact fun h => absurd h.1 (by decide)
  have hA : ¬bytes "../" <+: '/'.toUInt8 :: (s ++ rest) ∧ ¬bytes "./" <+: '/'.toUInt8 :: (s ++ rest) :=
    ⟨hdot, hdot⟩
  have hpre {d : Bytes} (hd : '/'.toUInt8 ∉ d) :
      '/'.toUInt8 :: (d ++ ['/'.toUInt8]) <+: '/'.toUInt8 :: (s ++ rest) ↔ s = d ∧ rest ≠ [] := by
    rw [List.cons_prefix_cons, segment_prefix hd hs h, and_iff_right rfl]
  have heq {d : Bytes} (hd : '/'.toUInt8 ∉ d) :
      '/'.toUInt8 :: (s ++ rest) = '/'.toUInt8 :: d ↔ s = d ∧ rest = [] := by
    rw [List.cons_inj_right, eq_segment hd hs h]
  have hpre1 : bytes "/./" <+: '/'.toUInt8 :: (s ++ rest) ↔ s = bytes "." ∧ rest ≠ [] :=
    hpre (d := bytes ".") (by decide)
  have hpre2 : bytes "/../" <+: '/'.toUInt8 :: (s ++ rest) ↔ s = bytes ".." ∧ rest ≠ [] :=
    hpre (d := bytes "..") (by decide)
  have heq1 : '/'.toUInt8 :: (s ++ rest) = bytes "/." ↔ s = bytes "." ∧ rest = [] :=
    heq (d := bytes ".") (by decide)
  have heq2 : '/'.toUInt8 :: (s ++ rest) = bytes "/.." ↔ s = bytes ".." ∧ rest = [] :=
    heq (d := bytes "..") (by decide)
  have hD : ¬('/'.toUInt8 :: (s ++ rest) = bytes "." ∨ '/'.toUInt8 :: (s ++ rest) = bytes "..") := by
    rintro (hd | hd)
    · exact absurd (List.cons.inj hd).1 (by decide)
    · exact absurd (List.cons.inj hd).1 (by decide)
  have hfirst : firstSegment ('/'.toUInt8 :: (s ++ rest)) = '/'.toUInt8 :: s := by
    rw [firstSegment, takeWhile_segment hs h]
  rw [removeDots, if_neg (List.cons_ne_nil _ _), if_neg hA.1, if_neg hA.2]
  simp only [hpre1, hpre2, heq1, heq2, if_neg hD, hfirst]
  by_cases h1 : s = bytes "."
  · by_cases hr : rest = []
    · simp [h1, hr]
    · simp only [h1, hr, true_and, ne_eq, not_false_eq_true, if_true, if_false]
      rfl
  · by_cases h2 : s = bytes ".."
    · by_cases hr : rest = []
      · simp only [h2, hr, true_and, ne_eq, if_true]
        rfl
      · simp only [h2, hr, true_and, ne_eq, not_false_eq_true, if_true, if_false]
        rfl
    · simp [h1, h2]

/-- Every segment with a slash before it. -/
def rooted (segs : List Bytes) : Bytes := segs.flatMap ('/'.toUInt8 :: ·)

theorem rooted_cons (s : Bytes) (segs : List Bytes) :
    rooted (s :: segs) = '/'.toUInt8 :: (s ++ rooted segs) := rfl

theorem rooted_append (segs segs' : List Bytes) : rooted (segs ++ segs') = rooted segs ++ rooted segs' := by
  simp [rooted]

theorem rooted_singleton (s : Bytes) : rooted [s] = '/'.toUInt8 :: s := by simp [rooted]

/-- What a segment does. -/
def kind (s : Bytes) : Kind :=
  if s = bytes ".." then .up else if s = bytes "." then .skip else .name

/-- The segment does not name a file. -/
def IsDir (s : Bytes) : Prop := s = [] ∨ s = bytes "." ∨ s = bytes ".."

instance (s : Bytes) : Decidable (IsDir s) := inferInstanceAs (Decidable (_ ∨ _))

/-- The segments of a path, without an empty one at its end. -/
def segments (ds : List Bytes) (n : Bytes) : List Bytes := if n = [] then ds else ds ++ [n]

theorem rdropWhile_segment {s : Bytes} (front : Bytes) (hs : '/'.toUInt8 ∉ s) :
    (front ++ '/'.toUInt8 :: s).rdropWhile (· ≠ '/'.toUInt8) = front ++ ['/'.toUInt8] := by
  have hrev : ∀ c ∈ s.reverse, (decide (c ≠ '/'.toUInt8)) = true := by
    intro c hc
    rw [decide_eq_true_eq]
    rintro rfl
    exact hs (List.mem_reverse.mp hc)
  have hslash : NoHead (fun c => decide (c ≠ '/'.toUInt8)) ('/'.toUInt8 :: front.reverse) :=
    noHead_cons (by decide)
  rw [List.rdropWhile, List.reverse_append, List.reverse_cons, List.append_assoc,
    List.singleton_append, dropWhile_append_of_noHead hrev hslash]
  simp

theorem removeLast_rooted {out : List Bytes} (h : ∀ s ∈ out, '/'.toUInt8 ∉ s) :
    removeLast (rooted out) = rooted out.dropLast := by
  rcases List.eq_nil_or_concat out with rfl | ⟨out, s, rfl⟩
  · rfl
  · have hs : '/'.toUInt8 ∉ s := h s (by simp)
    rw [List.concat_eq_append, removeLast, rooted_append, rooted_singleton, rdropWhile_segment _ hs,
      List.dropLast_concat, List.dropLast_concat]

theorem removeDots_rooted {ds out : List Bytes} {n : Bytes} (hds : ∀ s ∈ ds, '/'.toUInt8 ∉ s)
    (hout : ∀ s ∈ out, kind s = .name ∧ '/'.toUInt8 ∉ s) :
    removeDots (rooted ds ++ '/'.toUInt8 :: n) (rooted out) =
      removeDots ('/'.toUInt8 :: n) (rooted (ds.foldl (push kind true) out)) := by
  induction ds generalizing out with
  | nil => rfl
  | cons s ds ih =>
      have hs := hds s List.mem_cons_self
      have hds' : ∀ d ∈ ds, '/'.toUInt8 ∉ d := fun d hd => hds d (List.mem_cons_of_mem _ hd)
      have hrest : Rest (rooted ds ++ '/'.toUInt8 :: n) := by
        right
        cases ds with
        | nil => rfl
        | cons d ds => rfl
      have hne : rooted ds ++ '/'.toUInt8 :: n ≠ [] := by simp
      rw [rooted_cons, List.cons_append, List.append_assoc, removeDots_segment hs hrest,
        if_neg hne, List.foldl_cons]
      by_cases h1 : s = bytes "."
      · have hpush : push kind true out s = out := by simp [push, kind, h1, bytes]
        rw [if_pos h1, ih hds' hout, hpush]
      · by_cases h2 : s = bytes ".."
        · have hpush : push kind true out s = out.dropLast :=
            push_up_of_names (fun e he => (hout e he).1) (by rw [kind, if_pos h2])
          rw [if_neg h1, if_pos h2, removeLast_rooted fun e he => (hout e he).2,
            ih hds' fun e he => hout e (List.dropLast_subset _ he), hpush]
        · have hkind : kind s = .name := by rw [kind, if_neg h2, if_neg h1]
          have hpush : push kind true out s = out ++ [s] := by simp [push, hkind]
          have hnext : rooted out ++ '/'.toUInt8 :: s = rooted (out ++ [s]) := by
            rw [rooted_append, rooted_singleton]
          rw [if_neg h1, if_neg h2, hnext, hpush]
          refine ih hds' ?_
          intro e he
          rcases List.mem_append.mp he with he | he
          · exact hout e he
          · rw [List.mem_singleton.mp he]
            exact ⟨hkind, hs⟩

theorem removeDots_nil (output : Bytes) : removeDots [] output = output := by
  rw [removeDots, if_pos rfl]

theorem removeDots_slash (output : Bytes) : removeDots (bytes "/") output = output ++ bytes "/" := by
  have h := @removeDots_segment [] [] (by simp) (Or.inl rfl) output
  rw [if_neg (by decide), if_neg (by decide), removeDots_nil] at h
  exact h

/-- What the RFC makes of a path that begins with a slash. -/
theorem removeDotSegments_rooted {ds : List Bytes} {n : Bytes} (hds : ∀ s ∈ ds, '/'.toUInt8 ∉ s)
    (hn : '/'.toUInt8 ∉ n) :
    removeDotSegments (rooted ds ++ '/'.toUInt8 :: n) =
      rooted ((segments ds n).foldl (push kind true) []) ++ if IsDir n then bytes "/" else [] := by
  have hnames : ∀ s ∈ ds.foldl (push kind true) [], kind s = .name ∧ '/'.toUInt8 ∉ s := by
    intro s hs
    refine ⟨(Normal.nil.foldl ds).names s hs, ?_⟩
    rcases mem_foldl_push hs with hs | hs
    · cases hs
    · exact hds s hs
  have hfold := @removeDots_rooted ds [] n hds (by simp)
  have hlast := @removeDots_segment n [] hn (Or.inl rfl) (rooted (ds.foldl (push kind true) []))
  rw [List.append_nil, if_pos rfl] at hlast
  rw [removeDotSegments]
  show removeDots (rooted ds ++ '/'.toUInt8 :: n) (rooted []) = _
  rw [hfold, hlast, segments]
  by_cases h1 : n = bytes "."
  · subst h1
    have hkind : kind (bytes ".") = .skip := by decide
    have hdir : IsDir (bytes ".") := Or.inr (Or.inl rfl)
    have hne : ¬bytes "." = [] := by decide
    rw [if_pos rfl, removeDots_slash, if_neg hne, if_pos hdir, List.foldl_append, List.foldl_cons,
      List.foldl_nil]
    simp only [push, hkind]
  · by_cases h2 : n = bytes ".."
    · subst h2
      have hdir : IsDir (bytes "..") := Or.inr (Or.inr rfl)
      have hne : ¬bytes ".." = [] := by decide
      rw [if_neg h1, if_pos rfl, removeLast_rooted fun s hs => (hnames s hs).2, removeDots_slash,
        if_neg hne, if_pos hdir, List.foldl_append, List.foldl_cons, List.foldl_nil,
        push_up_of_names (fun s hs => (hnames s hs).1) (by decide)]
    · rw [if_neg h1, if_neg h2, removeDots_nil]
      by_cases h0 : n = []
      · subst h0
        have hdir : IsDir [] := Or.inl rfl
        rw [if_pos rfl, if_pos hdir]
        rfl
      · have hkind : kind n = .name := by rw [kind, if_neg h2, if_neg h1]
        have hdir : ¬IsDir n := by simp [IsDir, h0, h1, h2]
        rw [if_neg h0, if_neg hdir, List.foldl_append, List.foldl_cons, List.foldl_nil, List.append_nil]
        simp only [push, hkind]
        rw [rooted_append, rooted_singleton]

end RFC3986

namespace URI

open Poco.Lib

open RFC3986 (rooted segments kind IsDir)

/-! ### Segments of the code -/

/-- The segments of a path with a slash behind each, and its last segment. -/
def cut (path : Bytes) : List Bytes × Bytes := split (· == '/'.toUInt8) path

theorem join_cut (path : Bytes) : join '/'.toUInt8 (cut path).1 ++ (cut path).2 = path :=
  join_split _ path

theorem slash_not_mem_cut (path : Bytes) :
    (∀ s ∈ (cut path).1, '/'.toUInt8 ∉ s) ∧ '/'.toUInt8 ∉ (cut path).2 := by
  obtain ⟨hds, hn⟩ := split_no_sep (· == '/'.toUInt8) path
  constructor
  · intro s hs hmem
    simpa using hds s hs _ hmem
  · intro hmem
    simpa using hn _ hmem

theorem cut_rooted (path : Bytes) : cut ('/'.toUInt8 :: path) = ([] :: (cut path).1, (cut path).2) :=
  split_cons_sep (by simp)

theorem cons_join (ds : List Bytes) (n : Bytes) :
    '/'.toUInt8 :: (join '/'.toUInt8 ds ++ n) = rooted ds ++ '/'.toUInt8 :: n := by
  induction ds with
  | nil => rfl
  | cons d ds ih =>
      rw [RFC3986.rooted_cons, List.cons_append, List.append_assoc, ← ih]
      simp [join]

theorem rooted_cut (path : Bytes) :
    '/'.toUInt8 :: path = rooted (cut path).1 ++ '/'.toUInt8 :: (cut path).2 := by
  rw [← cons_join, join_cut]

/-- No segment is empty, except before a slash in front and behind a slash at the end. -/
def NoEmpty (path : Bytes) : Prop := ¬bytes "//" <:+: path

instance (path : Bytes) : Decidable (NoEmpty path) := inferInstanceAs (Decidable (¬_))

theorem NoEmpty.ne_nil {path : Bytes} (h : NoEmpty ('/'.toUInt8 :: path)) :
    ∀ s ∈ (cut path).1, s ≠ [] := by
  rintro s hs rfl
  apply h
  obtain ⟨ds, es, heq⟩ := List.append_of_mem hs
  -- the slash of the empty segment stands before the slash of the next one
  obtain ⟨tail, htail⟩ : ∃ tail, rooted es ++ '/'.toUInt8 :: (cut path).2 = '/'.toUInt8 :: tail := by
    rw [← cons_join]
    exact ⟨_, rfl⟩
  refine ⟨rooted ds, tail, ?_⟩
  rw [rooted_cut, heq, RFC3986.rooted_append, RFC3986.rooted_cons, List.nil_append, List.append_assoc,
    List.append_assoc, List.cons_append, htail]
  rfl

theorem NoEmpty.cons {path : Bytes} (h : NoEmpty path) (hpath : path.head? ≠ some '/'.toUInt8) :
    NoEmpty ('/'.toUInt8 :: path) := by
  rw [NoEmpty, List.infix_cons_iff]
  rintro (hpre | hinf)
  · cases path with
    | nil => simp [bytes] at hpre
    | cons c path => simp_all [bytes]
  · exact h hinf

theorem foldl_addSegment {ds out : List Bytes} (h : ∀ s ∈ ds, s ≠ []) :
    ds.foldl addSegment out = out ++ ds := by
  induction ds generalizing out with
  | nil => simp
  | cons d ds ih =>
      rw [List.foldl_cons, addSegment, if_pos (h d List.mem_cons_self),
        ih fun s hs => h s (List.mem_cons_of_mem _ hs)]
      simp

theorem getPathSegments_eq (path : Bytes) :
    getPathSegments path = addSegment ((cut path).1.foldl addSegment []) (cut path).2 := by
  rw [getPathSegments, scan_nil]
  rfl

theorem getPathSegments_cut {path : Bytes} (h : ∀ s ∈ (cut path).1, s ≠ []) :
    getPathSegments path = segments (cut path).1 (cut path).2 := by
  rw [getPathSegments_eq, foldl_addSegment h, List.nil_append, addSegment, segments, ite_not]

theorem getPathSegments_rooted (path : Bytes) :
    getPathSegments ('/'.toUInt8 :: path) = getPathSegments path := by
  rw [getPathSegments_eq, getPathSegments_eq, cut_rooted]
  rfl

/-- Which segment is the last one is seen at the last letter. -/
theorem getLast?_cut {path : Bytes} (h : path ≠ []) :
    path.getLast? = some '/'.toUInt8 ↔ (cut path).2 = [] := by
  have hjoin := join_cut path
  have hn := (slash_not_mem_cut path).2
  generalize cut path = p at *
  obtain ⟨ds, n⟩ := p
  rcases List.eq_nil_or_concat n with rfl | ⟨n, c, rfl⟩
  · rcases List.eq_nil_or_concat ds with rfl | ⟨ds, d, rfl⟩
    · exact absurd hjoin.symm h
    · simp [← hjoin, join]
  · have hc : c ≠ '/'.toUInt8 := by
      rintro rfl
      exact hn (by simp)
    simp [← hjoin, hc]

/-! ### Normalised paths -/

theorem normalizeSegment_eq {out : List Bytes} (h : ∀ s ∈ out, kind s = .name) (s : Bytes) :
    normalizeSegment true out s = push kind true out s := by
  rw [normalizeSegment]
  by_cases h2 : s = bytes ".."
  · have hlast : out.getLast? ≠ some (bytes "..") := fun hlast =>
      absurd (h _ (List.mem_of_getLast? hlast)) (by decide)
    rw [push_up_of_names h (by rw [kind, if_pos h2]), if_pos h2, if_neg hlast]
    cases out with
    | nil => rfl
    | cons d out => rfl
  · by_cases h1 : s = bytes "."
    · have hkind : kind s = .skip := by rw [kind, if_neg h2, if_pos h1]
      rw [if_neg h2, if_neg (not_not.mpr h1)]
      simp [push, hkind]
    · simp [push, kind, h1, h2]

theorem mergeSegment_eq {out : List Bytes} (h : ∀ s ∈ out, kind s = .name) (t : Bool) (s : Bytes) :
    mergeSegment (out, t) s = (push kind true out s, decide (kind s ≠ .name)) := by
  rw [mergeSegment]
  by_cases h2 : s = bytes ".."
  · rw [push_up_of_names h (by rw [kind, if_pos h2])]
    simp [h2, kind]
  · by_cases h1 : s = bytes "."
    · have hkind : kind s = .skip := by rw [kind, if_neg h2, if_pos h1]
      rw [if_neg h2, if_neg (not_not.mpr h1)]
      simp [push, hkind]
    · simp [push, kind, h1, h2]

theorem foldl_normalizeSegment (w : List Bytes) :
    w.foldl (normalizeSegment true) [] = w.foldl (push kind true) [] := by
  induction w using List.reverseRecOn with
  | nil => rfl
  | append_singleton w s ih =>
      have hnames := (Normal.nil.foldl w : Normal kind true _).names
      rw [List.foldl_append, List.foldl_append, ih, List.foldl_cons, List.foldl_nil,
        normalizeSegment_eq hnames]
      rfl

/-- The loop of `mergePath` remembers whether the last segment was a dot segment. -/
theorem foldl_mergeSegment (w : List Bytes) :
    w.foldl mergeSegment ([], false) =
      (w.foldl (push kind true) [], decide (∃ s ∈ w.getLast?, kind s ≠ .name)) := by
  induction w using List.reverseRecOn with
  | nil => rfl
  | append_singleton w s ih =>
      have hnames := (Normal.nil.foldl w : Normal kind true _).names
      rw [List.foldl_append, List.foldl_append, ih, List.foldl_cons, List.foldl_nil,
        mergeSegment_eq hnames]
      simp

theorem rooted_eq_intercalate {segs : List Bytes} (h : segs ≠ []) :
    rooted segs = '/'.toUInt8 :: ['/'.toUInt8].intercalate segs := by
  induction segs with
  | nil => exact absurd rfl h
  | cons s segs ih =>
      cases segs with
      | nil => simp [rooted]
      | cons d segs =>
          rw [RFC3986.rooted_cons, ih (List.cons_ne_nil _ _), List.intercalate_cons_cons]
          simp

theorem buildPath_leading (u : URI) (segs : List Bytes) (trailing : Bool) :
    u.buildPath segs true trailing =
      { u with _path := rooted segs ++ if trailing then bytes "/" else [] } := by
  cases segs with
  | nil => rfl
  | cons s segs =>
      rw [rooted_eq_intercalate (List.cons_ne_nil _ _)]
      rfl

theorem buildPath_relative {u : URI} (h : u._scheme ≠ []) (segs : List Bytes) (trailing : Bool) :
    u.buildPath segs false trailing =
      { u with _path := ['/'.toUInt8].intercalate segs ++ if trailing then bytes "/" else [] } := by
  cases segs with
  | nil => rfl
  | cons s segs =>
      simp only [buildPath, h, false_and, if_false, Bool.false_eq_true, List.nil_append]
      rfl

/-- The path that is left of segments above a root. -/
def normalPath (ds : List Bytes) (n : Bytes) (trailing : Bool) : Bytes :=
  rooted ((segments ds n).foldl (push kind true) []) ++ if trailing then bytes "/" else []

/-- The last segment of the path is a dot segment. -/
def EndsWithDots (path : Bytes) : Prop := (cut path).2 = bytes "." ∨ (cut path).2 = bytes ".."

instance (path : Bytes) : Decidable (EndsWithDots path) := inferInstanceAs (Decidable (_ ∨ _))

theorem rfc_removeDotSegments (path : Bytes) :
    RFC3986.removeDotSegments ('/'.toUInt8 :: path) =
      normalPath (cut path).1 (cut path).2 (IsDir (cut path).2) := by
  obtain ⟨hds, hn⟩ := slash_not_mem_cut path
  rw [rooted_cut, RFC3986.removeDotSegments_rooted hds hn, normalPath]
  simp only [decide_eq_true_eq]

theorem removeDotSegments_eq {u : URI} {path : Bytes} (hpath : u._path = '/'.toUInt8 :: path)
    (h : NoEmpty u._path) :
    u.removeDotSegments true =
      { u with _path := normalPath (cut path).1 (cut path).2 ((cut path).2 = []) } := by
  rw [hpath] at h
  have hne : '/'.toUInt8 :: path ≠ [] := List.cons_ne_nil _ _
  have hlast : ('/'.toUInt8 :: path).getLast? = some '/'.toUInt8 ↔ (cut path).2 = [] := by
    rw [getLast?_cut hne, cut_rooted]
  unfold removeDotSegments
  rw [if_neg (by rw [hpath]; exact hne)]
  simp only [hpath, hlast, List.head?_cons, decide_true, getPathSegments_rooted,
    getPathSegments_cut h.ne_nil, foldl_normalizeSegment, buildPath_leading, normalPath]

/-- The trailing slash is lost when the last segment is a dot segment, and only then. -/
theorem removeDotSegments_iff {u : URI} (hpath : u._path = [] ∨ u._path.head? = some '/'.toUInt8)
    (h : NoEmpty u._path) :
    (u.removeDotSegments true)._path = RFC3986.removeDotSegments u._path ↔ ¬EndsWithDots u._path := by
  rcases hpath with hnil | hhead
  · have hcut : ¬EndsWithDots [] := by decide
    have hcode : (u.removeDotSegments true)._path = [] := by
      rw [removeDotSegments, if_pos hnil, hnil]
    have hrfc : RFC3986.removeDotSegments [] = [] := RFC3986.removeDots_nil []
    rw [hcode, hnil, hrfc]
    exact iff_of_true rfl hcut
  · obtain ⟨path, hpath⟩ := List.head?_eq_some_iff.mp hhead
    have hdots : EndsWithDots u._path ↔ (cut path).2 = bytes "." ∨ (cut path).2 = bytes ".." := by
      rw [EndsWithDots, hpath, cut_rooted]
    rw [removeDotSegments_eq hpath h, hdots, hpath, rfc_removeDotSegments, normalPath, normalPath,
      List.append_cancel_left_eq]
    simp only [decide_eq_true_eq]
    by_cases hn : (cut path).2 = []
    · simp [hn, IsDir, bytes]
    · simp [hn, IsDir, bytes]

theorem removeDotSegments_frame (u : URI) :
    u.removeDotSegments true = { u with _path := (u.removeDotSegments true)._path } := by
  rw [removeDotSegments]
  split
  · rfl
  · rfl

theorem merge_trailing {path : Bytes} (hpath : path ≠ []) (h : ∀ s ∈ (cut path).1, s ≠ [])
    (segs : List Bytes) :
    (decide (path.getLast? = some '/'.toUInt8) ||
      decide (∃ s ∈ (segs ++ getPathSegments path).getLast?, kind s ≠ .name)) =
      decide (IsDir (cut path).2) := by
  rw [getPathSegments_cut h, Bool.or_eq_decide]
  simp only [getLast?_cut hpath, decide_eq_true_eq, segments]
  by_cases hn : (cut path).2 = []
  · simp [hn, IsDir]
  · by_cases h1 : (cut path).2 = bytes "."
    · simp [IsDir, kind, h1, bytes]
    · simp [hn, IsDir, kind, h1]

/-- What `mergePath` keeps of the path of the base. -/
def baseSegments (path : Bytes) : List Bytes :=
  if path ≠ [] then
    if path.getLast? ≠ some '/'.toUInt8 ∧ getPathSegments path ≠ [] then (getPathSegments path).dropLast
    else getPathSegments path
  else []

theorem baseSegments_rooted {path : Bytes} (h : NoEmpty ('/'.toUInt8 :: path)) :
    baseSegments ('/'.toUInt8 :: path) = (cut path).1 := by
  have hne : '/'.toUInt8 :: path ≠ [] := List.cons_ne_nil _ _
  rw [baseSegments, if_pos hne, getPathSegments_rooted, getPathSegments_cut h.ne_nil, segments]
  simp only [ne_eq, getLast?_cut hne, cut_rooted]
  by_cases hn : (cut path).2 = []
  · simp [hn]
  · simp [hn]

theorem mergePath_eq (u : URI) {path : Bytes} (hpath : path ≠ [])
    (hrel : path.head? ≠ some '/'.toUInt8) (h : ∀ s ∈ (cut path).1, s ≠ []) :
    u.mergePath path =
      u.buildPath (((baseSegments u._path) ++ segments (cut path).1 (cut path).2).foldl (push kind true) [])
        (decide (u._path.head? = some '/'.toUInt8)) (decide (IsDir (cut path).2)) := by
  rw [← merge_trailing hpath h (baseSegments u._path), ← getPathSegments_cut h]
  simp only [mergePath, foldl_mergeSegment, hrel, or_false]
  rfl

theorem segments_append (ds es : List Bytes) (n : Bytes) :
    ds ++ segments es n = segments (ds ++ es) n := by
  rw [segments, segments]
  split
  · rfl
  · rw [List.append_assoc]

/-! ### `resolve` and the RFC -/

/-- A component of the RFC; an empty one is not there. -/
def component (part : Bytes) : Option Bytes := if part = [] then none else some part

/-- The authority of a URI, as the RFC has it. -/
def authority (u : URI) : Option (Bytes × Bytes × ℕ) :=
  if u._userInfo = [] ∧ u._host = [] ∧ u._port = 0 then none
  else some (u._userInfo, u._host, u._port)

/-- The components of a URI, as the RFC has them. -/
def components (u : URI) : RFC3986.Reference :=
  ⟨component u._scheme, u.authority, u._path, component u._query, component u._fragment⟩

/-- A URI with a hierarchical path: one that begins with a slash, or is empty behind an authority. -/
def Hierarchical (u : URI) : Prop :=
  u._path.head? = some '/'.toUInt8 ∨ u._path = [] ∧ u.authority.isSome

/-- Behind an authority there is no path, or one that begins with a slash. -/
def PathFits (u : URI) : Prop :=
  u.authority.isSome → u._path = [] ∨ u._path.head? = some '/'.toUInt8

/-- When `resolve` does what the RFC says: a path that is not merged does not end with a dot segment,
a path that is merged is merged with one that is there (or nothing is left of it), and an authority
without a host is the one of the base. -/
def Resolves (b r : URI) : Prop :=
  if r._host ≠ [] then ¬EndsWithDots r._path
  else if r.authority.isSome then
    b.authority = r.authority ∧
      if r._path = [] then b._path = [] ∧ (r._query ≠ [] ∨ b._query = []) else ¬EndsWithDots r._path
  else if r._path.head? = some '/'.toUInt8 then ¬EndsWithDots r._path
  else r._path = [] ∨ b._path ≠ [] ∨ Falls kind (getPathSegments r._path)

instance (b r : URI) : Decidable (Resolves b r) := by
  unfold Resolves
  infer_instance

variable {b r : URI}

theorem mergePath_iff (hb : b._scheme ≠ []) (hhier : b.Hierarchical) (hbase : NoEmpty b._path)
    {path : Bytes} (hpath : path ≠ []) (hrel : path.head? ≠ some '/'.toUInt8) (h : NoEmpty path) :
    (b.mergePath path)._path = RFC3986.removeDotSegments (RFC3986.merge b.components path) ↔
      b._path ≠ [] ∨ Falls kind (getPathSegments path) := by
  have hes := (h.cons hrel).ne_nil
  rw [mergePath_eq b hpath hrel hes, getPathSegments_cut hes]
  rcases hhier with hhead | ⟨hnil, hauth⟩
  · obtain ⟨front, hfront⟩ := List.head?_eq_some_iff.mp hhead
    obtain ⟨hds, hn⟩ := slash_not_mem_cut front
    obtain ⟨hes', hm⟩ := slash_not_mem_cut path
    have hmerge : RFC3986.merge b.components path =
        rooted ((cut front).1 ++ (cut path).1) ++ '/'.toUInt8 :: (cut path).2 := by
      rw [RFC3986.merge, if_neg (by simp [components, hfront])]
      show b._path.rdropWhile (· ≠ '/'.toUInt8) ++ path = _
      rw [hfront, rooted_cut front, RFC3986.rdropWhile_segment _ hn, List.append_assoc,
        List.singleton_append, rooted_cut path, RFC3986.rooted_append, List.append_assoc]
    have hsegs : ∀ s ∈ (cut front).1 ++ (cut path).1, '/'.toUInt8 ∉ s := by
      intro s hs
      rcases List.mem_append.mp hs with hs | hs
      · exact hds s hs
      · exact hes' s hs
    rw [hfront] at hbase
    rw [hmerge, RFC3986.removeDotSegments_rooted hsegs hm, hfront, baseSegments_rooted hbase,
      segments_append, List.head?_cons, decide_eq_true rfl, buildPath_leading]
    simp
  · have hmerge : RFC3986.merge b.components path = '/'.toUInt8 :: path := by
      rw [RFC3986.merge, if_pos ⟨hauth, hnil⟩]
    have hhead : decide (b._path.head? = some '/'.toUInt8) = false := by simp [hnil]
    have hnone : baseSegments b._path = [] := by rw [hnil, baseSegments, if_neg (not_not.mpr rfl)]
    rw [hmerge, rfc_removeDotSegments, normalPath, hhead, hnone, buildPath_relative hb, List.nil_append,
      ← foldl_root_eq_nil, List.append_cancel_right_eq]
    generalize (segments (cut path).1 (cut path).2).foldl (push kind true) [] = segs
    cases segs with
    | nil => simp [rooted]
    | cons s segs =>
        rw [rooted_eq_intercalate (List.cons_ne_nil _ _)]
        simp [hnil, List.ne_cons_self]

theorem reference_eq_iff {t t' : RFC3986.Reference} (h : { t with path := [] } = { t' with path := [] }) :
    t = t' ↔ t.path = t'.path := by
  constructor
  · rintro rfl
    rfl
  · intro hpath
    cases t
    cases t'
    simp_all

theorem authority_isSome (h : r._host ≠ []) : r.authority.isSome = true := by
  simp [authority, h]

theorem transform_authority (hr : r._scheme = []) (hauth : r.authority.isSome = true) :
    RFC3986.transform b.components r.components =
      ⟨component b._scheme, r.authority, RFC3986.removeDotSegments r._path, component r._query,
        component r._fragment⟩ := by
  have hscheme : ¬r.components.scheme.isSome = true := by simp [components, component, hr]
  have hauth' : r.components.authority.isSome = true := hauth
  rw [RFC3986.transform, if_neg hscheme, if_pos hauth']
  rfl

theorem resolve_host_iff (hr : r._scheme = []) (hhost : r._host ≠ []) (hfits : r.PathFits)
    (href : NoEmpty r._path) :
    (b.resolve r).components = RFC3986.transform b.components r.components ↔
      ¬EndsWithDots r._path := by
  have hauth := authority_isSome hhost
  have hcode : b.resolve r =
      { r with
        _scheme := b._scheme
        _path :=
          (removeDotSegments { r with _scheme := b._scheme, _fragment := b._fragment } true)._path } := by
    rw [resolve, if_neg (not_not.mpr hr), if_pos hhost, removeDotSegments_frame]
  have hiff := @removeDotSegments_iff { r with _scheme := b._scheme, _fragment := b._fragment }
    (hfits hauth) href
  rw [hcode, transform_authority hr hauth, ← hiff]
  exact reference_eq_iff rfl

/-- What `resolve` does with a reference without a host. -/
theorem resolve_of_path (hr : r._scheme = []) (hhost : r._host = []) (hpath : r._path ≠ []) :
    b.resolve r =
      { b with
        _path :=
          if r._path.head? = some '/'.toUInt8 then (removeDotSegments { b with _path := r._path } true)._path
          else (b.mergePath r._path)._path
        _query := r._query
        _fragment := r._fragment } := by
  rw [resolve, if_neg (not_not.mpr hr), if_neg (not_not.mpr hhost), if_neg hpath]
  split
  · rw [removeDotSegments_frame]
  · rfl

theorem resolve_of_no_path (hr : r._scheme = []) (hhost : r._host = []) (hpath : r._path = []) :
    b.resolve r =
      { b with
        _query := if r._query ≠ [] then r._query else b._query
        _fragment := r._fragment } := by
  rw [resolve, if_neg (not_not.mpr hr), if_neg (not_not.mpr hhost), if_pos hpath]
  split
  · rfl
  · rfl

theorem resolve_authority_iff (hr : r._scheme = []) (hhost : r._host = [])
    (hauth : r.authority.isSome = true) (hfits : r.PathFits) (href : NoEmpty r._path) :
    (b.resolve r).components = RFC3986.transform b.components r.components ↔
      b.authority = r.authority ∧
        if r._path = [] then b._path = [] ∧ (r._query ≠ [] ∨ b._query = [])
        else ¬EndsWithDots r._path := by
  rw [transform_authority hr hauth]
  by_cases hpath : r._path = []
  · have hrds : RFC3986.removeDotSegments [] = [] := RFC3986.removeDots_nil []
    have hquery : component (if r._query ≠ [] then r._query else b._query) = component r._query ↔
        r._query ≠ [] ∨ b._query = [] := by
      by_cases h : r._query = []
      · simp [h, component]
      · simp [h]
    rw [resolve_of_no_path hr hhost hpath, if_pos hpath, hpath, hrds, components,
      RFC3986.Reference.mk.injEq, hquery]
    constructor
    · rintro ⟨-, hauth, hnil, hq, -⟩
      exact ⟨hauth, hnil, hq⟩
    · rintro ⟨hauth, hnil, hq⟩
      exact ⟨rfl, hauth, hnil, hq, rfl⟩
  · have hhead := (hfits hauth).resolve_left hpath
    have hiff := @removeDotSegments_iff { b with _path := r._path } (Or.inr hhead) href
    rw [resolve_of_path hr hhost hpath, if_pos hhead, if_neg hpath, ← hiff, components,
      RFC3986.Reference.mk.injEq]
    constructor
    · rintro ⟨-, hauth, hpaths, -, -⟩
      exact ⟨hauth, hpaths⟩
    · rintro ⟨hauth, hpaths⟩
      exact ⟨rfl, hauth, hpaths, rfl, rfl⟩

theorem resolve_path_iff (hb : b._scheme ≠ []) (hhier : b.Hierarchical) (hbase : NoEmpty b._path)
    (hr : r._scheme = []) (hhost : r._host = []) (hauth : ¬r.authority.isSome = true)
    (href : NoEmpty r._path) :
    (b.resolve r).components = RFC3986.transform b.components r.components ↔
      if r._path.head? = some '/'.toUInt8 then ¬EndsWithDots r._path
      else r._path = [] ∨ b._path ≠ [] ∨ Falls kind (getPathSegments r._path) := by
  have hscheme : ¬r.components.scheme.isSome = true := by simp [components, component, hr]
  have hauth' : ¬r.components.authority.isSome = true := hauth
  have hpath' : r.components.path = r._path := rfl
  rw [RFC3986.transform, if_neg hscheme, if_neg hauth', hpath']
  by_cases hpath : r._path = []
  · have hquery : component (if r._query ≠ [] then r._query else b._query) =
        if (component r._query).isSome then component r._query else component b._query := by
      by_cases h : r._query = []
      · simp [h, component]
      · simp [h, component]
    have hhead : ¬r._path.head? = some '/'.toUInt8 := by simp [hpath]
    rw [resolve_of_no_path hr hhost hpath, if_pos hpath, components, hquery, if_neg hhead]
    exact iff_of_true rfl (Or.inl hpath)
  · rw [resolve_of_path hr hhost hpath, if_neg hpath]
    refine Iff.trans (reference_eq_iff ?_) ?_
    · rfl
    by_cases hhead : r._path.head? = some '/'.toUInt8
    · simp only [if_pos hhead]
      exact @removeDotSegments_iff { b with _path := r._path } (Or.inr hhead) href
    · simp only [if_neg hhead]
      rw [or_iff_right hpath, ← mergePath_iff hb hhier hbase hpath hhead href]
      rfl

/-- **Main result.** `resolve` against the algorithm of the RFC. -/
theorem resolve_iff (hb : b._scheme ≠ []) (hhier : b.Hierarchical) (hr : r._scheme = [])
    (hfits : r.PathFits) (hbase : NoEmpty b._path) (href : NoEmpty r._path) :
    (b.resolve r).components = RFC3986.transform b.components r.components ↔ Resolves b r := by
  rw [Resolves]
  by_cases hhost : r._host = []
  · rw [if_neg (not_not.mpr hhost)]
    by_cases hauth : r.authority.isSome = true
    · rw [if_pos hauth]
      exact resolve_authority_iff hr hhost hauth hfits href
    · rw [if_neg hauth]
      exact resolve_path_iff hb hhier hbase hr hhost hauth href
  · rw [if_pos hhost]
    exact resolve_host_iff hr hhost hfits href

/-- The base of the examples in the RFC. -/
def rfcBase : URI :=
  { _scheme := bytes "http", _host := bytes "a", _path := bytes "/b/c/d;p", _query := bytes "q" }

theorem resolve_iff_dots_and_name :
    ((rfcBase.resolve { _path := bytes "../../g", _fragment := bytes "s" }).components =
      RFC3986.transform rfcBase.components
        (components { _path := bytes "../../g", _fragment := bytes "s" })) ∧
      (rfcBase.resolve { _path := bytes "../../g", _fragment := bytes "s" })._path = bytes "/g" :=
  ⟨(resolve_iff (by decide) (Or.inl rfl) rfl (by simp [PathFits, authority]) (by decide)
      (by decide)).mpr (by decide), by decide⟩

/-- A final dot segment leaves a slash in the RFC and none in the code, and the code merges a path
with no path to one that does not begin with a slash. -/
theorem resolve_loses_slash :
    (rfcBase.resolve { _path := bytes "/g/." })._path = bytes "/g" ∧
      (RFC3986.transform rfcBase.components (components { _path := bytes "/g/." })).path = bytes "/g/" ∧
      (resolve { _scheme := bytes "http", _host := bytes "a" } { _path := bytes "g" })._path = bytes "g" ∧
      (RFC3986.transform (components { _scheme := bytes "http", _host := bytes "a" })
        (components { _path := bytes "g" })).path = bytes "/g" := by
  have hdot : RFC3986.removeDotSegments (bytes "/g/.") = bytes "/g/" :=
    (rfc_removeDotSegments (bytes "g/.")).trans (by decide)
  have hname : RFC3986.removeDotSegments (bytes "/g") = bytes "/g" :=
    (rfc_removeDotSegments (bytes "g")).trans (by decide)
  exact ⟨by decide, hdot, by decide, hname⟩

end URI

end Poco.Foundation
