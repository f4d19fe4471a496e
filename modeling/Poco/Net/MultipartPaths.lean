import Poco.Net.MultipartRoundTrip

/-! # The two ways of reading a part

A part whose header gives its length is copied, a part without is searched for its delimiter.  For a
part that has exactly this length, and in which no delimiter begins before the one behind it, both
deliver the same bytes; but what stands behind the boundary is handled by different code.
`agree_iff` says when the decision about the last part and the position in the stream are the
same. -/

namespace Poco.Net

open Poco.Lib

namespace ReadWindow

theorem sbumpc_rest (w : ReadWindow) : w.sbumpc.1 = w.rest.head? ∧ w.sbumpc.2.rest = w.rest.tail := by
  cases h : w.rest with
  | nil =>
      have hrefill : w.refill.rest = [] := by rw [rest_refill, h]
      have hahead : w.refill.ahead = [] := (List.append_eq_nil_iff.mp hrefill).1
      rw [sbumpc_eq, hahead]
      exact ⟨rfl, hrefill⟩
  | cons c tl =>
      obtain ⟨hbump, hrest⟩ := sbumpc_spec h
      rw [hbump]
      exact ⟨rfl, hrest⟩

theorem sgetc_rest (w : ReadWindow) : w.sgetc.1 = w.rest.head? ∧ w.sgetc.2.rest = w.rest := by
  have hget : w.sgetc = (w.refill.ahead.head?, w.refill) := rfl
  rw [hget]
  refine ⟨?_, rest_refill w⟩
  cases h : w.rest with
  | nil =>
      have hrefill : w.refill.rest = [] := by rw [rest_refill, h]
      rw [(List.append_eq_nil_iff.mp hrefill).1]
  | cons c tl =>
      obtain ⟨ahead, hahead, -⟩ := refill_cons h
      rw [hahead]
      rfl

theorem rest_consume {w : ReadWindow} {n : ℕ} (h : n ≤ w.ahead.length) :
    (w.consume n).rest = w.rest.drop n := by
  rw [rest, rest, consume, List.drop_append_of_le_length h]

end ReadWindow

namespace MultipartStreamBuf

open ReadWindow

/-! ### What stands behind a boundary -/

/-- What `consumePostBoundaryDelimiter` makes of the bytes behind a boundary: whether the part was
the last one, and the bytes that remain. -/
def postBoundary : List UInt8 → Bool × List UInt8
  | [] => (true, [])
  | c :: tl =>
      if c = chr '-' then (true, if tl.head? = some (chr '-') then tl.tail else tl)
      else if c = chr '\r' then if tl.head? = some (chr '\n') then (false, tl.tail) else (true, tl)
      else if c = chr '\n' then (false, tl)
      else (true, tl)

/-- What the scan makes of them when the window holds `k` of these bytes. -/
def inWindow (k : ℕ) : List UInt8 → Bool × List UInt8
  | [] => (true, [])
  | c :: tl =>
      if k = 0 then postBoundary (c :: tl)
      else if c = chr '-' then (true, if 2 ≤ k ∧ tl.head? = some (chr '-') then tl.tail else tl)
      else if c = chr '\r' ∧ 2 ≤ k ∧ tl.head? = some (chr '\n') then (false, tl.tail)
      else if c = chr '\n' then (false, tl)
      else (true, c :: tl)

/-- Another part follows behind the boundary. -/
def Continues (tl : List UInt8) : Prop :=
  tl.head? = some (chr '\n') ∨ tl.head? = some (chr '\r') ∧ tl.tail.head? = some (chr '\n')

/-- The bytes behind the boundary that belong to its line are all in the window, which holds `k`
bytes there, or none of them is. -/
def Together (k : ℕ) (tl : List UInt8) : Prop :=
  k = 0 ∨ tl.head? = some (chr '\n') ∨
    tl.head? = some (chr '-') ∧ (tl.tail.head? = some (chr '-') → 2 ≤ k) ∨
    (tl.head? = some (chr '\r') ∧ tl.tail.head? = some (chr '\n')) ∧ 2 ≤ k

instance (tl : List UInt8) : Decidable (Continues tl) := inferInstanceAs (Decidable (_ ∨ _))

instance (k : ℕ) (tl : List UInt8) : Decidable (Together k tl) := inferInstanceAs (Decidable (_ ∨ _))

/-- The bytes that a boundary line can continue with are different ones. -/
theorem lineBytes_ne : chr '-' ≠ chr '\r' ∧ chr '-' ≠ chr '\n' ∧ chr '\r' ≠ chr '\n' := by decide

theorem postBoundary_fst (tl : List UInt8) : (postBoundary tl).1 = false ↔ Continues tl := by
  obtain ⟨h1, h2, h3⟩ := lineBytes_ne
  cases tl with
  | nil => simp [postBoundary, Continues]
  | cons c tl =>
      simp only [postBoundary, Continues, List.head?_cons, List.tail_cons, Option.some.injEq]
      grind

/-- When both ways of handling the end of a line come to the same. -/
theorem inWindow_iff (lost : Bool) (k : ℕ) (tl : List UInt8) (hnil : tl = [] → k = 0) :
    ((postBoundary tl).1 = (lost || (inWindow k tl).1) ∧ (postBoundary tl).2 = (inWindow k tl).2) ↔
      (lost = true → ¬ Continues tl) ∧ Together k tl := by
  obtain ⟨h1, h2, h3⟩ := lineBytes_ne
  rw [← postBoundary_fst]
  cases tl with
  | nil =>
      simp [postBoundary, inWindow, Together, hnil rfl]
  | cons c tl =>
      have hne : tl ≠ c :: tl := fun h => by simpa using congrArg List.length h
      have htail : tl.head? = some (chr '-') → tl.tail ≠ tl := by
        intro h
        cases tl with
        | nil => cases h
        | cons d tl => exact fun h => by simpa using congrArg List.length h
      by_cases hk : k = 0
      · have hsame : inWindow k (c :: tl) = postBoundary (c :: tl) := if_pos hk
        rw [hsame]
        cases lost with
        | false => simp [Together, hk]
        | true => simp [Together, hk]
      · simp only [inWindow, if_neg hk, postBoundary, Together, List.head?_cons, List.tail_cons,
          Option.some.injEq]
        by_cases hdash : c = chr '-'
        · simp only [if_pos hdash]
          grind
        · by_cases hcr : c = chr '\r'
          · simp only [if_neg hdash, if_pos hcr]
            grind
          · by_cases hlf : c = chr '\n'
            · simp only [if_neg hdash, if_neg hcr, if_pos hlf]
              grind
            · simp only [if_neg hdash, if_neg hcr, if_neg hlf]
              grind

variable {b : MultipartStreamBuf} {cr : Bool} {content tl : List UInt8}

theorem consumePostBoundaryDelimiter_rest (h : b.win.rest = tl) :
    b.consumePostBoundaryDelimiter._lastPart = (b._lastPart || (postBoundary tl).1) ∧
      b.consumePostBoundaryDelimiter.win.rest = (postBoundary tl).2 := by
  obtain ⟨hch, hwin⟩ := sbumpc_rest b.win
  rw [h] at hch hwin
  obtain ⟨hnext, hlook⟩ := sgetc_rest b.win.sbumpc.2
  obtain ⟨-, hsecond⟩ := sbumpc_rest b.win.sbumpc.2.sgetc.2
  rw [hlook] at hsecond
  rw [hwin] at hnext hlook hsecond
  unfold consumePostBoundaryDelimiter
  dsimp only
  rw [hch, hnext]
  cases tl with
  | nil => simpa [postBoundary] using hwin
  | cons c tl =>
      simp only [postBoundary, List.head?_cons, List.tail_cons, Option.some.injEq] at *
      by_cases hdash : c = chr '-'
      · rw [if_pos hdash, if_pos hdash]
        by_cases htwo : tl.head? = some (chr '-')
        · simpa [htwo] using hsecond
        · simpa [htwo] using hlook
      · rw [if_neg hdash, if_neg hdash]
        by_cases hcr : c = chr '\r'
        · rw [if_pos hcr, if_pos hcr]
          by_cases hlf : tl.head? = some (chr '\n')
          · simpa [hlf] using hsecond
          · simpa [hlf] using hlook
        · rw [if_neg hcr, if_neg hcr]
          by_cases hlf : c = chr '\n'
          · simpa [hlf] using hwin
          · simpa [hlf] using hwin

/-- The bytes behind a boundary that has been found in the window. -/
theorem consumeBoundary_rest (h : b.win.rest = delimiterOf cr b._boundary ++ tl)
    (hin : (delimiterOf cr b._boundary).length ≤ b.win.ahead.length) {k : ℕ}
    (hk : k = b.win.ahead.length - (delimiterOf cr b._boundary).length) :
    b.consumeBoundary._lastPart = (b._lastPart || (inWindow k tl).1) ∧
      b.consumeBoundary.win.rest = (inWindow k tl).2 := by
  have hpos := consumeBoundary_pos h hin
  generalize hd : delimiterOf cr b._boundary = d at *
  have hrest : ∀ n, d.length + n ≤ b.win.ahead.length →
      (b.win.consume (d.length + n)).rest = tl.drop n := by
    intro n hn
    rw [rest_consume hn, h, List.drop_append, List.drop_eq_nil_of_le (by omega), List.nil_append,
      Nat.add_sub_cancel_left]
  have hat : ∀ n, d.length + n < b.win.ahead.length →
      b.win.ahead.getD (d.length + n) 0 = tl.getD n 0 := by
    intro n hn
    rw [ahead_getD hn, h, List.getD_append_right _ _ _ _ (by omega), Nat.add_sub_cancel_left]
  unfold consumeBoundary
  dsimp only
  rw [hpos, available]
  by_cases hlt : d.length < b.win.ahead.length
  · have hlen : b.win.ahead.length ≤ d.length + tl.length := by
      have := congrArg List.length h
      rw [rest, List.length_append, List.length_append] at this
      omega
    cases tl with
    | nil =>
        rw [List.length_nil] at hlen
        omega
    | cons c tl =>
        have hfirst : b.win.ahead.getD d.length 0 = c := hat 0 hlt
        have hsecond : ∀ x, (d.length + 1 < b.win.ahead.length ∧
            b.win.ahead.getD (d.length + 1) 0 = x) ↔ 2 ≤ k ∧ tl.head? = some x := by
          intro x
          have htwo : 2 ≤ k ↔ d.length + 1 < b.win.ahead.length := by omega
          rw [htwo]
          refine and_congr_right fun hlt => ?_
          rw [hat 1 hlt]
          cases tl with
          | nil =>
              rw [List.length_singleton] at hlen
              omega
          | cons d tl => simp
        have hk0 : k ≠ 0 := by omega
        simp only [inWindow, if_neg hk0, if_pos hlt, hfirst, hsecond]
        by_cases hdash : c = chr '-'
        · simp only [if_pos hdash]
          refine ⟨by simp, ?_⟩
          by_cases htwo : 2 ≤ k ∧ tl.head? = some (chr '-')
          · rw [if_pos htwo, if_pos htwo, hrest 2 (by omega), List.drop_succ_cons, List.drop_one]
          · rw [if_neg htwo, if_neg htwo, hrest 1 (by omega), List.drop_succ_cons, List.drop_zero]
        · simp only [if_neg hdash]
          by_cases hcr : c = chr '\r' ∧ 2 ≤ k ∧ tl.head? = some (chr '\n')
          · simp only [if_pos hcr]
            refine ⟨by simp, ?_⟩
            rw [hrest 2 (by omega), List.drop_succ_cons, List.drop_one]
          · simp only [if_neg hcr]
            by_cases hlf : c = chr '\n'
            · simp only [if_pos hlf]
              refine ⟨by simp, ?_⟩
              rw [hrest 1 (by omega), List.drop_succ_cons, List.drop_zero]
            · simp only [if_neg hlf]
              refine ⟨by simp, ?_⟩
              exact hrest 0 hin
  · obtain rfl : k = 0 := by omega
    rw [if_neg hlt, Nat.min_eq_left hin]
    have hend := consumePostBoundaryDelimiter_rest
      (b := { b with win := b.win.consume d.length }) (hrest 0 hin)
    rw [List.drop_zero] at hend
    have hsame : inWindow 0 tl = postBoundary tl := by cases tl <;> rfl
    rw [hsame]
    exact hend

/-! ### A part that is copied -/

/-- Behind the last byte the delimiter is expected, with its carriage return or without. -/
theorem endOfContent_rest (h : b.win.rest = delimiterOf cr b._boundary ++ tl) :
    ∃ w : ReadWindow, w.rest = tl ∧ b.endOfContent =
      (some [], { consumePostBoundaryDelimiter { b with win := w } with _boundaryFound := true }) := by
  cases cr with
  | true =>
      refine ⟨skip (b._boundary.length + 4) b.win, ?_, endOfContent_eq h⟩
      have hlen : (delimiterOf true b._boundary).length = b._boundary.length + 4 := length_delimiter
      rw [← hlen]
      exact rest_skip h
  | false =>
      have hmark : b.win.sgetc.2.rest = mark b._boundary ++ tl := by rw [(sgetc_rest b.win).2, h]; rfl
      have hlf : b.win.sgetc.1 ≠ some (chr '\r') := by
        have hhead : (delimiterOf false b._boundary ++ tl).head? = some (chr '\n') := rfl
        rw [(sgetc_rest b.win).1, h, hhead]
        decide
      refine ⟨_, rest_skip hmark, ?_⟩
      unfold endOfContent
      dsimp only
      rw [if_neg hlf, show ascii "\n--" ++ b._boundary = mark b._boundary from rfl, expect_spec hmark]

theorem readAll_known_rest {rounds : ℕ}
    (hrest : b.win.rest = content ++ (delimiterOf cr b._boundary ++ tl))
    (hknown : b._contentLength = some (b._bytesRead + content.length))
    (hfound : b._boundaryFound = false) (hrounds : content.length < rounds) :
    (readAll rounds b).1 = content ∧
      (readAll rounds b).2._lastPart = (b._lastPart || (postBoundary tl).1) ∧
      (readAll rounds b).2.win.rest = (postBoundary tl).2 := by
  obtain ⟨r, hcopies⟩ := readAll_copies hrest hknown hfound hrounds
  have hread := hcopies _ rfl
  generalize hb' : ({ b with
    win := skip content.length b.win
    _bytesRead := b._bytesRead + content.length } : MultipartStreamBuf) = b' at hread
  have hend : b'.readFromDevice (STREAM_BUFFER_SIZE - 4) = b'.endOfContent := by
    subst hb'
    rw [readFromDevice, if_neg (by simp [hfound]), readContent, hknown]
    dsimp only
    rw [if_neg (lt_irrefl _)]
  obtain ⟨w, hw, hdelimiter⟩ : ∃ w : ReadWindow, w.rest = tl ∧ b'.endOfContent =
      (some [], { consumePostBoundaryDelimiter { b' with win := w } with _boundaryFound := true }) := by
    have hrest' : b'.win.rest = delimiterOf cr b'._boundary ++ tl := by
      subst hb'
      exact rest_skip hrest
    exact endOfContent_rest hrest'
  rw [hdelimiter] at hend
  have hlast := consumePostBoundaryDelimiter_rest (b := { b' with win := w }) hw
  rw [hread, readAll_of_found hend rfl]
  subst hb'
  exact ⟨List.append_nil _, hlast⟩

end MultipartStreamBuf

/-! ### A part that is scanned, in lengths -/

namespace WindowSize

/-- The lengths of the window when a delimiter of `delim` bytes behind `content` bytes is handled;
every call copies at most `length` bytes.  A full window that has no more than `patLen` bytes and
not the whole delimiter is taken for the end of the stream (`lost`); there is no result when it
reaches into the delimiter. -/
def scan (patLen delim length : ℕ) : ℕ → ℕ → Bool → WindowSize → Option (WindowSize × Bool)
  | 0, _, _, _ => none
  | rounds + 1, content, lost, z =>
      let z := z.fill
      if content + delim ≤ z.ahead then
        let n := min content length
        if n = content then some (z.consume n, lost)
        else scan patLen delim length rounds (content - n) lost (z.consume n)
      else if patLen < z.ahead then
        let n := min (z.ahead - patLen) length
        scan patLen delim length rounds (content - n) lost (z.consume n)
      else
        let n := min z.ahead length
        if n ≤ content then scan patLen delim length rounds (content - n) true (z.consume n) else none

end WindowSize

namespace MultipartStreamBuf

open ReadWindow

variable {b : MultipartStreamBuf} {cr : Bool} {content tl : List UInt8}

/-- What the stream of a part does whose delimiter is searched: it delivers the content and handles
the delimiter, which is in the window, or delivers more than the content. -/
def Scanned (cr : Bool) (content tl : List UInt8) (rounds : ℕ) (b : MultipartStreamBuf) :
    Option (WindowSize × Bool) → Prop
  | some (z, lost) => ∃ w : ReadWindow, w.size = z ∧ w.rest = delimiterOf cr b._boundary ++ tl ∧
      (delimiterOf cr b._boundary).length ≤ w.ahead.length ∧
      readAll rounds b = (content, consumeBoundary { b with win := w, _lastPart := lost })
  | none => content.length < (readAll rounds b).1.length

/-- A call that delivers some bytes of the content is followed by the calls for the rest. -/
theorem Scanned.cons {rounds n : ℕ} {lost : Bool} {w : ReadWindow} {o : Option (WindowSize × Bool)}
    (hread : b.readFromDevice (STREAM_BUFFER_SIZE - 4) =
      (some (content.take n), { b with win := w, _lastPart := lost }))
    (hpos : 0 < n) (hle : n ≤ content.length)
    (h : Scanned cr (content.drop n) tl rounds { b with win := w, _lastPart := lost } o) :
    Scanned cr content tl (rounds + 1) b o := by
  have hne : content.take n ≠ [] := by
    intro hnil
    have := congrArg List.length hnil
    rw [List.length_take, List.length_nil] at this
    omega
  have hall : readAll (rounds + 1) b = _ := readAll_cons hread hne
  cases o with
  | none =>
      unfold Scanned at h ⊢
      rw [hall, List.length_append, List.length_take]
      rw [List.length_drop] at h
      omega
  | some zl =>
      obtain ⟨z, l⟩ := zl
      obtain ⟨w', hsize, hrest, hin, hrest'⟩ := h
      refine ⟨w', hsize, hrest, hin, ?_⟩
      rw [hall, hrest', List.take_append_drop]

/-- **What the scan does depends on lengths only.** -/
theorem scanned_scan {rounds F : ℕ} (hfirst : First b._boundary content (delimiterOf cr b._boundary ++ tl))
    (hrest : b.win.rest = content ++ (delimiterOf cr b._boundary ++ tl))
    (hnone : b._contentLength = none) (hfound : b._boundaryFound = false)
    (hrounds : content.length < rounds) (hF : content.length < F) :
    Scanned cr content tl rounds b (b.win.size.scan (b._boundary.length + 4)
      (delimiterOf cr b._boundary).length (STREAM_BUFFER_SIZE - 4) F content.length b._lastPart) := by
  induction F generalizing b content rounds with
  | zero => simp at hF
  | succ F ih =>
      obtain ⟨rounds, rfl⟩ : ∃ r, rounds = r + 1 := ⟨rounds - 1, by omega⟩
      have hahead : b.win.size.fill.ahead = b.win.fill.ahead.length := by
        rw [← size_fill]
        rfl
      have hL : 0 < STREAM_BUFFER_SIZE - 4 := by decide
      obtain ⟨hdelimiter, hdelim⟩ := length_delimiterOf_bounds cr b._boundary
      have hbytes : b.win.fill.rest = content ++ (delimiterOf cr b._boundary ++ tl) := by
        rw [rest_fill, hrest]
      have hpositive : 0 < b.win.fill.ahead.length := by
        refine List.length_pos_iff.mpr (fill_ahead_ne_nil ?_)
        rw [hrest]
        intro h
        have := congrArg List.length h
        simp only [List.length_append, List.length_nil] at this
        omega
      have htake : ∀ n, n ≤ content.length → n ≤ b.win.fill.ahead.length →
          b.win.fill.ahead.take n = content.take n := by
        intro n hle hin
        have := congrArg (List.take n) hbytes
        rwa [rest, List.take_append_of_le_length hin, List.take_append_of_le_length hle] at this
      have hread : b.readFromDevice (STREAM_BUFFER_SIZE - 4) =
          scanContent (STREAM_BUFFER_SIZE - 4) 1 b := by
        rw [readFromDevice, if_neg (by simp [hfound]), readContent, hnone]
      rw [scanContent_eq hL hfirst hrest] at hread
      dsimp only at hread
      -- a call that delivers `n` bytes of the content
      have hnext : ∀ n lost, 0 < n → n ≤ content.length → n ≤ b.win.fill.ahead.length →
          b.readFromDevice (STREAM_BUFFER_SIZE - 4) =
            (some (content.take n), { b with win := b.win.fill.consume n, _lastPart := lost }) →
          Scanned cr content tl (rounds + 1) b
            ((b.win.size.fill.consume n).scan (b._boundary.length + 4)
              (delimiterOf cr b._boundary).length (STREAM_BUFFER_SIZE - 4) F (content.length - n) lost) := by
        intro n lost hpos hle hin hread
        apply Scanned.cons hread hpos hle
        have hrest' : (b.win.fill.consume n).rest =
            content.drop n ++ (delimiterOf cr b._boundary ++ tl) := by
          rw [rest_consume hin, hbytes, List.drop_append_of_le_length hle]
        have hlen : (content.drop n).length = content.length - n := List.length_drop
        have hsize : (b.win.fill.consume n).size = b.win.size.fill.consume n := by
          rw [size_consume hin, size_fill]
        rw [← hlen, ← hsize]
        exact ih (b := { b with win := b.win.fill.consume n, _lastPart := lost }) (hfirst.drop n)
          hrest' hnone hfound (by omega) (by omega)
      rw [WindowSize.scan]
      dsimp only
      rw [hahead]
      split
      · rename_i hin
        rw [if_pos hin] at hread
        split
        · rename_i hall
          rw [if_pos hall, hall, List.take_of_length_le le_rfl] at hread
          refine ⟨b.win.fill.consume content.length, ?_, ?_, ?_, ?_⟩
          · rw [hall, size_consume (by omega), size_fill]
          · rw [rest_consume (by omega), hbytes, List.drop_left]
          · rw [consume, List.length_drop]
            omega
          · exact readAll_of_found hread consumeBoundary_boundaryFound
        · rename_i hpart
          rw [if_neg hpart] at hread
          exact hnext _ b._lastPart (by omega) (by omega) (by omega) hread
      · rename_i hout
        rw [if_neg hout] at hread
        split
        · rename_i hsafe
          rw [if_pos hsafe, copyOut, htake _ (by omega) (by omega)] at hread
          exact hnext _ b._lastPart (by omega) (by omega) (by omega) hread
        · rename_i hfull
          rw [if_neg hfull] at hread
          split
          · rename_i hle
            rw [htake _ hle (by omega)] at hread
            exact hnext _ true (by omega) hle (by omega) hread
          · -- more than the content is delivered
            rename_i hmore
            have hlen : (b.win.fill.ahead.take (min b.win.fill.ahead.length
                (STREAM_BUFFER_SIZE - 4))).length =
                min b.win.fill.ahead.length (STREAM_BUFFER_SIZE - 4) := by
              rw [List.length_take]
              omega
            have hne : b.win.fill.ahead.take (min b.win.fill.ahead.length
                (STREAM_BUFFER_SIZE - 4)) ≠ [] := by
              intro h
              rw [h, List.length_nil] at hlen
              omega
            unfold Scanned
            rw [readAll_cons hread hne, List.length_append, hlen]
            omega

/-! ### Both ways -/

/-- The stream that `nextPart` opens for a part. -/
def ofPart (w : ReadWindow) (boundary : List UInt8) (contentLength : Option ℕ) : MultipartStreamBuf :=
  { win := w, _boundary := boundary, _contentLength := contentLength }

/-- The window stands at the beginning of a content that reaches to the first delimiter.
`readFromDevice` asserts that the boundary is not empty. -/
structure AtContent (cr : Bool) (boundary content tl : List UInt8) (w : ReadWindow) : Prop where
  boundary_ne_nil : boundary ≠ []
  rest_eq : w.rest = content ++ (delimiterOf cr boundary ++ tl)
  first : First boundary content (delimiterOf cr boundary ++ tl)

/-- With the length of the content and without, the stream delivers the same bytes, decides the same
about the last part and stops at the same position. -/
structure Agree (rounds : ℕ) (boundary content : List UInt8) (w : ReadWindow) : Prop where
  bytes : (readAll rounds (ofPart w boundary (some content.length))).1 =
    (readAll rounds (ofPart w boundary none)).1
  lastPart : (readAll rounds (ofPart w boundary (some content.length))).2._lastPart =
    (readAll rounds (ofPart w boundary none)).2._lastPart
  position : (readAll rounds (ofPart w boundary (some content.length))).2.win.rest =
    (readAll rounds (ofPart w boundary none)).2.win.rest

/-- No full window was taken for the end of the stream, unless the part is the last one anyway, and
the line behind the boundary does not end across the edge of the window. -/
def Aligned (delim : ℕ) (tl : List UInt8) : Option (WindowSize × Bool) → Prop
  | some (z, lost) => (lost = true → ¬ Continues tl) ∧ Together (z.ahead - delim) tl
  | none => False

instance (delim : ℕ) (tl : List UInt8) : (o : Option (WindowSize × Bool)) → Decidable (Aligned delim tl o)
  | some (_, _) => inferInstanceAs (Decidable (_ ∧ _))
  | none => inferInstanceAs (Decidable False)

/-- The lengths when the delimiter behind a content is handled that begins at these lengths. -/
def scanOf (cr : Bool) (boundary content : List UInt8) (z : WindowSize) : Option (WindowSize × Bool) :=
  z.scan (boundary.length + 4) (delimiterOf cr boundary).length (STREAM_BUFFER_SIZE - 4)
    (content.length + 1) content.length false

open MultipartReader in
/-- A message of two parts, up to the header of the first one. -/
theorem start_twoParts (content : List UInt8) :
    start (create (ascii "--b\r\n\r\n" ++ (content ++ ascii "\r\n--b\r\n\r\ny\r\n--b--\r\n")) (ascii "b")) =
      .ok ((create [] (ascii "b")).movedTo (chr '\r' :: chr '\n' :: (content ++
        ascii "\r\n--b\r\n\r\ny\r\n--b--\r\n"))) :=
  findFirstBoundary_spec (r := create [] (ascii "b")) rfl (by decide) (by decide)

end MultipartStreamBuf

end Poco.Net
