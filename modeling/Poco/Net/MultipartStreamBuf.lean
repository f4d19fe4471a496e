import Poco.Net.MultipartReader
import Mathlib.Data.List.GetD

/-! # The content of a part is read up to its boundary

A window behaves as the stream of the bytes that can still be read from it (`rest`), wherever its
memory ends: `skip n` is the window after `n` bytes have been read.  `readAll_scan` and
`readAll_known` say what the stream of a part delivers, without and with a known length.

How a boundary is handled depends on how much of the stream the window holds, and this depends on
nothing but lengths.  `WindowSize` follows these lengths. -/

namespace Poco.Net

open Poco.Lib

namespace ReadWindow

/-! ### The window as a stream -/

/-- What can still be read. -/
def rest (w : ReadWindow) : List UInt8 := w.ahead ++ w.underlying

@[simp] theorem rest_fill (w : ReadWindow) : w.fill.rest = w.rest := by
  unfold fill
  dsimp only
  split
  · rfl
  · split
    · rfl
    · simp [rest]

/-- After a refill the window is more than half full, or the stream is used up. -/
theorem fill_spec (w : ReadWindow) :
    BUFFER_SIZE / 2 < w.fill.ahead.length ∨ w.fill.underlying = [] := by
  unfold fill
  dsimp only
  split
  · exact .inl ‹_›
  · rename_i hle
    have hsize : BUFFER_SIZE = 32768 := rfl
    have hputback : PUTBACK_SIZE = 512 := rfl
    split
    · rename_i hnew
      refine .inr ?_
      obtain hz | hnil := List.take_eq_nil_iff.mp hnew.1
      · omega
      · exact hnil
    · dsimp only
      by_cases hlen : w.underlying.length ≤
          BUFFER_SIZE - min w.before.length PUTBACK_SIZE - w.ahead.length
      · exact .inr (List.drop_eq_nil_of_le hlen)
      · refine .inl ?_
        rw [List.length_append, List.length_take]
        omega

theorem fill_ahead_ne_nil {w : ReadWindow} (h : w.rest ≠ []) : w.fill.ahead ≠ [] := by
  intro hnil
  obtain hlen | hunder := fill_spec w
  · rw [hnil] at hlen
    simp at hlen
  · have := rest_fill w
    rw [rest, hnil, hunder] at this
    exact h this.symm

/-- The window before a byte is taken from it. -/
def refill (w : ReadWindow) : ReadWindow := if w.ahead = [] then w.fill else w

@[simp] theorem rest_refill (w : ReadWindow) : w.refill.rest = w.rest := by
  unfold refill
  split
  · exact rest_fill w
  · rfl

theorem refill_cons {w : ReadWindow} {c : UInt8} {tl : List UInt8} (h : w.rest = c :: tl) :
    ∃ ahead, w.refill.ahead = c :: ahead ∧ ahead ++ w.refill.underlying = tl := by
  have hne : w.refill.ahead ≠ [] := by
    unfold refill
    split
    · exact fill_ahead_ne_nil (by rw [h]; simp)
    · exact ‹_›
  obtain ⟨d, ahead, hd⟩ := List.exists_cons_of_ne_nil hne
  have := rest_refill w
  rw [h, rest, hd, List.cons_append] at this
  obtain ⟨rfl, htl⟩ := List.cons.inj this
  exact ⟨ahead, hd, htl⟩

theorem sbumpc_eq (w : ReadWindow) : w.sbumpc = match w.refill.ahead with
    | b :: ahead => (some b, { w.refill with before := b :: w.refill.before, ahead := ahead })
    | [] => (none, w.refill) := rfl

/-- The window after `n` bytes have been read. -/
def skip : ℕ → ReadWindow → ReadWindow
  | 0, w => w
  | n + 1, w => skip n w.sbumpc.2

theorem skip_add (m n : ℕ) (w : ReadWindow) : skip (m + n) w = skip n (skip m w) := by
  induction m generalizing w with
  | zero => simp [skip]
  | succ m ih =>
      rw [Nat.succ_add]
      exact ih _

theorem sbumpc_spec {w : ReadWindow} {c : UInt8} {tl : List UInt8} (h : w.rest = c :: tl) :
    w.sbumpc = (some c, skip 1 w) ∧ (skip 1 w).rest = tl := by
  obtain ⟨ahead, hahead, htl⟩ := refill_cons h
  have hskip : skip 1 w = w.sbumpc.2 := rfl
  rw [hskip, sbumpc_eq, hahead]
  exact ⟨rfl, htl⟩

theorem rest_skip {w : ReadWindow} {bs tl : List UInt8} (h : w.rest = bs ++ tl) :
    (skip bs.length w).rest = tl := by
  induction bs generalizing w with
  | nil => exact h
  | cons b bs ih => exact ih (sbumpc_spec h).2

theorem reads_skip {w : ReadWindow} {bs tl : List UInt8} (h : w.rest = bs ++ tl) :
    Reads w bs (skip bs.length w) := by
  induction bs generalizing w with
  | nil => rfl
  | cons b bs ih =>
      obtain ⟨hb, ht⟩ := sbumpc_spec h
      exact ⟨skip 1 w, hb, ih ht⟩

/-- A byte that has been read can be put back and read again. -/
theorem sbumpc_sputbackc {w : ReadWindow} {c : UInt8} {tl : List UInt8} (h : w.rest = c :: tl) :
    (sputbackc c (skip 1 w)).sbumpc = (some c, skip 1 w) := by
  obtain ⟨ahead, hahead, -⟩ := refill_cons h
  have hstate : skip 1 w =
      { w.refill with before := c :: w.refill.before, ahead := ahead } := by
    have hskip : skip 1 w = w.sbumpc.2 := rfl
    rw [hskip, sbumpc_eq, hahead]
  rw [hstate]
  simp [sputbackc, sbumpc]

/-- A look at the next byte does not change what is read. -/
theorem sgetc_spec {w : ReadWindow} {c : UInt8} {tl : List UInt8} (h : w.rest = c :: tl) :
    w.sgetc = (some c, w.refill) ∧ w.refill.sbumpc = w.sbumpc := by
  obtain ⟨ahead, hahead, -⟩ := refill_cons h
  have hagain : w.refill.refill = w.refill := by
    rw [refill, if_neg (by rw [hahead]; simp)]
  constructor
  · have : w.sgetc = (w.refill.ahead.head?, w.refill) := rfl
    rw [this, hahead]
    rfl
  · rw [sbumpc_eq, hagain, sbumpc_eq]

theorem consume_eq_skip {w : ReadWindow} {n : ℕ} (h : n ≤ w.ahead.length) :
    w.consume n = skip n w := by
  induction n generalizing w with
  | zero => simp [consume, skip]
  | succ n ih =>
      cases ha : w.ahead with
      | nil => simp [ha] at h
      | cons c ahead =>
          have hrefill : w.refill = w := by rw [refill, if_neg (by rw [ha]; simp)]
          have hbump : w.sbumpc.2 = { w with before := c :: w.before, ahead := ahead } := by
            rw [sbumpc_eq, hrefill, ha]
          rw [skip, hbump, ← ih (by simpa [ha] using h)]
          simp [consume, ha]

/-! ### The lengths of the window -/

end ReadWindow

/-- The lengths of a window. -/
structure WindowSize where
  before : ℕ := 0
  ahead : ℕ := 0
  underlying : ℕ
deriving DecidableEq, Repr

namespace WindowSize

open ReadWindow (BUFFER_SIZE PUTBACK_SIZE)

/-- The lengths after `fill`. -/
def fill (z : WindowSize) : WindowSize :=
  if z.ahead > BUFFER_SIZE / 2 then z
  else
    let putback := min z.before PUTBACK_SIZE
    let space := BUFFER_SIZE - putback - z.ahead
    if min space z.underlying = 0 ∧ z.ahead = 0 then z
    else
      { before := putback
        ahead := z.ahead + min space z.underlying
        underlying := z.underlying - space }

/-- The lengths after `n` bytes of the window have been consumed. -/
def consume (z : WindowSize) (n : ℕ) : WindowSize :=
  { z with before := z.before + n, ahead := z.ahead - n }

/-- The lengths after `n` bytes have been read. -/
def skip : ℕ → WindowSize → WindowSize
  | 0, z => z
  | n + 1, z =>
      let z := if z.ahead = 0 then z.fill else z
      skip n (z.consume 1)

/-- The number of bytes of a content that are copied at once: while the window does not hold the
whole boundary behind them, as many bytes as a boundary has stay in it. -/
def copied (patLen length content ahead : ℕ) : ℕ :=
  if content + patLen ≤ ahead then min content length else min (ahead - patLen) length

/-- The lengths when the boundary behind `content` bytes is handled. -/
def atBoundary (patLen : ℕ) : ℕ → ℕ → WindowSize → WindowSize
  | 0, _, z => z
  | rounds + 1, content, z =>
      let z := z.fill
      let n := copied patLen (MultipartStreamBuf.STREAM_BUFFER_SIZE - 4) content z.ahead
      if content + patLen ≤ z.ahead ∧ n = content then z.consume n
      else atBoundary patLen rounds (content - n) (z.consume n)

end WindowSize

namespace ReadWindow

/-- The lengths of the window. -/
def size (w : ReadWindow) : WindowSize :=
  { before := w.before.length, ahead := w.ahead.length, underlying := w.underlying.length }

theorem size_fill (w : ReadWindow) : w.fill.size = w.size.fill := by
  have hnew : ∀ n, w.underlying.take n = [] ↔ min n w.underlying.length = 0 := by
    intro n
    rw [← List.length_take, List.length_eq_zero_iff]
  have hhalf : w.size.ahead > BUFFER_SIZE / 2 ↔ w.ahead.length > BUFFER_SIZE / 2 := Iff.rfl
  have hend : min (BUFFER_SIZE - min w.size.before PUTBACK_SIZE - w.size.ahead)
      w.size.underlying = 0 ∧ w.size.ahead = 0 ↔
      w.underlying.take (BUFFER_SIZE - min w.before.length PUTBACK_SIZE - w.ahead.length) = [] ∧
        w.ahead.length = 0 := by
    rw [hnew]
    rfl
  unfold fill WindowSize.fill
  dsimp only
  simp only [hhalf, hend]
  split
  · rfl
  · split
    · simp only [size, List.length_append, List.length_take, WindowSize.mk.injEq, and_true]
      omega
    · simp only [size, List.length_append, List.length_take, List.length_drop,
        WindowSize.mk.injEq, and_true]
      omega

theorem size_consume {w : ReadWindow} {n : ℕ} (h : n ≤ w.ahead.length) :
    (w.consume n).size = w.size.consume n := by
  simp [size, consume, WindowSize.consume]
  omega

theorem size_skip {w : ReadWindow} {n : ℕ} (h : n ≤ w.rest.length) :
    (skip n w).size = w.size.skip n := by
  induction n generalizing w with
  | zero => rfl
  | succ n ih =>
      obtain ⟨c, tl, hrest⟩ := List.exists_cons_of_length_pos (by omega : 0 < w.rest.length)
      obtain ⟨ahead, hahead, -⟩ := refill_cons hrest
      have hsize : w.refill.size = if w.size.ahead = 0 then w.size.fill else w.size := by
        unfold refill
        simp only [size, List.length_eq_zero_iff]
        split
        · exact size_fill w
        · rfl
      have hone : skip 1 w = w.refill.consume 1 := by
        have hskip : skip 1 w = w.sbumpc.2 := rfl
        rw [hskip, sbumpc_eq, hahead]
        simp [consume, hahead]
      have htl := (sbumpc_spec hrest).2
      rw [Nat.add_comm, skip_add, ih (by rw [htl]; rw [hrest] at h; simpa using h), hone,
        size_consume (by rw [hahead]; simp), hsize, Nat.add_comm, WindowSize.skip]

end ReadWindow

/-! ### Finding the boundary -/

namespace MultipartStreamBuf

/-- What a line of a boundary begins with, after the line feed of the line before. -/
def mark (boundary : List UInt8) : List UInt8 := chr '\n' :: chr '-' :: chr '-' :: boundary

/-- What stands between a content and the end of the boundary behind it. -/
def delimiter (boundary : List UInt8) : List UInt8 := chr '\r' :: mark boundary

/-- The content has no line that begins like a boundary. -/
def Clean (boundary content : List UInt8) : Prop := ¬ mark boundary <:+: content

section Scan

variable {boundary content tl : List UInt8}

@[simp] theorem length_mark : (mark boundary).length = boundary.length + 3 := by simp [mark]

@[simp] theorem length_delimiter : (delimiter boundary).length = boundary.length + 4 := by
  simp [delimiter]

/-- A boundary that begins in a content lies in it: it cannot reach into the delimiter, because
it has no carriage return. -/
theorem mark_infix_of_begins (hcr : chr '\r' ∉ boundary)
    (h : mark boundary <+: content ++ (delimiter boundary ++ tl)) :
    mark boundary <:+: content := by
  by_cases hlen : (mark boundary).length ≤ content.length
  · exact (List.prefix_of_prefix_length_le h (List.prefix_append _ _) hlen).isInfix
  · exfalso
    obtain ⟨v, hv⟩ : content <+: mark boundary :=
      List.prefix_of_prefix_length_le (List.prefix_append _ _) h (by omega)
    rw [← hv, List.prefix_append_right_inj] at h
    cases v with
    | nil =>
        rw [List.append_nil] at hv
        exact hlen (by rw [hv])
    | cons c v =>
        -- the first byte behind the content
        obtain ⟨t, ht⟩ := h
        have hc : c = chr '\r' := (List.cons.inj ht).1
        have hmem : chr '\r' ∈ mark boundary := by
          rw [← hv, hc]
          simp
        have : chr '\r' ∉ mark boundary := by
          simp only [mark, List.mem_cons, not_or]
          exact ⟨by decide, by decide, by decide, hcr⟩
        exact this hmem

/-- The line in which the scan looks for a boundary at a position. -/
def lineAt (c : UInt8) (data : List UInt8) : List UInt8 := if c = chr '\r' then data else c :: data

theorem mark_prefix_cons {lf d1 d2 : UInt8} {text : List UInt8} :
    mark boundary <+: lf :: d1 :: d2 :: text ↔
      (lf = chr '\n' ∧ d1 = chr '-' ∧ d2 = chr '-') ∧ boundary <+: text := by
  simp only [mark, List.cons_prefix_cons]
  constructor
  · rintro ⟨rfl, rfl, rfl, h⟩
    exact ⟨⟨rfl, rfl, rfl⟩, h⟩
  · rintro ⟨⟨rfl, rfl, rfl⟩, h⟩
    exact ⟨rfl, rfl, rfl, h⟩

theorem length_lineAt_le (c : UInt8) (data : List UInt8) :
    (lineAt c data).length ≤ (c :: data).length ∧ data.length ≤ (lineAt c data).length := by
  unfold lineAt
  split <;> simp

theorem scanForBoundary_hit {c : UInt8} {data : List UInt8} {i : ℕ}
    (h : mark boundary <+: lineAt c data) : scanForBoundary boundary (c :: data) i = some i := by
  have hlen := h.length_le
  rw [length_mark] at hlen
  have hle := length_lineAt_le c data
  obtain ⟨tl, htl⟩ := h
  have hline : (if c = chr '\r' then data else c :: data) = chr '\n' :: chr '-' :: chr '-' :: (boundary ++ tl) :=
    htl.symm
  rw [scanForBoundary, if_neg (by omega), hline]
  dsimp only
  rw [if_pos ⟨rfl, rfl, rfl⟩, if_neg (by simp), if_pos (List.isPrefixOf_iff_prefix.mpr (List.prefix_append _ _))]

/-- Where no boundary begins the scan goes on, or it gives up near the end of the window. -/
theorem scanForBoundary_miss {c : UInt8} {data : List UInt8} {i : ℕ}
    (h : ¬ mark boundary <+: lineAt c data) :
    scanForBoundary boundary (c :: data) i = scanForBoundary boundary data (i + 1) ∨
      (scanForBoundary boundary (c :: data) i = none ∧ (c :: data).length < 4 + boundary.length) := by
  have hline := length_lineAt_le c data
  rw [scanForBoundary]
  split
  · exact .inr ⟨rfl, by omega⟩
  · have hdef : (if c = chr '\r' then data else c :: data) = lineAt c data := rfl
    rw [hdef]
    dsimp only
    split
    · rename_i lf d1 d2 text heq
      rw [heq, mark_prefix_cons] at h
      rw [heq] at hline
      simp only [List.length_cons] at hline
      split
      · split
        · exact .inr ⟨rfl, by simp; omega⟩
        · rename_i hmark _
          rw [if_neg fun hp => h ⟨hmark, List.isPrefixOf_iff_prefix.mp hp⟩]
          exact .inl rfl
      · exact .inl rfl
    · exact .inl rfl

theorem scanForBoundary_short {data : List UInt8} (h : data.length < 3 + boundary.length) (i : ℕ) :
    scanForBoundary boundary data i = none := by
  cases data with
  | nil => rfl
  | cons c data => rw [scanForBoundary, if_pos h]

/-- A delimiter begins here; its carriage return may be missing. -/
def Begins (boundary data : List UInt8) : Prop :=
  mark boundary <+: data ∨ delimiter boundary <+: data

/-- A delimiter with its carriage return, or without. -/
def delimiterOf (cr : Bool) (boundary : List UInt8) : List UInt8 :=
  if cr then delimiter boundary else mark boundary

/-- No delimiter begins before the one behind the content. -/
def First (boundary content tail : List UInt8) : Prop :=
  ∀ i < content.length, ¬ Begins boundary ((content ++ tail).drop i)

theorem length_delimiterOf (cr : Bool) :
    (delimiterOf cr boundary).length = boundary.length + if cr then 4 else 3 := by
  cases cr with
  | false => exact length_mark
  | true => exact length_delimiter

theorem length_delimiterOf_bounds (cr : Bool) (boundary : List UInt8) :
    0 < (delimiterOf cr boundary).length ∧ (delimiterOf cr boundary).length ≤ boundary.length + 4 := by
  rw [length_delimiterOf]
  split <;> omega

theorem Begins.mono {data data' : List UInt8} (h : Begins boundary data) (hle : data <+: data') :
    Begins boundary data' :=
  h.imp (·.trans hle) (·.trans hle)

theorem begins_delimiterOf (cr : Bool) : Begins boundary (delimiterOf cr boundary) := by
  cases cr with
  | false => exact .inl List.prefix_rfl
  | true => exact .inr List.prefix_rfl

theorem begins_cons {c : UInt8} {data : List UInt8} :
    Begins boundary (c :: data) ↔ mark boundary <+: lineAt c data := by
  unfold Begins lineAt delimiter
  rw [List.cons_prefix_cons]
  split
  · rename_i hc
    subst hc
    have hlf : ¬ mark boundary <+: chr '\r' :: data := by
      rw [mark, List.cons_prefix_cons]
      exact fun h => absurd h.1 (by decide)
    exact ⟨fun h => (h.resolve_left hlf).2, fun h => .inr ⟨rfl, h⟩⟩
  · rename_i hc
    exact ⟨fun h => h.resolve_right fun h => hc h.1.symm, .inl⟩

theorem not_begins_of_lt {cr : Bool} {data : List UInt8} (hdata : data <+: delimiterOf cr boundary ++ tl)
    (hlen : data.length < (delimiterOf cr boundary).length) : ¬ Begins boundary data := by
  intro h
  cases cr with
  | false =>
      have hmark : (delimiterOf false boundary).length = boundary.length + 3 := length_mark
      obtain h | h := h
      · have := h.length_le
        rw [length_mark] at this
        omega
      · have := h.length_le
        rw [length_delimiter] at this
        omega
  | true =>
      have hdelimiter : (delimiterOf true boundary).length = boundary.length + 4 := length_delimiter
      obtain h | h := h
      · obtain ⟨t, ht⟩ := h.trans hdata
        exact absurd (List.cons.inj ht).1 (by decide)
      · have := h.length_le
        rw [length_delimiter] at this
        omega

theorem first_cons {c : UInt8} {tail : List UInt8} :
    First boundary (c :: content) tail ↔
      ¬ Begins boundary (c :: (content ++ tail)) ∧ First boundary content tail := by
  constructor
  · intro h
    exact ⟨h 0 (by simp), fun i hi => h (i + 1) (by simpa using hi)⟩
  · rintro ⟨h0, h⟩ i hi
    cases i with
    | zero => exact h0
    | succ i => exact h i (by simpa using hi)

theorem First.drop {tail : List UInt8} (h : First boundary content tail) (n : ℕ) :
    First boundary (content.drop n) tail := by
  induction n generalizing content with
  | zero => exact h
  | succ n ih =>
      cases content with
      | nil => exact h
      | cons c content => exact ih (first_cons.mp h).2

theorem first_of_clean (hcr : chr '\r' ∉ boundary) (hclean : Clean boundary content) :
    First boundary content (delimiter boundary ++ tl) := by
  induction content with
  | nil => exact fun i hi => absurd hi (Nat.not_lt_zero i)
  | cons c content ih =>
      have hclean' : Clean boundary content :=
        fun h => hclean (h.trans (List.suffix_cons c content).isInfix)
      refine first_cons.mpr ⟨?_, ih hclean'⟩
      rw [begins_cons]
      intro h
      unfold lineAt at h
      split at h
      · exact hclean' (mark_infix_of_begins hcr h)
      · exact hclean (mark_infix_of_begins hcr h)

/-- The first delimiter is found, when it is in the window. -/
theorem scanForBoundary_found {cr : Bool} {tail data : List UInt8}
    (hfirst : First boundary content tail) (hdata : data <+: content ++ tail)
    (hin : content ++ delimiterOf cr boundary <+: data) (i : ℕ) :
    scanForBoundary boundary data i = some (i + content.length) := by
  induction content generalizing data i with
  | nil =>
      have hbegin := (begins_delimiterOf cr).mono hin
      cases data with
      | nil => simp [Begins, mark, delimiter] at hbegin
      | cons c data => exact scanForBoundary_hit (begins_cons.mp hbegin)
  | cons c content ih =>
      cases data with
      | nil => simp at hin
      | cons d data =>
          have hlen := hin.length_le
          rw [List.cons_append, List.cons_prefix_cons] at hin
          obtain ⟨rfl, hin⟩ := hin
          have hdata' := (List.cons_prefix_cons.mp hdata).2
          obtain ⟨hnot, hfirst'⟩ := first_cons.mp hfirst
          have hmiss : ¬ mark boundary <+: lineAt c data :=
            fun h => hnot ((begins_cons.mpr h).mono hdata)
          obtain heq | ⟨-, hlt⟩ := scanForBoundary_miss (i := i) hmiss
          · rw [heq, ih hfirst' hdata' hin, List.length_cons]
            congr 1
            omega
          · rw [List.length_append, length_delimiterOf, List.length_cons] at hlen
            split at hlen <;> omega

/-- Nothing is found while the window does not hold the whole delimiter. -/
theorem scanForBoundary_none {cr : Bool} {data : List UInt8}
    (hfirst : First boundary content (delimiterOf cr boundary ++ tl))
    (hdata : data <+: content ++ (delimiterOf cr boundary ++ tl))
    (hlen : data.length < content.length + (delimiterOf cr boundary).length) (i : ℕ) :
    scanForBoundary boundary data i = none := by
  induction data generalizing content i with
  | nil => rfl
  | cons c data ih =>
      cases content with
      | nil =>
          rw [List.length_nil, Nat.zero_add] at hlen
          have hmiss : ¬ mark boundary <+: lineAt c data := by
            rw [← begins_cons]
            exact not_begins_of_lt hdata hlen
          obtain heq | ⟨heq, -⟩ := scanForBoundary_miss (i := i) hmiss
          · rw [heq]
            apply scanForBoundary_short
            rw [length_delimiterOf, List.length_cons] at hlen
            split at hlen <;> omega
          · exact heq
      | cons x content =>
          obtain ⟨rfl, hdata'⟩ := List.cons_prefix_cons.mp hdata
          obtain ⟨hnot, hfirst'⟩ := first_cons.mp hfirst
          have hmiss : ¬ mark boundary <+: lineAt c data :=
            fun h => hnot ((begins_cons.mpr h).mono hdata)
          obtain heq | ⟨heq, -⟩ := scanForBoundary_miss (i := i) hmiss
          · rw [heq]
            exact ih hfirst' hdata' (by simp at hlen; omega) _
          · exact heq

end Scan

/-! ### Behind the boundary -/

section Boundary

open ReadWindow

variable {b : MultipartStreamBuf} {tl : List UInt8}

theorem ahead_getD {w : ReadWindow} {i : ℕ} (h : i < w.ahead.length) :
    w.ahead.getD i 0 = w.rest.getD i 0 := by
  rw [rest, List.getD_append _ _ _ _ h]

theorem getD_delimiter (boundary : List UInt8) (i : ℕ) :
    (delimiter boundary ++ tl).getD (boundary.length + 4 + i) 0 = tl.getD i 0 := by
  rw [List.getD_append_right _ _ _ _ (by simp)]
  simp

theorem consumePostBoundaryDelimiter_next (h : b.win.rest = chr '\r' :: chr '\n' :: tl) :
    b.consumePostBoundaryDelimiter = { b with win := skip 2 b.win } := by
  obtain ⟨hcr, hrest⟩ := sbumpc_spec h
  obtain ⟨hget, hbump⟩ := sgetc_spec hrest
  unfold consumePostBoundaryDelimiter
  rw [hcr]
  dsimp only
  rw [if_neg (by decide), if_pos rfl, hget]
  dsimp only
  rw [if_pos rfl, hbump]
  rfl

theorem consumePostBoundaryDelimiter_last (h : b.win.rest = chr '-' :: tl) :
    b.consumePostBoundaryDelimiter._lastPart = true := by
  obtain ⟨hdash, -⟩ := sbumpc_spec h
  unfold consumePostBoundaryDelimiter
  rw [hdash]
  dsimp only
  rw [if_pos rfl]

@[simp] theorem consumeBoundary_boundaryFound : b.consumeBoundary._boundaryFound = true := by
  unfold consumeBoundary
  dsimp only
  generalize (if b.win.ahead.head? = some (chr '\r') then 1 else 0) + 1 + 2 + b._boundary.length =
    pos
  split
  · split
    · rfl
    · split
      · rfl
      · split <;> rfl
  · rfl

theorem consumeBoundary_pos {cr : Bool} (h : b.win.rest = delimiterOf cr b._boundary ++ tl)
    (hin : (delimiterOf cr b._boundary).length ≤ b.win.ahead.length) :
    (if b.win.ahead.head? = some (chr '\r') then 1 else 0) + 1 + 2 + b._boundary.length =
      (delimiterOf cr b._boundary).length := by
  rw [length_delimiterOf]
  rw [length_delimiterOf] at hin
  cases ha : b.win.ahead with
  | nil =>
      rw [ha, List.length_nil] at hin
      split at hin <;> omega
  | cons c ahead =>
      rw [rest, ha] at h
      cases cr with
      | false =>
          have hc : c = chr '\n' := (List.cons.inj h).1
          have hlf : (chr '\n' :: ahead).head? ≠ some (chr '\r') := by
            rw [List.head?_cons]
            decide
          rw [hc, if_neg hlf, if_neg (by decide)]
          omega
      | true =>
          have hc : c = chr '\r' := (List.cons.inj h).1
          rw [hc, if_pos (by rfl), if_pos rfl]
          omega

theorem consumeBoundary_pos_delimiter (h : b.win.rest = delimiter b._boundary ++ tl)
    (hin : b._boundary.length + 4 ≤ b.win.ahead.length) :
    (if b.win.ahead.head? = some (chr '\r') then 1 else 0) + 1 + 2 + b._boundary.length =
      b._boundary.length + 4 := by
  have h' : b.win.rest = delimiterOf true b._boundary ++ tl := h
  have hlen : (delimiterOf true b._boundary).length = b._boundary.length + 4 := length_delimiter
  rw [consumeBoundary_pos h' (by omega), hlen]

/-- The boundary before another part is consumed with the line end behind it, unless the window
ends inside that. -/
theorem consumeBoundary_next (h : b.win.rest = delimiter b._boundary ++ chr '\r' :: chr '\n' :: tl)
    (hin : b._boundary.length + 4 ≤ b.win.ahead.length)
    (hclear : b.win.ahead.length ≠ b._boundary.length + 5) :
    b.consumeBoundary =
      { b with win := skip (b._boundary.length + 6) b.win, _boundaryFound := true } := by
  have hpos := consumeBoundary_pos_delimiter h hin
  have hat : ∀ i, b._boundary.length + 4 + i < b.win.ahead.length →
      b.win.ahead.getD (b._boundary.length + 4 + i) 0 = (chr '\r' :: chr '\n' :: tl).getD i 0 := by
    intro i hi
    rw [ahead_getD hi, h, getD_delimiter]
  unfold consumeBoundary
  dsimp only
  rw [hpos, available]
  by_cases hlt : b._boundary.length + 4 < b.win.ahead.length
  · have h0 : b.win.ahead.getD (b._boundary.length + 4) 0 = chr '\r' := hat 0 hlt
    have h1 : b.win.ahead.getD (b._boundary.length + 4 + 1) 0 = chr '\n' := hat 1 (by omega)
    rw [if_pos hlt, h0, h1, if_neg (by decide), if_pos ⟨rfl, by omega, rfl⟩,
      consume_eq_skip (by omega)]
  · have hrest := rest_skip h
    rw [length_delimiter] at hrest
    rw [if_neg hlt, Nat.min_eq_left hin, consume_eq_skip hin,
      consumePostBoundaryDelimiter_next (by exact hrest)]
    dsimp only
    rw [← skip_add]

/-- The boundary behind the last part is recognised, wherever the window ends. -/
theorem consumeBoundary_last (h : b.win.rest = delimiter b._boundary ++ chr '-' :: tl)
    (hin : b._boundary.length + 4 ≤ b.win.ahead.length) :
    b.consumeBoundary._lastPart = true := by
  have hpos := consumeBoundary_pos_delimiter h hin
  unfold consumeBoundary
  dsimp only
  rw [hpos, available]
  by_cases hlt : b._boundary.length + 4 < b.win.ahead.length
  · have h0 : b.win.ahead.getD (b._boundary.length + 4) 0 = chr '-' := by
      rw [ahead_getD hlt, h]
      exact getD_delimiter b._boundary 0
    rw [if_pos hlt, h0, if_pos rfl]
  · have hrest := rest_skip h
    rw [length_delimiter] at hrest
    rw [if_neg hlt, Nat.min_eq_left hin, consume_eq_skip hin]
    exact consumePostBoundaryDelimiter_last (by exact hrest)

theorem sgetn_spec {w : ReadWindow} {bs : List UInt8} (h : w.rest = bs ++ tl) :
    w.sgetn bs.length = (bs, skip bs.length w) := by
  induction bs generalizing w with
  | nil => rfl
  | cons c bs ih =>
      obtain ⟨hc, hrest⟩ := sbumpc_spec h
      rw [List.length_cons, sgetn, hc]
      dsimp only
      rw [ih hrest]
      rfl

theorem expect_spec {w : ReadWindow} {bs : List UInt8} (h : w.rest = bs ++ tl) :
    expect bs w = (true, skip bs.length w) := by
  induction bs generalizing w with
  | nil => rfl
  | cons c bs ih =>
      obtain ⟨hc, hrest⟩ := sbumpc_spec h
      rw [expect, hc]
      dsimp only
      rw [if_pos rfl, ih hrest]
      rfl

theorem endOfContent_eq (h : b.win.rest = delimiter b._boundary ++ tl) :
    b.endOfContent = (some [], { consumePostBoundaryDelimiter
      { b with win := skip (b._boundary.length + 4) b.win } with _boundaryFound := true }) := by
  obtain ⟨hcr, hrest⟩ := sbumpc_spec h
  obtain ⟨hget, hbump⟩ := sgetc_spec h
  have hexpect := expect_spec hrest
  rw [length_mark, ← skip_add] at hexpect
  have hmark : ascii "\n--" ++ b._boundary = mark b._boundary := rfl
  unfold endOfContent
  rw [hget]
  dsimp only
  rw [if_pos rfl, hbump, hcr, hmark]
  dsimp only
  rw [hexpect, Nat.add_comm 1]

end Boundary

/-! ### Reading a content -/

section Content

open ReadWindow

variable {b : MultipartStreamBuf} {content tl : List UInt8}

/-- What the window holds while the boundary is not in it as a whole, and when it is. -/
theorem ahead_of_rest {w : ReadWindow} {patLen : ℕ} (hpat : patLen ≤ BUFFER_SIZE / 2)
    (hrest : patLen + content.length ≤ w.rest.length) :
    content.length + patLen ≤ w.fill.ahead.length ∨
      (w.fill.ahead.length < content.length + patLen ∧ patLen < w.fill.ahead.length) := by
  obtain hhalf | hend := fill_spec w
  · omega
  · have hall : w.fill.rest = w.fill.ahead := by rw [rest, hend, List.append_nil]
    rw [rest_fill] at hall
    rw [← hall]
    omega

/-- One call copies bytes of the content; with the last of them it consumes the boundary, if this
is in the window.  A window that is full without holding as many bytes as a delimiter has is
copied as it is. -/
theorem scanContent_eq {cr : Bool} {length : ℕ} (hlength : 0 < length)
    (hfirst : First b._boundary content (delimiterOf cr b._boundary ++ tl))
    (hrest : b.win.rest = content ++ (delimiterOf cr b._boundary ++ tl)) (again : ℕ) :
    scanContent length again b =
      let w := b.win.fill
      if content.length + (delimiterOf cr b._boundary).length ≤ w.ahead.length then
        let n := min content.length length
        (some (content.take n),
          if n = content.length then consumeBoundary { b with win := w.consume n }
          else { b with win := w.consume n })
      else if b._boundary.length + 4 < w.ahead.length then
        copyOut { b with win := w } (min (w.ahead.length - (b._boundary.length + 4)) length)
      else
        (some (w.ahead.take (min w.ahead.length length)),
          { b with win := w.consume (min w.ahead.length length), _lastPart := true }) := by
  generalize hw : b.win.fill = w
  dsimp only
  have hbytes : w.rest = content ++ (delimiterOf cr b._boundary ++ tl) := by rw [← hw, rest_fill, hrest]
  have hprefix : w.ahead <+: content ++ (delimiterOf cr b._boundary ++ tl) := by
    rw [← hbytes]
    exact List.prefix_append _ _
  have hdelimiter := (length_delimiterOf_bounds cr b._boundary).1
  have hne : w.rest ≠ [] := by
    rw [hbytes]
    intro h
    have := congrArg List.length h
    simp only [List.length_append, List.length_nil] at this
    omega
  have hpos : 0 < w.ahead.length := by
    rw [← hw]
    rw [← hw, rest_fill] at hne
    exact List.length_pos_iff.mpr (fill_ahead_ne_nil hne)
  have havail : w.available = w.ahead.length := rfl
  rw [scanContent]
  dsimp only
  rw [hw, if_neg (by omega)]
  by_cases hin : content.length + (delimiterOf cr b._boundary).length ≤ w.ahead.length
  · -- the delimiter is in the window
    rw [if_pos hin]
    have hwhole : content ++ delimiterOf cr b._boundary <+: w.ahead := by
      apply List.prefix_of_prefix_length_le _ hprefix (by simpa using hin)
      rw [← List.append_assoc]
      exact List.prefix_append _ _
    have hscan : scanForBoundary b._boundary w.ahead 0 = some content.length := by
      rw [scanForBoundary_found hfirst hprefix hwhole, Nat.zero_add]
    have htake : w.ahead.take (min content.length length) =
        content.take (min content.length length) := by
      obtain ⟨t, ht⟩ := hwhole
      rw [← ht, List.append_assoc, List.take_append_of_le_length (Nat.min_le_left _ _)]
    rw [hscan]
    dsimp only [copyOut]
    rw [htake]
    by_cases hall : min content.length length = content.length
    · rw [if_neg (by omega), if_pos hall]
    · rw [if_pos (by omega), if_neg hall]
  · rw [if_neg hin, scanForBoundary_none hfirst hprefix (by omega)]
    dsimp only
    rw [havail]
    by_cases hsafe : b._boundary.length + 4 < w.ahead.length
    · rw [if_pos hsafe, if_pos hsafe]
    · rw [if_neg hsafe, if_neg hsafe]
      -- a second refill changes nothing
      have hhalf : BUFFER_SIZE / 2 < w.ahead.length := by
        obtain hhalf | hend := fill_spec b.win
        · rwa [hw] at hhalf
        · exfalso
          rw [hw] at hend
          rw [rest, hend, List.append_nil] at hbytes
          rw [hbytes] at hin
          simp only [List.length_append] at hin
          omega
      have hfill : w.fill = w := by
        rw [fill]
        exact if_pos hhalf
      rw [hfill, havail]
      have hgrown : decide (w.ahead.length < w.ahead.length) = false := by simp
      have hsome : 0 < min w.ahead.length length := by omega
      rw [hgrown]
      cases again with
      | zero =>
          dsimp only
          rw [if_neg (by simp), if_pos rfl, if_pos hsome]
          rfl
      | succ again =>
          dsimp only
          rw [if_neg (by simp), if_pos rfl, if_pos hsome]
          rfl

variable (hcr : chr '\r' ∉ b._boundary) (hclean : Clean b._boundary content)
  (hpat : b._boundary.length + 4 ≤ BUFFER_SIZE / 2)
  (hrest : b.win.rest = content ++ (delimiter b._boundary ++ tl))

include hcr hclean hpat hrest in
/-- The same for a boundary that is not too long, with its carriage return. -/
theorem scanContent_step {length : ℕ} (hlength : 0 < length) (again : ℕ) :
    let w := b.win.fill
    let n := WindowSize.copied (b._boundary.length + 4) length content.length w.ahead.length
    scanContent length again b = (some (content.take n),
      if content.length + (b._boundary.length + 4) ≤ w.ahead.length ∧ n = content.length then
        consumeBoundary { b with win := w.consume n }
      else { b with win := w.consume n }) := by
  intro w n
  have hlen : b._boundary.length + 4 + content.length ≤ b.win.rest.length := by
    rw [hrest]
    simp
    omega
  have hfirst : First b._boundary content (delimiterOf true b._boundary ++ tl) :=
    first_of_clean hcr hclean
  have hdelimiter : (delimiterOf true b._boundary).length = b._boundary.length + 4 := length_delimiter
  rw [scanContent_eq hlength hfirst hrest]
  dsimp only
  rw [hdelimiter]
  have hwindow : w.ahead.length = b.win.fill.ahead.length := rfl
  obtain hin | ⟨hout, hpos⟩ := ahead_of_rest hpat hlen
  · have hn : n = min content.length length := if_pos hin
    rw [if_pos hin, ← hn]
    by_cases hall : n = content.length
    · rw [if_pos hall, if_pos ⟨hin, hall⟩]
    · rw [if_neg hall, if_neg fun h => hall h.2]
  · have hn : n = min (w.ahead.length - (b._boundary.length + 4)) length := if_neg (by omega)
    have hahead : b.win.fill.ahead <+: content ++ (delimiter b._boundary ++ tl) := by
      rw [← hrest, ← rest_fill]
      exact List.prefix_append _ _
    have htake : w.ahead.take n = content.take n := by
      obtain ⟨t, ht⟩ := hahead
      have := congrArg (List.take n) ht
      rwa [List.take_append_of_le_length (by omega), List.take_append_of_le_length (by omega)] at this
    rw [if_neg (by omega), if_pos hpos, if_neg (fun h => by omega), copyOut, ← hn]
    dsimp only
    rw [htake]

theorem readAll_boundaryFound (h : b._boundaryFound = true) (rounds : ℕ) :
    readAll rounds b = ([], b) := by
  cases rounds with
  | zero => rfl
  | succ rounds => rw [readAll, readFromDevice, if_pos h]

theorem readAll_cons {rounds : ℕ} {b' : MultipartStreamBuf} {bytes : List UInt8}
    (h : b.readFromDevice (STREAM_BUFFER_SIZE - 4) = (some bytes, b')) (hne : bytes ≠ []) :
    readAll (rounds + 1) b = (bytes ++ (readAll rounds b').1, (readAll rounds b').2) := by
  obtain ⟨c, cs, rfl⟩ := List.exists_cons_of_ne_nil hne
  rw [readAll, h]

theorem readAll_of_found {rounds : ℕ} {bytes : List UInt8} {b' : MultipartStreamBuf}
    (h : b.readFromDevice (STREAM_BUFFER_SIZE - 4) = (some bytes, b'))
    (hfound : b'._boundaryFound = true) : readAll (rounds + 1) b = (bytes, b') := by
  cases bytes with
  | nil => rw [readAll, h]
  | cons c cs => rw [readAll_cons h (by simp), readAll_boundaryFound hfound, List.append_nil]

/-- The bytes that are copied belong to the content, and there are some, unless only the boundary
is left. -/
theorem copied_spec {patLen content ahead : ℕ} (length : ℕ) (hlength : 0 < length)
    (h : content + patLen ≤ ahead ∨ (ahead < content + patLen ∧ patLen < ahead)) :
    WindowSize.copied patLen length content ahead ≤ content ∧
      WindowSize.copied patLen length content ahead + patLen ≤ ahead ∧
      (0 < WindowSize.copied patLen length content ahead ∨ content = 0 ∧ patLen ≤ ahead) := by
  unfold WindowSize.copied
  split <;> omega

include hcr hclean hpat hrest in
/-- One call of the stream: the bytes that it copies belong to the content, and what can be read
behind them is the rest of it. -/
theorem readFromDevice_scan (hnone : b._contentLength = none) (hfound : b._boundaryFound = false)
    {n : ℕ} (hn : n = WindowSize.copied (b._boundary.length + 4) (STREAM_BUFFER_SIZE - 4)
      content.length b.win.fill.ahead.length) :
    b.readFromDevice (STREAM_BUFFER_SIZE - 4) = (some (content.take n),
        if content.length + (b._boundary.length + 4) ≤ b.win.fill.ahead.length ∧ n = content.length
        then consumeBoundary { b with win := b.win.fill.consume n }
        else { b with win := b.win.fill.consume n }) ∧
      n ≤ content.length ∧ n + (b._boundary.length + 4) ≤ b.win.fill.ahead.length ∧
      (b.win.fill.consume n).rest = content.drop n ++ (delimiter b._boundary ++ tl) ∧
      (b.win.fill.consume n).size = b.win.size.fill.consume n ∧
      (0 < n ∨ content.length + (b._boundary.length + 4) ≤ b.win.fill.ahead.length ∧
        n = content.length) := by
  have hlen : b._boundary.length + 4 + content.length ≤ b.win.rest.length := by
    rw [hrest]
    simp
    omega
  obtain ⟨hle, hfit, hpos⟩ :=
    copied_spec (STREAM_BUFFER_SIZE - 4) (by decide) (ahead_of_rest hpat hlen)
  rw [← hn] at hle hfit hpos
  refine ⟨?_, hle, hfit, ?_, ?_, by omega⟩
  · have hread : b.readFromDevice (STREAM_BUFFER_SIZE - 4) =
        scanContent (STREAM_BUFFER_SIZE - 4) 1 b := by
      rw [readFromDevice, if_neg (by simp [hfound]), readContent, hnone]
    rw [hread, scanContent_step hcr hclean hpat hrest (by decide), ← hn]
  · have htake : b.win.fill.rest =
        content.take n ++ (content.drop n ++ (delimiter b._boundary ++ tl)) := by
      rw [rest_fill, hrest, ← List.append_assoc (content.take n), List.take_append_drop]
    have hskip := rest_skip htake
    rwa [List.length_take, Nat.min_eq_left hle, ← consume_eq_skip (by omega)] at hskip
  · rw [size_consume (by omega), size_fill]

include hcr hclean hpat hrest in
/-- The stream of a part whose length is not known delivers its content and then handles the
boundary, which is in the window as a whole. -/
theorem readAll_scan {rounds F : ℕ} (hnone : b._contentLength = none)
    (hfound : b._boundaryFound = false) (hrounds : content.length < rounds)
    (hF : content.length < F) :
    ∃ w : ReadWindow,
      w.size = b.win.size.atBoundary (b._boundary.length + 4) F content.length ∧
      w.rest = delimiter b._boundary ++ tl ∧ b._boundary.length + 4 ≤ w.ahead.length ∧
      readAll rounds b = (content, consumeBoundary { b with win := w }) := by
  induction F generalizing b content rounds with
  | zero => simp at hF
  | succ F ih =>
      obtain ⟨rounds, rfl⟩ : ∃ r, rounds = r + 1 := ⟨rounds - 1, by omega⟩
      have hahead : b.win.size.fill.ahead = b.win.fill.ahead.length := by
        rw [← size_fill]
        rfl
      rw [WindowSize.atBoundary, hahead]
      generalize hn : WindowSize.copied (b._boundary.length + 4) (STREAM_BUFFER_SIZE - 4)
        content.length b.win.fill.ahead.length = n
      obtain ⟨hread, hle, hfit, hrest', hsize, hsome⟩ :=
        readFromDevice_scan hcr hclean hpat hrest hnone hfound hn.symm
      by_cases hwhole : content.length + (b._boundary.length + 4) ≤ b.win.fill.ahead.length ∧
          n = content.length
      · -- the call ends behind the boundary
        rw [if_pos hwhole, List.take_of_length_le (by omega)] at hread
        rw [List.drop_eq_nil_of_le (by omega), List.nil_append] at hrest'
        refine ⟨b.win.fill.consume n, by rw [if_pos hwhole, hsize], hrest', ?_, ?_⟩
        · simp only [consume, List.length_drop]
          omega
        · exact readAll_of_found hread consumeBoundary_boundaryFound
      · -- the following calls deliver the rest of the content
        have hpos : 0 < n := hsome.resolve_right hwhole
        rw [if_neg hwhole] at hread
        have hclean' : Clean b._boundary (content.drop n) :=
          fun h => hclean (h.trans (List.drop_suffix n content).isInfix)
        have hdrop : (content.drop n).length = content.length - n := List.length_drop
        obtain ⟨w, hsize', hw, hin, hall⟩ :=
          ih (b := { b with win := b.win.fill.consume n }) hcr hclean' hpat hrest' hnone hfound
            (by omega : (content.drop n).length < rounds) (by omega)
        refine ⟨w, by rw [if_neg hwhole, hsize', hsize, hdrop], hw, hin, ?_⟩
        have hne : content.take n ≠ [] := by
          intro h
          have := congrArg List.length h
          rw [List.length_take, List.length_nil] at this
          omega
        rw [readAll_cons hread hne, hall, List.take_append_drop]

/-- The bytes of a part whose length is known are delivered, wherever the window ends. -/
theorem readAll_copies {rounds : ℕ} {tail : List UInt8} (hrest : b.win.rest = content ++ tail)
    (hknown : b._contentLength = some (b._bytesRead + content.length))
    (hfound : b._boundaryFound = false) (hrounds : content.length < rounds) :
    ∃ r, ∀ b', b' = { b with
        win := skip content.length b.win
        _bytesRead := b._bytesRead + content.length } →
      readAll rounds b = (content ++ (readAll (r + 1) b').1, (readAll (r + 1) b').2) := by
  induction rounds generalizing b content with
  | zero => simp at hrounds
  | succ rounds ih =>
      by_cases hpos : content.length = 0
      · obtain rfl := List.length_eq_zero_iff.mp hpos
        refine ⟨rounds, ?_⟩
        rintro b' rfl
        rfl
      · have hread : b.readFromDevice (STREAM_BUFFER_SIZE - 4) =
            b.readContent (STREAM_BUFFER_SIZE - 4) := by
          rw [readFromDevice, if_neg (by simp [hfound])]
        generalize hn : min content.length (STREAM_BUFFER_SIZE - 4) = n
        have hsize : STREAM_BUFFER_SIZE - 4 = 32764 := rfl
        have hlen : (content.take n).length = n := by
          rw [List.length_take]
          omega
        have hrest' : b.win.rest = content.take n ++ (content.drop n ++ tail) := by
          rw [hrest, ← List.append_assoc (content.take n), List.take_append_drop]
        have hget := sgetn_spec hrest'
        have hskip := rest_skip hrest'
        rw [hlen] at hget hskip
        have hne : content.take n ≠ [] := by
          intro h
          rw [h, List.length_nil] at hlen
          omega
        rw [readContent, hknown] at hread
        dsimp only at hread
        rw [if_pos (by omega), Nat.add_sub_cancel_left, hn, hget] at hread
        dsimp only at hread
        rw [if_neg hne, hlen, ← hknown] at hread
        have hdrop : (content.drop n).length = content.length - n := List.length_drop
        obtain ⟨r, hall⟩ :=
          ih (b := { b with win := skip n b.win, _bytesRead := b._bytesRead + n }) hskip
            (by rw [hknown, hdrop]; congr 1; dsimp only; omega) hfound (by omega)
        refine ⟨r, ?_⟩
        rintro b' rfl
        have hwin : n + (content.length - n) = content.length := by omega
        have hbytes : b._bytesRead + n + (content.length - n) = b._bytesRead + content.length := by
          omega
        rw [readAll_cons hread hne, hall _ rfl, ← List.append_assoc, List.take_append_drop, ← skip_add,
          hdrop, hwin, hbytes]

include hrest in
/-- The stream of a part whose length is known delivers its content and then handles the boundary,
wherever the window ends. -/
theorem readAll_known {rounds : ℕ} (hknown : b._contentLength = some (b._bytesRead + content.length))
    (hfound : b._boundaryFound = false) (hrounds : content.length < rounds) :
    readAll rounds b = (content, { consumePostBoundaryDelimiter
      { b with
        win := skip (content.length + (b._boundary.length + 4)) b.win
        _bytesRead := b._bytesRead + content.length } with _boundaryFound := true }) := by
  obtain ⟨r, hcopies⟩ := readAll_copies hrest hknown hfound hrounds
  generalize hb' : ({ b with
    win := skip content.length b.win
    _bytesRead := b._bytesRead + content.length } : MultipartStreamBuf) = b' at *
  have hend : b'.readFromDevice (STREAM_BUFFER_SIZE - 4) = b'.endOfContent := by
    subst hb'
    rw [readFromDevice, if_neg (by simp [hfound]), readContent, hknown]
    dsimp only
    rw [if_neg (lt_irrefl _)]
  have hrest' : b'.win.rest = delimiter b'._boundary ++ tl := by
    subst hb'
    exact rest_skip hrest
  rw [endOfContent_eq hrest'] at hend
  rw [hcopies b' rfl, readAll_of_found hend rfl, List.append_nil]
  subst hb'
  dsimp only
  rw [← skip_add]

end Content

/-! ### The end of a part -/

theorem rest_behind {w : ReadWindow} {boundary content tl : List UInt8}
    (h : w.rest = content ++ (delimiter boundary ++ tl)) :
    (w.skip (content.length + (boundary.length + 4))).rest = tl := by
  rw [← List.append_assoc] at h
  have := ReadWindow.rest_skip h
  rwa [List.length_append, length_delimiter] at this

/-- The lengths behind the boundary line that follows `content` bytes. -/
def sizeBehind (known : Bool) (boundary content : ℕ) (z : WindowSize) : WindowSize :=
  if known then z.skip (content + (boundary + 6))
  else (z.atBoundary (boundary + 4) (content + 1) content).skip (boundary + 6)

/-- The window does not end between the carriage return and the line feed behind the boundary that
follows `content` bytes; a length that is known makes this irrelevant. -/
def ClearBehind (known : Bool) (boundary content : ℕ) (z : WindowSize) : Prop :=
  known = false → (z.atBoundary (boundary + 4) (content + 1) content).ahead ≠ boundary + 5

instance (known : Bool) (boundary content : ℕ) (z : WindowSize) :
    Decidable (ClearBehind known boundary content z) :=
  inferInstanceAs (Decidable (_ → _))

section EndOfPart

open ReadWindow

variable {b : MultipartStreamBuf} {content tl : List UInt8} {rounds : ℕ}
  (hfound : b._boundaryFound = false) (hbytes : b._bytesRead = 0)
  (hlength : ∀ n ∈ b._contentLength, n = content.length)
  (hcr : chr '\r' ∉ b._boundary) (hclean : Clean b._boundary content)
  (hpat : b._boundary.length + 4 ≤ BUFFER_SIZE / 2) (hrounds : content.length < rounds)

include hfound hbytes hlength hcr hclean hpat hrounds in
/-- The stream of a part ends at a boundary line, behind which the next part begins. -/
theorem readAll_next (hlast : b._lastPart = false)
    (hrest : b.win.rest = content ++ (delimiter b._boundary ++ chr '\r' :: chr '\n' :: tl))
    (hclear : ClearBehind b._contentLength.isSome b._boundary.length content.length b.win.size) :
    ∃ b', readAll rounds b = (content, b') ∧ b'._lastPart = false ∧ b'.win.rest = tl ∧
      b'.win.size = sizeBehind b._contentLength.isSome b._boundary.length content.length b.win.size := by
  have hline : ∀ {w : ReadWindow} (pre : List UInt8),
      w.rest = pre ++ (delimiter b._boundary ++ chr '\r' :: chr '\n' :: tl) →
      (skip (pre.length + (b._boundary.length + 6)) w).rest = tl ∧
        (skip (pre.length + (b._boundary.length + 6)) w).size =
          w.size.skip (pre.length + (b._boundary.length + 6)) := by
    intro w pre hw
    have hw' : w.rest = (pre ++ (delimiter b._boundary ++ [chr '\r', chr '\n'])) ++ tl := by
      simp [hw]
    have hlen : (pre ++ (delimiter b._boundary ++ [chr '\r', chr '\n'])).length =
        pre.length + (b._boundary.length + 6) := by simp
    rw [← hlen]
    exact ⟨rest_skip hw', size_skip (by rw [hw']; simp)⟩
  cases hlen : b._contentLength with
  | none =>
      rw [hlen] at hclear
      obtain ⟨w, hsize, hw, hin, hread⟩ :=
        readAll_scan hcr hclean hpat hrest hlen hfound hrounds (Nat.lt_succ_self _)
      have hedge := hclear rfl
      rw [← hsize] at hedge
      rw [consumeBoundary_next (b := { b with win := w }) hw hin hedge] at hread
      obtain ⟨hrest', hsize'⟩ := hline [] hw
      rw [List.length_nil, Nat.zero_add] at hrest' hsize'
      refine ⟨_, hread, hlast, hrest', ?_⟩
      rw [hsize', hsize]
      rfl
  | some n =>
      obtain rfl := hlength n (by rw [hlen]; rfl)
      have hread := readAll_known hrest (by rw [hlen, hbytes, Nat.zero_add]) hfound hrounds
      rw [consumePostBoundaryDelimiter_next (rest_behind hrest)] at hread
      obtain ⟨hrest', hsize'⟩ := hline content hrest
      rw [← skip_add] at hread
      exact ⟨_, hread, hlast, hrest', hsize'⟩

include hfound hbytes hlength hcr hclean hpat hrounds in
/-- The stream of the last part ends at the closing boundary. -/
theorem readAll_last (hrest : b.win.rest = content ++ (delimiter b._boundary ++ chr '-' :: tl)) :
    ∃ b', readAll rounds b = (content, b') ∧ b'._lastPart = true := by
  cases hlen : b._contentLength with
  | none =>
      obtain ⟨w, -, hw, hin, hread⟩ :=
        readAll_scan hcr hclean hpat hrest hlen hfound hrounds (Nat.lt_succ_self _)
      exact ⟨_, hread, consumeBoundary_last hw hin⟩
  | some n =>
      obtain rfl := hlength n (by rw [hlen]; rfl)
      have hread := readAll_known hrest (by rw [hlen, hbytes, Nat.zero_add]) hfound hrounds
      exact ⟨_, hread, consumePostBoundaryDelimiter_last (rest_behind hrest)⟩

end EndOfPart

end MultipartStreamBuf

end Poco.Net
