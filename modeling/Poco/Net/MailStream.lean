import Mathlib.Data.List.Infix
import Poco.Net.MessageHeader

/-! # `MailStreamBuf`

The stream buffer of mail messages.  On the way out it makes every bare line feed a CRLF, doubles a
dot at the start of a line and ends the message with a line that is a single dot; on the way in it
undoes the dots and stops behind that line.

Line ends are held back in `_buffer` until the next byte is known.  For the bytes on the way the
buffer does not matter: they are `stuffed` (`close_ostr`), and the text without the dots is `plain`.
No part of the stuffed text ends the data before `close` does (`close_ends_data`), and reading it gives
the plain text (`readAll_sent`), up to the first byte 0xFF, which `readFromDevice` takes for the end of
file, and but for the empty message, for which it returns a line feed. -/

namespace Poco.Net

open Poco.Lib

/-- `MailStreamBuf::State`. -/
inductive MailState
  | ST_DATA
  | ST_CR
  | ST_LF
  | ST_CR_LF
  | ST_CR_LF_DOT
  | ST_CR_LF_DOT_DOT
  | ST_CR_LF_DOT_CR
  | ST_CR_LF_DOT_CR_LF
deriving DecidableEq, Repr

/-- The members of `MailStreamBuf`: what is left to read from `_pIstr`, what has been written to
`_pOstr`, and the rest. -/
structure MailStreamBuf where
  _istr : List UInt8 := []
  _ostr : List UInt8 := []
  _buffer : List UInt8 := []
  _state : MailState := .ST_CR_LF
deriving DecidableEq, Repr

namespace MailStreamBuf

/-! ### Writing -/

/-- The first `switch` of `writeToDevice`. -/
def writeState (state : MailState) (c : UInt8) : MailState :=
  if c = chr '\r' then .ST_CR
  else if c = chr '\n' then if state = .ST_CR then .ST_CR_LF else .ST_LF
  else if c = chr '.' then if state = .ST_CR_LF then .ST_CR_LF_DOT else .ST_DATA
  else .ST_DATA

/-- `writeToDevice`. -/
def writeToDevice (b : MailStreamBuf) (c : UInt8) : MailStreamBuf :=
  match writeState b._state c with
  | .ST_DATA => { b with _ostr := b._ostr ++ b._buffer ++ [c], _buffer := [], _state := .ST_DATA }
  | .ST_LF => { b with _buffer := b._buffer ++ ascii "\r\n", _state := .ST_CR_LF }
  | .ST_CR_LF_DOT =>
      { b with _ostr := b._ostr ++ b._buffer ++ ascii "..", _buffer := [], _state := .ST_DATA }
  | state => { b with _buffer := b._buffer ++ [c], _state := state }

/-- `close`, for an output stream. -/
def close (b : MailStreamBuf) : MailStreamBuf :=
  if b._state ≠ .ST_CR_LF_DOT_CR_LF then
    { b with
      _ostr :=
        b._ostr ++ b._buffer ++ (if b._state ≠ .ST_CR_LF then ascii "\r\n" else []) ++ ascii ".\r\n"
      _state := .ST_CR_LF_DOT_CR_LF }
  else b

/-- A message written to a new stream. -/
def write (m : List UInt8) : MailStreamBuf := m.foldl writeToDevice {}

/-! ### Reading -/

/-- The `switch` of `readOne`. -/
def readState (state : MailState) (c : Option UInt8) : MailState :=
  if c = some (chr '\r') then
    if state = .ST_CR_LF_DOT then .ST_CR_LF_DOT_CR else .ST_CR
  else if c = some (chr '\n') then
    if state = .ST_CR then .ST_CR_LF
    else if state = .ST_CR_LF_DOT_CR then .ST_CR_LF_DOT_CR_LF
    else .ST_DATA
  else if c = some (chr '.') then
    if state = .ST_CR_LF then .ST_CR_LF_DOT
    else if state = .ST_CR_LF_DOT then .ST_CR_LF_DOT_DOT
    else .ST_DATA
  else .ST_DATA

/-- `readOne`; `none` is the end of file. -/
def readOne (b : MailStreamBuf) : Option UInt8 × MailStreamBuf :=
  if b._state ≠ .ST_CR_LF_DOT_CR_LF then
    let c := b._istr.head?
    let b := { b with _istr := b._istr.tail }
    match readState b._state c with
    | .ST_CR_LF_DOT_DOT => (c, { b with _state := .ST_DATA })
    | .ST_CR_LF_DOT_CR_LF =>
        (c, { b with _state := .ST_CR_LF_DOT_CR_LF, _buffer := b._buffer.take (b._buffer.length - 2) })
    | state => (c, { b with _state := state, _buffer := b._buffer ++ c.toList })
  else (none, b)

/-- The loop of `readFromDevice`; a round reads a byte or ends it. -/
def readLoop : ℕ → MailStreamBuf → Option UInt8 × MailStreamBuf
  | 0, b => (none, b)
  | fuel + 1, b =>
      let (c, b) := readOne b
      if c ≠ none ∧ b._state ≠ .ST_DATA ∧ b._state ≠ .ST_CR_LF_DOT_CR_LF then readLoop fuel b
      else (c, b)

/-- `c = _buffer[0]`: a `char` is signed, and 0xFF becomes `eof`. -/
def intOfChar (c : UInt8) : Option UInt8 := if c = 0xFF then none else some c

/-- `readFromDevice`. -/
def readFromDevice (b : MailStreamBuf) : Option UInt8 × MailStreamBuf :=
  match b._buffer with
  | c :: buffer => (intOfChar c, { b with _buffer := buffer })
  | [] =>
      let (c, b) := readLoop (b._istr.length + 1) b
      match b._buffer with
      | c :: buffer => (intOfChar c, { b with _buffer := buffer })
      | [] => (c, b)

/-- What a stream returns until the end of file, and the buffer behind it; each byte that is returned
has been read or was in the buffer. -/
def readN : ℕ → MailStreamBuf → List UInt8 × MailStreamBuf
  | 0, b => ([], b)
  | fuel + 1, b =>
      match readFromDevice b with
      | (none, b) => ([], b)
      | (some c, b) =>
          let (cs, b) := readN fuel b
          (c :: cs, b)

/-- Reading to the end of file. -/
def readAll (b : MailStreamBuf) : List UInt8 × MailStreamBuf :=
  readN (b._istr.length + b._buffer.length + 1) b

/-! ### The bytes on the way -/

/-- The state behind a byte. -/
def behind (c : UInt8) : MailState :=
  if c = chr '\r' then .ST_CR else if c = chr '\n' then .ST_CR_LF else .ST_DATA

/-- A byte of a message, with a bare line feed made a CRLF. -/
def normal (state : MailState) (c : UInt8) : List UInt8 :=
  if c = chr '\n' ∧ state ≠ .ST_CR then ascii "\r\n" else [c]

/-- A byte of a message on the way. -/
def added (state : MailState) (c : UInt8) : List UInt8 :=
  if c = chr '.' ∧ state = .ST_CR_LF then ascii ".." else normal state c

/-- What ends the last line of a message, if that is necessary. -/
def lineEnd (state : MailState) : List UInt8 := if state ≠ .ST_CR_LF then ascii "\r\n" else []

/-- The bytes that are sent for a message behind a state. -/
def stuffed (state : MailState) : List UInt8 → List UInt8
  | [] => lineEnd state ++ ascii ".\r\n"
  | c :: m => added state c ++ stuffed (behind c) m

/-- The message with CRLF for its line ends. -/
def plain (state : MailState) : List UInt8 → List UInt8
  | [] => lineEnd state
  | c :: m => normal state c ++ plain (behind c) m

/-- The state is one between two bytes of a message. -/
def Between (state : MailState) : Prop := state = .ST_DATA ∨ state = .ST_CR ∨ state = .ST_CR_LF

theorem between_behind (c : UInt8) : Between (behind c) := by
  rw [behind]
  split
  · exact .inr (.inl rfl)
  · split
    · exact .inr (.inr rfl)
    · exact .inl rfl

theorem writeToDevice_text (b : MailStreamBuf) (c : UInt8) :
    (writeToDevice b c)._ostr ++ (writeToDevice b c)._buffer =
        b._ostr ++ b._buffer ++ added b._state c ∧
      (writeToDevice b c)._state = behind c := by
  rw [writeToDevice, added, normal, behind, writeState]
  by_cases hcr : c = chr '\r'
  · subst hcr
    simp [chr]
  · by_cases hlf : c = chr '\n'
    · subst hlf
      by_cases hs : b._state = .ST_CR
      · simp [hs, chr]
      · simp [hs, chr]
    · by_cases hdot : c = chr '.'
      · subst hdot
        by_cases hs : b._state = .ST_CR_LF
        · simp [hs, chr]
        · simp [hs, chr]
      · simp [hcr, hlf, hdot]

theorem close_foldl {b : MailStreamBuf} (h : Between b._state) (m : List UInt8) :
    (close (m.foldl writeToDevice b))._ostr = b._ostr ++ b._buffer ++ stuffed b._state m := by
  induction m generalizing b with
  | nil =>
      have hclose : b._state ≠ .ST_CR_LF_DOT_CR_LF := by
        rcases h with h | h | h
        · simp [h]
        · simp [h]
        · simp [h]
      rw [List.foldl_nil, close, if_pos hclose, stuffed, lineEnd, List.append_assoc]
  | cons c m ih =>
      obtain ⟨htext, hstate⟩ := writeToDevice_text b c
      have hbetween : Between (writeToDevice b c)._state := by
        rw [hstate]
        exact between_behind c
      rw [List.foldl_cons, ih hbetween, htext, hstate, stuffed, List.append_assoc]

theorem close_write (m : List UInt8) : (close (write m))._ostr = stuffed .ST_CR_LF m :=
  close_foldl (.inr (.inr rfl)) m

/-- Before the stream is closed, only a part of that has been sent. -/
theorem write_prefix (m : List UInt8) :
    ∃ more, more ≠ [] ∧ (close (write m))._ostr = (write m)._ostr ++ more := by
  have hbetween : Between (write m)._state := by
    rcases List.eq_nil_or_concat m with rfl | ⟨m, c, rfl⟩
    · exact .inr (.inr rfl)
    · rw [write, List.concat_eq_append, List.foldl_append]
      have hstate := (writeToDevice_text (m.foldl writeToDevice {}) c).2
      rw [List.foldl_cons, List.foldl_nil, hstate]
      exact between_behind c
  have hsent := close_foldl hbetween []
  rw [List.foldl_nil, List.append_assoc] at hsent
  exact ⟨_, by simp [stuffed, ascii], hsent⟩

/-! ### The end of the data -/

/-- The sequence that ends the data: a line that is a single dot. -/
def endOfData : List UInt8 := ascii "\r\n.\r\n"

/-- The bytes end with that line; they begin at the start of a line. -/
def EndsData (sent : List UInt8) : Prop := sent = ascii ".\r\n" ∨ endOfData <:+ sent

instance (sent : List UInt8) : Decidable (EndsData sent) := inferInstanceAs (Decidable (_ ∨ _))

theorem snoc_suffix_snoc {α : Type} {l t : List α} {a b : α} :
    l ++ [a] <:+ t ++ [b] ↔ a = b ∧ l <:+ t := by
  rw [List.suffix_concat_iff]
  constructor
  · rintro (h | ⟨l', h, hl⟩)
    · simp at h
    · obtain ⟨rfl, h⟩ := List.append_inj' h rfl
      exact ⟨by simpa using h, hl⟩
  · rintro ⟨rfl, hl⟩
    exact .inr ⟨l, rfl, hl⟩

/-- With a line end before the first byte there is only one case. -/
theorem endsData_iff {sent : List UInt8} : EndsData sent ↔ endOfData <:+ ascii "\r\n" ++ sent := by
  constructor
  · rintro (rfl | h)
    · exact List.suffix_refl _
    · exact h.trans (List.suffix_append _ _)
  · intro h
    rcases List.suffix_or_suffix_of_suffix h (List.suffix_append (ascii "\r\n") sent) with hs | hs
    · exact .inr hs
    · -- a short text is one of the ends of the sequence
      have hends : ∀ s ∈ endOfData.tails, endOfData <:+ ascii "\r\n" ++ s → EndsData s := by decide
      exact hends sent ((List.mem_tails _ _).mpr hs) h

/-- No line of the text so far is a single dot, and the last one is not about to be. -/
structure Clean (t : List UInt8) : Prop where
  noEnd : ¬endOfData <:+: t
  noDot : ¬ascii "\r\n." <:+ t
  noDotCR : ¬ascii "\r\n.\r" <:+ t

variable {t : List UInt8} {c : UInt8}

theorem cr_suffix_iff : [chr '\r'] <:+ t ++ [c] ↔ c = chr '\r' := by
  rw [← List.nil_append [chr '\r'], snoc_suffix_snoc, and_iff_left List.nil_suffix, eq_comm]

theorem crlf_suffix_iff : ascii "\r\n" <:+ t ++ [c] ↔ c = chr '\n' ∧ [chr '\r'] <:+ t := by
  rw [eq_comm]
  exact snoc_suffix_snoc (l := [chr '\r'])

theorem endOfData_infix_iff :
    endOfData <:+: t ++ [c] ↔ c = chr '\n' ∧ ascii "\r\n.\r" <:+ t ∨ endOfData <:+: t := by
  rw [List.infix_concat_iff, eq_comm]
  exact or_congr_left (snoc_suffix_snoc (l := ascii "\r\n.\r"))

theorem Clean.snoc (h : Clean t) (hc : c = chr '.' → ¬ascii "\r\n" <:+ t) : Clean (t ++ [c]) where
  noEnd := by
    rw [endOfData_infix_iff]
    rintro (⟨-, hdot⟩ | hend)
    · exact h.noDotCR hdot
    · exact h.noEnd hend
  noDot := by
    intro hdot
    obtain ⟨rfl, hs⟩ := (snoc_suffix_snoc (l := ascii "\r\n")).mp hdot
    exact hc rfl hs
  noDotCR := by
    intro hdot
    exact h.noDot ((snoc_suffix_snoc (l := ascii "\r\n.")).mp hdot).2

theorem Clean.dots (h : Clean t) : Clean (t ++ ascii "..") := by
  have hsplit : t ++ ascii ".." = t ++ [chr '.'] ++ [chr '.'] := by simp [ascii]
  have hlf : ¬chr '.' = chr '\n' := by decide
  rw [hsplit]
  constructor
  · rw [endOfData_infix_iff, endOfData_infix_iff]
    rintro (⟨hc, -⟩ | ⟨hc, -⟩ | hend)
    · exact hlf hc
    · exact hlf hc
    · exact h.noEnd hend
  · intro hdot
    have hcrlf := ((snoc_suffix_snoc (l := ascii "\r\n")).mp hdot).2
    exact hlf (crlf_suffix_iff.mp hcrlf).1
  · intro hdot
    have hcr := ((snoc_suffix_snoc (l := ascii "\r\n.")).mp hdot).1
    exact absurd hcr (by decide)

/-- The text so far and the state of the stream. -/
structure Follows (state : MailState) (t : List UInt8) : Prop where
  clean : Clean t
  atCR : state = .ST_CR ↔ [chr '\r'] <:+ t
  atCRLF : state = .ST_CR_LF ↔ ascii "\r\n" <:+ t

theorem behind_eq_CR : behind c = .ST_CR ↔ c = chr '\r' := by
  rw [behind]
  split_ifs <;> simp_all

theorem behind_eq_CRLF : behind c = .ST_CR_LF ↔ c = chr '\n' := by
  rw [behind]
  split_ifs with hcr
  · subst hcr
    decide
  · simp_all
  · simp_all

theorem Follows.added {state : MailState} (h : Follows state t) (c : UInt8) :
    Follows (behind c) (t ++ added state c) := by
  rw [MailStreamBuf.added, normal]
  split_ifs with hdot hlf
  · -- a dot at the start of a line
    obtain ⟨rfl, -⟩ := hdot
    have hsplit : t ++ ascii ".." = t ++ [chr '.'] ++ [chr '.'] := by simp [ascii]
    refine ⟨h.clean.dots, ?_, ?_⟩
    · rw [hsplit, behind_eq_CR, cr_suffix_iff]
    · rw [hsplit, behind_eq_CRLF, crlf_suffix_iff]
      exact iff_of_false (by decide) (fun hc => absurd hc.1 (by decide))
  · -- a bare line feed
    obtain ⟨rfl, -⟩ := hlf
    have hsplit : t ++ ascii "\r\n" = t ++ [chr '\r'] ++ [chr '\n'] := by simp [ascii]
    have hcr : Clean (t ++ [chr '\r']) := h.clean.snoc fun hc => absurd hc (by decide)
    rw [hsplit]
    refine ⟨hcr.snoc fun hc => absurd hc (by decide), ?_, ?_⟩
    · rw [behind_eq_CR, cr_suffix_iff]
    · rw [behind_eq_CRLF, crlf_suffix_iff, cr_suffix_iff]
      simp
  · refine ⟨h.clean.snoc ?_, ?_, ?_⟩
    · rintro rfl hcrlf
      exact hdot ⟨rfl, h.atCRLF.mpr hcrlf⟩
    · rw [behind_eq_CR, cr_suffix_iff]
    · rw [behind_eq_CRLF, crlf_suffix_iff, ← h.atCR]
      constructor
      · intro hc
        exact ⟨hc, not_not.mp fun hs => hlf ⟨hc, hs⟩⟩
      · exact fun hc => hc.1

/-- The text that is sent ends the data with its last byte, and not before. -/
theorem Follows.stuffed {state : MailState} (h : Follows state t) (m : List UInt8) :
    ∃ body, t ++ stuffed state m = body ++ [chr '\n'] ∧ ¬endOfData <:+: body ∧
      endOfData <:+ body ++ [chr '\n'] := by
  induction m generalizing state t with
  | nil =>
      -- behind the end of the last line
      have hline : Clean (t ++ lineEnd state) ∧ ascii "\r\n" <:+ t ++ lineEnd state := by
        rw [lineEnd]
        split_ifs with hs
        · have hcr : Clean (t ++ [chr '\r']) := h.clean.snoc fun hc => absurd hc (by decide)
          have hsplit : t ++ ascii "\r\n" = t ++ [chr '\r'] ++ [chr '\n'] := by simp [ascii]
          refine ⟨?_, List.suffix_append _ _⟩
          rw [hsplit]
          exact hcr.snoc fun hc => absurd hc (by decide)
        · rw [List.append_nil]
          exact ⟨h.clean, h.atCRLF.mp (not_not.mp hs)⟩
      obtain ⟨hclean, front, hfront⟩ := hline
      refine ⟨t ++ lineEnd state ++ [chr '.'] ++ [chr '\r'], by simp [MailStreamBuf.stuffed, ascii], ?_, ?_⟩
      · rw [endOfData_infix_iff, endOfData_infix_iff]
        rintro (⟨hc, -⟩ | ⟨hc, -⟩ | hend)
        · exact absurd hc (by decide)
        · exact absurd hc (by decide)
        · exact hclean.noEnd hend
      · rw [← hfront]
        exact ⟨front, by simp [endOfData, ascii]⟩
  | cons c m ih =>
      rw [MailStreamBuf.stuffed, ← List.append_assoc]
      exact ih (h.added c)

theorem follows_start : Follows .ST_CR_LF (ascii "\r\n") where
  clean := ⟨by decide, by decide, by decide⟩
  atCR := by decide
  atCRLF := by decide

/-- **Main result.** Nothing that is sent before `close` ends the data, and what has been sent behind
`close` ends the data exactly once, with its last byte. -/
theorem close_ends_data (m : List UInt8) :
    (¬ascii ".\r\n" <+: (write m)._ostr ∧ ¬ascii "\r\n.\r\n" <:+: (write m)._ostr) ∧
      ∀ sent, sent <+: (close (write m))._ostr →
        (EndsData sent ↔ sent = (close (write m))._ostr) := by
  obtain ⟨body, hbody, hnone, hend⟩ := follows_start.stuffed m
  have hclosed : ∀ sent, sent <+: (close (write m))._ostr →
      (EndsData sent ↔ sent = (close (write m))._ostr) := by
    intro sent hsent
    rw [close_write] at hsent ⊢
    rw [endsData_iff]
    constructor
    · intro hsuffix
      have hprefix : ascii "\r\n" ++ sent <+: body ++ [chr '\n'] := by
        rw [← hbody]
        exact (List.prefix_append_right_inj _).mpr hsent
      rcases List.prefix_concat_iff.mp hprefix with heq | hshort
      · rw [← hbody] at heq
        exact List.append_cancel_left heq
      · exact absurd (hsuffix.isInfix.trans hshort.isInfix) hnone
    · rintro rfl
      rw [hbody]
      exact hend
  -- a part that is sent before `close` is not the whole text
  have hopen : ∀ sent, sent <+: (write m)._ostr → ¬EndsData sent := by
    intro sent hsent hends
    obtain ⟨more, hmore, hclose⟩ := write_prefix m
    have hall := (hclosed sent (hsent.trans ⟨more, hclose.symm⟩)).mp hends
    have hle := hsent.length_le
    rw [hall, hclose, List.length_append] at hle
    have hpos := List.length_pos_iff.mpr hmore
    omega
  refine ⟨⟨?_, ?_⟩, hclosed⟩
  · intro hdot
    exact hopen _ hdot (.inl rfl)
  · rintro ⟨front, rest, heq⟩
    exact hopen (front ++ endOfData) ⟨rest, heq⟩ (.inr (List.suffix_append _ _))

/-! ### Reading what has been sent -/

section

variable {rest w : List UInt8} {state : MailState} {n : ℕ}

/-- A byte that does not end the loop of `readFromDevice`. -/
theorem readLoop_cons {state' : MailState} {istr : List UInt8} (hs : state ≠ .ST_CR_LF_DOT_CR_LF)
    (h : readState state (some c) = state') (hdata : state' ≠ .ST_DATA)
    (hdots : state' ≠ .ST_CR_LF_DOT_DOT) (hend : state' ≠ .ST_CR_LF_DOT_CR_LF) (ostr : List UInt8) :
    readLoop (n + 1) ⟨c :: istr, ostr, w, state⟩ = readLoop n ⟨istr, ostr, w ++ [c], state'⟩ := by
  have hone : readOne ⟨c :: istr, ostr, w, state⟩ = (some c, ⟨istr, ostr, w ++ [c], state'⟩) := by
    rw [readOne, if_pos hs]
    simp only [List.head?_cons, List.tail_cons, h]
    cases state' <;> simp_all
  rw [readLoop, hone]
  simp [hdata, hend]

theorem readLoop_data {istr : List UInt8} (hs : state ≠ .ST_CR_LF_DOT_CR_LF)
    (h : readState state (some c) = .ST_DATA) (ostr : List UInt8) :
    readLoop (n + 1) ⟨c :: istr, ostr, w, state⟩ = (some c, ⟨istr, ostr, w ++ [c], .ST_DATA⟩) := by
  have hone : readOne ⟨c :: istr, ostr, w, state⟩ = (some c, ⟨istr, ostr, w ++ [c], .ST_DATA⟩) := by
    rw [readOne, if_pos hs]
    simp [h]
  rw [readLoop, hone]
  simp

theorem Between.ne_end (h : Between state) : state ≠ .ST_CR_LF_DOT_CR_LF := by
  rcases h with h | h | h
  · simp [h]
  · simp [h]
  · simp [h]

theorem Between.readState_CR (h : Between state) : readState state (some (chr '\r')) = .ST_CR := by
  rcases h with rfl | rfl | rfl
  · decide
  · decide
  · decide

theorem readLoop_crlf {istr : List UInt8} (h : Between state) (ostr : List UInt8) :
    readLoop (n + 2) ⟨ascii "\r\n" ++ istr, ostr, w, state⟩ =
      readLoop n ⟨istr, ostr, w ++ ascii "\r\n", .ST_CR_LF⟩ := by
  have hlf : readState .ST_CR (some (chr '\n')) = .ST_CR_LF := by decide
  show readLoop (n + 1 + 1) ⟨chr '\r' :: chr '\n' :: istr, ostr, w, state⟩ = _
  rw [readLoop_cons h.ne_end h.readState_CR (by decide) (by decide) (by decide),
    readLoop_cons (by decide) hlf (by decide) (by decide) (by decide), List.append_assoc]
  rfl

theorem readLoop_end {istr : List UInt8} (ostr : List UInt8) :
    readLoop (n + 3) ⟨ascii ".\r\n" ++ istr, ostr, w, .ST_CR_LF⟩ =
      (some (chr '\n'), ⟨istr, ostr, w, .ST_CR_LF_DOT_CR_LF⟩) := by
  have hdot : readState .ST_CR_LF (some (chr '.')) = .ST_CR_LF_DOT := by decide
  have hcr : readState .ST_CR_LF_DOT (some (chr '\r')) = .ST_CR_LF_DOT_CR := by decide
  have hlf : readState .ST_CR_LF_DOT_CR (some (chr '\n')) = .ST_CR_LF_DOT_CR_LF := by decide
  show readLoop (n + 1 + 1 + 1) ⟨chr '.' :: chr '\r' :: chr '\n' :: istr, ostr, w, _⟩ = _
  rw [readLoop_cons (by decide) hdot (by decide) (by decide) (by decide),
    readLoop_cons (by decide) hcr (by decide) (by decide) (by decide), readLoop, readOne,
    if_pos (by simp)]
  simp [hlf]

theorem readLoop_dots {istr : List UInt8} (ostr : List UInt8) :
    readLoop (n + 2) ⟨ascii ".." ++ istr, ostr, w, .ST_CR_LF⟩ =
      (some (chr '.'), ⟨istr, ostr, w ++ [chr '.'], .ST_DATA⟩) := by
  have hdot : readState .ST_CR_LF (some (chr '.')) = .ST_CR_LF_DOT := by decide
  have hdots : readState .ST_CR_LF_DOT (some (chr '.')) = .ST_CR_LF_DOT_DOT := by decide
  show readLoop (n + 1 + 1) ⟨chr '.' :: chr '.' :: istr, ostr, w, _⟩ = _
  rw [readLoop_cons (by decide) hdot (by decide) (by decide) (by decide), readLoop, readOne,
    if_pos (by simp)]
  simp [hdots]

/-- One call of `readFromDevice` reads up to a byte that is no line end, or to the end. -/
theorem readLoop_stuffed (h : Between state) (m : List UInt8) (hn : (stuffed state m).length < n)
    (ostr : List UInt8) :
    (∃ c x m', plain state m = x ++ plain .ST_DATA m' ∧ x ≠ [] ∧ m'.length < m.length ∧
        readLoop n ⟨stuffed state m ++ rest, ostr, w, state⟩ =
          (c, ⟨stuffed .ST_DATA m' ++ rest, ostr, w ++ x, .ST_DATA⟩)) ∨
      readLoop n ⟨stuffed state m ++ rest, ostr, w, state⟩ =
        (some (chr '\n'), ⟨rest, ostr, w ++ plain state m, .ST_CR_LF_DOT_CR_LF⟩) := by
  induction m generalizing state w n with
  | nil =>
      right
      rw [stuffed, plain, lineEnd] at *
      split_ifs at hn ⊢ with hs
      · obtain ⟨k, rfl⟩ : ∃ k, n = k + 3 + 2 := ⟨n - 5, by simp [ascii] at hn; omega⟩
        rw [List.append_assoc, readLoop_crlf h, readLoop_end]
      · obtain ⟨k, rfl⟩ : ∃ k, n = k + 3 := ⟨n - 3, by simp [ascii] at hn; omega⟩
        obtain rfl := not_not.mp hs
        rw [List.nil_append, readLoop_end, List.append_nil]
  | cons c m ih =>
      rw [stuffed, plain]
      -- a line end is read on to the next byte
      have hread (k : ℕ) (hk : (stuffed (behind c) m).length < k)
          (hstep : readLoop n ⟨added state c ++ stuffed (behind c) m ++ rest, ostr, w, state⟩ =
            readLoop k ⟨stuffed (behind c) m ++ rest, ostr, w ++ normal state c, behind c⟩) :
          (∃ d x m', normal state c ++ plain (behind c) m = x ++ plain .ST_DATA m' ∧ x ≠ [] ∧
              m'.length < (c :: m).length ∧
              readLoop n ⟨added state c ++ stuffed (behind c) m ++ rest, ostr, w, state⟩ =
                (d, ⟨stuffed .ST_DATA m' ++ rest, ostr, w ++ x, .ST_DATA⟩)) ∨
            readLoop n ⟨added state c ++ stuffed (behind c) m ++ rest, ostr, w, state⟩ =
              (some (chr '\n'),
                ⟨rest, ostr, w ++ (normal state c ++ plain (behind c) m), .ST_CR_LF_DOT_CR_LF⟩) := by
        rw [hstep]
        rcases ih (between_behind c) hk with ⟨d, x, m', hx, hne, hlt, heq⟩ | heq
        · refine .inl ⟨d, normal state c ++ x, m', ?_, by simp [hne], ?_, ?_⟩
          · rw [hx, List.append_assoc]
          · exact Nat.lt_succ_of_lt hlt
          · rw [heq, List.append_assoc]
        · right
          rw [heq, List.append_assoc]
      rw [stuffed, List.length_append] at hn
      by_cases hcr : c = chr '\r'
      · have hadded : added state c = [c] := by simp [added, normal, hcr, chr]
        have hnormal : normal state c = [c] := by simp [normal, hcr, chr]
        rw [hadded, List.length_singleton] at hn
        obtain ⟨k, rfl⟩ : ∃ k, n = k + 1 := ⟨n - 1, by omega⟩
        refine hread k (by omega) ?_
        rw [hadded, hnormal]
        refine readLoop_cons h.ne_end ?_ ?_ ?_ ?_ ostr
        · rw [hcr, h.readState_CR]
          rfl
        · simp [hcr, behind]
        · simp [hcr, behind]
        · simp [hcr, behind]
      by_cases hlf : c = chr '\n'
      · by_cases hs : state = .ST_CR
        · have hadded : added state c = [c] := by simp [added, normal, hlf, hs, chr]
          have hnormal : normal state c = [c] := by simp [normal, hs]
          have hbehind : behind c = .ST_CR_LF := behind_eq_CRLF.mpr hlf
          rw [hadded, List.length_singleton] at hn
          obtain ⟨k, rfl⟩ : ∃ k, n = k + 1 := ⟨n - 1, by omega⟩
          refine hread k (by omega) ?_
          rw [hadded, hnormal, hbehind]
          refine readLoop_cons h.ne_end ?_ (by decide) (by decide) (by decide) ostr
          rw [hlf, hs]
          decide
        · have hadded : added state c = ascii "\r\n" := by simp [added, normal, hlf, hs, chr]
          have hnormal : normal state c = ascii "\r\n" := by simp [normal, hlf, hs]
          have hbehind : behind c = .ST_CR_LF := behind_eq_CRLF.mpr hlf
          have hlen : (ascii "\r\n").length = 2 := by decide
          rw [hadded, hlen] at hn
          obtain ⟨k, rfl⟩ : ∃ k, n = k + 2 := ⟨n - 2, by omega⟩
          refine hread k (by omega) ?_
          rw [hadded, hnormal, hbehind, List.append_assoc]
          exact readLoop_crlf h ostr
      have hnormal : normal state c = [c] := by simp [normal, hlf]
      have hbehind : behind c = .ST_DATA := by simp [behind, hcr, hlf]
      left
      by_cases hdots : c = chr '.' ∧ state = .ST_CR_LF
      · obtain ⟨rfl, rfl⟩ := hdots
        have hlen : (ascii "..").length = 2 := by decide
        rw [added, if_pos ⟨rfl, rfl⟩, hlen] at hn
        obtain ⟨k, rfl⟩ : ∃ k, n = k + 2 := ⟨n - 2, by omega⟩
        refine ⟨some (chr '.'), [chr '.'], m, ?_, List.cons_ne_nil _ _, Nat.lt_succ_self _, ?_⟩
        · rw [hnormal, hbehind]
        · rw [added, if_pos ⟨rfl, rfl⟩, hbehind, List.append_assoc]
          exact readLoop_dots ostr
      · have hadded : added state c = [c] := by rw [added, if_neg hdots, hnormal]
        rw [hadded, List.length_singleton] at hn
        obtain ⟨k, rfl⟩ : ∃ k, n = k + 1 := ⟨n - 1, by omega⟩
        refine ⟨some c, [c], m, ?_, List.cons_ne_nil _ _, Nat.lt_succ_self _, ?_⟩
        · rw [hnormal, hbehind]
        · rw [hadded, hbehind]
          refine readLoop_data h.ne_end ?_ ostr
          have hdot : c = chr '.' → state ≠ .ST_CR_LF := fun hc hs => hdots ⟨hc, hs⟩
          rcases h with rfl | rfl | rfl
          · simp [readState, hcr, hlf]
          · simp [readState, hcr, hlf]
          · simp [readState, hcr, hlf]
            simpa using hdot

/-! ### Reading to the end of file -/

/-- Bytes in the buffer are returned one after another. -/
theorem readN_buffer {buffer : List UInt8} (hbytes : 0xFF ∉ buffer) (b : MailStreamBuf) (k : ℕ) :
    readN (buffer.length + k) { b with _buffer := buffer } =
      (buffer ++ (readN k { b with _buffer := [] }).1, (readN k { b with _buffer := [] }).2) := by
  induction buffer with
  | nil => simp
  | cons c buffer ih =>
      rw [List.mem_cons, not_or] at hbytes
      have hread : readFromDevice { b with _buffer := c :: buffer } =
          (some c, { b with _buffer := buffer }) := by
        simp [readFromDevice, intOfChar, Ne.symm hbytes.1]
      rw [List.length_cons, Nat.add_right_comm, readN, hread]
      simp only [ih hbytes.2, List.cons_append]

/-- Behind the end of the data there is nothing to read. -/
theorem readN_end {b : MailStreamBuf} (hstate : b._state = .ST_CR_LF_DOT_CR_LF) (hbuffer : b._buffer = [])
    (n : ℕ) : readN n b = ([], b) := by
  cases n with
  | zero => rfl
  | succ n =>
      have hread : readFromDevice b = (none, b) := by
        rw [readFromDevice, hbuffer]
        simp [readLoop, readOne, hstate, hbuffer]
      rw [readN, hread]

theorem length_plain_lt (state : MailState) (m : List UInt8) :
    (plain state m).length < (stuffed state m).length := by
  induction m generalizing state with
  | nil => simp [plain, stuffed, ascii]
  | cons c m ih =>
      have hle : (normal state c).length ≤ (added state c).length := by
        rw [added]
        split_ifs with hdot
        · simp [normal, hdot.1, ascii, chr]
        · exact le_rfl
      have hlt := ih (behind c)
      rw [plain, stuffed, List.length_append, List.length_append]
      omega

theorem plain_data_ne_nil (m : List UInt8) : plain .ST_DATA m ≠ [] := by
  cases m with
  | nil => simp [plain, lineEnd, ascii]
  | cons c m =>
      rw [plain, normal]
      split
      · simp [ascii]
      · simp

/-- When the loop has put bytes into the buffer, reading goes on as from there. -/
theorem readN_of_loop {b b' : MailStreamBuf} {c : Option UInt8} (hbuffer : b._buffer = [])
    (hloop : readLoop (b._istr.length + 1) b = (c, b')) (hne : b'._buffer ≠ []) (n : ℕ) :
    (readN n b).1 = (readN n b').1 ∧ (0 < n → (readN n b).2 = (readN n b').2) := by
  cases n with
  | zero => simp [readN]
  | succ n =>
      obtain ⟨d, x, hx⟩ := List.exists_cons_of_ne_nil hne
      have hread : readFromDevice b = readFromDevice b' := by
        rw [readFromDevice, hbuffer]
        simp only [hloop]
        simp [readFromDevice, hx]
      rw [readN, readN, hread]
      exact ⟨rfl, fun _ => rfl⟩

/-- Reading what has been sent gives the plain text, and leaves what follows the data. -/
theorem readN_stuffed (h : Between state) (m : List UInt8) (hbytes : 0xFF ∉ plain state m)
    (hne : plain state m ≠ []) (hn : (plain state m).length < n) (ostr : List UInt8) :
    readN n ⟨stuffed state m ++ rest, ostr, [], state⟩ =
      (plain state m, ⟨rest, ostr, [], .ST_CR_LF_DOT_CR_LF⟩) := by
  induction hlen : m.length using Nat.strong_induction_on generalizing m state n with
  | _ l ih =>
      have hfuel : (stuffed state m).length < (stuffed state m ++ rest).length + 1 := by
        rw [List.length_append]
        omega
      rcases readLoop_stuffed h m hfuel ostr with ⟨c, x, m', hx, hxne, hlt, hloop⟩ | hloop
      · rw [hx] at hbytes hn ⊢
        rw [List.mem_append, not_or] at hbytes
        rw [List.length_append] at hn
        obtain ⟨k, rfl⟩ : ∃ k, n = x.length + k := ⟨n - x.length, by omega⟩
        have hrest := ih m'.length (hlen ▸ hlt) (.inl rfl) m' hbytes.2 (plain_data_ne_nil m')
          (by omega : _ < k) rfl
        obtain ⟨h1, h2⟩ := readN_of_loop rfl hloop (by simpa using hxne) (x.length + k)
        have hbuffer := readN_buffer hbytes.1 ⟨stuffed .ST_DATA m' ++ rest, ostr, [], .ST_DATA⟩ k
        rw [hrest] at hbuffer
        refine Prod.ext ?_ ?_
        · rw [h1]
          exact congrArg Prod.fst hbuffer
        · rw [h2 (by omega)]
          exact congrArg Prod.snd hbuffer
      · obtain ⟨k, rfl⟩ : ∃ k, n = (plain state m).length + k := ⟨n - (plain state m).length, by omega⟩
        obtain ⟨h1, h2⟩ := readN_of_loop rfl hloop (by simpa using hne) ((plain state m).length + k)
        have hbuffer := readN_buffer hbytes ⟨rest, ostr, [], .ST_CR_LF_DOT_CR_LF⟩ k
        have hend := readN_end (b := ⟨rest, ostr, [], .ST_CR_LF_DOT_CR_LF⟩) rfl rfl k
        rw [hend, List.append_nil] at hbuffer
        refine Prod.ext ?_ ?_
        · rw [h1]
          exact congrArg Prod.fst hbuffer
        · rw [h2 (by omega)]
          exact congrArg Prod.snd hbuffer

theorem readOne_ne_eof {b : MailStreamBuf} (h : (readOne b).1 = some 0xFF) :
    (readOne b).2._buffer ≠ [] := by
  rw [readOne] at h ⊢
  split_ifs at h ⊢ with hs
  have hc : b._istr.head? = some 0xFF := by
    simp only at h
    split at h <;> exact h
  have hdata : readState b._state (some 0xFF) = .ST_DATA := by simp [readState, chr]
  simp only [hc, hdata]
  simp

theorem readLoop_ne_eof {b : MailStreamBuf} (h : (readLoop n b).1 = some 0xFF) :
    (readLoop n b).2._buffer ≠ [] := by
  induction n generalizing b with
  | zero => simp [readLoop] at h
  | succ n ih =>
      rw [readLoop] at h ⊢
      simp only at h ⊢
      split_ifs at h ⊢ with hmore
      · exact ih h
      · exact readOne_ne_eof h

theorem readFromDevice_ne_eof (b : MailStreamBuf) : (readFromDevice b).1 ≠ some 0xFF := by
  have hchar (c : UInt8) : intOfChar c ≠ some 0xFF := by
    rw [intOfChar]
    split
    · simp
    · simpa
  rw [readFromDevice]
  split
  · exact hchar _
  · simp only
    split
    · exact hchar _
    · rename_i hbuffer
      intro hc
      exact readLoop_ne_eof hc hbuffer

theorem readN_ne_eof (b : MailStreamBuf) : 0xFF ∉ (readN n b).1 := by
  induction n generalizing b with
  | zero => simp [readN]
  | succ n ih =>
      have hread := readFromDevice_ne_eof b
      rw [readN]
      split
      · simp
      · rename_i c b' heq
        rw [heq] at hread
        simp only [List.mem_cons, not_or]
        exact ⟨fun hc => hread (by simp [hc]), ih b'⟩

end

/-! ### What a reader should see -/

/-- The bytes with every bare line feed made a CRLF. -/
def crlf (afterCR : Bool) : List UInt8 → List UInt8
  | [] => []
  | c :: m => (if c = chr '\n' ∧ !afterCR then ascii "\r\n" else [c]) ++ crlf (c = chr '\r') m

/-- A message with CRLF for its line ends, and one at its end. -/
def canonical (m : List UInt8) : List UInt8 :=
  crlf false m ++ if m.getLast? = some (chr '\n') then [] else ascii "\r\n"

theorem plain_behind (c : UInt8) (m : List UInt8) :
    plain (behind c) m = crlf (c = chr '\r') m ++
      if m.getLast?.getD c = chr '\n' then [] else ascii "\r\n" := by
  induction m generalizing c with
  | nil =>
      rw [plain, crlf, lineEnd, List.nil_append]
      by_cases hc : c = chr '\n'
      · simp [hc, behind_eq_CRLF.mpr]
      · simp [hc, behind_eq_CRLF]
  | cons d m ih =>
      rw [plain, crlf, ih d, normal, List.getLast?_cons, Option.getD_some, List.append_assoc]
      simp [behind_eq_CR]

theorem plain_eq_canonical {m : List UInt8} (h : m ≠ []) : plain .ST_CR_LF m = canonical m := by
  obtain ⟨c, m, rfl⟩ := List.exists_cons_of_ne_nil h
  rw [plain, plain_behind, canonical, crlf, normal, List.getLast?_cons, List.append_assoc]
  simp

theorem mem_crlf {c : UInt8} (hcr : c ≠ chr '\r') (hlf : c ≠ chr '\n') (afterCR : Bool)
    (m : List UInt8) : c ∈ crlf afterCR m ↔ c ∈ m := by
  induction m generalizing afterCR with
  | nil => simp [crlf]
  | cons d m ih =>
      rw [crlf, List.mem_append, ih, List.mem_cons]
      refine or_congr_left ?_
      split_ifs with hd
      · simp [ascii, hcr, hlf, hd.1]
      · simp

theorem mem_canonical (m : List UInt8) : 0xFF ∈ canonical m ↔ 0xFF ∈ m := by
  rw [canonical, List.mem_append, mem_crlf (by decide) (by decide), or_iff_left]
  split_ifs
  · simp
  · decide

theorem readAll_empty (rest : List UInt8) :
    (readAll { _istr := (close (write []))._ostr ++ rest }).1 = [chr '\n'] := by
  have hread : readFromDevice { _istr := ascii ".\r\n" ++ rest } =
      (some (chr '\n'), ⟨rest, [], [], .ST_CR_LF_DOT_CR_LF⟩) := by
    have hloop : readLoop (rest.length + 1 + 3) ⟨ascii ".\r\n" ++ rest, [], [], .ST_CR_LF⟩ =
        (some (chr '\n'), ⟨rest, [], [], .ST_CR_LF_DOT_CR_LF⟩) := readLoop_end []
    have hlen : (ascii ".\r\n" ++ rest).length + 1 = rest.length + 1 + 3 := by
      simp [ascii]
    rw [readFromDevice]
    simp only [hlen, hloop]
  have hsent : (close (write []))._ostr = ascii ".\r\n" := by decide
  rw [hsent, readAll, readN, hread]
  simp only [readN_end]

/-- **Main result.** Reading what has been sent gives the message with CRLF for its line ends and stops
behind the end of the data, unless the message is empty or has a byte 0xFF. -/
theorem readAll_sent (m rest : List UInt8) :
    ((readAll { _istr := (close (write m))._ostr ++ rest }).1 = canonical m ∧
        (readAll { _istr := (close (write m))._ostr ++ rest }).2._istr = rest) ↔
      m ≠ [] ∧ 0xFF ∉ m := by
  set read := readAll { _istr := (close (write m))._ostr ++ rest } with hdef
  constructor
  · rintro ⟨hread, -⟩
    constructor
    · rintro rfl
      have hempty : read.1 = [chr '\n'] := readAll_empty rest
      rw [hread] at hempty
      exact absurd hempty (by decide)
    · rw [← mem_canonical, ← hread]
      exact readN_ne_eof _
  · rintro ⟨hne, hbytes⟩
    have hplain := plain_eq_canonical hne
    have hcanonical : canonical m ≠ [] := by
      obtain ⟨c, m, rfl⟩ := List.exists_cons_of_ne_nil hne
      rw [canonical, crlf]
      split_ifs <;> simp [ascii]
    have hlen : (plain .ST_CR_LF m).length < (stuffed .ST_CR_LF m ++ rest).length + 0 + 1 := by
      have hlt := length_plain_lt .ST_CR_LF m
      rw [List.length_append]
      omega
    have hall : read = (plain .ST_CR_LF m, ⟨rest, [], [], .ST_CR_LF_DOT_CR_LF⟩) := by
      rw [hdef, readAll, close_write]
      refine readN_stuffed (.inr (.inr rfl)) m ?_ ?_ hlen []
      · rwa [hplain, mem_canonical]
      · rwa [hplain]
    rw [hall]
    exact ⟨hplain, rfl⟩

/-- Of the message `a\xFFb` only the first byte is returned, and for the empty message a line feed is. -/
theorem readAll_sent_eof :
    (readAll { _istr := (close (write [0x61, 0xFF, 0x62]))._ostr }).1 = [0x61] ∧
      canonical [0x61, 0xFF, 0x62] = [0x61, 0xFF, 0x62, 0x0D, 0x0A] ∧
      (readAll { _istr := (close (write []))._ostr }).1 = [0x0A] ∧ canonical [] = [0x0D, 0x0A] := by
  decide

end MailStreamBuf

end Poco.Net
