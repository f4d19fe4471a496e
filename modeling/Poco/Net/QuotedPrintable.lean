import Mathlib.Data.List.Induction
import Poco.Lib.Streams
import Poco.Foundation.NumericString

/-! # `QuotedPrintableEncoder` and `QuotedPrintableDecoder`

The encoder writes most printable characters and all line ends as they are and the other bytes as
`=XX`; white space is held back until the next byte is known, and soft line breaks keep the lines
short.  The decoder undoes both.

Whatever the encoder writes for some bytes is read back as these bytes (`Carries`), so that the bytes
that are not held back are read back in the end (`carries_write`); `close` does not write a byte that
is still held back. -/

namespace Poco.Net

open Poco.Lib

open Poco.Foundation.Hex (formatHex tryParseHex)

/-- The exceptions of the decoder. -/
inductive QuotedPrintableError
  | dataFormatException (text : String)
  | syntaxException (text : String)
deriving DecidableEq, Repr

/-! ### The encoder -/

/-- The members of `QuotedPrintableEncoderBuf`. -/
structure QuotedPrintableEncoderBuf where
  _pending : Option UInt8 := none
  _lineLength : ℕ := 0
  _ostr : List UInt8 := []
deriving DecidableEq, Repr

namespace QuotedPrintableEncoderBuf

/-- `writeEncoded`. -/
def writeEncoded (b : QuotedPrintableEncoderBuf) (c : UInt8) : QuotedPrintableEncoderBuf :=
  let b :=
    if b._lineLength ≥ 73 then
      { b with _ostr := b._ostr ++ ['='.toUInt8, '\r'.toUInt8, '\n'.toUInt8], _lineLength := 3 }
    else { b with _lineLength := b._lineLength + 3 }
  { b with _ostr := b._ostr ++ '='.toUInt8 :: formatHex c.toNat 2 }

/-- `writeRaw`. -/
def writeRaw (b : QuotedPrintableEncoderBuf) (c : UInt8) : QuotedPrintableEncoderBuf :=
  if c = '\r'.toUInt8 ∨ c = '\n'.toUInt8 then { b with _ostr := b._ostr ++ [c], _lineLength := 0 }
  else if b._lineLength < 75 then
    { b with _ostr := b._ostr ++ [c], _lineLength := b._lineLength + 1 }
  else
    { b with _ostr := b._ostr ++ ['='.toUInt8, '\r'.toUInt8, '\n'.toUInt8, c], _lineLength := 1 }

/-- What `writeToDevice` does about the byte that is held back. -/
def writePending (b : QuotedPrintableEncoderBuf) (c : UInt8) : QuotedPrintableEncoderBuf :=
  match b._pending with
  | none => b
  | some p =>
      let b :=
        if p = '\r'.toUInt8 ∧ c = '\n'.toUInt8 then b.writeRaw p
        else if c = '\r'.toUInt8 ∨ c = '\n'.toUInt8 then b.writeEncoded p
        else b.writeRaw p
      { b with _pending := none }

/-- `writeToDevice`; the comparisons are those of signed characters. -/
def writeToDevice (b : QuotedPrintableEncoderBuf) (c : UInt8) : QuotedPrintableEncoderBuf :=
  let b := b.writePending c
  if c = '\t'.toUInt8 ∨ c = ' '.toUInt8 then { b with _pending := some c }
  else if c = '\r'.toUInt8 ∨ c = '\n'.toUInt8 ∨ (c > 32 ∧ c < 127 ∧ c ≠ '='.toUInt8) then b.writeRaw c
  else b.writeEncoded c

/-- The closed output for a byte string; `close` only synchronises the stream. -/
def encode (s : List UInt8) : List UInt8 :=
  (s.foldl writeToDevice ({} : QuotedPrintableEncoderBuf))._ostr

end QuotedPrintableEncoderBuf

/-! ### The decoder -/

namespace QuotedPrintableDecoderBuf

/-- `Ascii::isHexDigit` of a character or the end of file. -/
def isHexDigit : Option UInt8 → Bool
  | none => false
  | some ch => Poco.Foundation.Hex.isHexDigit ch

/-- The loop of `readFromDevice`; the state is what is left to read. -/
def readLoop : ℕ → Option UInt8 → EStateM QuotedPrintableError (List UInt8) (Option UInt8)
  | 0, ch => return ch
  | fuel + 1, ch =>
      if ch = some '='.toUInt8 then do
        let ch ← bump
        if ch = some '\r'.toUInt8 then
          let _ ← bump
          readLoop fuel (← bump)
        else if isHexDigit ch then
          let ch' ← bump
          if isHexDigit ch' then
            match tryParseHex (['0'.toUInt8, 'x'.toUInt8] ++ ch.toList ++ ch'.toList) with
            | some value => return some (UInt8.ofNat value)
            | none => throw (.syntaxException "Not a valid hexadecimal integer")
          else
            throw (.dataFormatException "Incomplete hex number in quoted-printable encoded stream")
        else if ch ≠ some '\n'.toUInt8 then
          throw (.dataFormatException "Invalid occurrence of '=' in quoted-printable encoded stream")
        else readLoop fuel (← bump)
      else return ch

/-- `readFromDevice`; every round of its loop reads a character. -/
def readFromDevice : EStateM QuotedPrintableError (List UInt8) (Option UInt8) := do
  let ch ← bump
  readLoop ((← get).length + 1) ch

/-! ### Reading what has been written -/

/-- The bytes are read from the text. -/
def Carries (text bytes : List UInt8) : Prop := ∀ rest, Delivers readFromDevice (text ++ rest) bytes rest

theorem carries_nil : Carries [] [] := fun rest => .nil rest

theorem Carries.append {text text' bytes bytes' : List UInt8} (h : Carries text bytes)
    (h' : Carries text' bytes') : Carries (text ++ text') (bytes ++ bytes') := by
  intro rest
  rw [List.append_assoc]
  exact (h (text' ++ rest)).append (h' rest)

theorem bump_cons {ε : Type} (c : UInt8) (s : List UInt8) :
    (bump : EStateM ε (List UInt8) (Option UInt8)) (c :: s) = .ok (some c) s := rfl

theorem readLoop_raw {c : UInt8} (hc : c ≠ '='.toUInt8) (fuel : ℕ) (rest : List UInt8) :
    readLoop fuel (some c) rest = .ok (some c) rest := by
  cases fuel with
  | zero => rfl
  | succ fuel =>
      rw [readLoop, if_neg (by simpa using hc)]
      rfl

theorem readLoop_hex (c : UInt8) (fuel : ℕ) (rest : List UInt8) :
    readLoop (fuel + 1) (some '='.toUInt8) (formatHex c.toNat 2 ++ rest) = .ok (some c) rest := by
  have hbyte : ∀ c : UInt8, (formatHex c.toNat 2).length = 2 ∧
      (formatHex c.toNat 2).all (fun ch => isHexDigit (some ch) && ch != '\r'.toUInt8) = true ∧
      tryParseHex (['0'.toUInt8, 'x'.toUInt8] ++ formatHex c.toNat 2) = some c.toNat := by
    apply forall_byte
    decide +kernel
  obtain ⟨hlen, hdigits, hvalue⟩ := hbyte c
  obtain ⟨d, e, hde⟩ := List.length_eq_two.mp hlen
  rw [hde] at hdigits hvalue ⊢
  simp only [List.all_cons, List.all_nil, Bool.and_true, Bool.and_eq_true, bne_iff_ne] at hdigits
  obtain ⟨⟨hd, hcr⟩, he, -⟩ := hdigits
  show readLoop (fuel + 1) (some '='.toUInt8) (d :: e :: rest) = _
  rw [readLoop, if_pos rfl, bind_of_ok (bump_cons _ _), if_neg (by simpa using hcr), if_pos hd,
    bind_of_ok (bump_cons _ _), if_pos he]
  have hhex : ['0'.toUInt8, 'x'.toUInt8] ++ (some d).toList ++ (some e).toList =
      ['0'.toUInt8, 'x'.toUInt8] ++ [d, e] := rfl
  rw [hhex, hvalue]
  simp [pure, EStateM.pure]

theorem readLoop_soft (c : UInt8) (fuel : ℕ) (rest : List UInt8) :
    readLoop (fuel + 1) (some '='.toUInt8) ('\r'.toUInt8 :: '\n'.toUInt8 :: c :: rest) =
      readLoop fuel (some c) rest := by
  rw [readLoop, if_pos rfl, bind_of_ok (bump_cons _ _), if_pos rfl, bind_of_ok (bump_cons _ _),
    bind_of_ok (bump_cons _ _)]

/-- The text with or without a soft line break before it. -/
theorem carries_of_readLoop {c d : UInt8} {text : List UInt8}
    (h : ∀ fuel rest, readLoop (fuel + 1) (some c) (text ++ rest) = .ok (some d) rest) :
    Carries (c :: text) [d] ∧
      Carries ('='.toUInt8 :: '\r'.toUInt8 :: '\n'.toUInt8 :: c :: text) [d] := by
  constructor
  · intro rest
    refine .cons ?_ (.nil rest)
    rw [readFromDevice, List.cons_append, bind_of_ok (bump_cons _ _), get_bind]
    exact h _ rest
  · intro rest
    refine .cons ?_ (.nil rest)
    rw [readFromDevice, List.cons_append, bind_of_ok (bump_cons _ _), get_bind]
    simp only [List.cons_append]
    rw [readLoop_soft]
    exact h _ rest

theorem carries_hex (c : UInt8) :
    Carries ('='.toUInt8 :: formatHex c.toNat 2) [c] ∧
      Carries ('='.toUInt8 :: '\r'.toUInt8 :: '\n'.toUInt8 :: '='.toUInt8 :: formatHex c.toNat 2) [c] :=
  carries_of_readLoop (readLoop_hex c)

theorem carries_raw {c : UInt8} (hc : c ≠ '='.toUInt8) :
    Carries [c] [c] ∧ Carries ['='.toUInt8, '\r'.toUInt8, '\n'.toUInt8, c] [c] :=
  carries_of_readLoop fun fuel rest => readLoop_raw hc (fuel + 1) rest

end QuotedPrintableDecoderBuf

/-! ### What has been written -/

namespace QuotedPrintableEncoderBuf

open QuotedPrintableDecoderBuf

variable {b : QuotedPrintableEncoderBuf} {c : UInt8}

/-- White space is held back. -/
def isWhite (c : UInt8) : Bool := c = '\t'.toUInt8 ∨ c = ' '.toUInt8

theorem writeEncoded_carries (b : QuotedPrintableEncoderBuf) (c : UInt8) :
    ∃ text, Carries text [c] ∧ (b.writeEncoded c)._ostr = b._ostr ++ text ∧
      (b.writeEncoded c)._pending = b._pending := by
  obtain ⟨hplain, hsoft⟩ := carries_hex c
  rw [writeEncoded]
  split_ifs
  · exact ⟨_, hsoft, by simp, rfl⟩
  · exact ⟨_, hplain, by simp, rfl⟩

theorem writeRaw_carries (hc : c ≠ '='.toUInt8) (b : QuotedPrintableEncoderBuf) :
    ∃ text, Carries text [c] ∧ (b.writeRaw c)._ostr = b._ostr ++ text ∧
      (b.writeRaw c)._pending = b._pending := by
  obtain ⟨hplain, hsoft⟩ := carries_raw hc
  rw [writeRaw]
  split_ifs
  · exact ⟨_, hplain, rfl, rfl⟩
  · exact ⟨_, hplain, rfl, rfl⟩
  · exact ⟨_, hsoft, rfl, rfl⟩

theorem writePending_carries (h : ∀ p, b._pending = some p → p ≠ '='.toUInt8) (c : UInt8) :
    ∃ text, Carries text b._pending.toList ∧ (b.writePending c)._ostr = b._ostr ++ text ∧
      (b.writePending c)._pending = none := by
  rw [writePending]
  cases hp : b._pending with
  | none => exact ⟨[], carries_nil, by simp, hp⟩
  | some p =>
      obtain ⟨raw, hraw, hostr, -⟩ := writeRaw_carries (h p hp) b
      obtain ⟨encoded, hencoded, hostr', -⟩ := writeEncoded_carries b p
      simp only
      split_ifs
      · exact ⟨raw, hraw, hostr, trivial⟩
      · exact ⟨encoded, hencoded, hostr', trivial⟩
      · exact ⟨raw, hraw, hostr, trivial⟩

/-- One byte: what is written and what is held back afterwards are what was held back and the byte. -/
theorem writeToDevice_carries (h : ∀ p, b._pending = some p → p ≠ '='.toUInt8) (c : UInt8) :
    ∃ text bytes, Carries text bytes ∧ (b.writeToDevice c)._ostr = b._ostr ++ text ∧
      bytes ++ (b.writeToDevice c)._pending.toList = b._pending.toList ++ [c] ∧
      (b.writeToDevice c)._pending = if isWhite c then some c else none := by
  obtain ⟨text, htext, hostr, hpending⟩ := writePending_carries h c
  have hiff : (c = '\t'.toUInt8 ∨ c = ' '.toUInt8) ↔ isWhite c = true := by simp [isWhite]
  rw [writeToDevice]
  simp only [hiff]
  by_cases hwhite : isWhite c = true
  · rw [if_pos hwhite, if_pos hwhite]
    exact ⟨text, _, htext, hostr, rfl, rfl⟩
  rw [if_neg hwhite, if_neg hwhite]
  split_ifs with hraw
  · have hc : c ≠ '='.toUInt8 := by
      rintro rfl
      exact absurd hraw (by decide)
    obtain ⟨raw, hraw', hostr', hpending'⟩ := writeRaw_carries hc (b.writePending c)
    rw [hostr', hostr, hpending', hpending, List.append_assoc]
    exact ⟨text ++ raw, _, htext.append hraw', rfl, by simp, rfl⟩
  · obtain ⟨encoded, hencoded, hostr', hpending'⟩ := writeEncoded_carries (b.writePending c) c
    rw [hostr', hostr, hpending', hpending, List.append_assoc]
    exact ⟨text ++ encoded, _, htext.append hencoded, rfl, by simp, rfl⟩

/-- What has been written is read back as the bytes that are not held back. -/
theorem carries_write (s : List UInt8) :
    ∃ bytes, Carries (encode s) bytes ∧
      bytes ++ (s.foldl writeToDevice ({} : QuotedPrintableEncoderBuf))._pending.toList = s ∧
      (s.foldl writeToDevice ({} : QuotedPrintableEncoderBuf))._pending = s.getLast?.filter isWhite := by
  induction s using List.reverseRecOn with
  | nil => exact ⟨[], carries_nil, rfl, rfl⟩
  | append_singleton s c ih =>
      obtain ⟨bytes, hbytes, heq, hpending⟩ := ih
      have hne : ∀ p, (s.foldl writeToDevice ({} : QuotedPrintableEncoderBuf))._pending = some p →
          p ≠ '='.toUInt8 := by
        rintro p hp rfl
        rw [hpending, Option.filter_eq_some_iff] at hp
        exact absurd hp.2 (by decide)
      obtain ⟨text, more, hmore, hostr, hsum, hlast⟩ := writeToDevice_carries hne c
      rw [encode, List.foldl_append, List.foldl_cons, List.foldl_nil]
      refine ⟨bytes ++ more, ?_, ?_, ?_⟩
      · rw [hostr]
        exact hbytes.append hmore
      · rw [List.append_assoc, hsum, ← List.append_assoc, heq]
      · rw [hlast, List.getLast?_concat]
        rfl

/-- **Main result.** A byte string that does not end with white space is read back unchanged. -/
theorem decode_encode_quotedPrintable (s : List UInt8) (h : ∀ c, s.getLast? = some c → isWhite c = false) :
    Drains readFromDevice (encode s) s [] := by
  obtain ⟨bytes, hbytes, heq, hpending⟩ := carries_write s
  have hnone : s.getLast?.filter isWhite = none := by
    rw [Option.filter_eq_none_iff]
    intro c hc
    rw [h c hc]
    decide
  rw [hpending, hnone, Option.toList_none, List.append_nil] at heq
  have hread := hbytes []
  rw [List.append_nil, heq] at hread
  exact ⟨[], hread, rfl⟩

/-- A line feed, a carriage return, NUL, bytes that are encoded and white space before a line end. -/
theorem decode_encode_quotedPrintable_lines :
    Drains readFromDevice (encode [0x0A, 0x00, 0x0D, 0x3D, 0xFF, 0x20, 0x0A, 0x41])
      [0x0A, 0x00, 0x0D, 0x3D, 0xFF, 0x20, 0x0A, 0x41] [] :=
  decode_encode_quotedPrintable _ (by
    intro c hc
    obtain rfl : 0x41 = c := by simpa using hc
    rfl)

/-- A bare line feed does not come back as a CRLF, and white space at the end does not come back. -/
theorem decode_encode_lineFeed :
    (¬∃ d, Drains readFromDevice (encode [0x0A]) [0x0D, 0x0A] d) ∧
      ¬∃ d, Drains readFromDevice (encode [0x41, 0x20]) [0x41, 0x20] d := by
  have hlf : Drains readFromDevice (encode [0x0A]) [0x0A] [] := ⟨[], .cons rfl (.nil _), rfl⟩
  have hspace : Drains readFromDevice (encode [0x41, 0x20]) [0x41] [] := ⟨[], .cons rfl (.nil _), rfl⟩
  constructor
  · rintro ⟨d, hd⟩
    exact absurd (hlf.unique hd) (by decide)
  · rintro ⟨d, hd⟩
    exact absurd (hspace.unique hd) (by decide)

end QuotedPrintableEncoderBuf

end Poco.Net
