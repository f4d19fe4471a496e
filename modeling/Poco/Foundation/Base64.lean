import Poco.Lib.Bytes
import Poco.Lib.Streams
import Mathlib.Tactic.IntervalCases

/-! # `Base64Encoder` and `Base64Decoder`

Both are unbuffered stream buffers: the encoder collects groups of three bytes, breaks the text into
lines and completes the last group in `close`; the decoder reads four characters at a time, skips
white space unless the URL alphabet is used, and hands out the bytes of a group one by one.

The text of a byte string is `text` (`encode_eq`), whatever the line length does with it; reading a
whole group, or the last one, gives its bytes back, and so does reading the text (`decode_encode_base64`). -/

namespace Poco.Foundation

open Poco.Lib

/-- `BASE64_URL_ENCODING`. -/
def BASE64_URL_ENCODING : UInt32 := 0x01

/-- `BASE64_NO_PADDING`. -/
def BASE64_NO_PADDING : UInt32 := 0x02

/-- `DataFormatException`. -/
inductive DataFormatException
  | dataFormatException
deriving DecidableEq, Repr

/-! ### The encoder -/

/-- `Base64EncoderBuf::OUT_ENCODING`. -/
def OUT_ENCODING : List UInt8 :=
  "ABCDEFGHIJKLMNOPQRSTUVWXYZabcdefghijklmnopqrstuvwxyz0123456789+/".toList.map Char.toUInt8

/-- `Base64EncoderBuf::OUT_ENCODING_URL`. -/
def OUT_ENCODING_URL : List UInt8 :=
  "ABCDEFGHIJKLMNOPQRSTUVWXYZabcdefghijklmnopqrstuvwxyz0123456789-_".toList.map Char.toUInt8

/-- The members of `Base64EncoderBuf`; `_group` are its first `_groupLength` bytes, and `_buf` is what
has been written. -/
structure Base64EncoderBuf where
  _options : UInt32
  _group : List UInt8 := []
  _pos : Int32 := 0
  _lineLength : Int32
  _buf : List UInt8 := []
deriving DecidableEq, Repr

namespace Base64EncoderBuf

/-- A new stream buffer. -/
def create (options : UInt32) : Base64EncoderBuf where
  _options := options
  _lineLength := if options &&& BASE64_URL_ENCODING ≠ 0 then 0 else 72

/-- `setLineLength`. -/
def setLineLength (b : Base64EncoderBuf) (lineLength : Int32) : Base64EncoderBuf :=
  { b with _lineLength := lineLength }

/-- A new stream buffer with the given line length; the URL alphabet keeps its own. -/
def createFor (options : UInt32) (lineLength : Int32) : Base64EncoderBuf :=
  if options &&& BASE64_URL_ENCODING = 0 then (create options).setLineLength lineLength
  else create options

/-- `_pOutEncoding[idx]`. -/
def _pOutEncoding (options : UInt32) (idx : UInt8) : UInt8 :=
  (if options &&& BASE64_URL_ENCODING ≠ 0 then OUT_ENCODING_URL else OUT_ENCODING).getD idx.toNat 0

/-- `writeToDevice`. -/
def writeToDevice (b : Base64EncoderBuf) (c : UInt8) : Base64EncoderBuf :=
  match b._group ++ [c] with
  | [g0, g1, g2] =>
      let put := _pOutEncoding b._options
      let b :=
        { b with
          _buf := b._buf ++
            [put (g0 >>> 2), put (((g0 &&& 0x03) <<< 4) ||| (g1 >>> 4)),
              put (((g1 &&& 0x0F) <<< 2) ||| (g2 >>> 6)), put (g2 &&& 0x3F)]
          _pos := b._pos + 4
          _group := [] }
      if b._lineLength > 0 ∧ b._pos ≥ b._lineLength then
        { b with _buf := b._buf ++ ['\r'.toUInt8, '\n'.toUInt8], _pos := 0 }
      else b
  | group => { b with _group := group }

/-- What `close` writes for the bytes in `_group`. -/
def lastText (options : UInt32) (group : List UInt8) : List UInt8 :=
  let put := _pOutEncoding options
  match group with
  | [g0] =>
      [put (g0 >>> 2), put (((g0 &&& 0x03) <<< 4) ||| ((0 : UInt8) >>> 4))] ++
        if options &&& BASE64_NO_PADDING = 0 then ['='.toUInt8, '='.toUInt8] else []
  | [g0, g1] =>
      [put (g0 >>> 2), put (((g0 &&& 0x03) <<< 4) ||| (g1 >>> 4)),
        put (((g1 &&& 0x0F) <<< 2) ||| ((0 : UInt8) >>> 6))] ++
        if options &&& BASE64_NO_PADDING = 0 then ['='.toUInt8] else []
  | _ => []

/-- `close`. -/
def close (b : Base64EncoderBuf) : Base64EncoderBuf :=
  { b with _buf := b._buf ++ lastText b._options b._group, _group := [] }

/-- The closed output for a byte string. -/
def encode (b : Base64EncoderBuf) (s : List UInt8) : List UInt8 :=
  (close (s.foldl writeToDevice b))._buf

end Base64EncoderBuf

/-! ### The decoder -/

/-- The table the constructor of `Base64DecoderBuf` makes of an alphabet. -/
def inEncoding (out : List UInt8) : List UInt8 :=
  let table := (List.range out.length).foldl
    (fun table i => table.set (out.getD i 0).toNat (UInt8.ofNat i)) (List.replicate 256 0xFF)
  table.set '='.toNat 0

/-- `Base64DecoderBuf::IN_ENCODING`. -/
def IN_ENCODING : List UInt8 := inEncoding OUT_ENCODING

/-- `Base64DecoderBuf::IN_ENCODING_URL`. -/
def IN_ENCODING_URL : List UInt8 := inEncoding OUT_ENCODING_URL

/-- The members of `Base64DecoderBuf`; `_buf` is what is left to read. -/
structure Base64DecoderBuf where
  _options : UInt32
  _group : List UInt8 := [0, 0, 0]
  _groupLength : ℕ := 0
  _groupIndex : ℕ := 0
  _buf : List UInt8
deriving DecidableEq, Repr

namespace Base64DecoderBuf

/-- `_pInEncoding[c]`. -/
def _pInEncoding (options : UInt32) (c : UInt8) : UInt8 :=
  (if options &&& BASE64_URL_ENCODING ≠ 0 then IN_ENCODING_URL else IN_ENCODING).getD c.toNat 0

/-- The white space that `readOne` skips. -/
def isSpace (ch : UInt8) : Bool :=
  ch = ' '.toUInt8 ∨ ch = '\r'.toUInt8 ∨ ch = '\t'.toUInt8 ∨ ch = '\n'.toUInt8

/-- `readOne`; `none` is -1. -/
def readOne : EStateM DataFormatException Base64DecoderBuf (Option UInt8) := fun b =>
  let buf := if b._options &&& BASE64_URL_ENCODING = 0 then b._buf.dropWhile isSpace else b._buf
  .ok buf.head? { b with _buf := buf.tail }

/-- The value of a character. -/
def value (c : UInt8) : EStateM DataFormatException Base64DecoderBuf UInt8 := do
  let v := _pInEncoding (← get)._options c
  if v = 0xFF then throw .dataFormatException
  return v

/-- The third or fourth character of a group. -/
def readPadded : EStateM DataFormatException Base64DecoderBuf UInt8 := do
  match ← readOne with
  | some c => return c
  | none =>
      if (← get)._options &&& BASE64_NO_PADDING ≠ 0 then return '='.toUInt8
      else throw .dataFormatException

/-- `readFromDevice`. -/
def readFromDevice : EStateM DataFormatException Base64DecoderBuf (Option UInt8) := do
  let b ← get
  if b._groupIndex < b._groupLength then
    set { b with _groupIndex := b._groupIndex + 1 }
    return b._group[b._groupIndex]?
  else
    let some c0 ← readOne | return none
    let v0 ← value c0
    let some c1 ← readOne | return none
    let v1 ← value c1
    let c2 ← readPadded
    let v2 ← value c2
    let c3 ← readPadded
    let v3 ← value c3
    let g0 := (v0 <<< 2) ||| (v1 >>> 4)
    let g1 := ((v1 &&& 0x0F) <<< 4) ||| (v2 >>> 2)
    let g2 := (v2 <<< 6) ||| v3
    let groupLength :=
      if c2 = '='.toUInt8 then 1 else if c3 = '='.toUInt8 then 2 else 3
    modify fun b =>
      { b with _group := [g0, g1, g2], _groupLength := groupLength, _groupIndex := 1 }
    return some g0

end Base64DecoderBuf

/-! ### The text of a byte string -/

namespace Base64EncoderBuf

/-- The text of a byte string, at a position in the line. -/
def text (options : UInt32) (lineLength pos : Int32) : List UInt8 → List UInt8
  | g0 :: g1 :: g2 :: s =>
      let put := _pOutEncoding options
      [put (g0 >>> 2), put (((g0 &&& 0x03) <<< 4) ||| (g1 >>> 4)),
        put (((g1 &&& 0x0F) <<< 2) ||| (g2 >>> 6)), put (g2 &&& 0x3F)] ++
      if lineLength > 0 ∧ pos + 4 ≥ lineLength then
        ['\r'.toUInt8, '\n'.toUInt8] ++ text options lineLength 0 s
      else text options lineLength (pos + 4) s
  | s => lastText options s

theorem encode_eq (options : UInt32) (lineLength pos : Int32) (buf : List UInt8) :
    (s : List UInt8) → encode ⟨options, [], pos, lineLength, buf⟩ s =
      buf ++ text options lineLength pos s
  | [] => by simp [encode, text, close]
  | [g0] => by simp [encode, text, close, writeToDevice]
  | [g0, g1] => by simp [encode, text, close, writeToDevice]
  | g0 :: g1 :: g2 :: s => by
      have hgroup : encode ⟨options, [], pos, lineLength, buf⟩ (g0 :: g1 :: g2 :: s) =
          encode (writeToDevice ⟨options, [g0, g1], pos, lineLength, buf⟩ g2) s := rfl
      rw [hgroup, writeToDevice]
      simp only [List.cons_append, List.nil_append]
      split_ifs with hline
      · rw [encode_eq, text, if_pos hline]
        simp
      · rw [encode_eq, text, if_neg hline]
        simp

end Base64EncoderBuf

/-! ### Reading the text -/

namespace Base64DecoderBuf

open Base64EncoderBuf

variable {options : UInt32} {c v : UInt8} {group buf : List UInt8} {groupLength groupIndex : ℕ}

/-- The character is one of the alphabet, or the padding, and has the value. -/
structure Stands (options : UInt32) (c v : UInt8) : Prop where
  space : isSpace c = false
  value : _pInEncoding options c = v
  ne : v ≠ 0xFF

theorem stands_pad (options : UInt32) : Stands options '='.toUInt8 0 where
  space := by decide
  value := by
    rw [_pInEncoding]
    split_ifs
    · decide
    · decide
  ne := by decide

theorem stands_put (options : UInt32) {i : UInt8} (h : i &&& 0x3F = i) :
    Stands options (_pOutEncoding options i) i ∧ _pOutEncoding options i ≠ '='.toUInt8 := by
  have hlt : i.toNat < 64 := by
    have hle : (i &&& 0x3F).toNat ≤ 0x3F := by
      rw [UInt8.toNat_and]
      exact Nat.and_le_right
    rw [h] at hle
    omega
  have hurl : ∀ n < 64, isSpace (OUT_ENCODING_URL.getD n 0) = false ∧
      IN_ENCODING_URL.getD (OUT_ENCODING_URL.getD n 0).toNat 0 = UInt8.ofNat n ∧
      OUT_ENCODING_URL.getD n 0 ≠ '='.toUInt8 := by
    decide +kernel
  have hstd : ∀ n < 64, isSpace (OUT_ENCODING.getD n 0) = false ∧
      IN_ENCODING.getD (OUT_ENCODING.getD n 0).toNat 0 = UInt8.ofNat n ∧
      OUT_ENCODING.getD n 0 ≠ '='.toUInt8 := by
    decide +kernel
  have hne : i ≠ 0xFF := by
    rintro rfl
    exact absurd hlt (by decide)
  rw [_pOutEncoding]
  by_cases hopt : options &&& BASE64_URL_ENCODING ≠ 0
  · rw [if_pos hopt]
    obtain ⟨hspace, hvalue, hpad⟩ := hurl i.toNat hlt
    refine ⟨⟨hspace, ?_, hne⟩, hpad⟩
    rw [_pInEncoding, if_pos hopt, hvalue, UInt8.ofNat_toNat]
  · rw [if_neg hopt]
    obtain ⟨hspace, hvalue, hpad⟩ := hstd i.toNat hlt
    refine ⟨⟨hspace, ?_, hne⟩, hpad⟩
    rw [_pInEncoding, if_neg hopt, hvalue, UInt8.ofNat_toNat]

theorem readOne_cons (h : isSpace c = false) :
    readOne ⟨options, group, groupLength, groupIndex, c :: buf⟩ =
      .ok (some c) ⟨options, group, groupLength, groupIndex, buf⟩ := by
  simp [readOne, h]

theorem readOne_nil : readOne ⟨options, group, groupLength, groupIndex, []⟩ =
    .ok none ⟨options, group, groupLength, groupIndex, []⟩ := by
  simp [readOne]

theorem readPadded_cons (h : isSpace c = false) :
    readPadded ⟨options, group, groupLength, groupIndex, c :: buf⟩ =
      .ok c ⟨options, group, groupLength, groupIndex, buf⟩ := by
  rw [readPadded, bind_of_ok (readOne_cons h)]
  rfl

theorem readPadded_nil (h : options &&& BASE64_NO_PADDING ≠ 0) :
    readPadded ⟨options, group, groupLength, groupIndex, []⟩ =
      .ok '='.toUInt8 ⟨options, group, groupLength, groupIndex, []⟩ := by
  rw [readPadded, bind_of_ok readOne_nil]
  simp [h, bind, EStateM.bind, get_run, pure, EStateM.pure]

theorem Stands.value_eq (h : Stands options c v) :
    Base64DecoderBuf.value c ⟨options, group, groupLength, groupIndex, buf⟩ =
      .ok v ⟨options, group, groupLength, groupIndex, buf⟩ := by
  simp [Base64DecoderBuf.value, h.value, h.ne, bind, EStateM.bind, get_run, pure, EStateM.pure]

/-- One call reads the characters of a group; the third and fourth may be missing. -/
theorem readFromDevice_group {c0 c1 c2 c3 v0 v1 v2 v3 g0 g1 g2 : UInt8} {buf0 buf1 buf2 : List UInt8}
    {n : ℕ}
    (h0 : Stands options c0 v0) (h1 : Stands options c1 v1) (h2 : Stands options c2 v2)
    (h3 : Stands options c3 v3)
    (hbuf0 : readPadded ⟨options, group, groupLength, groupLength, buf0⟩ =
      .ok c2 ⟨options, group, groupLength, groupLength, buf1⟩)
    (hbuf1 : readPadded ⟨options, group, groupLength, groupLength, buf1⟩ =
      .ok c3 ⟨options, group, groupLength, groupLength, buf2⟩)
    (hn : (if c2 = '='.toUInt8 then 1 else if c3 = '='.toUInt8 then 2 else 3) = n)
    (hg0 : (v0 <<< 2) ||| (v1 >>> 4) = g0) (hg1 : ((v1 &&& 0x0F) <<< 4) ||| (v2 >>> 2) = g1)
    (hg2 : (v2 <<< 6) ||| v3 = g2) :
    readFromDevice ⟨options, group, groupLength, groupLength, c0 :: c1 :: buf0⟩ =
      .ok (some g0) ⟨options, [g0, g1, g2], n, 1, buf2⟩ := by
  rw [readFromDevice, get_bind, if_neg (lt_irrefl _), bind_of_ok (readOne_cons h0.space)]
  simp only
  rw [bind_of_ok h0.value_eq, bind_of_ok (readOne_cons h1.space)]
  simp only
  rw [bind_of_ok h1.value_eq, bind_of_ok hbuf0, bind_of_ok h2.value_eq, bind_of_ok hbuf1,
    bind_of_ok h3.value_eq, ← hn, ← hg0, ← hg1, ← hg2]
  rfl

theorem readFromDevice_next (h : groupIndex < groupLength) (hc : group[groupIndex]? = some c) :
    readFromDevice ⟨options, group, groupLength, groupIndex, buf⟩ =
      .ok (some c) ⟨options, group, groupLength, groupIndex + 1, buf⟩ := by
  rw [readFromDevice, get_bind, if_pos h, ← hc]
  rfl

theorem readFromDevice_nil :
    readFromDevice ⟨options, group, groupLength, groupLength, []⟩ =
      .ok none ⟨options, group, groupLength, groupLength, []⟩ := by
  rw [readFromDevice, get_bind, if_neg (lt_irrefl _), bind_of_ok readOne_nil]
  rfl

/-- What is left of a group is handed out before the next one is read. -/
theorem drains_next {d : Base64DecoderBuf} {bs rest s : List UInt8}
    (h : group = c :: bs ++ rest) (hlen : groupLength = bs.length + 1)
    (hs : Drains readFromDevice ⟨options, group, groupLength, groupLength, buf⟩ s d) :
    Drains readFromDevice ⟨options, group, groupLength, 1, buf⟩ (bs ++ s) d := by
  subst hlen
  refine Delivers.drains ?_ hs
  refine delivers_steps (fun i => Base64DecoderBuf.mk options group (bs.length + 1) (i + 1) buf)
    fun i e he => ?_
  have hi := (List.getElem?_eq_some_iff.mp he).1
  refine readFromDevice_next (by omega) ?_
  rw [h, List.cons_append, List.getElem?_cons_succ, List.getElem?_append_left hi, he]

theorem readFromDevice_crlf (h : options &&& BASE64_URL_ENCODING = 0) :
    readFromDevice ⟨options, group, groupLength, groupLength, ['\r'.toUInt8, '\n'.toUInt8] ++ buf⟩ =
      readFromDevice ⟨options, group, groupLength, groupLength, buf⟩ := by
  have hone : readOne ⟨options, group, groupLength, groupLength, ['\r'.toUInt8, '\n'.toUInt8] ++ buf⟩ =
      readOne ⟨options, group, groupLength, groupLength, buf⟩ := by
    have hcr : isSpace '\r'.toUInt8 = true := by decide
    have hlf : isSpace '\n'.toUInt8 = true := by decide
    simp [readOne, h, hcr, hlf]
  rw [readFromDevice, get_bind, if_neg (lt_irrefl _), get_bind, if_neg (lt_irrefl _)]
  simp only [bind, EStateM.bind, hone]

/-! ### The bits of a group -/

section

variable (g0 g1 g2 : UInt8)

theorem sixBits :
    (g0 >>> 2) &&& (0x3F : UInt8) = g0 >>> 2 ∧
      (((g0 &&& 0x03) <<< 4) ||| (g1 >>> 4)) &&& (0x3F : UInt8) = ((g0 &&& 0x03) <<< 4) ||| (g1 >>> 4) ∧
      (((g1 &&& 0x0F) <<< 2) ||| (g2 >>> 6)) &&& (0x3F : UInt8) = ((g1 &&& 0x0F) <<< 2) ||| (g2 >>> 6) ∧
      (g2 &&& 0x3F) &&& 0x3F = g2 &&& 0x3F := by
  refine ⟨?_, ?_, ?_, ?_⟩ <;>
  · apply byte_ext
    intro i hi
    interval_cases i <;> simp

theorem byte0 : ((g0 >>> 2) <<< 2) ||| ((((g0 &&& 0x03) <<< 4) ||| (g1 >>> 4)) >>> 4) = g0 := by
  apply byte_ext
  intro i hi
  interval_cases i <;> simp

theorem byte1 :
    (((((g0 &&& 0x03) <<< 4) ||| (g1 >>> 4)) &&& 0x0F) <<< 4) |||
      ((((g1 &&& 0x0F) <<< 2) ||| (g2 >>> 6)) >>> 2) = g1 := by
  apply byte_ext
  intro i hi
  interval_cases i <;> simp

theorem byte2 : ((((g1 &&& 0x0F) <<< 2) ||| (g2 >>> 6)) <<< 6) ||| (g2 &&& 0x3F) = g2 := by
  apply byte_ext
  intro i hi
  interval_cases i <;> simp

end

/-! ### Round trip -/

theorem drains_lastText (options : UInt32) (group : List UInt8) (groupLength : ℕ) :
    (s : List UInt8) → s.length < 3 →
      ∃ d, Drains readFromDevice ⟨options, group, groupLength, groupLength, lastText options s⟩ s d
  | [], _ => ⟨_, drains_nil readFromDevice_nil⟩
  | [g0], _ => by
      obtain ⟨hi0, hi1, -, -⟩ := sixBits g0 0 0
      have h0 := (stands_put options hi0).1
      have h1 := (stands_put options hi1).1
      have hpad := stands_pad options
      have hread : ∃ group', readFromDevice ⟨options, group, groupLength, groupLength, lastText options [g0]⟩ =
          .ok (some g0) ⟨options, group', 1, 1, []⟩ := by
        rw [lastText]
        split_ifs with hopt
        · exact ⟨_, readFromDevice_group h0 h1 hpad hpad (readPadded_cons hpad.space)
            (readPadded_cons hpad.space) (if_pos rfl) (byte0 g0 0) rfl rfl⟩
        · exact ⟨_, readFromDevice_group h0 h1 hpad hpad (readPadded_nil hopt)
            (readPadded_nil hopt) (if_pos rfl) (byte0 g0 0) rfl rfl⟩
      obtain ⟨group', hgroup⟩ := hread
      exact ⟨_, (drains_nil readFromDevice_nil).cons hgroup⟩
  | [g0, g1], _ => by
      obtain ⟨hi0, hi1, hi2, -⟩ := sixBits g0 g1 0
      have h0 := (stands_put options hi0).1
      have h1 := (stands_put options hi1).1
      obtain ⟨h2, hne⟩ := stands_put options hi2
      have hpad := stands_pad options
      have hread : ∃ g2, readFromDevice
            ⟨options, group, groupLength, groupLength, lastText options [g0, g1]⟩ =
          .ok (some g0) ⟨options, [g0, g1, g2], 2, 1, []⟩ := by
        rw [lastText]
        split_ifs with hopt
        · exact ⟨_, readFromDevice_group h0 h1 h2 hpad (readPadded_cons h2.space)
            (readPadded_cons hpad.space) ((if_neg hne).trans (if_pos rfl)) (byte0 g0 g1)
            (byte1 g0 g1 0) rfl⟩
        · exact ⟨_, readFromDevice_group h0 h1 h2 hpad (readPadded_cons h2.space)
            (readPadded_nil hopt) ((if_neg hne).trans (if_pos rfl)) (byte0 g0 g1)
            (byte1 g0 g1 0) rfl⟩
      obtain ⟨g2, hgroup⟩ := hread
      have hsplit : [g0, g1, g2] = g0 :: [g1] ++ [g2] := rfl
      exact ⟨_, (drains_next hsplit rfl (drains_nil readFromDevice_nil)).cons hgroup⟩

/-- A decoder that has handed out all bytes of a group reads the bytes of the text. -/
theorem drains_text (options : UInt32) (lineLength pos : Int32)
    (hline : options &&& BASE64_URL_ENCODING = 0 ∨ ¬lineLength > 0) (group : List UInt8)
    (groupLength : ℕ) :
    (s : List UInt8) →
      ∃ d, Drains readFromDevice
        ⟨options, group, groupLength, groupLength, text options lineLength pos s⟩ s d
  | g0 :: g1 :: g2 :: s => by
      obtain ⟨hi0, hi1, hi2, hi3⟩ := sixBits g0 g1 g2
      have h0 := (stands_put options hi0).1
      have h1 := (stands_put options hi1).1
      obtain ⟨h2, hne2⟩ := stands_put options hi2
      obtain ⟨h3, hne3⟩ := stands_put options hi3
      obtain ⟨d, hd⟩ : ∃ d, Drains readFromDevice
          ⟨options, [g0, g1, g2], 3, 3, if lineLength > 0 ∧ pos + 4 ≥ lineLength then
            ['\r'.toUInt8, '\n'.toUInt8] ++ text options lineLength 0 s
            else text options lineLength (pos + 4) s⟩ s d := by
        split_ifs with hbreak
        · obtain ⟨d, hd⟩ := drains_text options lineLength 0 hline [g0, g1, g2] 3 s
          have hstd := hline.resolve_right (not_not.mpr hbreak.1)
          exact ⟨d, hd.congr (readFromDevice_crlf hstd)⟩
        · exact drains_text options lineLength (pos + 4) hline [g0, g1, g2] 3 s
      have hsplit : [g0, g1, g2] = g0 :: [g1, g2] ++ [] := rfl
      exact ⟨d, (drains_next hsplit rfl hd).cons
        (readFromDevice_group h0 h1 h2 h3 (readPadded_cons h2.space) (readPadded_cons h3.space)
          ((if_neg hne2).trans (if_neg hne3)) (byte0 g0 g1) (byte1 g0 g1 g2) (byte2 g1 g2))⟩
  | [] => drains_lastText options group groupLength [] (by simp)
  | [g0] => drains_lastText options group groupLength [g0] (by simp)
  | [g0, g1] => drains_lastText options group groupLength [g0, g1] (by simp)

/-- **Main result.** Decoding the closed output of an encoder with the same options gives the bytes
back and then the end of file, for every line length. -/
theorem decode_encode_base64 (options : UInt32) (lineLength : Int32) (s : List UInt8) :
    ∃ d, Drains readFromDevice
      { _options := options, _buf := encode (createFor options lineLength) s } s d := by
  by_cases hopt : options &&& BASE64_URL_ENCODING = 0
  · have hencoder : createFor options lineLength = ⟨options, [], 0, lineLength, []⟩ := if_pos hopt
    rw [hencoder, encode_eq]
    exact drains_text options lineLength 0 (.inl hopt) [0, 0, 0] 0 s
  · have hencoder : createFor options lineLength = ⟨options, [], 0, 0, []⟩ := by
      rw [createFor, if_neg hopt, create, if_pos hopt]
    rw [hencoder, encode_eq]
    exact drains_text options 0 0 (.inr (by decide)) [0, 0, 0] 0 s

end Base64DecoderBuf

end Poco.Foundation
