import Mathlib.Data.List.GetD
import Poco.Foundation.Base64

/-! # `Base32Encoder` and `Base32Decoder`

The encoder collects groups of five bytes and writes eight characters for each; `close` writes two,
four, five or seven characters for the bytes that are left, and the padding if there is one.  The
decoder reads up to eight characters at a time.

The indices of the characters of a group are `quintets`, and `unpack` puts the bytes together again
(`unpack_quintets`); a last group is a whole one with zeros, of which the first characters are
written (`lastText_eq`).  Reading the text gives the bytes back for each alphabet, with the padding or
without it (`decode_encode_base32`). -/

namespace Poco.Foundation

open Poco.Lib

/-- `BASE32_USE_PADDING`. -/
def BASE32_USE_PADDING : UInt32 := 0x01

/-- `BASE32_USE_HEX_ALPHABET`. -/
def BASE32_USE_HEX_ALPHABET : UInt32 := 0x02

/-- `BASE32_USE_CROCKFORD_ALPHABET`. -/
def BASE32_USE_CROCKFORD_ALPHABET : UInt32 := 0x04

/-! ### The encoder -/

/-- `Base32EncoderBuf::DEFAULT_ENCODING`. -/
def DEFAULT_ENCODING : List UInt8 := "ABCDEFGHIJKLMNOPQRSTUVWXYZ234567".toList.map Char.toUInt8

/-- `Base32EncoderBuf::HEX_ENCODING`. -/
def HEX_ENCODING : List UInt8 := "0123456789ABCDEFGHIJKLMNOPQRSTUV".toList.map Char.toUInt8

/-- `Base32EncoderBuf::CROCKFORD_ENCODING`. -/
def CROCKFORD_ENCODING : List UInt8 := "0123456789ABCDEFGHJKMNPQRSTVWXYZ".toList.map Char.toUInt8

/-- The members of `Base32EncoderBuf`; `_group` are its first `_groupLength` bytes, and `_buf` is what
has been written. -/
structure Base32EncoderBuf where
  _group : List UInt8 := []
  _buf : List UInt8 := []
  _doPadding : Bool
  _encoding : List UInt8
deriving DecidableEq, Repr

namespace Base32EncoderBuf

/-- `encoding`. -/
def encoding (options : UInt32) : List UInt8 :=
  if options &&& BASE32_USE_HEX_ALPHABET ≠ 0 then HEX_ENCODING
  else if options &&& BASE32_USE_CROCKFORD_ALPHABET ≠ 0 then CROCKFORD_ENCODING
  else DEFAULT_ENCODING

/-- A new stream buffer. -/
def create (options : UInt32) : Base32EncoderBuf where
  _doPadding := options &&& BASE32_USE_PADDING ≠ 0
  _encoding := encoding options

/-- `writeToDevice`. -/
def writeToDevice (b : Base32EncoderBuf) (c : UInt8) : Base32EncoderBuf :=
  match b._group ++ [c] with
  | [g0, g1, g2, g3, g4] =>
      let put (idx : UInt8) := b._encoding.getD idx.toNat 0
      { b with
        _buf := b._buf ++
          [put (g0 >>> 3), put (((g0 &&& 0x07) <<< 2) ||| (g1 >>> 6)), put ((g1 &&& 0x3E) >>> 1),
            put (((g1 &&& 0x01) <<< 4) ||| (g2 >>> 4)), put (((g2 &&& 0x0F) <<< 1) ||| (g3 >>> 7)),
            put ((g3 &&& 0x7C) >>> 2), put (((g3 &&& 0x03) <<< 3) ||| (g4 >>> 5)), put (g4 &&& 0x1F)]
        _group := [] }
  | group => { b with _group := group }

/-- What `close` writes for the bytes in `_group`. -/
def lastText (doPadding : Bool) (encoding group : List UInt8) : List UInt8 :=
  let put (idx : UInt8) := encoding.getD idx.toNat 0
  let pad (n : ℕ) := if doPadding then List.replicate n '='.toUInt8 else []
  match group with
  | [g0] => [put (g0 >>> 3), put ((g0 &&& 0x07) <<< 2)] ++ pad 6
  | [g0, g1] =>
      [put (g0 >>> 3), put (((g0 &&& 0x07) <<< 2) ||| (g1 >>> 6)), put ((g1 &&& 0x3E) >>> 1),
        put ((g1 &&& 0x01) <<< 4)] ++ pad 4
  | [g0, g1, g2] =>
      [put (g0 >>> 3), put (((g0 &&& 0x07) <<< 2) ||| (g1 >>> 6)), put ((g1 &&& 0x3E) >>> 1),
        put (((g1 &&& 0x01) <<< 4) ||| (g2 >>> 4)), put ((g2 &&& 0x0F) <<< 1)] ++ pad 3
  | [g0, g1, g2, g3] =>
      [put (g0 >>> 3), put (((g0 &&& 0x07) <<< 2) ||| (g1 >>> 6)), put ((g1 &&& 0x3E) >>> 1),
        put (((g1 &&& 0x01) <<< 4) ||| (g2 >>> 4)), put (((g2 &&& 0x0F) <<< 1) ||| (g3 >>> 7)),
        put ((g3 &&& 0x7C) >>> 2), put ((g3 &&& 0x03) <<< 3)] ++ pad 1
  | _ => []

/-- `close`. -/
def close (b : Base32EncoderBuf) : Base32EncoderBuf :=
  { b with _buf := b._buf ++ lastText b._doPadding b._encoding b._group, _group := [] }

/-- The closed output for a byte string. -/
def encode (b : Base32EncoderBuf) (s : List UInt8) : List UInt8 :=
  (close (s.foldl writeToDevice b))._buf

end Base32EncoderBuf

/-! ### The decoder -/

/-- `Base32DecoderBuf::REVERSE_DEFAULT_ENCODING`. -/
def REVERSE_DEFAULT_ENCODING : List UInt8 :=
  [0xFF, 0xFF, 0xFF, 0xFF, 0xFF, 0xFF, 0xFF, 0xFF, 0xFF, 0xFF, 0xFF, 0xFF, 0xFF, 0xFF, 0xFF, 0xFF,
    0xFF, 0xFF, 0xFF, 0xFF, 0xFF, 0xFF, 0xFF, 0xFF, 0xFF, 0xFF, 0xFF, 0xFF, 0xFF, 0xFF, 0xFF, 0xFF,
    0xFF, 0xFF, 0xFF, 0xFF, 0xFF, 0xFF, 0xFF, 0xFF, 0xFF, 0xFF, 0xFF, 0xFF, 0xFF, 0xFF, 0xFF, 0xFF,
    0xFF, 0xFF, 0x1A, 0x1B, 0x1C, 0x1D, 0x1E, 0x1F, 0xFF, 0xFF, 0xFF, 0xFF, 0xFF, 0x00, 0xFF, 0xFF,
    0xFF, 0x00, 0x01, 0x02, 0x03, 0x04, 0x05, 0x06, 0x07, 0x08, 0x09, 0x0A, 0x0B, 0x0C, 0x0D, 0x0E,
    0x0F, 0x10, 0x11, 0x12, 0x13, 0x14, 0x15, 0x16, 0x17, 0x18, 0x19, 0xFF, 0xFF, 0xFF, 0xFF, 0xFF,
    0xFF, 0xFF, 0xFF, 0xFF, 0xFF, 0xFF, 0xFF, 0xFF, 0xFF, 0xFF, 0xFF, 0xFF, 0xFF, 0xFF, 0xFF, 0xFF,
    0xFF, 0xFF, 0xFF, 0xFF, 0xFF, 0xFF, 0xFF, 0xFF, 0xFF, 0xFF, 0xFF, 0xFF, 0xFF, 0xFF, 0xFF, 0xFF,
    0xFF, 0xFF, 0xFF, 0xFF, 0xFF, 0xFF, 0xFF, 0xFF, 0xFF, 0xFF, 0xFF, 0xFF, 0xFF, 0xFF, 0xFF, 0xFF,
    0xFF, 0xFF, 0xFF, 0xFF, 0xFF, 0xFF, 0xFF, 0xFF, 0xFF, 0xFF, 0xFF, 0xFF, 0xFF, 0xFF, 0xFF, 0xFF,
    0xFF, 0xFF, 0xFF, 0xFF, 0xFF, 0xFF, 0xFF, 0xFF, 0xFF, 0xFF, 0xFF, 0xFF, 0xFF, 0xFF, 0xFF, 0xFF,
    0xFF, 0xFF, 0xFF, 0xFF, 0xFF, 0xFF, 0xFF, 0xFF, 0xFF, 0xFF, 0xFF, 0xFF, 0xFF, 0xFF, 0xFF, 0xFF,
    0xFF, 0xFF, 0xFF, 0xFF, 0xFF, 0xFF, 0xFF, 0xFF, 0xFF, 0xFF, 0xFF, 0xFF, 0xFF, 0xFF, 0xFF, 0xFF,
    0xFF, 0xFF, 0xFF, 0xFF, 0xFF, 0xFF, 0xFF, 0xFF, 0xFF, 0xFF, 0xFF, 0xFF, 0xFF, 0xFF, 0xFF, 0xFF,
    0xFF, 0xFF, 0xFF, 0xFF, 0xFF, 0xFF, 0xFF, 0xFF, 0xFF, 0xFF, 0xFF, 0xFF, 0xFF, 0xFF, 0xFF, 0xFF,
    0xFF, 0xFF, 0xFF, 0xFF, 0xFF, 0xFF, 0xFF, 0xFF, 0xFF, 0xFF, 0xFF, 0xFF, 0xFF, 0xFF, 0xFF, 0xFF]

/-- `Base32DecoderBuf::REVERSE_HEX_ENCODING`. -/
def REVERSE_HEX_ENCODING : List UInt8 :=
  [0xFF, 0xFF, 0xFF, 0xFF, 0xFF, 0xFF, 0xFF, 0xFF, 0xFF, 0xFF, 0xFF, 0xFF, 0xFF, 0xFF, 0xFF, 0xFF,
    0xFF, 0xFF, 0xFF, 0xFF, 0xFF, 0xFF, 0xFF, 0xFF, 0xFF, 0xFF, 0xFF, 0xFF, 0xFF, 0xFF, 0xFF, 0xFF,
    0xFF, 0xFF, 0xFF, 0xFF, 0xFF, 0xFF, 0xFF, 0xFF, 0xFF, 0xFF, 0xFF, 0xFF, 0xFF, 0xFF, 0xFF, 0xFF,
    0x00, 0x01, 0x02, 0x03, 0x04, 0x05, 0x06, 0x07, 0x08, 0x09, 0xFF, 0xFF, 0xFF, 0x00, 0xFF, 0xFF,
    0xFF, 0x0A, 0x0B, 0x0C, 0x0D, 0x0E, 0x0F, 0x10, 0x11, 0x12, 0x13, 0x14, 0x15, 0x16, 0x17, 0x18,
    0x19, 0x1A, 0x1B, 0x1C, 0x1D, 0x1E, 0x1F, 0xFF, 0xFF, 0xFF, 0xFF, 0xFF, 0xFF, 0xFF, 0xFF, 0xFF,
    0xFF, 0xFF, 0xFF, 0xFF, 0xFF, 0xFF, 0xFF, 0xFF, 0xFF, 0xFF, 0xFF, 0xFF, 0xFF, 0xFF, 0xFF, 0xFF,
    0xFF, 0xFF, 0xFF, 0xFF, 0xFF, 0xFF, 0xFF, 0xFF, 0xFF, 0xFF, 0xFF, 0xFF, 0xFF, 0xFF, 0xFF, 0xFF,
    0xFF, 0xFF, 0xFF, 0xFF, 0xFF, 0xFF, 0xFF, 0xFF, 0xFF, 0xFF, 0xFF, 0xFF, 0xFF, 0xFF, 0xFF, 0xFF,
    0xFF, 0xFF, 0xFF, 0xFF, 0xFF, 0xFF, 0xFF, 0xFF, 0xFF, 0xFF, 0xFF, 0xFF, 0xFF, 0xFF, 0xFF, 0xFF,
    0xFF, 0xFF, 0xFF, 0xFF, 0xFF, 0xFF, 0xFF, 0xFF, 0xFF, 0xFF, 0xFF, 0xFF, 0xFF, 0xFF, 0xFF, 0xFF,
    0xFF, 0xFF, 0xFF, 0xFF, 0xFF, 0xFF, 0xFF, 0xFF, 0xFF, 0xFF, 0xFF, 0xFF, 0xFF, 0xFF, 0xFF, 0xFF,
    0xFF, 0xFF, 0xFF, 0xFF, 0xFF, 0xFF, 0xFF, 0xFF, 0xFF, 0xFF, 0xFF, 0xFF, 0xFF, 0xFF, 0xFF, 0xFF,
    0xFF, 0xFF, 0xFF, 0xFF, 0xFF, 0xFF, 0xFF, 0xFF, 0xFF, 0xFF, 0xFF, 0xFF, 0xFF, 0xFF, 0xFF, 0xFF,
    0xFF, 0xFF, 0xFF, 0xFF, 0xFF, 0xFF, 0xFF, 0xFF, 0xFF, 0xFF, 0xFF, 0xFF, 0xFF, 0xFF, 0xFF, 0xFF,
    0xFF, 0xFF, 0xFF, 0xFF, 0xFF, 0xFF, 0xFF, 0xFF, 0xFF, 0xFF, 0xFF, 0xFF, 0xFF, 0xFF, 0xFF, 0xFF]

/-- `Base32DecoderBuf::REVERSE_CROCKFORD_ENCODING`. -/
def REVERSE_CROCKFORD_ENCODING : List UInt8 :=
  [0xFF, 0xFF, 0xFF, 0xFF, 0xFF, 0xFF, 0xFF, 0xFF, 0xFF, 0xFF, 0xFF, 0xFF, 0xFF, 0xFF, 0xFF, 0xFF,
    0xFF, 0xFF, 0xFF, 0xFF, 0xFF, 0xFF, 0xFF, 0xFF, 0xFF, 0xFF, 0xFF, 0xFF, 0xFF, 0xFF, 0xFF, 0xFF,
    0xFF, 0xFF, 0xFF, 0xFF, 0xFF, 0xFF, 0xFF, 0xFF, 0xFF, 0xFF, 0xFF, 0xFF, 0xFF, 0xFF, 0xFF, 0xFF,
    0x00, 0x01, 0x02, 0x03, 0x04, 0x05, 0x06, 0x07, 0x08, 0x09, 0xFF, 0xFF, 0xFF, 0x00, 0xFF, 0xFF,
    0xFF, 0x0A, 0x0B, 0x0C, 0x0D, 0x0E, 0x0F, 0x10, 0x11, 0x01, 0x12, 0x13, 0x01, 0x14, 0x15, 0x00,
    0x16, 0x17, 0x18, 0x19, 0x1A, 0xFF, 0x1B, 0x1C, 0x1D, 0x1E, 0x1F, 0xFF, 0xFF, 0xFF, 0xFF, 0xFF,
    0xFF, 0x0A, 0x0B, 0x0C, 0x0D, 0x0E, 0x0F, 0x10, 0x11, 0x01, 0x12, 0x13, 0x01, 0x14, 0x15, 0x00,
    0x16, 0x17, 0x18, 0x19, 0x1A, 0xFF, 0x1B, 0x1C, 0x1D, 0x1E, 0x1F, 0xFF, 0xFF, 0xFF, 0xFF, 0xFF,
    0xFF, 0xFF, 0xFF, 0xFF, 0xFF, 0xFF, 0xFF, 0xFF, 0xFF, 0xFF, 0xFF, 0xFF, 0xFF, 0xFF, 0xFF, 0xFF,
    0xFF, 0xFF, 0xFF, 0xFF, 0xFF, 0xFF, 0xFF, 0xFF, 0xFF, 0xFF, 0xFF, 0xFF, 0xFF, 0xFF, 0xFF, 0xFF,
    0xFF, 0xFF, 0xFF, 0xFF, 0xFF, 0xFF, 0xFF, 0xFF, 0xFF, 0xFF, 0xFF, 0xFF, 0xFF, 0xFF, 0xFF, 0xFF,
    0xFF, 0xFF, 0xFF, 0xFF, 0xFF, 0xFF, 0xFF, 0xFF, 0xFF, 0xFF, 0xFF, 0xFF, 0xFF, 0xFF, 0xFF, 0xFF,
    0xFF, 0xFF, 0xFF, 0xFF, 0xFF, 0xFF, 0xFF, 0xFF, 0xFF, 0xFF, 0xFF, 0xFF, 0xFF, 0xFF, 0xFF, 0xFF,
    0xFF, 0xFF, 0xFF, 0xFF, 0xFF, 0xFF, 0xFF, 0xFF, 0xFF, 0xFF, 0xFF, 0xFF, 0xFF, 0xFF, 0xFF, 0xFF,
    0xFF, 0xFF, 0xFF, 0xFF, 0xFF, 0xFF, 0xFF, 0xFF, 0xFF, 0xFF, 0xFF, 0xFF, 0xFF, 0xFF, 0xFF, 0xFF,
    0xFF, 0xFF, 0xFF, 0xFF, 0xFF, 0xFF, 0xFF, 0xFF, 0xFF, 0xFF, 0xFF, 0xFF, 0xFF, 0xFF, 0xFF, 0xFF]

/-- The members of `Base32DecoderBuf`; `_buf` is what is left to read. -/
structure Base32DecoderBuf where
  _group : List UInt8 := [0, 0, 0, 0, 0]
  _groupLength : ℕ := 0
  _groupIndex : ℕ := 0
  _buf : List UInt8
  _encoding : List UInt8
deriving DecidableEq, Repr

namespace Base32DecoderBuf

/-- `encoding`. -/
def encoding (options : UInt32) : List UInt8 :=
  if options &&& BASE32_USE_HEX_ALPHABET ≠ 0 then REVERSE_HEX_ENCODING
  else if options &&& BASE32_USE_CROCKFORD_ALPHABET ≠ 0 then REVERSE_CROCKFORD_ENCODING
  else REVERSE_DEFAULT_ENCODING

/-- A new stream buffer. -/
def create (buf : List UInt8) (options : UInt32) : Base32DecoderBuf where
  _buf := buf
  _encoding := encoding options

/-- `readOne`, and the check of the character that is read. -/
def readOne : EStateM DataFormatException Base32DecoderBuf (Option UInt8) := do
  let b ← get
  set { b with _buf := b._buf.tail }
  match b._buf.head? with
  | none => return none
  | some c =>
      if b._encoding.getD c.toNat 0 = 0xFF then throw .dataFormatException
      return some c

/-- A character at which the text must not end. -/
def readMore : EStateM DataFormatException Base32DecoderBuf UInt8 := do
  match ← readOne with
  | none => throw .dataFormatException
  | some c => return c

/-- The characters of a group behind the first; permissible lengths are 2, 4, 5, 7 and 8. -/
def readBuffer (c0 : UInt8) : EStateM DataFormatException Base32DecoderBuf (List UInt8) := do
  let c1 ← readMore
  let some c2 ← readOne | return [c0, c1]
  let c3 ← readMore
  let some c4 ← readOne | return [c0, c1, c2, c3]
  let some c5 ← readOne | return [c0, c1, c2, c3, c4]
  let c6 ← readMore
  let some c7 ← readOne | return [c0, c1, c2, c3, c4, c5, c6]
  return [c0, c1, c2, c3, c4, c5, c6, c7]

/-- The bytes of `_group` for the values of the characters. -/
def unpack (v : ℕ → UInt8) : List UInt8 :=
  [(v 0 <<< 3) ||| (v 1 >>> 2),
    ((v 1 &&& 0x03) <<< 6) ||| (v 2 <<< 1) ||| (v 3 >>> 4),
    ((v 3 &&& 0x0F) <<< 4) ||| (v 4 >>> 1),
    ((v 4 &&& 0x01) <<< 7) ||| (v 5 <<< 2) ||| (v 6 >>> 3),
    ((v 6 &&& 0x07) <<< 5) ||| v 7]

/-- `_groupLength` for the characters of a group. -/
def lengthOf (buffer : ℕ → UInt8) : ℕ :=
  if buffer 2 = '='.toUInt8 then 1
  else if buffer 4 = '='.toUInt8 then 2
  else if buffer 5 = '='.toUInt8 then 3
  else if buffer 7 = '='.toUInt8 then 4
  else 5

/-- `readFromDevice`; characters that are not read are `'='`. -/
def readFromDevice : EStateM DataFormatException Base32DecoderBuf (Option UInt8) := do
  let b ← get
  if b._groupIndex < b._groupLength then
    set { b with _groupIndex := b._groupIndex + 1 }
    return b._group[b._groupIndex]?
  else
    let some c0 ← readOne | return none
    let chars ← readBuffer c0
    let buffer (i : ℕ) := chars.getD i '='.toUInt8
    let group := unpack fun i => b._encoding.getD (buffer i).toNat 0
    modify fun b =>
      { b with _group := group, _groupLength := lengthOf buffer, _groupIndex := 1 }
    return group.head?

/-! ### The bits of a group -/

/-- The indices of the characters of a group. -/
def quintets (g0 g1 g2 g3 g4 : UInt8) : List UInt8 :=
  [g0 >>> 3, ((g0 &&& 0x07) <<< 2) ||| (g1 >>> 6), (g1 &&& 0x3E) >>> 1,
    ((g1 &&& 0x01) <<< 4) ||| (g2 >>> 4), ((g2 &&& 0x0F) <<< 1) ||| (g3 >>> 7), (g3 &&& 0x7C) >>> 2,
    ((g3 &&& 0x03) <<< 3) ||| (g4 >>> 5), g4 &&& 0x1F]

theorem fiveBits {g0 g1 g2 g3 g4 : UInt8} : ∀ q ∈ quintets g0 g1 g2 g3 g4, q &&& 0x1F = q := by
  rw [quintets]
  simp only [List.forall_mem_cons, List.not_mem_nil, false_implies, implies_true, and_true]
  refine ⟨?_, ?_, ?_, ?_, ?_, ?_, ?_, ?_⟩ <;>
  · apply byte_ext
    intro i hi
    interval_cases i <;> simp

/-- The bytes of a group are put together from the values of its characters. -/
theorem unpack_quintets (g0 g1 g2 g3 g4 : UInt8) :
    unpack (fun i => (quintets g0 g1 g2 g3 g4).getD i 0) = [g0, g1, g2, g3, g4] := by
  simp only [unpack, quintets, List.getD_cons_zero, List.getD_cons_succ, List.cons.injEq, and_true]
  refine ⟨?_, ?_, ?_, ?_, ?_⟩ <;>
  · apply byte_ext
    intro i hi
    interval_cases i <;> simp

/-! ### Reading a group -/

variable {c : UInt8} {group buf enc : List UInt8} {groupLength groupIndex : ℕ}

theorem readOne_cons (h : enc.getD c.toNat 0 ≠ 0xFF) :
    readOne ⟨group, groupLength, groupIndex, c :: buf, enc⟩ =
      .ok (some c) ⟨group, groupLength, groupIndex, buf, enc⟩ := by
  rw [readOne, get_bind]
  simp only [List.head?_cons, if_neg h]
  rfl

theorem readOne_nil : readOne ⟨group, groupLength, groupIndex, [], enc⟩ =
    .ok none ⟨group, groupLength, groupIndex, [], enc⟩ := rfl

theorem readMore_cons (h : enc.getD c.toNat 0 ≠ 0xFF) :
    readMore ⟨group, groupLength, groupIndex, c :: buf, enc⟩ =
      .ok c ⟨group, groupLength, groupIndex, buf, enc⟩ := by
  rw [readMore, bind_of_ok (readOne_cons h)]
  rfl

/-- The characters of a group are read: eight, or a permissible number at the end. -/
theorem readBuffer_eq {c0 : UInt8} {rest : List UInt8} : (cs : List UInt8) →
    (∀ c ∈ cs, enc.getD c.toNat 0 ≠ 0xFF) → cs.length = 7 ∨ rest = [] ∧ cs.length ∈ [1, 3, 4, 6] →
      readBuffer c0 ⟨group, groupLength, groupIndex, cs ++ rest, enc⟩ =
        .ok (c0 :: cs) ⟨group, groupLength, groupIndex, rest, enc⟩
  | [c1], hc, h => by
      obtain ⟨rfl, -⟩ := h.resolve_left (by simp)
      simp only [List.forall_mem_cons] at hc
      obtain ⟨h1, -⟩ := hc
      simp only [readBuffer, bind, EStateM.bind, pure, EStateM.pure, List.cons_append, List.nil_append,
        readMore_cons h1, readOne_nil]
  | [c1, c2, c3], hc, h => by
      obtain ⟨rfl, -⟩ := h.resolve_left (by simp)
      simp only [List.forall_mem_cons] at hc
      obtain ⟨h1, h2, h3, -⟩ := hc
      simp only [readBuffer, bind, EStateM.bind, pure, EStateM.pure, List.cons_append, List.nil_append,
        readMore_cons h1, readOne_cons h2, readMore_cons h3, readOne_nil]
  | [c1, c2, c3, c4], hc, h => by
      obtain ⟨rfl, -⟩ := h.resolve_left (by simp)
      simp only [List.forall_mem_cons] at hc
      obtain ⟨h1, h2, h3, h4, -⟩ := hc
      simp only [readBuffer, bind, EStateM.bind, pure, EStateM.pure, List.cons_append, List.nil_append,
        readMore_cons h1, readOne_cons h2, readMore_cons h3, readOne_cons h4, readOne_nil]
  | [c1, c2, c3, c4, c5, c6], hc, h => by
      obtain ⟨rfl, -⟩ := h.resolve_left (by simp)
      simp only [List.forall_mem_cons] at hc
      obtain ⟨h1, h2, h3, h4, h5, h6, -⟩ := hc
      simp only [readBuffer, bind, EStateM.bind, pure, EStateM.pure, List.cons_append, List.nil_append,
        readMore_cons h1, readOne_cons h2, readMore_cons h3, readOne_cons h4, readOne_cons h5,
        readMore_cons h6, readOne_nil]
  | [c1, c2, c3, c4, c5, c6, c7], hc, _ => by
      simp only [List.forall_mem_cons] at hc
      obtain ⟨h1, h2, h3, h4, h5, h6, h7, -⟩ := hc
      simp only [readBuffer, bind, EStateM.bind, pure, EStateM.pure, List.cons_append, List.nil_append,
        readMore_cons h1, readOne_cons h2, readMore_cons h3, readOne_cons h4, readOne_cons h5,
        readMore_cons h6, readOne_cons h7]
  | [], _, h => by simp at h
  | [c1, c2], _, h => by simp at h
  | [c1, c2, c3, c4, c5], _, h => by simp at h
  | c1 :: c2 :: c3 :: c4 :: c5 :: c6 :: c7 :: c8 :: cs, _, h => by simp at h

theorem readFromDevice_group {c0 : UInt8} {cs rest : List UInt8} {v : ℕ → UInt8}
    (hc : ∀ c ∈ c0 :: cs, enc.getD c.toNat 0 ≠ 0xFF)
    (hlen : cs.length = 7 ∨ rest = [] ∧ cs.length ∈ [1, 3, 4, 6])
    (hv : ∀ i < 8, enc.getD ((c0 :: cs).getD i '='.toUInt8).toNat 0 = v i) :
    readFromDevice ⟨group, groupLength, groupLength, c0 :: cs ++ rest, enc⟩ =
      .ok (unpack v).head?
        ⟨unpack v, lengthOf fun i => (c0 :: cs).getD i '='.toUInt8, 1, rest, enc⟩ := by
  rw [List.forall_mem_cons] at hc
  have hunpack : (unpack fun i => enc.getD ((c0 :: cs).getD i '='.toUInt8).toNat 0) = unpack v := by
    simp only [unpack, hv, Nat.reduceLT]
  rw [readFromDevice, get_bind, if_neg (lt_irrefl _), List.cons_append, bind_of_ok (readOne_cons hc.1)]
  simp only
  rw [bind_of_ok (readBuffer_eq cs hc.2 hlen), ← hunpack]
  rfl

theorem readFromDevice_nil :
    readFromDevice ⟨group, groupLength, groupLength, [], enc⟩ =
      .ok none ⟨group, groupLength, groupLength, [], enc⟩ := by
  rw [readFromDevice, get_bind, if_neg (lt_irrefl _), bind_of_ok readOne_nil]
  rfl

/-- What is left of a group is handed out before the next one is read. -/
theorem drains_next {d : Base32DecoderBuf} {bs rest s : List UInt8}
    (h : group = c :: bs ++ rest) (hlen : groupLength = bs.length + 1)
    (hs : Drains readFromDevice ⟨group, groupLength, groupLength, buf, enc⟩ s d) :
    Drains readFromDevice ⟨group, groupLength, 1, buf, enc⟩ (bs ++ s) d := by
  subst hlen
  refine Delivers.drains ?_ hs
  refine delivers_steps (fun i => Base32DecoderBuf.mk group (bs.length + 1) (i + 1) buf enc)
    fun i e he => ?_
  have hi := (List.getElem?_eq_some_iff.mp he).1
  have hget : group[i + 1]? = some e := by
    rw [h, List.cons_append, List.getElem?_cons_succ, List.getElem?_append_left hi, he]
  rw [readFromDevice, get_bind, if_pos (by simpa using hi), ← hget]
  rfl

/-! ### The alphabets -/

/-- The table of the decoder inverts the alphabet, and padding stands for zero. -/
structure Inverts (out enc : List UInt8) : Prop where
  pad : enc.getD '='.toUInt8.toNat 0 = 0
  put : ∀ n < 32, enc.getD (out.getD n 0).toNat 0 = UInt8.ofNat n ∧ out.getD n 0 ≠ '='.toUInt8

theorem inverts_encoding (options : UInt32) :
    Inverts (Base32EncoderBuf.encoding options) (encoding options) := by
  rw [Base32EncoderBuf.encoding, encoding]
  split_ifs
  · exact ⟨by decide, by decide⟩
  · exact ⟨by decide, by decide⟩
  · exact ⟨by decide, by decide⟩

theorem Inverts.index {out : List UInt8} (h : Inverts out enc) {q : UInt8} (hq : q &&& 0x1F = q) :
    enc.getD (out.getD q.toNat 0).toNat 0 = q ∧ out.getD q.toNat 0 ≠ '='.toUInt8 ∧ q ≠ 0xFF := by
  have hlt : q.toNat < 32 := by
    have hle : (q &&& 0x1F).toNat ≤ 0x1F := by
      rw [UInt8.toNat_and]
      exact Nat.and_le_right
    rw [hq] at hle
    omega
  obtain ⟨hvalue, hpad⟩ := h.put q.toNat hlt
  refine ⟨hvalue.trans (UInt8.ofNat_toNat), hpad, ?_⟩
  rintro rfl
  exact absurd hlt (by decide)

/-! ### Round trip -/

section

variable {out q : List UInt8} {k n : ℕ} {padding rest : List UInt8}

/-- The characters of a group: those of its first indices, and then padding. -/
theorem getD_chars (put : UInt8 → UInt8) (hk : k ≤ q.length)
    (hpad : ∀ c ∈ padding, c = '='.toUInt8) (i : ℕ) :
    ((q.take k).map put ++ padding).getD i '='.toUInt8 =
      if i < k then put (q.getD i 0) else '='.toUInt8 := by
  rw [List.getD_eq_getElem?_getD, List.getD_eq_getElem?_getD]
  split_ifs with hi
  · have hiq : i < q.length := by omega
    rw [List.getElem?_append_left (by simp; omega)]
    simp [hi, hiq]
  · rw [List.getElem?_append_right (by simp; omega)]
    cases hget : padding[i - ((q.take k).map put).length]? with
    | none => rfl
    | some c => exact hpad c (List.mem_of_getElem? hget)

/-- The length of a group is read off the place where its padding begins. -/
theorem lengthOf_eq {buffer : ℕ → UInt8} (hkn : (k, n) ∈ [(2, 1), (4, 2), (5, 3), (7, 4), (8, 5)])
    (h : ∀ i, buffer i = '='.toUInt8 ↔ k ≤ i) : lengthOf buffer = n := by
  simp only [lengthOf, h]
  simp only [List.mem_cons, Prod.mk.injEq, List.not_mem_nil, or_false] at hkn
  rcases hkn with ⟨rfl, rfl⟩ | ⟨rfl, rfl⟩ | ⟨rfl, rfl⟩ | ⟨rfl, rfl⟩ | ⟨rfl, rfl⟩ <;> rfl

/-- A group of `n` bytes is read from its `k` characters and its padding. -/
theorem drains_group {d : Base32DecoderBuf} {bs s : List UInt8} (h : Inverts out enc)
    (hq : ∀ x ∈ q, x &&& 0x1F = x) (hlen : q.length = 8)
    (hkn : (k, n) ∈ [(2, 1), (4, 2), (5, 3), (7, 4), (8, 5)]) (hzero : ∀ i, k ≤ i → q.getD i 0 = 0)
    (hpad : padding = List.replicate (8 - k) '='.toUInt8 ∨ padding = [] ∧ rest = [])
    (hbs : unpack (fun i => q.getD i 0) = bs)
    (hs : Drains readFromDevice ⟨bs, n, n, rest, enc⟩ s d) :
    Drains readFromDevice
      ⟨group, groupLength, groupLength,
        (q.take k).map (fun x => out.getD x.toNat 0) ++ padding ++ rest, enc⟩ (bs.take n ++ s) d := by
  have hk : k ≤ 8 ∧ 0 < k ∧ 0 < n ∧ n ≤ 5 := by
    simp only [List.mem_cons, Prod.mk.injEq, List.not_mem_nil, or_false] at hkn
    omega
  have hpads : ∀ c ∈ padding, c = '='.toUInt8 := by
    rcases hpad with rfl | ⟨rfl, -⟩
    · exact fun c hc => List.eq_of_mem_replicate hc
    · simp
  have hget := getD_chars (fun x => out.getD x.toNat 0) (by omega : k ≤ q.length) hpads
  have hindex : ∀ i < k, q.getD i 0 &&& 0x1F = q.getD i 0 := by
    intro i hi
    have hiq : i < q.length := by omega
    rw [List.getD_eq_getElem?_getD, List.getElem?_eq_getElem hiq, Option.getD_some]
    exact hq _ (List.getElem_mem hiq)
  have hvalid : ∀ c ∈ (q.take k).map (fun x => out.getD x.toNat 0) ++ padding,
      enc.getD c.toNat 0 ≠ 0xFF := by
    intro c hc
    rcases List.mem_append.mp hc with hc | hc
    · obtain ⟨x, hx, rfl⟩ := List.mem_map.mp hc
      obtain ⟨hvalue, -, hff⟩ := h.index (hq x (List.mem_of_mem_take hx))
      rwa [hvalue]
    · rw [hpads c hc, h.pad]
      decide
  have hcount : (q.take k).length + padding.length = 8 ∨
      rest = [] ∧ (q.take k).length + padding.length = k := by
    rw [List.length_take]
    rcases hpad with rfl | ⟨rfl, hrest⟩
    · left
      rw [List.length_replicate]
      omega
    · exact .inr ⟨hrest, by rw [List.length_nil]; omega⟩
  -- the characters are not empty
  obtain ⟨c0, cs, hchars⟩ := List.exists_cons_of_length_pos
    (l := (q.take k).map (fun x => out.getD x.toNat 0) ++ padding) (by simp; omega)
  have hcs : cs.length + 1 = (q.take k).length + padding.length := by
    rw [← List.length_cons, ← hchars, List.length_append, List.length_map]
  rw [hchars] at hget hvalid ⊢
  have hlen7 : cs.length = 7 ∨ rest = [] ∧ cs.length ∈ [1, 3, 4, 6] := by
    by_cases h7 : cs.length = 7
    · exact .inl h7
    · simp only [List.mem_cons, Prod.mk.injEq, List.not_mem_nil, or_false] at hkn ⊢
      obtain ⟨hrest, hk'⟩ := hcount.resolve_left (by omega)
      exact .inr ⟨hrest, by omega⟩
  have hn : lengthOf (fun i => (c0 :: cs).getD i '='.toUInt8) = n := by
    refine lengthOf_eq hkn fun i => ?_
    rw [hget]
    split_ifs with hi
    · exact iff_of_false (h.index (hindex i hi)).2.1 (by omega)
    · exact iff_of_true rfl (by omega)
  have hvalues : ∀ i < 8, enc.getD ((c0 :: cs).getD i '='.toUInt8).toNat 0 = q.getD i 0 := by
    intro i _
    rw [hget]
    split_ifs with hi
    · exact (h.index (hindex i hi)).1
    · rw [h.pad, hzero i (by omega)]
  obtain ⟨b, bs, rfl⟩ : ∃ b bs', bs = b :: bs' := ⟨_, _, hbs.symm⟩
  have hlen5 : (b :: bs).length = 5 := by
    rw [← hbs]
    rfl
  obtain ⟨m, rfl⟩ : ∃ m, n = m + 1 := ⟨n - 1, by omega⟩
  have hsplit : b :: bs = b :: bs.take m ++ bs.drop m := by
    rw [List.cons_append, List.take_append_drop]
  have hm : m + 1 = (bs.take m).length + 1 := by
    rw [List.length_take]
    rw [List.length_cons] at hlen5
    omega
  rw [List.take_succ_cons, List.cons_append]
  refine (drains_next hsplit hm hs).cons ((readFromDevice_group hvalid hlen7 hvalues).trans ?_)
  rw [hbs, hn]
  rfl

end

end Base32DecoderBuf

namespace Base32EncoderBuf

open Base32DecoderBuf

/-- The text of a byte string. -/
def text (doPadding : Bool) (encoding : List UInt8) : List UInt8 → List UInt8
  | g0 :: g1 :: g2 :: g3 :: g4 :: s =>
      (quintets g0 g1 g2 g3 g4).map (fun idx => encoding.getD idx.toNat 0) ++ text doPadding encoding s
  | s => lastText doPadding encoding s

theorem encode_eq (doPadding : Bool) (encoding buf : List UInt8) :
    (s : List UInt8) → encode ⟨[], buf, doPadding, encoding⟩ s = buf ++ text doPadding encoding s
  | [] => by simp [encode, text, close, lastText]
  | [g0] => by simp [encode, text, close, writeToDevice]
  | [g0, g1] => by simp [encode, text, close, writeToDevice]
  | [g0, g1, g2] => by simp [encode, text, close, writeToDevice]
  | [g0, g1, g2, g3] => by simp [encode, text, close, writeToDevice]
  | g0 :: g1 :: g2 :: g3 :: g4 :: s => by
      have hgroup : encode ⟨[], buf, doPadding, encoding⟩ (g0 :: g1 :: g2 :: g3 :: g4 :: s) =
          encode ⟨[], buf ++ (quintets g0 g1 g2 g3 g4).map (fun idx => encoding.getD idx.toNat 0),
            doPadding, encoding⟩ s := rfl
      rw [hgroup, encode_eq, text, List.append_assoc]

end Base32EncoderBuf

namespace Base32DecoderBuf

open Base32EncoderBuf

variable {enc out : List UInt8} (doPadding : Bool) (group : List UInt8) (groupLength : ℕ)

/-- The last group is a group of five bytes of which the first characters are written. -/
theorem drains_last (h : Inverts out enc) (g0 g1 g2 g3 g4 : UInt8) (k n : ℕ) {s : List UInt8}
    (hkn : (k, n) ∈ [(2, 1), (4, 2), (5, 3), (7, 4), (8, 5)])
    (hzero : (quintets g0 g1 g2 g3 g4).drop k = List.replicate (8 - k) 0)
    (hlast : lastText doPadding out s =
      ((quintets g0 g1 g2 g3 g4).take k).map (fun x => out.getD x.toNat 0) ++
        if doPadding then List.replicate (8 - k) '='.toUInt8 else [])
    (hs : [g0, g1, g2, g3, g4].take n = s) :
    ∃ d, Drains readFromDevice
      ⟨group, groupLength, groupLength, lastText doPadding out s, enc⟩ s d := by
  have hzeros : ∀ i, k ≤ i → (quintets g0 g1 g2 g3 g4).getD i 0 = 0 := by
    intro i hi
    obtain ⟨j, rfl⟩ := Nat.exists_eq_add_of_le hi
    rw [List.getD_eq_getElem?_getD, ← List.getElem?_drop, hzero, List.getElem?_replicate]
    split <;> rfl
  have hend : Drains readFromDevice ⟨[g0, g1, g2, g3, g4], n, n, [], enc⟩ []
      ⟨[g0, g1, g2, g3, g4], n, n, [], enc⟩ := drains_nil readFromDevice_nil
  refine ⟨⟨[g0, g1, g2, g3, g4], n, n, [], enc⟩, ?_⟩
  rw [hlast, ← List.append_nil (_ ++ _), ← hs, ← List.append_nil (List.take n _)]
  refine drains_group h fiveBits rfl hkn hzeros ?_ (unpack_quintets g0 g1 g2 g3 g4) hend
  cases doPadding
  · exact .inr ⟨rfl, rfl⟩
  · exact .inl rfl

theorem drains_lastText (h : Inverts out enc) :
    (s : List UInt8) → s.length < 5 →
      ∃ d, Drains readFromDevice
        ⟨group, groupLength, groupLength, lastText doPadding out s, enc⟩ s d
  | [], _ => ⟨_, drains_nil readFromDevice_nil⟩
  | [g0], _ => by
      refine drains_last doPadding group groupLength h g0 0 0 0 0 2 1 (by simp) rfl ?_ rfl
      simp [lastText, quintets]
  | [g0, g1], _ => by
      refine drains_last doPadding group groupLength h g0 g1 0 0 0 4 2 (by simp) rfl ?_ rfl
      simp [lastText, quintets]
  | [g0, g1, g2], _ => by
      refine drains_last doPadding group groupLength h g0 g1 g2 0 0 5 3 (by simp) rfl ?_ rfl
      simp [lastText, quintets]
  | [g0, g1, g2, g3], _ => by
      refine drains_last doPadding group groupLength h g0 g1 g2 g3 0 7 4 (by simp) rfl ?_ rfl
      simp [lastText, quintets]

/-- A decoder that has handed out all bytes of a group reads the bytes of the text. -/
theorem drains_text (h : Inverts out enc) :
    (s : List UInt8) → ∀ (group : List UInt8) (groupLength : ℕ),
      ∃ d, Drains readFromDevice ⟨group, groupLength, groupLength, text doPadding out s, enc⟩ s d
  | g0 :: g1 :: g2 :: g3 :: g4 :: s, group, groupLength => by
      obtain ⟨d, hd⟩ := drains_text h s [g0, g1, g2, g3, g4] 5
      have hzero : ∀ i, 8 ≤ i → (quintets g0 g1 g2 g3 g4).getD i 0 = 0 := fun i hi =>
        List.getD_eq_default _ _ hi
      rw [text, ← List.append_nil (List.map _ _)]
      exact ⟨d, drains_group h fiveBits rfl (by simp) hzero (.inl rfl)
        (unpack_quintets g0 g1 g2 g3 g4) hd⟩
  | [], group, groupLength => drains_lastText doPadding group groupLength h [] (by simp)
  | [g0], group, groupLength => drains_lastText doPadding group groupLength h [g0] (by simp)
  | [g0, g1], group, groupLength => drains_lastText doPadding group groupLength h [g0, g1] (by simp)
  | [g0, g1, g2], group, groupLength =>
      drains_lastText doPadding group groupLength h [g0, g1, g2] (by simp)
  | [g0, g1, g2, g3], group, groupLength =>
      drains_lastText doPadding group groupLength h [g0, g1, g2, g3] (by simp)

/-- **Main result.** Decoding the closed output of an encoder with the same options gives the bytes
back and then the end of file. -/
theorem decode_encode_base32 (options : UInt32) (s : List UInt8) :
    ∃ d, Drains readFromDevice (create (encode (Base32EncoderBuf.create options) s) options) s d := by
  have htext := encode_eq (options &&& BASE32_USE_PADDING ≠ 0) (Base32EncoderBuf.encoding options) [] s
  rw [List.nil_append] at htext
  rw [Base32EncoderBuf.create, htext]
  exact drains_text _ (inverts_encoding options) s [0, 0, 0, 0, 0] 0

end Base32DecoderBuf

end Poco.Foundation
