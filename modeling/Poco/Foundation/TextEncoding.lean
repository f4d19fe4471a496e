import Poco.Foundation.UTF8Encoding

/-! # `TextEncoding` and the encodings of Unicode text

A `TextEncoding` decodes the sequence at the beginning of some bytes (`queryConvert`) and encodes a
character (`convertChar`, the `convert` with a character).  What every user of an encoding relies on
is part of it: `queryConvert` looks at no other bytes than those it is given, it asks for more bytes
than it has, up to `MAX_SEQUENCE_LENGTH`, and an encoded character fits into that many bytes.

`UTF16Encoding` is that of a machine with little-endian byte order. -/

namespace Poco.Foundation

open Poco.Lib

/-- `TextEncoding::MAX_SEQUENCE_LENGTH`. -/
def MAX_SEQUENCE_LENGTH : ℕ := 4

/-- The two have the same first `n` bytes. -/
def SameBytes (n : ℕ) (bytes bytes' : List UInt8) : Prop := ∀ i < n, byteAt bytes i = byteAt bytes' i

/-- A `TextEncoding`. -/
structure TextEncoding where
  /-- `queryConvert(bytes, length)`. -/
  queryConvert : List UInt8 → ℕ → ℤ
  /-- `convert(ch, bytes, length)`: the result, and the bytes that are written. -/
  convertChar : ℤ → ℤ → ℤ × List UInt8
  queryConvert_congr : ∀ {bytes bytes' : List UInt8} {n : ℕ}, 0 < n → SameBytes n bytes bytes' →
    queryConvert bytes n = queryConvert bytes' n
  asks : ∀ (bytes : List UInt8) (n : ℕ), queryConvert bytes n < -1 →
    n < -queryConvert bytes n ∧ -queryConvert bytes n ≤ MAX_SEQUENCE_LENGTH
  writes : ∀ ch : ℤ,
    (convertChar ch MAX_SEQUENCE_LENGTH).1 = (convertChar ch MAX_SEQUENCE_LENGTH).2.length ∧
      (convertChar ch MAX_SEQUENCE_LENGTH).2.length ≤ MAX_SEQUENCE_LENGTH

theorem store_writes {bs : List UInt8} (h : bs.length ≤ MAX_SEQUENCE_LENGTH) :
    (store MAX_SEQUENCE_LENGTH bs).1 = (store MAX_SEQUENCE_LENGTH bs).2.length ∧
      (store MAX_SEQUENCE_LENGTH bs).2.length ≤ MAX_SEQUENCE_LENGTH := by
  rw [store_of_le (by omega)]
  exact ⟨rfl, h⟩

/-! ### UTF-8 -/

namespace UTF8Encoding

theorem assemble_congr {k uc : ℕ} {bytes bytes' : List UInt8} (h : SameBytes (k + 1) bytes bytes') :
    assemble k uc bytes = assemble k uc bytes' := by
  induction k generalizing uc bytes bytes' with
  | zero => rfl
  | succ k ih =>
      rw [assemble, assemble, h 1 (by omega)]
      refine ih fun i hi => ?_
      rw [byteAt_tail, byteAt_tail]
      exact h (i + 1) (by omega)

theorem isLegal_congr {k : ℕ} {bytes bytes' : List UInt8} (h : SameBytes k bytes bytes') :
    isLegal bytes k = isLegal bytes' k := by
  unfold isLegal
  dsimp only
  split
  · rw [h 0 (by decide)]
  · rw [h 0 (by decide), h 1 (by decide)]
  · rw [h 0 (by decide), h 1 (by decide), h 2 (by decide)]
  · rw [h 0 (by decide), h 1 (by decide), h 2 (by decide), h 3 (by decide)]
  · rfl

theorem queryConvert_congr {bytes bytes' : List UInt8} {n : ℕ} (hn : 0 < n)
    (h : SameBytes n bytes bytes') : queryConvert bytes n = queryConvert bytes' n := by
  rw [queryConvert, queryConvert, h 0 hn]
  generalize _charMap (byteAt bytes' 0) = m
  split_ifs with hm
  · rfl
  · rw [convertSequence, convertSequence]
    by_cases hk : m = -4 ∨ m = -3 ∨ m = -2
    · have hlegal : isLegal bytes (-m).toNat = isLegal bytes' (-m).toNat :=
        isLegal_congr fun i hi => h i (by omega)
      have hvalue : ∀ uc, assemble (-m - 1).toNat uc bytes = assemble (-m - 1).toNat uc bytes' :=
        fun uc => assemble_congr fun i hi => h i (by omega)
      rw [if_pos hk, if_pos hk, hlegal, h 0 hn, hvalue]
    · rw [if_neg hk, if_neg hk]

theorem convertSequence_ge (bytes : List UInt8) (b : UInt8) :
    -1 ≤ convertSequence bytes (_charMap b) := by
  have hmap := _charMap_eq b
  rw [convertSequence]
  split_ifs with hn hlegal
  · omega
  · exact le_rfl
  · split_ifs at hmap <;> omega

theorem queryConvert_asks (bytes : List UInt8) (n : ℕ) (h : queryConvert bytes n < -1) :
    n < -queryConvert bytes n ∧ -queryConvert bytes n ≤ MAX_SEQUENCE_LENGTH := by
  have hmap := _charMap_eq (byteAt bytes 0)
  have hge := convertSequence_ge bytes (byteAt bytes 0)
  have hmax : MAX_SEQUENCE_LENGTH = 4 := rfl
  rw [queryConvert] at h ⊢
  split_ifs at h ⊢ with hn
  · refine ⟨hn, ?_⟩
    split_ifs at hmap <;> omega
  · omega

theorem convertChar_writes (ch : ℤ) :
    (convertChar ch MAX_SEQUENCE_LENGTH).1 = (convertChar ch MAX_SEQUENCE_LENGTH).2.length ∧
      (convertChar ch MAX_SEQUENCE_LENGTH).2.length ≤ MAX_SEQUENCE_LENGTH := by
  unfold convertChar
  dsimp only
  split_ifs
  · exact store_writes (by simp [MAX_SEQUENCE_LENGTH])
  · exact store_writes (by simp [MAX_SEQUENCE_LENGTH])
  · exact store_writes (by simp [MAX_SEQUENCE_LENGTH])
  · exact store_writes (by simp [MAX_SEQUENCE_LENGTH])
  · exact ⟨rfl, Nat.zero_le _⟩

end UTF8Encoding

/-- `UTF8Encoding` as a `TextEncoding`. -/
def UTF8Encoding : TextEncoding where
  queryConvert bytes n := UTF8Encoding.queryConvert bytes n
  convertChar := UTF8Encoding.convertChar
  queryConvert_congr := UTF8Encoding.queryConvert_congr
  asks := UTF8Encoding.queryConvert_asks
  writes := UTF8Encoding.convertChar_writes

/-! ### UTF-16 -/

namespace UTF16Encoding

/-- `ByteOrder::flipBytes`. -/
def flipBytes (value : UInt16) : UInt16 :=
  ((value >>> (8 : UInt16)) &&& (0x00FF : UInt16)) ||| ((value <<< (8 : UInt16)) &&& (0xFF00 : UInt16))

/-- The number that two bytes are in memory, flipped if the bytes are in the other order. -/
def getWord (_flipBytes : Bool) (bytes : List UInt8) (i : ℕ) : UInt16 :=
  let uc := (byteAt bytes i).toUInt16 ||| ((byteAt bytes (i + 1)).toUInt16 <<< 8)
  if _flipBytes then flipBytes uc else uc

/-- The two bytes of a number. -/
def putWord (_flipBytes : Bool) (w : UInt16) : List UInt8 :=
  let w := if _flipBytes then flipBytes w else w
  [w.toUInt8, (w >>> 8).toUInt8]

/-- `queryConvert(bytes, length)`; the second test of a pair asks for `uc` instead of `uc2`. -/
def queryConvert (_flipBytes : Bool) (bytes : List UInt8) (length : ℕ) : ℤ :=
  if length ≥ 2 then
    let uc := getWord _flipBytes bytes 0
    if uc ≥ 0xD800 ∧ uc < 0xDC00 then
      if length ≥ 4 then
        let uc2 := getWord _flipBytes bytes 2
        if uc2 ≥ 0xDC00 ∧ uc < 0xE000 then
          (((uc.toNat &&& 0x3FF) <<< 10) + (uc2.toNat &&& 0x3FF) + 0x10000 : ℕ)
        else -1
      else -4
    else uc.toNat
  else -2

/-- `convert(ch, bytes, length)`. -/
def convertChar (_flipBytes : Bool) (ch length : ℤ) : ℤ × List UInt8 :=
  if ch ≤ 0xFFFF then store length (putWord _flipBytes (UInt16.ofInt ch))
  else
    let ch1 := (ch - 0x10000).toNat
    let w1 := UInt16.ofNat (0xD800 + ((ch1 >>> 10) &&& 0x3FF))
    let w2 := UInt16.ofNat (0xDC00 + (ch1 &&& 0x3FF))
    store length (putWord _flipBytes w1 ++ putWord _flipBytes w2)

theorem queryConvert_congr {_flipBytes : Bool} {bytes bytes' : List UInt8} {n : ℕ}
    (h : SameBytes n bytes bytes') :
    queryConvert _flipBytes bytes n = queryConvert _flipBytes bytes' n := by
  unfold queryConvert
  by_cases h₂ : n ≥ 2
  · have hword : getWord _flipBytes bytes 0 = getWord _flipBytes bytes' 0 := by
      rw [getWord, getWord, h 0 (by omega), h 1 (by omega)]
    rw [if_pos h₂, if_pos h₂, hword]
    dsimp only
    by_cases h₄ : n ≥ 4
    · have hword : getWord _flipBytes bytes 2 = getWord _flipBytes bytes' 2 := by
        rw [getWord, getWord, h 2 (by omega), h 3 (by omega)]
      rw [if_pos h₄, if_pos h₄, hword]
    · rw [if_neg h₄, if_neg h₄]
  · rw [if_neg h₂, if_neg h₂]

theorem queryConvert_asks (_flipBytes : Bool) (bytes : List UInt8) (n : ℕ)
    (h : queryConvert _flipBytes bytes n < -1) :
    n < -queryConvert _flipBytes bytes n ∧
      -queryConvert _flipBytes bytes n ≤ MAX_SEQUENCE_LENGTH := by
  have hmax : MAX_SEQUENCE_LENGTH = 4 := rfl
  unfold queryConvert at h ⊢
  dsimp only at h ⊢
  split_ifs at h ⊢ <;> omega

theorem convertChar_writes (_flipBytes : Bool) (ch : ℤ) :
    (convertChar _flipBytes ch MAX_SEQUENCE_LENGTH).1 =
        (convertChar _flipBytes ch MAX_SEQUENCE_LENGTH).2.length ∧
      (convertChar _flipBytes ch MAX_SEQUENCE_LENGTH).2.length ≤ MAX_SEQUENCE_LENGTH := by
  unfold convertChar
  split_ifs
  · exact store_writes (by simp [putWord, MAX_SEQUENCE_LENGTH])
  · exact store_writes (by simp [putWord, MAX_SEQUENCE_LENGTH])

end UTF16Encoding

/-- `UTF16Encoding` with the given member `_flipBytes` as a `TextEncoding`. -/
def UTF16Encoding (_flipBytes : Bool) : TextEncoding where
  queryConvert := UTF16Encoding.queryConvert _flipBytes
  convertChar := UTF16Encoding.convertChar _flipBytes
  queryConvert_congr _ := UTF16Encoding.queryConvert_congr
  asks := UTF16Encoding.queryConvert_asks _flipBytes
  writes := UTF16Encoding.convertChar_writes _flipBytes

/-! ### UTF-32 -/

namespace UTF32Encoding

/-- `ByteOrder::flipBytes`. -/
def flipBytes (value : UInt32) : UInt32 :=
  ((value >>> (24 : UInt32)) &&& (0x000000FF : UInt32)) ||| ((value >>> (8 : UInt32)) &&& (0x0000FF00 : UInt32)) |||
    ((value <<< (8 : UInt32)) &&& (0x00FF0000 : UInt32)) ||| ((value <<< (24 : UInt32)) &&& (0xFF000000 : UInt32))

/-- The number that four bytes are in memory, flipped if the bytes are in the other order. -/
def getDWord (_flipBytes : Bool) (bytes : List UInt8) : UInt32 :=
  let uc := (byteAt bytes 0).toUInt32 ||| ((byteAt bytes 1).toUInt32 <<< 8) |||
    ((byteAt bytes 2).toUInt32 <<< 16) ||| ((byteAt bytes 3).toUInt32 <<< 24)
  if _flipBytes then flipBytes uc else uc

/-- The four bytes of a number. -/
def putDWord (_flipBytes : Bool) (w : UInt32) : List UInt8 :=
  let w := if _flipBytes then flipBytes w else w
  [w.toUInt8, (w >>> 8).toUInt8, (w >>> 16).toUInt8, (w >>> 24).toUInt8]

/-- `safeToInt`. -/
def safeToInt (value : UInt32) : ℤ := if value ≤ 0x10FFFF then value.toNat else -1

/-- `queryConvert(bytes, length)`. -/
def queryConvert (_flipBytes : Bool) (bytes : List UInt8) (length : ℕ) : ℤ :=
  if length ≥ 4 then safeToInt (getDWord _flipBytes bytes) else -4

/-- `convert(ch, bytes, length)`. -/
def convertChar (_flipBytes : Bool) (ch length : ℤ) : ℤ × List UInt8 :=
  store length (putDWord _flipBytes (UInt32.ofInt ch))

theorem safeToInt_ge (value : UInt32) : -1 ≤ safeToInt value := by
  unfold safeToInt
  split_ifs <;> omega

theorem queryConvert_congr {_flipBytes : Bool} {bytes bytes' : List UInt8} {n : ℕ}
    (h : SameBytes n bytes bytes') :
    queryConvert _flipBytes bytes n = queryConvert _flipBytes bytes' n := by
  unfold queryConvert
  by_cases h₄ : n ≥ 4
  · have hword : getDWord _flipBytes bytes = getDWord _flipBytes bytes' := by
      rw [getDWord, getDWord, h 0 (by omega), h 1 (by omega), h 2 (by omega), h 3 (by omega)]
    rw [if_pos h₄, if_pos h₄, hword]
  · rw [if_neg h₄, if_neg h₄]

theorem queryConvert_asks (_flipBytes : Bool) (bytes : List UInt8) (n : ℕ)
    (h : queryConvert _flipBytes bytes n < -1) :
    n < -queryConvert _flipBytes bytes n ∧
      -queryConvert _flipBytes bytes n ≤ MAX_SEQUENCE_LENGTH := by
  have hmax : MAX_SEQUENCE_LENGTH = 4 := rfl
  have hge := safeToInt_ge (getDWord _flipBytes bytes)
  unfold queryConvert at h ⊢
  split_ifs at h ⊢ <;> omega

end UTF32Encoding

/-- `UTF32Encoding` with the given member `_flipBytes` as a `TextEncoding`. -/
def UTF32Encoding (_flipBytes : Bool) : TextEncoding where
  queryConvert := UTF32Encoding.queryConvert _flipBytes
  convertChar := UTF32Encoding.convertChar _flipBytes
  queryConvert_congr _ := UTF32Encoding.queryConvert_congr
  asks := UTF32Encoding.queryConvert_asks _flipBytes
  writes ch := store_writes (by simp [UTF32Encoding.putDWord, MAX_SEQUENCE_LENGTH])

/-! ### Encodings of one byte -/

namespace Latin1Encoding

/-- `queryConvert(bytes, length)`. -/
def queryConvert (bytes : List UInt8) (length : ℕ) : ℤ :=
  if 1 ≤ length then (byteAt bytes 0).toNat else -1

/-- `convert(ch, bytes, length)`. -/
def convertChar (ch length : ℤ) : ℤ × List UInt8 :=
  if ch ≥ 0 ∧ ch ≤ 255 then store length [UInt8.ofInt ch] else (0, [])

end Latin1Encoding

/-- `Latin1Encoding` as a `TextEncoding`. -/
def Latin1Encoding : TextEncoding where
  queryConvert := Latin1Encoding.queryConvert
  convertChar := Latin1Encoding.convertChar
  queryConvert_congr hn h := by
    rw [Latin1Encoding.queryConvert, Latin1Encoding.queryConvert, h 0 hn]
  asks bytes n h := by
    unfold Latin1Encoding.queryConvert at h
    split_ifs at h <;> omega
  writes ch := by
    unfold Latin1Encoding.convertChar
    split_ifs
    · exact store_writes (by simp [MAX_SEQUENCE_LENGTH])
    · exact ⟨rfl, Nat.zero_le _⟩

namespace ASCIIEncoding

/-- The table `ASCIIEncoding::_charMap`. -/
def _charMap (b : UInt8) : ℤ := if b ≤ 0x7F then b.toNat else -1

/-- `queryConvert(bytes, length)`. -/
def queryConvert (bytes : List UInt8) (length : ℕ) : ℤ :=
  if 1 ≤ length then _charMap (byteAt bytes 0) else -1

/-- `convert(ch, bytes, length)`. -/
def convertChar (ch length : ℤ) : ℤ × List UInt8 :=
  if ch ≥ 0 ∧ ch ≤ 127 then store length [UInt8.ofInt ch] else (0, [])

end ASCIIEncoding

/-- `ASCIIEncoding` as a `TextEncoding`. -/
def ASCIIEncoding : TextEncoding where
  queryConvert := ASCIIEncoding.queryConvert
  convertChar := ASCIIEncoding.convertChar
  queryConvert_congr hn h := by
    rw [ASCIIEncoding.queryConvert, ASCIIEncoding.queryConvert, h 0 hn]
  asks bytes n h := by
    unfold ASCIIEncoding.queryConvert ASCIIEncoding._charMap at h
    split_ifs at h <;> omega
  writes ch := by
    unfold ASCIIEncoding.convertChar
    split_ifs
    · exact store_writes (by simp [MAX_SEQUENCE_LENGTH])
    · exact ⟨rfl, Nat.zero_le _⟩

/-- The encodings for which text is converted here. -/
inductive EncodingName
  | utf8
  | utf16 (_flipBytes : Bool)
  | latin1
  | ascii
deriving DecidableEq, Repr

/-- The encoding that a name stands for. -/
def EncodingName.encoding : EncodingName → TextEncoding
  | utf8 => UTF8Encoding
  | utf16 _flipBytes => UTF16Encoding _flipBytes
  | latin1 => Latin1Encoding
  | ascii => ASCIIEncoding

end Poco.Foundation
