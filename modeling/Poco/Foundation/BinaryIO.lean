import Poco.Lib.Bytes
import Mathlib.Data.List.TakeWhile
import Mathlib.Tactic.IntervalCases

/-! # `BinaryWriter` and `BinaryReader`

The two classes put values into a byte stream and take them out again.  Integers are written as
they lie in memory, after their bytes have been flipped if the byte order of the stream is not
that of the host; strings and vectors are written behind their length.

A value of an integer or floating point type is given by the bits of its object.  The content of
an object before something is read into it matters only where the stream ends too early; an
object without an initial value has the bytes `uninit`.  Output streams do not fail. -/

namespace Poco.Foundation

open Poco.Lib

/-! ### The host -/

/-- What the code depends on: `POCO_ARCH_BIG_ENDIAN`, `POCO_LONG_IS_64_BIT` and the content of memory
that has not been written. -/
structure Host where
  archBigEndian : Bool
  longIs64Bit : Bool
  uninit : ℕ → UInt8

/-- The bytes of an object of `n` bytes in memory. -/
def Host.memory (h : Host) {n : ℕ} (v : BitVec (8 * n)) : List UInt8 :=
  if h.archBigEndian then bigEndian n v.toNat else (bigEndian n v.toNat).reverse

/-- The object of `n` bytes that lies in memory. -/
def Host.object (h : Host) (n : ℕ) (bytes : List UInt8) : BitVec (8 * n) :=
  BitVec.ofNat _ (ofBigEndian (if h.archBigEndian then bytes else bytes.reverse))

theorem Host.length_memory (h : Host) {n : ℕ} (v : BitVec (8 * n)) : (h.memory v).length = n := by
  rw [memory]
  split <;> simp

theorem Host.object_memory (h : Host) {n : ℕ} (v : BitVec (8 * n)) : h.object n (h.memory v) = v := by
  have hlt : v.toNat < 256 ^ n := by
    have := v.isLt
    rwa [Nat.pow_mul] at this
  have hbytes : ofBigEndian (bigEndian n v.toNat) = v.toNat := ofBigEndian_bigEndian hlt
  rw [object, memory]
  cases h.archBigEndian with
  | true => simp [hbytes]
  | false => simp [hbytes]

theorem Host.memory_object (h : Host) (bytes : List UInt8) : h.memory (h.object bytes.length bytes) = bytes := by
  have hnumber : ∀ bs : List UInt8, (BitVec.ofNat (8 * bs.length) (ofBigEndian bs)).toNat = ofBigEndian bs := by
    intro bs
    rw [BitVec.toNat_ofNat, Nat.mod_eq_of_lt]
    rw [Nat.pow_mul]
    exact ofBigEndian_lt bs
  rw [memory, object]
  cases h.archBigEndian with
  | true => simp only [if_true, hnumber, bigEndian_ofBigEndian]
  | false =>
      have hreverse := hnumber bytes.reverse
      have hbytes := bigEndian_ofBigEndian bytes.reverse
      rw [List.length_reverse] at hreverse hbytes
      simp only [Bool.false_eq_true, if_false, hreverse, hbytes, List.reverse_reverse]

namespace ByteOrder

/-- `ByteOrder::flipBytes(UInt16)`. -/
def flipBytes16 (value : BitVec 16) : BitVec 16 :=
  ((value >>> 8) &&& 0x00FF#16) ||| ((value <<< 8) &&& 0xFF00#16)

/-- `ByteOrder::flipBytes(UInt32)`. -/
def flipBytes32 (value : BitVec 32) : BitVec 32 :=
  ((value >>> 24) &&& 0x000000FF#32) ||| ((value >>> 8) &&& 0x0000FF00#32) |||
    ((value <<< 8) &&& 0x00FF0000#32) ||| ((value <<< 24) &&& 0xFF000000#32)

/-- `ByteOrder::flipBytes(UInt64)`. -/
def flipBytes64 (value : BitVec 64) : BitVec 64 :=
  let hi := (value >>> 32).setWidth 32
  let lo := (value &&& 0xFFFFFFFF#64).setWidth 32
  (flipBytes32 hi).setWidth 64 ||| ((flipBytes32 lo).setWidth 64 <<< 32)

/-- `ByteOrder::flipBytes` for the integer types of `n` bytes; signed types are cast to unsigned
ones and back. -/
def flipBytes : (n : ℕ) → BitVec (8 * n) → BitVec (8 * n)
  | 2, value => flipBytes16 value
  | 4, value => flipBytes32 value
  | 8, value => flipBytes64 value
  | _, value => value

theorem flipBytes16_flipBytes16 (v : BitVec 16) : flipBytes16 (flipBytes16 v) = v := by
  ext i hi
  simp only [flipBytes16]
  interval_cases i <;> simp

theorem flipBytes32_flipBytes32 (v : BitVec 32) : flipBytes32 (flipBytes32 v) = v := by
  ext i hi
  simp only [flipBytes32]
  interval_cases i <;> simp

theorem high_join (a b : BitVec 32) :
    ((a.setWidth 64 ||| (b.setWidth 64 <<< 32)) >>> 32).setWidth 32 = b := by
  ext i hi
  interval_cases i <;> simp

theorem low_join (a b : BitVec 32) :
    ((a.setWidth 64 ||| (b.setWidth 64 <<< 32)) &&& 0xFFFFFFFF#64).setWidth 32 = a := by
  ext i hi
  interval_cases i <;> simp

theorem join_low_high (v : BitVec 64) :
    ((v &&& 0xFFFFFFFF#64).setWidth 32).setWidth 64 ||| (((v >>> 32).setWidth 32).setWidth 64 <<< 32) =
      v := by
  ext i hi
  interval_cases i <;> simp

theorem flipBytes64_flipBytes64 (v : BitVec 64) : flipBytes64 (flipBytes64 v) = v := by
  simp only [flipBytes64, high_join, low_join, flipBytes32_flipBytes32, join_low_high]

theorem flipBytes_flipBytes : (n : ℕ) → (v : BitVec (8 * n)) → flipBytes n (flipBytes n v) = v
  | 2, v => flipBytes16_flipBytes16 v
  | 4, v => flipBytes32_flipBytes32 v
  | 8, v => flipBytes64_flipBytes64 v
  | 0, _ | 1, _ | 3, _ | 5, _ | 6, _ | 7, _ | _ + 9, _ => rfl

end ByteOrder

/-! ### Types and streams -/

/-- The arithmetic types that are written as they lie in memory. -/
inductive Scalar
  | char
  | unsignedChar
  | signedChar
  | short
  | unsignedShort
  | int
  | unsignedInt
  | long
  | unsignedLong
  | longLong
  | unsignedLongLong
  | float
  | double
deriving DecidableEq, Repr

/-- `sizeof`. -/
def Scalar.size (h : Host) : Scalar → ℕ
  | char | unsignedChar | signedChar => 1
  | short | unsignedShort => 2
  | int | unsignedInt | float => 4
  | long | unsignedLong => if h.longIs64Bit then 8 else 4
  | longLong | unsignedLongLong | double => 8

/-- The types with operators `<<` and `>>`. -/
inductive Ty
  | bool
  | scalar (t : Scalar)
  | string
  | vector (t : Ty)
deriving DecidableEq, Repr

/-- The values of a type. -/
def Ty.Val (h : Host) : Ty → Type
  | bool => Bool
  | scalar t => BitVec (8 * t.size h)
  | string => List UInt8
  | vector t => List (t.Val h)

/-- The content of a variable that has been declared without an initial value. -/
def Ty.init (h : Host) : (t : Ty) → t.Val h
  | bool => h.uninit 0 != 0
  | scalar t => h.object (t.size h) ((List.range (t.size h)).map h.uninit)
  | string => ([] : List UInt8)
  | vector t => ([] : List (t.Val h))

/-- `StreamByteOrder`. -/
inductive StreamByteOrder
  | nativeByteOrder
  | bigEndianByteOrder
  | littleEndianByteOrder
  | unspecifiedByteOrder
deriving DecidableEq, Repr

/-- Whether the bytes of a stream are flipped on a host. -/
def flipsBytes (h : Host) (byteOrder : StreamByteOrder) : Bool :=
  if h.archBigEndian then byteOrder == .littleEndianByteOrder else byteOrder == .bigEndianByteOrder

/-- What is left of an input stream, and `good()`. -/
structure IStream where
  rest : List UInt8
  good : Bool
deriving DecidableEq, Repr

/-- `istream::read` over an object in memory: the bytes that are there replace those of the object. -/
def IStream.read (s : IStream) (old : List UInt8) : List UInt8 × IStream :=
  if s.good then
    if old.length ≤ s.rest.length then (s.rest.take old.length, ⟨s.rest.drop old.length, true⟩)
    else (s.rest ++ old.drop s.rest.length, ⟨[], false⟩)
  else (old, s)

/-! ### `BinaryWriter` -/

/-- The members of `BinaryWriter`; the stream is given by the bytes written to it. -/
structure BinaryWriter where
  _ostr : List UInt8
  _flipBytes : Bool
  _pTextConverter : Option (List UInt8 → List UInt8)

namespace BinaryWriter

/-- `BinaryWriter(ostr, byteOrder)`. -/
def create (h : Host) (ostr : List UInt8) (byteOrder : StreamByteOrder) : BinaryWriter :=
  { _ostr := ostr, _flipBytes := flipsBytes h byteOrder, _pTextConverter := none }

/-- `ostream::write`. -/
def write (w : BinaryWriter) (bytes : List UInt8) : BinaryWriter :=
  { w with _ostr := w._ostr ++ bytes }

/-- `operator << (bool)`. -/
def putBool (w : BinaryWriter) (value : Bool) : BinaryWriter := w.write [if value then 1 else 0]

/-- `operator <<` for the types of one byte. -/
def putByte (h : Host) (w : BinaryWriter) {n : ℕ} (value : BitVec (8 * n)) : BinaryWriter :=
  w.write (h.memory value)

/-- `operator <<` for the other integer types. -/
def putInteger (h : Host) (w : BinaryWriter) {n : ℕ} (value : BitVec (8 * n)) : BinaryWriter :=
  if w._flipBytes then w.write (h.memory (ByteOrder.flipBytes n value)) else w.write (h.memory value)

/-- `operator <<` for the floating point types: the bytes are written from the last one on. -/
def putFloat (h : Host) (w : BinaryWriter) {n : ℕ} (value : BitVec (8 * n)) : BinaryWriter :=
  if w._flipBytes then (h.memory value).reverse.foldl (fun w b => w.write [b]) w
  else w.write (h.memory value)

/-- `operator <<` for an arithmetic type. -/
def putScalar (h : Host) (w : BinaryWriter) (t : Scalar) (value : BitVec (8 * t.size h)) :
    BinaryWriter :=
  match t with
  | .char | .unsignedChar | .signedChar => w.putByte h value
  | .float | .double => w.putFloat h value
  | .short | .unsignedShort | .int | .unsignedInt | .long | .unsignedLong | .longLong
  | .unsignedLongLong => w.putInteger h value

/-- The loop of `write7BitEncoded`; a round takes seven bits away, so that as many rounds as bits are
enough. -/
def sevenBits {n : ℕ} : ℕ → BitVec n → List UInt8
  | 0, _ => []
  | fuel + 1, value =>
    let c := UInt8.ofBitVec (value.setWidth 8) &&& 0x7F
    let value := value >>> 7
    if value ≠ 0#n then (c ||| 0x80) :: sevenBits fuel value else [c]

/-- `write7BitEncoded` for `UInt32` and `UInt64`. -/
def write7BitEncoded {n : ℕ} (w : BinaryWriter) (value : BitVec n) : BinaryWriter :=
  w.write (sevenBits n value)

/-- `operator << (const std::string&)`. -/
def putString (w : BinaryWriter) (value : List UInt8) : BinaryWriter :=
  match w._pTextConverter with
  | some convert =>
    let converted := convert value
    let length := BitVec.ofNat 32 converted.length
    (w.write7BitEncoded length).write (converted.take length.toNat)
  | none =>
    let length := BitVec.ofNat 32 value.length
    (w.write7BitEncoded length).write (value.take length.toNat)

/-- `operator <<`. -/
def put (h : Host) : (t : Ty) → BinaryWriter → t.Val h → BinaryWriter
  | .bool, w, value => w.putBool value
  | .scalar t, w, value => w.putScalar h t value
  | .string, w, value => w.putString value
  | .vector t, w, (value : List (t.Val h)) =>
    let size := BitVec.ofNat 32 value.length
    value.foldl (put h t) (w.putScalar h .unsignedInt size)

/-- `writeRaw`. -/
def writeRaw (w : BinaryWriter) (rawData : List UInt8) : BinaryWriter := w.write rawData

/-- `DEFAULT_MAX_CSTR_LENGTH`. -/
def DEFAULT_MAX_CSTR_LENGTH : ℕ := 1024

/-- `writeCString`: a string up to its first zero, or up to `maxLength`. -/
def writeCString (w : BinaryWriter) (cString : List UInt8) (maxLength : ℕ) : BinaryWriter :=
  (w.writeRaw ((cString.take maxLength).takeWhile (· != 0))).write [0]

/-- `writeBOM`. -/
def writeBOM (h : Host) (w : BinaryWriter) : BinaryWriter :=
  let value := 0xFEFF#16
  w.write (h.memory (n := 2) (if w._flipBytes then ByteOrder.flipBytes16 value else value))

end BinaryWriter

/-! ### `BinaryReader` -/

/-- The members of `BinaryReader`. -/
structure BinaryReader where
  _istr : IStream
  _flipBytes : Bool
  _pTextConverter : Option (List UInt8 → List UInt8)

namespace BinaryReader

/-- `BinaryReader(istr, byteOrder)`. -/
def create (h : Host) (istr : IStream) (byteOrder : StreamByteOrder) : BinaryReader :=
  { _istr := istr, _flipBytes := flipsBytes h byteOrder, _pTextConverter := none }

/-- `_istr.read` over an object. -/
def read (r : BinaryReader) (old : List UInt8) : List UInt8 × BinaryReader :=
  let (bytes, istr) := r._istr.read old
  (bytes, { r with _istr := istr })

/-- `operator >> (bool&)`. -/
def getBool (r : BinaryReader) (value : Bool) : Bool × BinaryReader :=
  let (bytes, r) := r.read [if value then 1 else 0]
  (bytes != [0], r)

/-- `operator >>` for the types of one byte. -/
def getByte (h : Host) (r : BinaryReader) {n : ℕ} (value : BitVec (8 * n)) :
    BitVec (8 * n) × BinaryReader :=
  let (bytes, r) := r.read (h.memory value)
  (h.object n bytes, r)

/-- `operator >>` for the other integer types. -/
def getInteger (h : Host) (r : BinaryReader) {n : ℕ} (value : BitVec (8 * n)) :
    BitVec (8 * n) × BinaryReader :=
  let (bytes, r) := r.read (h.memory value)
  let value := h.object n bytes
  (if r._flipBytes then ByteOrder.flipBytes n value else value, r)

/-- Bytes are read one by one, each over an old one. -/
def readEach (r : BinaryReader) : List UInt8 → List UInt8 × BinaryReader
  | [] => ([], r)
  | b :: old =>
    let (bytes, r) := r.read [b]
    let (rest, r) := r.readEach old
    (bytes ++ rest, r)

/-- `operator >>` for the floating point types: the bytes are read from the last one on. -/
def getFloat (h : Host) (r : BinaryReader) {n : ℕ} (value : BitVec (8 * n)) :
    BitVec (8 * n) × BinaryReader :=
  if r._flipBytes then
    let (bytes, r) := r.readEach (h.memory value).reverse
    (h.object n bytes.reverse, r)
  else
    let (bytes, r) := r.read (h.memory value)
    (h.object n bytes, r)

/-- `operator >>` for an arithmetic type. -/
def getScalar (h : Host) (t : Scalar) (r : BinaryReader) (value : BitVec (8 * t.size h)) :
    BitVec (8 * t.size h) × BinaryReader :=
  match t with
  | .char | .unsignedChar | .signedChar => r.getByte h value
  | .float | .double => r.getFloat h value
  | .short | .unsignedShort | .int | .unsignedInt | .long | .unsignedLong | .longLong
  | .unsignedLongLong => r.getInteger h value

/-- The loop of `read7BitEncoded` over a stream that is good; at its end the letter stays zero. -/
def sevenBits {n : ℕ} (value : BitVec n) (s : ℕ) : List UInt8 → BitVec n × IStream
  | [] => (value, ⟨[], false⟩)
  | c :: rest =>
    let x := (c &&& 0x7F).toBitVec.setWidth n
    let value := value + (x <<< s)
    if c &&& 0x80 ≠ 0 then sevenBits value (s + 7) rest else (value, ⟨rest, true⟩)

/-- `read7BitEncoded` for `UInt32` and `UInt64`. -/
def read7BitEncoded (n : ℕ) (r : BinaryReader) : BitVec n × BinaryReader :=
  if r._istr.good then
    let (value, istr) := sevenBits 0#n 0 r._istr.rest
    (value, { r with _istr := istr })
  else (0#n, r)

/-- `size` letters are appended, as long as the stream is good. -/
def getChars (h : Host) : ℕ → BinaryReader → List UInt8 → List UInt8 × BinaryReader
  | 0, r, value => (value, r)
  | size + 1, r, value =>
    let (c, r) := r.read [h.uninit 0]
    if r._istr.good then getChars h size r (value ++ c) else (value, r)

/-- `operator >> (std::string&)`. -/
def getString (h : Host) (r : BinaryReader) : List UInt8 × BinaryReader :=
  let (size, r) := r.read7BitEncoded 32
  if !r._istr.good then ([], r)
  else
    let (value, r) := getChars h size.toNat r []
    match r._pTextConverter with
    | some convert => (convert value, r)
    | none => (value, r)

/-- The loop over the elements of a vector, with one variable for all of them. -/
def getElements {α : Type} (get : BinaryReader → α → α × BinaryReader) :
    ℕ → BinaryReader → α → List α → List α × BinaryReader
  | 0, r, _, value => (value, r)
  | size + 1, r, elem, value =>
    if r._istr.good then
      let (elem, r) := get r elem
      getElements get size r elem (value ++ [elem])
    else (value, r)

/-- `operator >>`. -/
def get (h : Host) : (t : Ty) → BinaryReader → t.Val h → t.Val h × BinaryReader
  | .bool, r, value => r.getBool value
  | .scalar t, r, value => r.getScalar h t value
  | .string, r, _ => r.getString h
  | .vector t, r, (value : List (t.Val h)) =>
    let (size, r) := r.getScalar h .unsignedInt (0 : BitVec 32)
    if !r._istr.good then (value, r)
    else getElements (get h t) (BitVec.toNat (w := 32) size) r (t.init h) value

/-- `readRaw(length, value)`. -/
def readRaw (h : Host) (length : ℕ) (r : BinaryReader) : List UInt8 × BinaryReader :=
  getChars h length r []

/-- The loop of `readCString` over a stream that is good. -/
def takeCString (value : List UInt8) : List UInt8 → List UInt8 × IStream
  | [] => (value, ⟨[], false⟩)
  | c :: rest => if c = 0 then (value, ⟨rest, true⟩) else takeCString (value ++ [c]) rest

/-- `readCString`. -/
def readCString (r : BinaryReader) : List UInt8 × BinaryReader :=
  if r._istr.good then
    let (value, istr) := takeCString [] r._istr.rest
    (value, { r with _istr := istr })
  else ([], r)

/-- `readBOM`. -/
def readBOM (h : Host) (r : BinaryReader) : BinaryReader :=
  let (bom, r) := r.read [h.uninit 0, h.uninit 1]
  { r with _flipBytes := h.object 2 bom != 0xFEFF#16 }

end BinaryReader

/-! ### What is written is read back -/

/-- An operation of the writer appends `bytes`. -/
def Writes (flip : Bool) (put : BinaryWriter → BinaryWriter) (bytes : List UInt8) : Prop :=
  ∀ ostr, put ⟨ostr, flip, none⟩ = ⟨ostr ++ bytes, flip, none⟩

/-- An operation of the reader takes `bytes` from the stream and gives `a`. -/
def Takes {α : Type} (flip : Bool) (bytes : List UInt8) (get : BinaryReader → α × BinaryReader)
    (a : α) : Prop :=
  ∀ rest, get ⟨⟨bytes ++ rest, true⟩, flip, none⟩ = (a, ⟨⟨rest, true⟩, flip, none⟩)

/-- The reader takes exactly what the writer appends, and gives `a`. -/
def Carries {α : Type} (flip : Bool) (put : BinaryWriter → BinaryWriter)
    (get : BinaryReader → α × BinaryReader) (a : α) : Prop :=
  ∃ bytes, Writes flip put bytes ∧ Takes flip bytes get a

section

variable {flip : Bool} {α β : Type}

theorem Writes.append {put put' : BinaryWriter → BinaryWriter} {bytes bytes' : List UInt8}
    (h : Writes flip put bytes) (h' : Writes flip put' bytes') :
    Writes flip (fun w => put' (put w)) (bytes ++ bytes') := by
  intro ostr
  simp only [h ostr, h' (ostr ++ bytes), List.append_assoc]

theorem Carries.bind {put put' : BinaryWriter → BinaryWriter} {get : BinaryReader → α × BinaryReader}
    {get' : α → BinaryReader → β × BinaryReader} {a : α} {b : β} (h : Carries flip put get a)
    (h' : Carries flip put' (get' a) b) :
    Carries flip (fun w => put' (put w)) (fun r => get' (get r).1 (get r).2) b := by
  obtain ⟨bytes, hw, hr⟩ := h
  obtain ⟨bytes', hw', hr'⟩ := h'
  refine ⟨bytes ++ bytes', hw.append hw', ?_⟩
  intro rest
  simp only [List.append_assoc, hr (bytes' ++ rest)]
  exact hr' rest

theorem BinaryReader.length_read (r : BinaryReader) (old : List UInt8) : (r.read old).1.length = old.length := by
  simp only [BinaryReader.read, IStream.read]
  split_ifs with hgood hle
  · exact List.length_take_of_le hle
  · rw [List.length_append, List.length_drop]
    omega
  · rfl

theorem read_eq (flip : Bool) {bytes old : List UInt8} (rest : List UInt8)
    (h : old.length = bytes.length) :
    BinaryReader.read ⟨⟨bytes ++ rest, true⟩, flip, none⟩ old =
      (bytes, ⟨⟨rest, true⟩, flip, none⟩) := by
  simp [BinaryReader.read, IStream.read, h]

theorem read_one (flip : Bool) (a b : UInt8) (rest : List UInt8) :
    BinaryReader.read ⟨⟨b :: rest, true⟩, flip, none⟩ [a] = ([b], ⟨⟨rest, true⟩, flip, none⟩) := by
  simp [BinaryReader.read, IStream.read]

theorem length_memory_eq (h : Host) {n : ℕ} (v v' : BitVec (8 * n)) :
    (h.memory v).length = (h.memory v').length := by
  rw [h.length_memory, h.length_memory]

theorem carries_bool (flip : Bool) (old value : Bool) :
    Carries flip (fun w => w.putBool value) (fun r => r.getBool old) value := by
  refine ⟨[if value then 1 else 0], fun _ => rfl, ?_⟩
  intro rest
  simp only [BinaryReader.getBool, List.singleton_append, read_one]
  cases value <;> rfl

theorem carries_byte (flip : Bool) (h : Host) {n : ℕ} (old value : BitVec (8 * n)) :
    Carries flip (fun w => w.putByte h value) (fun r => r.getByte h old) value := by
  refine ⟨h.memory value, fun _ => rfl, ?_⟩
  intro rest
  simp only [BinaryReader.getByte, read_eq flip rest (length_memory_eq h old value),
    Host.object_memory]

theorem carries_integer (flip : Bool) (h : Host) {n : ℕ} (old value : BitVec (8 * n)) :
    Carries flip (fun w => w.putInteger h value) (fun r => r.getInteger h old) value := by
  cases flip with
  | true =>
      refine ⟨h.memory (ByteOrder.flipBytes n value), fun _ => rfl, ?_⟩
      intro rest
      simp only [BinaryReader.getInteger, read_eq true rest (length_memory_eq h old _),
        Host.object_memory, if_true, ByteOrder.flipBytes_flipBytes]
  | false =>
      refine ⟨h.memory value, fun _ => rfl, ?_⟩
      intro rest
      simp only [BinaryReader.getInteger, read_eq false rest (length_memory_eq h old value),
        Host.object_memory, Bool.false_eq_true, if_false]

theorem foldl_write (flip : Bool) (bytes ostr : List UInt8) :
    bytes.foldl (fun w b => w.write [b]) (⟨ostr, flip, none⟩ : BinaryWriter) =
      ⟨ostr ++ bytes, flip, none⟩ := by
  induction bytes generalizing ostr with
  | nil => simp
  | cons b bytes ih =>
      rw [List.foldl_cons, BinaryWriter.write, ih]
      simp

theorem readEach_eq (flip : Bool) {bytes old : List UInt8} (rest : List UInt8)
    (h : old.length = bytes.length) :
    BinaryReader.readEach ⟨⟨bytes ++ rest, true⟩, flip, none⟩ old =
      (bytes, ⟨⟨rest, true⟩, flip, none⟩) := by
  induction old generalizing bytes with
  | nil =>
      obtain rfl : bytes = [] := by simpa using h.symm
      rfl
  | cons a old ih =>
      obtain ⟨b, bytes, rfl⟩ := List.exists_cons_of_length_pos (l := bytes) (by simp [← h])
      rw [List.cons_append, BinaryReader.readEach, read_one]
      simp only [ih (by simpa using h), List.singleton_append]

theorem carries_float (flip : Bool) (h : Host) {n : ℕ} (old value : BitVec (8 * n)) :
    Carries flip (fun w => w.putFloat h value) (fun r => r.getFloat h old) value := by
  cases flip with
  | true =>
      refine ⟨(h.memory value).reverse, fun ostr => foldl_write true _ ostr, ?_⟩
      intro rest
      have hlen : (h.memory old).reverse.length = (h.memory value).reverse.length := by
        simp [Host.length_memory]
      simp only [BinaryReader.getFloat, if_true, readEach_eq true rest hlen, List.reverse_reverse,
        Host.object_memory]
  | false =>
      refine ⟨h.memory value, fun _ => rfl, ?_⟩
      intro rest
      simp only [BinaryReader.getFloat, Bool.false_eq_true, if_false,
        read_eq false rest (length_memory_eq h old value), Host.object_memory]

theorem carries_scalar (flip : Bool) (h : Host) (t : Scalar) (old value : BitVec (8 * t.size h)) :
    Carries flip (fun w => w.putScalar h t value) (fun r => r.getScalar h t old) value := by
  cases t with
  | char => exact carries_byte flip h old value
  | unsignedChar => exact carries_byte flip h old value
  | signedChar => exact carries_byte flip h old value
  | float => exact carries_float flip h old value
  | double => exact carries_float flip h old value
  | short => exact carries_integer flip h old value
  | unsignedShort => exact carries_integer flip h old value
  | int => exact carries_integer flip h old value
  | unsignedInt => exact carries_integer flip h old value
  | long => exact carries_integer flip h old value
  | unsignedLong => exact carries_integer flip h old value
  | longLong => exact carries_integer flip h old value
  | unsignedLongLong => exact carries_integer flip h old value

/-! ### Numbers of variable length, strings and vectors -/

theorem last_byte (b : UInt8) : (b &&& 0x7F) &&& 0x7F = b &&& 0x7F ∧ (b &&& 0x7F) &&& 0x80 = 0 := by
  rw [UInt8.and_assoc, UInt8.and_assoc]
  exact ⟨rfl, UInt8.and_zero⟩

theorem next_byte (b : UInt8) :
    ((b &&& 0x7F) ||| 0x80) &&& 0x7F = b &&& 0x7F ∧ ((b &&& 0x7F) ||| 0x80) &&& 0x80 ≠ 0 := by
  have hor : ((b &&& 0x7F) ||| 0x80) &&& 0x80 = 0x80 := by
    apply UInt8.toBitVec_inj.mp
    ext i hi
    interval_cases i <;> simp
  constructor
  · apply UInt8.toBitVec_inj.mp
    ext i hi
    interval_cases i <;> simp
  · rw [hor]
    decide

/-- The bits of a byte and those that are left make up the number. -/
theorem low_add_high {n : ℕ} (value : BitVec n) :
    (UInt8.ofBitVec (value.setWidth 8) &&& 0x7F).toBitVec.setWidth n + (value >>> 7) <<< 7 = value := by
  apply BitVec.eq_of_toNat_eq
  have hlow : ((UInt8.ofBitVec (value.setWidth 8) &&& 0x7F).toBitVec.setWidth n).toNat =
      value.toNat % 128 := by
    have hand : (UInt8.ofBitVec (value.setWidth 8) &&& 0x7F).toBitVec.toNat =
        value.toNat % 2 ^ 8 % 2 ^ 7 := by
      rw [UInt8.toBitVec_and, BitVec.toNat_and, ← Nat.and_two_pow_sub_one_eq_mod _ 7,
        ← BitVec.toNat_setWidth]
      rfl
    have hlt := value.isLt
    rw [BitVec.toNat_setWidth, hand, Nat.mod_eq_of_lt (by omega)]
    omega
  have hlt := value.isLt
  rw [BitVec.toNat_add, hlow, BitVec.toNat_shiftLeft, BitVec.toNat_ushiftRight,
    Nat.shiftRight_eq_div_pow, Nat.shiftLeft_eq]
  have hhigh : value.toNat / 2 ^ 7 * 2 ^ 7 < 2 ^ n := by omega
  rw [Nat.mod_eq_of_lt hhigh, Nat.mod_eq_of_lt (by omega)]
  omega

theorem sevenBits_last {n : ℕ} (fuel s : ℕ) (acc value : BitVec n) (rest : List UInt8)
    (h : value >>> 7 = 0#n) :
    BinaryReader.sevenBits acc s (BinaryWriter.sevenBits (fuel + 1) value ++ rest) =
      (acc + (value <<< s), ⟨rest, true⟩) := by
  obtain ⟨hlow, hbit⟩ := last_byte (UInt8.ofBitVec (value.setWidth 8))
  have hvalue := low_add_high value
  rw [h, BitVec.zero_shiftLeft, BitVec.add_zero] at hvalue
  simp only [BinaryWriter.sevenBits, h, ne_eq, not_true_eq_false, if_false, List.singleton_append,
    BinaryReader.sevenBits, hlow, hbit, hvalue]

/-- The reader's loop takes what the writer's loop gives. -/
theorem sevenBits_sevenBits {n : ℕ} (fuel s : ℕ) (acc value : BitVec n) (rest : List UInt8)
    (h : value.toNat < 128 ^ (fuel + 1)) :
    BinaryReader.sevenBits acc s (BinaryWriter.sevenBits (fuel + 1) value ++ rest) =
      (acc + (value <<< s), ⟨rest, true⟩) := by
  have hshift : (value >>> 7).toNat = value.toNat / 128 := by
    rw [BitVec.toNat_ushiftRight, Nat.shiftRight_eq_div_pow]
  induction fuel generalizing s acc value with
  | zero =>
      apply sevenBits_last
      apply BitVec.eq_of_toNat_eq
      rw [hshift, BitVec.toNat_zero]
      omega
  | succ fuel ih =>
      by_cases hzero : value >>> 7 = 0#n
      · exact sevenBits_last _ s acc value rest hzero
      · obtain ⟨hlow, hbit⟩ := next_byte (UInt8.ofBitVec (value.setWidth 8))
        have hlt : (value >>> 7).toNat < 128 ^ (fuel + 1) := by
          rw [hshift]
          apply Nat.div_lt_of_lt_mul
          rwa [pow_succ, Nat.mul_comm] at h
        have hsum : ((UInt8.ofBitVec (value.setWidth 8) &&& 0x7F).toBitVec.setWidth n +
            (value >>> 7) <<< 7) <<< s = value <<< s := by rw [low_add_high]
        rw [BitVec.shiftLeft_add_distrib, ← BitVec.shiftLeft_add] at hsum
        rw [BinaryWriter.sevenBits]
        simp only [ne_eq, hzero, not_false_eq_true, if_true, List.cons_append,
          BinaryReader.sevenBits, hlow, hbit]
        rw [ih _ _ _ hlt (by rw [BitVec.toNat_ushiftRight, Nat.shiftRight_eq_div_pow]),
          BitVec.add_assoc, Nat.add_comm s 7, hsum]

theorem carries_sevenBits (flip : Bool) {n : ℕ} (hn : n ≠ 0) (value : BitVec n) :
    Carries flip (fun w => w.write7BitEncoded value) (fun r => r.read7BitEncoded n) value := by
  refine ⟨BinaryWriter.sevenBits n value, fun _ => rfl, ?_⟩
  intro rest
  obtain ⟨m, rfl⟩ := Nat.exists_eq_succ_of_ne_zero hn
  have hlt : value.toNat < 128 ^ (m + 1) :=
    Nat.lt_of_lt_of_le value.isLt (Nat.pow_le_pow_left (by decide) _)
  have h := sevenBits_sevenBits m 0 0#(m + 1) value rest hlt
  simp only [BinaryReader.read7BitEncoded, if_true, Nat.succ_eq_add_one, h]
  simp

theorem getChars_eq (h : Host) (flip : Bool) (bytes value rest : List UInt8) :
    BinaryReader.getChars h bytes.length ⟨⟨bytes ++ rest, true⟩, flip, none⟩ value =
      (value ++ bytes, ⟨⟨rest, true⟩, flip, none⟩) := by
  induction bytes generalizing value with
  | nil => simp [BinaryReader.getChars]
  | cons b bytes ih =>
      simp only [List.length_cons, List.cons_append, BinaryReader.getChars, read_one, if_true, ih]
      simp

theorem writes_cstring (flip : Bool) {s : List UInt8} (hs : 0 ∉ s) {maxLength : ℕ} (hlen : s.length ≤ maxLength) :
    Writes flip (fun w => w.writeCString s maxLength) (s ++ [0]) := by
  intro ostr
  have hall : s.takeWhile (· != 0) = s := by
    rw [List.takeWhile_eq_self_iff]
    intro c hc
    exact bne_iff_ne.mpr fun hzero => hs (hzero ▸ hc)
  simp only [BinaryWriter.writeCString, List.take_of_length_le hlen, BinaryWriter.writeRaw, BinaryWriter.write, hall,
    List.append_assoc]

theorem takeCString_eq {s : List UInt8} (hs : 0 ∉ s) (value rest : List UInt8) :
    BinaryReader.takeCString value (s ++ 0 :: rest) = (value ++ s, ⟨rest, true⟩) := by
  induction s generalizing value with
  | nil => rw [List.nil_append, BinaryReader.takeCString, if_pos rfl, List.append_nil]
  | cons c s ih =>
      rw [List.mem_cons, not_or] at hs
      rw [List.cons_append, BinaryReader.takeCString, if_neg (Ne.symm hs.1), ih hs.2, List.append_assoc,
        List.singleton_append]

theorem takes_cstring (flip : Bool) {s : List UInt8} (hs : 0 ∉ s) :
    Takes flip (s ++ [0]) BinaryReader.readCString s := by
  intro rest
  simp only [BinaryReader.readCString, if_true, List.append_assoc, List.singleton_append, takeCString_eq hs,
    List.nil_append]

theorem carries_raw (flip : Bool) (h : Host) (bytes : List UInt8) :
    Carries flip (fun w => w.writeRaw bytes) (fun r => r.readRaw h bytes.length) bytes :=
  ⟨bytes, fun _ => rfl, fun rest => getChars_eq h flip bytes [] rest⟩

theorem carries_string (flip : Bool) (h : Host) {value : List UInt8} (hlen : value.length < 2 ^ 32) :
    Carries flip (fun w => w.putString value) (fun r => r.getString h) value := by
  have hsize : (BitVec.ofNat 32 value.length).toNat = value.length := by
    rw [BitVec.toNat_ofNat, Nat.mod_eq_of_lt hlen]
  obtain ⟨bytes, hw, hr⟩ := carries_sevenBits flip (by decide) (BitVec.ofNat 32 value.length)
  refine ⟨bytes ++ value, ?_, ?_⟩
  · intro ostr
    have hw := hw ostr
    simp only [BinaryWriter.putString] at hw ⊢
    rw [hw, hsize, List.take_length, BinaryWriter.write, List.append_assoc]
  · intro rest
    have hr := hr (value ++ rest)
    have hchars := getChars_eq h flip value [] rest
    simp only [BinaryReader.getString, List.append_assoc, hr, Bool.not_true, Bool.false_eq_true,
      if_false, hsize, hchars, List.nil_append]

/-- The elements of a vector, if every one of them is read back whatever the variable held. -/
theorem carries_elements (flip : Bool) {put : BinaryWriter → α → BinaryWriter}
    {get : BinaryReader → α → α × BinaryReader} (es : List α)
    (hes : ∀ e ∈ es, ∀ old, Carries flip (fun w => put w e) (fun r => get r old) e) (elem : α)
    (value : List α) :
    Carries flip (fun w => es.foldl put w)
      (fun r => BinaryReader.getElements get es.length r elem value) (value ++ es) := by
  induction es generalizing elem value with
  | nil => exact ⟨[], fun _ => by simp, fun _ => by simp [BinaryReader.getElements]⟩
  | cons e es ih =>
      obtain ⟨bytes, hw, hr⟩ := hes e List.mem_cons_self elem
      obtain ⟨bytes', hw', hr'⟩ := ih (fun e he => hes e (List.mem_cons_of_mem _ he)) e (value ++ [e])
      refine ⟨bytes ++ bytes', hw.append hw', ?_⟩
      intro rest
      have hr := hr (bytes' ++ rest)
      have hr' := hr' rest
      simp only [List.length_cons, List.append_assoc, BinaryReader.getElements, if_true, hr, hr']
      simp

end

/-! ### Sequences of values -/

/-- The lengths of strings and vectors are 32-bit numbers, and no element of a vector is a vector. -/
def Ty.Fits (h : Host) : (t : Ty) → t.Val h → Prop
  | .bool, _ => True
  | .scalar _, _ => True
  | .string, (value : List UInt8) => value.length < 2 ^ 32
  | .vector t, (value : List (t.Val h)) =>
    value.length < 2 ^ 32 ∧ (∀ t', t ≠ .vector t') ∧ ∀ e ∈ value, t.Fits h e

theorem carries_plain (flip : Bool) (h : Host) {t : Ty} (ht : ∀ t', t ≠ .vector t') {value : t.Val h}
    (hfit : t.Fits h value) (old : t.Val h) :
    Carries flip (fun w => w.put h t value) (fun r => r.get h t old) value := by
  cases t with
  | bool => exact carries_bool flip old value
  | scalar t => exact carries_scalar flip h t old value
  | string => exact carries_string flip h hfit
  | vector t => exact absurd rfl (ht t)

theorem carries_vector (flip : Bool) (h : Host) {t : Ty} {value : List (t.Val h)}
    (hlen : value.length < 2 ^ 32)
    (hes : ∀ e ∈ value, ∀ old, Carries flip (fun w => w.put h t e) (fun r => r.get h t old) e) :
    Carries flip (fun w => w.put h (.vector t) value) (fun r => r.get h (.vector t) []) value := by
  have hsize : (BitVec.ofNat 32 value.length).toNat = value.length := by
    rw [BitVec.toNat_ofNat, Nat.mod_eq_of_lt hlen]
  obtain ⟨bytes, hw, hr⟩ :=
    carries_scalar flip h .unsignedInt (0 : BitVec 32) (BitVec.ofNat 32 value.length)
  obtain ⟨bytes', hw', hr'⟩ := carries_elements flip value hes (t.init h) []
  refine ⟨bytes ++ bytes', ?_, ?_⟩
  · intro ostr
    have hw := hw ostr
    have hw' := hw' (ostr ++ bytes)
    simp only [BinaryWriter.put] at hw hw' ⊢
    rw [hw, hw', List.append_assoc]
  · intro rest
    have hr := hr (bytes' ++ rest)
    have hr' := hr' rest
    simp only [BinaryReader.get] at hr hr' ⊢
    rw [List.append_assoc, hr]
    simp only [Bool.not_true, Bool.false_eq_true]
    rw [hsize]
    exact hr'

theorem carries_value (flip : Bool) (h : Host) {t : Ty} {value : t.Val h} (hfit : t.Fits h value) :
    Carries flip (fun w => w.put h t value) (fun r => r.get h t (t.init h)) value := by
  cases t with
  | bool => exact carries_bool flip _ value
  | scalar t => exact carries_scalar flip h t _ value
  | string => exact carries_string flip h hfit
  | vector t =>
      obtain ⟨hlen, ht, hes⟩ := hfit
      exact carries_vector flip h hlen fun e he old => carries_plain flip h ht (hes e he) old

/-- What one operation of the writer is given. -/
inductive Item (h : Host)
  | value (t : Ty) (v : t.Val h)
  | sevenBit32 (v : BitVec 32)
  | sevenBit64 (v : BitVec 64)
  | raw (bytes : List UInt8)

/-- The operation of the reader that matches an operation of the writer. -/
inductive Form
  | value (t : Ty)
  | sevenBit32
  | sevenBit64
  | raw (length : ℕ)
deriving DecidableEq, Repr

variable {h : Host}

def Item.form : Item h → Form
  | .value t _ => .value t
  | .sevenBit32 _ => .sevenBit32
  | .sevenBit64 _ => .sevenBit64
  | .raw bytes => .raw bytes.length

/-- The item is written. -/
def BinaryWriter.putItem (w : BinaryWriter) : Item h → BinaryWriter
  | .value t v => w.put h t v
  | .sevenBit32 v => w.write7BitEncoded v
  | .sevenBit64 v => w.write7BitEncoded v
  | .raw bytes => w.writeRaw bytes

/-- The matching item is read into a new variable. -/
def BinaryReader.getItem (h : Host) (r : BinaryReader) : Form → Item h × BinaryReader
  | .value t => let (v, r) := r.get h t (t.init h); (.value t v, r)
  | .sevenBit32 => let (v, r) := r.read7BitEncoded 32; (.sevenBit32 v, r)
  | .sevenBit64 => let (v, r) := r.read7BitEncoded 64; (.sevenBit64 v, r)
  | .raw length => let (bytes, r) := r.readRaw h length; (.raw bytes, r)

/-- Items are read one after another. -/
def BinaryReader.getItems (h : Host) : List Form → BinaryReader → List (Item h) × BinaryReader
  | [], r => ([], r)
  | f :: fs, r =>
    let (i, r) := r.getItem h f
    let (is, r) := BinaryReader.getItems h fs r
    (i :: is, r)

/-- The lengths in the item are 32-bit numbers. -/
def Item.Fits : Item h → Prop
  | .value t v => t.Fits h v
  | _ => True

theorem carries_item (flip : Bool) {i : Item h} (hfit : i.Fits) :
    Carries flip (fun w => w.putItem i) (fun r => r.getItem h i.form) i := by
  cases i with
  | value t v =>
      obtain ⟨bytes, hw, hr⟩ := carries_value flip h hfit
      exact ⟨bytes, hw, fun rest => by simp [Item.form, BinaryReader.getItem, hr rest]⟩
  | sevenBit32 v =>
      obtain ⟨bytes, hw, hr⟩ := carries_sevenBits flip (by decide) v
      exact ⟨bytes, hw, fun rest => by simp [Item.form, BinaryReader.getItem, hr rest]⟩
  | sevenBit64 v =>
      obtain ⟨bytes, hw, hr⟩ := carries_sevenBits flip (by decide) v
      exact ⟨bytes, hw, fun rest => by simp [Item.form, BinaryReader.getItem, hr rest]⟩
  | raw bytes =>
      obtain ⟨bytes', hw, hr⟩ := carries_raw flip h bytes
      exact ⟨bytes', hw, fun rest => by simp [Item.form, BinaryReader.getItem, hr rest]⟩

theorem carries_items (flip : Bool) {items : List (Item h)} (hfit : ∀ i ∈ items, i.Fits) :
    Carries flip (fun w => items.foldl BinaryWriter.putItem w)
      (fun r => r.getItems h (items.map Item.form)) items := by
  induction items with
  | nil => exact ⟨[], fun _ => by simp, fun _ => by simp [BinaryReader.getItems]⟩
  | cons i items ih =>
      obtain ⟨bytes, hw, hr⟩ := carries_item flip (hfit i List.mem_cons_self)
      obtain ⟨bytes', hw', hr'⟩ := ih fun i hi => hfit i (List.mem_cons_of_mem _ hi)
      refine ⟨bytes ++ bytes', hw.append hw', ?_⟩
      intro rest
      have hr := hr (bytes' ++ rest)
      have hr' := hr' rest
      simp only [List.map_cons, List.append_assoc, BinaryReader.getItems, hr, hr']

/-- The byte order mark: whatever flag the reader has, it gets that of the writer. -/
theorem readBOM_writeBOM (h : Host) (flip flip' : Bool) (ostr rest : List UInt8) :
    ∃ bytes, BinaryWriter.writeBOM h ⟨ostr, flip, none⟩ = ⟨ostr ++ bytes, flip, none⟩ ∧
      BinaryReader.readBOM h ⟨⟨bytes ++ rest, true⟩, flip', none⟩ = ⟨⟨rest, true⟩, flip, none⟩ := by
  refine ⟨h.memory (n := 2) (if flip then ByteOrder.flipBytes16 0xFEFF#16 else 0xFEFF#16), rfl, ?_⟩
  have hread := read_eq flip' rest
    (by simp [Host.length_memory] : [h.uninit 0, h.uninit 1].length =
      (h.memory (n := 2) (if flip then ByteOrder.flipBytes16 0xFEFF#16 else 0xFEFF#16)).length)
  simp only [BinaryReader.readBOM, hread, Host.object_memory]
  cases flip <;> rfl

/-- **Main result.**  A sequence of values whose lengths are 32-bit numbers is read back by the
matching operations, which take exactly what has been written.  Without a byte order mark writer and
reader have the same byte order; with one, the reader gets that of the writer. -/
theorem getItems_putItems (h : Host) (byteOrder readerOrder : StreamByteOrder) (bom : Bool)
    (items : List (Item h)) (rest : List UInt8) (hfit : ∀ i ∈ items, i.Fits)
    (horder : bom = false → readerOrder = byteOrder) :
    let w := BinaryWriter.create h [] byteOrder
    let w := if bom then w.writeBOM h else w
    let w := items.foldl BinaryWriter.putItem w
    let r := BinaryReader.create h ⟨w._ostr ++ rest, true⟩ readerOrder
    let r := if bom then r.readBOM h else r
    r.getItems h (items.map Item.form) =
      (items, { r with _istr := ⟨rest, true⟩, _flipBytes := w._flipBytes }) := by
  intro w0 w1 w r0 r
  obtain ⟨bytes, hw, hr⟩ := carries_items (flipsBytes h byteOrder) hfit
  cases bom with
  | true =>
      obtain ⟨mark, hmark, hread⟩ := readBOM_writeBOM h (flipsBytes h byteOrder)
        (flipsBytes h readerOrder) [] (bytes ++ rest)
      have hw1 : w1 = ⟨mark, flipsBytes h byteOrder, none⟩ := hmark
      have hw2 : w = ⟨mark ++ bytes, flipsBytes h byteOrder, none⟩ := by
        simp only [w, hw1]
        exact hw mark
      have hr1 : r = ⟨⟨bytes ++ rest, true⟩, flipsBytes h byteOrder, none⟩ := by
        simp only [r, r0, hw2, List.append_assoc]
        exact hread
      rw [hr1, hw2]
      exact hr rest
  | false =>
      obtain rfl := horder rfl
      have hw2 : w = ⟨bytes, flipsBytes h readerOrder, none⟩ := hw []
      have hr1 : r = ⟨⟨bytes ++ rest, true⟩, flipsBytes h readerOrder, none⟩ := by
        simp only [r, r0, hw2]
        rfl
      rw [hr1, hw2]
      exact hr rest

/-- A stream with a byte order mark, read by a reader that was made for the other byte order. -/
theorem getItems_putItems_bom :
    BinaryReader.getItems ⟨false, true, fun _ => 0⟩
        [.value (.scalar .short), .sevenBit32, .value .string, .value (.vector .bool), .raw 1]
        (BinaryReader.readBOM ⟨false, true, fun _ => 0⟩
          ⟨⟨[0xFE, 0xFF, 0x80, 0x01, 0xAC, 0x02, 2, 97, 98, 0, 0, 0, 2, 1, 0, 9] ++ [7], true⟩,
            false, none⟩) =
      ([.value (.scalar .short) (0x8001#16 : BitVec 16), .sevenBit32 300#32,
        .value .string ([97, 98] : List UInt8), .value (.vector .bool) ([true, false] : List Bool),
        .raw [9]], ⟨⟨[7], true⟩, true, none⟩) := by
  have h := getItems_putItems ⟨false, true, fun _ => 0⟩ .bigEndianByteOrder .littleEndianByteOrder true
    [.value (.scalar .short) (0x8001#16 : BitVec 16), .sevenBit32 300#32,
      .value .string ([97, 98] : List UInt8), .value (.vector .bool) ([true, false] : List Bool),
      .raw [9]] [7] (by simp [Item.Fits, Ty.Fits]; decide) (by simp)
  exact h

/-- Of the length of a string only the low 32 bits are written. -/
theorem putString_multiple {flip : Bool} {ostr value : List UInt8} (hlen : value.length % 2 ^ 32 = 0) :
    BinaryWriter.putString ⟨ostr, flip, none⟩ value = ⟨ostr ++ [0], flip, none⟩ := by
  have hsize : BitVec.ofNat 32 value.length = 0#32 := by
    apply BitVec.eq_of_toNat_eq
    simpa using hlen
  simp only [BinaryWriter.putString, hsize]
  simp [BinaryWriter.write7BitEncoded, BinaryWriter.write, BinaryWriter.sevenBits]

/-- A string of 2^32 letters is read back as the empty string. -/
theorem long_string_is_lost :
    ∃ (h : Host) (items : List (Item h)),
      ((BinaryReader.create h
          ⟨(items.foldl BinaryWriter.putItem (BinaryWriter.create h [] .nativeByteOrder))._ostr, true⟩
          .nativeByteOrder).getItems h (items.map Item.form)).1 ≠ items := by
  have hlen : (List.replicate (2 ^ 32) (97 : UInt8)).length % 2 ^ 32 = 0 := by
    rw [List.length_replicate, Nat.mod_self]
  generalize hvalue : List.replicate (2 ^ 32) (97 : UInt8) = value at hlen
  refine ⟨⟨false, true, fun _ => 0⟩, [.value .string value], ?_⟩
  have hput : ([.value .string value] : List (Item ⟨false, true, fun _ => 0⟩)).foldl
      BinaryWriter.putItem (BinaryWriter.create ⟨false, true, fun _ => 0⟩ [] .nativeByteOrder) =
      ⟨[0], false, none⟩ := putString_multiple hlen
  have hget : (BinaryReader.create ⟨false, true, fun _ => 0⟩ ⟨[0], true⟩ .nativeByteOrder).getItems
      ⟨false, true, fun _ => 0⟩ [.value .string] = ([.value .string ([] : List UInt8)],
        ⟨⟨[], true⟩, false, none⟩) := rfl
  rw [hput]
  change ((BinaryReader.create _ _ _).getItems _ [.value .string]).1 ≠ _
  rw [hget]
  intro heq
  injection heq with heq
  injection heq with _ heq
  subst heq
  have := congrArg List.length hvalue
  rw [List.length_replicate] at this
  simp at this

end Poco.Foundation
