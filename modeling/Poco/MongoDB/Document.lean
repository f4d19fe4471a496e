import Poco.Lib.Streams
import Poco.Foundation.BinaryIO

/-! # BSON documents

A document is a list of named elements of various types, among them documents and arrays.  `write` puts
it into a stream behind its length, each element as its type, its name and its value; `read` takes elements
until it finds a type that is zero.

Both use a `BinaryWriter` and a `BinaryReader`, which do not throw when the stream ends: a variable that is
read then keeps its value, or has none.  To erase the last character of an empty string is undefined. -/

namespace Poco.MongoDB

open Poco.Lib Poco.Foundation

/-- `BSON_MAX_DOCUMENT_SIZE`. -/
def BSON_MAX_DOCUMENT_SIZE : ℤ := 16 * 1024 * 1024

/-- `BSON_MIN_DOCUMENT_SIZE`. -/
def BSON_MIN_DOCUMENT_SIZE : ℤ := 5

/-- `BSON_MIN_STRING_SIZE`. -/
def BSON_MIN_STRING_SIZE : ℤ := 1

/-- The values of the elements; a `Timestamp` is its number of microseconds, a `double` its bits.  A null
value and the two keys have no content. -/
inductive Value
  | double (bits : BitVec 64)
  | string (value : List UInt8)
  | document (elements : List (List UInt8 × Value))
  | array (elements : List (List UInt8 × Value))
  | binary (subtype : UInt8) (buffer : List UInt8)
  | objectId (id : { id : List UInt8 // id.length = 12 })
  | bool (value : Bool)
  | timestamp (ts : BitVec 64)
  | null
  | regularExpression (pattern options : List UInt8)
  | javaScriptCode (code : List UInt8)
  | int32 (value : BitVec 32)
  | bsonTimestamp (ts : BitVec 64) (inc : BitVec 32)
  | int64 (value : BitVec 64)
  | decimal128 (low high : BitVec 64)
  | minKey
  | maxKey

/-- `Document`: its elements in order of insertion. -/
abbrev Document := List (List UInt8 × Value)

/-- `ElementTraits<T>::TypeId`. -/
def Value.type : Value → BitVec 8
  | double _ => 0x01
  | string _ => 0x02
  | document _ => 0x03
  | array _ => 0x04
  | binary _ _ => 0x05
  | objectId _ => 0x07
  | bool _ => 0x08
  | timestamp _ => 0x09
  | null => 0x0A
  | regularExpression _ _ => 0x0B
  | javaScriptCode _ => 0x0D
  | int32 _ => 0x10
  | bsonTimestamp _ _ => 0x11
  | int64 _ => 0x12
  | decimal128 _ _ => 0x13
  | minKey => 0xFF
  | maxKey => 0x7F

namespace Timestamp

/-- `Timestamp::fromEpochTime`. -/
def fromEpochTime (t : BitVec 64) : BitVec 64 := t * 1000000

end Timestamp

/-! ### Writing -/

section

variable (h : Host)

/-- `BSONWriter::writeCString`. -/
def writeCString (w : BinaryWriter) (value : List UInt8) : BinaryWriter :=
  (w.writeRaw value).putScalar h .unsignedChar (0x00 : BitVec 8)

/-- `BSONWriter::write<std::string>`. -/
def writeString (w : BinaryWriter) (value : List UInt8) : BinaryWriter :=
  writeCString h (w.putScalar h .int (BitVec.ofNat 32 (value.length + 1))) value

/-- `BSONWriter::write<Binary::Ptr>`. -/
def writeBinary (w : BinaryWriter) (subtype : UInt8) (buffer : List UInt8) : BinaryWriter :=
  ((w.putScalar h .int (BitVec.ofNat 32 buffer.length)).putScalar h .unsignedChar subtype.toBitVec).writeRaw buffer

/-- What `Document::write` puts around the elements that a temporary writer has written to `sstream`. -/
def writeFrame (w : BinaryWriter) (isEmpty : Bool) (sstream : List UInt8) : BinaryWriter :=
  let w := if isEmpty then w.putScalar h .int (5 : BitVec 32)
    else (w.putScalar h .int (BitVec.ofNat 32 (5 + sstream.length))).writeRaw sstream
  w.putScalar h .char (0 : BitVec 8)

mutual

/-- `BSONWriter::write<T>`. -/
def Value.write (w : BinaryWriter) : Value → BinaryWriter
  | .double bits => w.putScalar h .double bits
  | .string value => writeString h w value
  | .document elements | .array elements =>
      writeFrame h w elements.isEmpty
        (writeElements (BinaryWriter.create h [] .littleEndianByteOrder) elements)._ostr
  | .binary subtype buffer => writeBinary h w subtype buffer
  | .objectId id => w.writeRaw id.val
  | .bool value => w.putScalar h .unsignedChar (if value then 0x01 else 0x00 : BitVec 8)
  | .timestamp ts => w.putScalar h .longLong (ts.sdiv 1000 : BitVec 64)
  | .null => w
  | .regularExpression pattern options => writeCString h (writeCString h w pattern) options
  | .javaScriptCode code => writeString h w code
  | .int32 value => w.putScalar h .int value
  | .bsonTimestamp ts inc => w.putScalar h .longLong ((ts.sdiv 1000 <<< 32) + inc.signExtend 64 : BitVec 64)
  | .int64 value => w.putScalar h .longLong value
  | .decimal128 low high => (w.putScalar h .unsignedLongLong low).putScalar h .unsignedLongLong high
  | .minKey => w
  | .maxKey => w

/-- An element: its type, its name and its value. -/
def writeElement (w : BinaryWriter) : List UInt8 × Value → BinaryWriter
  | (name, value) => value.write (writeCString h (w.putScalar h .unsignedChar value.type) name)

/-- The elements of a document. -/
def writeElements (w : BinaryWriter) : List (List UInt8 × Value) → BinaryWriter
  | [] => w
  | element :: elements => writeElements (writeElement w element) elements

end

/-- `Document::write`. -/
def Document.write (w : BinaryWriter) (d : Document) : BinaryWriter :=
  writeFrame h w d.isEmpty (writeElements h (BinaryWriter.create h [] .littleEndianByteOrder) d)._ostr

/-! ### Reading -/

/-- How reading can end without a value. -/
inductive Stop
  /-- `DataFormatException`. -/
  | dataFormatException (message : String)
  /-- `NotImplementedException`: the element of this name contains an unsupported type. -/
  | notImplementedException (name : List UInt8) (type : BitVec 8)
  /-- The behaviour is not defined. -/
  | undefined
  /-- There are more rounds to go. -/
  | outOfFuel

/-- A computation on a `BinaryReader`. -/
abbrev Reader := EStateM Stop BinaryReader

/-- `reader >> value`. -/
def readScalar (t : Scalar) (value : BitVec (8 * t.size h)) : Reader (BitVec (8 * t.size h)) := fun r =>
  let (value, r) := r.getScalar h t value
  .ok value r

/-- `reader >> value` for a variable without an initial value. -/
def readNew (t : Scalar) : Reader (BitVec (8 * t.size h)) := readScalar h t (Ty.init h (.scalar t))

/-- `reader.readRaw(length, value)`. -/
def readRaw (length : ℕ) : Reader (List UInt8) := fun r =>
  let (value, r) := r.readRaw h length
  .ok value r

/-- `reader.readRaw(buffer, length)`. -/
def readBuffer (buffer : List UInt8) : Reader (List UInt8) := fun r =>
  let (buffer, r) := r.read buffer
  .ok buffer r

/-- The loop of `BSONReader::readCString` over a stream that is good; `none` if the string is too long. -/
def cstring (val : List UInt8) : List UInt8 → Option (List UInt8 × IStream)
  | [] => some (val, ⟨[], false⟩)
  | c :: rest =>
    if c = 0x00 then some (val, ⟨rest, true⟩)
    else if ((val ++ [c]).length : ℤ) > BSON_MAX_DOCUMENT_SIZE then none
    else cstring (val ++ [c]) rest

/-- `BSONReader::readCString`. -/
def readCString : Reader (List UInt8) := fun r =>
  if r._istr.good then
    match cstring [] r._istr.rest with
    | some (val, istr) => .ok val { r with _istr := istr }
    | none => .error (.dataFormatException "BSON cstring exceeds maximum size") r
  else .ok [] r

/-- The checks of a size. -/
def checkSize (low : ℤ) (invalid exceeds : String) (size : ℤ) : Reader Unit := do
  if size < low then throw (.dataFormatException (invalid ++ toString size))
  if size > BSON_MAX_DOCUMENT_SIZE then throw (.dataFormatException (exceeds ++ toString size))

/-- `BSONReader::read<std::string>`. -/
def readString : Reader (List UInt8) := do
  let size : BitVec 32 ← readNew h .int
  checkSize BSON_MIN_STRING_SIZE "Invalid BSON string size: " "BSON string size exceeds maximum: " size.toInt
  let value ← readRaw h size.toInt.toNat
  if value = [] then throw .undefined else return value.dropLast

/-- `BSONReader::read<Binary::Ptr>`. -/
def readBinary : Reader Value := do
  let size : BitVec 32 ← readNew h .int
  checkSize 0 "Invalid BSON binary size: " "BSON binary size exceeds maximum: " size.toInt
  let buffer := (List.range size.toInt.toNat).map h.uninit
  let subtype : BitVec 8 ← readNew h .unsignedChar
  let buffer ← if size.toInt > 0 then readBuffer buffer else pure buffer
  return .binary (UInt8.ofBitVec subtype) buffer

/-- `BSONReader::read<ObjectId::Ptr>`. -/
def readObjectId (id : { id : List UInt8 // id.length = 12 }) : Reader { id : List UInt8 // id.length = 12 } :=
  fun r => .ok ⟨(r.read id.val).1, (r.length_read id.val).trans id.property⟩ (r.read id.val).2

/-- The `switch` of `Document::read`: a new element of the type.  The time of a new `Timestamp` does not
matter, as it is replaced. -/
def createElement (type : BitVec 8) : Option Value :=
  if type = 0x01 then some (.double 0)
  else if type = 0x10 then some (.int32 0)
  else if type = 0x02 then some (.string [])
  else if type = 0x03 then some (.document [])
  else if type = 0x04 then some (.array [])
  else if type = 0x05 then some (.binary 0 [])
  else if type = 0x07 then some (.objectId ⟨List.replicate 12 0, rfl⟩)
  else if type = 0x08 then some (.bool false)
  else if type = 0x09 then some (.timestamp 0)
  else if type = 0x11 then some (.bsonTimestamp 0 0)
  else if type = 0x0A then some .null
  else if type = 0x0B then some (.regularExpression [] [])
  else if type = 0x0D then some (.javaScriptCode [])
  else if type = 0x12 then some (.int64 0)
  else if type = 0x13 then some (.decimal128 0 0)
  else if type = 0xFF then some .minKey
  else if type = 0x7F then some .maxKey
  else none

/-- `BSONReader::read<T>`: what replaces a value of the same type. -/
def Value.read (readDocument : Reader Document) : Value → Reader Value
  | .double bits => .double <$> readScalar h .double bits
  | .string _ => .string <$> readString h
  | .document _ => .document <$> readDocument
  | .array _ => .array <$> readDocument
  | .binary _ _ => readBinary h
  | .objectId id => .objectId <$> readObjectId id
  | .bool _ => do
      let b : BitVec 8 ← readNew h .unsignedChar
      return .bool (b != 0)
  | .timestamp _ => do
      let value : BitVec 64 ← readNew h .longLong
      return .timestamp (Timestamp.fromEpochTime (value.sdiv 1000) + value.srem 1000 * 1000)
  | .null => return .null
  | .regularExpression _ _ => do
      let pattern ← readCString
      let options ← readCString
      return .regularExpression pattern options
  | .javaScriptCode _ => .javaScriptCode <$> readString h
  | .int32 value => .int32 <$> readScalar h .int value
  | .bsonTimestamp _ _ => do
      let value : BitVec 64 ← readNew h .longLong
      let inc := (value &&& 0xFFFFFFFF).setWidth 32
      return .bsonTimestamp (Timestamp.fromEpochTime (value.sshiftRight 32)) inc
  | .int64 value => .int64 <$> readScalar h .longLong value
  | .decimal128 _ _ => do
      let low : BitVec 64 ← readNew h .unsignedLongLong
      let high : BitVec 64 ← readNew h .unsignedLongLong
      return .decimal128 low high
  | .minKey => return .minKey
  | .maxKey => return .maxKey

/-- `Document::read`, given its loop. -/
def readDocumentWith (readElements : BitVec 8 → Reader Document) : Reader Document := do
  let size : BitVec 32 ← readNew h .int
  checkSize BSON_MIN_DOCUMENT_SIZE "Invalid BSON document size: " "BSON document size exceeds 16 MB limit: "
    size.toInt
  let type ← readNew h .unsignedChar
  readElements type

/-- The loop of `Document::read`, in which `type` is one variable for all rounds.  The fuel is for the rounds
and the levels of documents. -/
def readElements : ℕ → Document → BitVec 8 → Reader Document
  | 0, _, _ => throw .outOfFuel
  | fuel + 1, elements, type =>
    if type = 0 then return elements
    else do
      let name ← readCString
      match createElement type with
      | none => throw (.notImplementedException name type)
      | some element =>
        let value ← element.read h (readDocumentWith h (readElements fuel []))
        let type ← readScalar h .unsignedChar type
        readElements fuel (elements ++ [(name, value)]) type

/-- `Document::read`. -/
def Document.read (fuel : ℕ) (d : Document) : Reader Document := readDocumentWith h (readElements h fuel d)

end

end Poco.MongoDB
