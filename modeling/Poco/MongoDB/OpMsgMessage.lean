import Poco.MongoDB.ServerDescription

/-! # OP_MSG messages

A message has a body and may have documents.  `send` writes a header with the length of the message, the flags,
the body and, if there are documents, a section with its size, an identifier and the documents.  `read` takes the
header and as many bytes as it tells, and reads the flags, the body and sections from these until they end; the
documents of a cursor in the body are added.

The numbers of a header are 32 bits wide, and lengths are cast to them.  Assertions for debugging only are left
out. -/

namespace Poco.MongoDB

open Poco.Lib Poco.Foundation Document

/-- `OP_MSG_MAX_SIZE`. -/
def OP_MSG_MAX_SIZE : ℤ := 48 * 1024 * 1024

/-- How sending and reading can end without a message. -/
inductive MessageError
  /-- `AssertionViolationException`, with the condition. -/
  | assertionViolationException (condition : String)
  /-- `IOException`. -/
  | ioException (message : String)
  /-- `ProtocolException`. -/
  | protocolException (message : String)
  /-- A document cannot be read, or the behaviour is not defined. -/
  | stop (e : Stop)

/-! ### Headers -/

/-- The members of `MessageHeader`. -/
structure MessageHeader where
  _messageLength : BitVec 32
  _requestID : BitVec 32
  _responseTo : BitVec 32
  _opCode : BitVec 32
deriving DecidableEq, Repr

namespace MessageHeader

/-- `MSG_HEADER_SIZE`. -/
def MSG_HEADER_SIZE : ℤ := 16

/-- `OP_MSG`. -/
def OP_MSG : BitVec 32 := 2013

/-- `MessageHeader(opCode)`. -/
def create (opCode : BitVec 32) : MessageHeader := ⟨0, 0, 0, opCode⟩

/-- `Message::messageLength`, with `setMessageLength`.  A sum that is too large is not defined. -/
def messageLength (header : MessageHeader) (length : BitVec 32) : Except MessageError MessageHeader :=
  if length.toInt ≤ 0 then .error (.assertionViolationException "length > 0")
  else if MSG_HEADER_SIZE + length.toInt ≥ 2 ^ 31 then .error (.stop .undefined)
  else .ok { header with _messageLength := BitVec.ofInt 32 (MSG_HEADER_SIZE + length.toInt) }

variable (h : Host)

/-- `MessageHeader::write`. -/
def write (header : MessageHeader) (w : BinaryWriter) : BinaryWriter :=
  (((w.putScalar h .int header._messageLength).putScalar h .int header._requestID).putScalar h .int
    header._responseTo).putScalar h .int header._opCode

/-- The numbers that `MessageHeader::read` takes. -/
def readNumbers (header : MessageHeader) : Reader MessageHeader := do
  let messageLength ← readScalar h .int header._messageLength
  let requestID ← readScalar h .int header._requestID
  let responseTo ← readScalar h .int header._responseTo
  let opCode ← readNew h .int
  return ⟨messageLength, requestID, responseTo, opCode⟩

/-- `MessageHeader::read`. -/
def read (header : MessageHeader) (r : BinaryReader) : Except MessageError (MessageHeader × BinaryReader) :=
  match header.readNumbers h r with
  | .error e _ => .error (.stop e)
  | .ok header r => if r._istr.good then .ok (header, r) else .error (.ioException "Failed to read from socket")

end MessageHeader

/-! ### Messages -/

/-- `commandIdentifier`. -/
def commandIdentifier (command : List UInt8) : List UInt8 :=
  if command = key "insert" then key "documents"
  else if command = key "delete" then key "deletes"
  else if command = key "update" then key "updates"
  else if command = key "createIndexes" then key "indexes"
  else []

/-- The members of `OpMsgMessage` that are sent or read; the values are those of `OpMsgMessage()`. -/
structure OpMsgMessage where
  _header : MessageHeader := .create MessageHeader.OP_MSG
  _flags : BitVec 32 := 0
  _commandName : List UInt8 := []
  _body : Document := []
  _documents : List Document := []

/-- `PAYLOAD_TYPE_0`. -/
def PAYLOAD_TYPE_0 : BitVec 8 := 0

/-- `PAYLOAD_TYPE_1`. -/
def PAYLOAD_TYPE_1 : BitVec 8 := 1

namespace OpMsgMessage

section

variable (h : Host)

/-- The part of `send` that writes documents. -/
def writeSection (commandName : List UInt8) (documents : List Document) (writer : BinaryWriter) : BinaryWriter :=
  let identifier := commandIdentifier commandName
  let wdoc := documents.foldl (fun wdoc doc => Document.write h wdoc doc)
    (BinaryWriter.create h [] .littleEndianByteOrder)
  let size := BitVec.ofNat 32 (4 + identifier.length + 1 + wdoc._ostr.length)
  let writer := (writer.putScalar h .unsignedChar PAYLOAD_TYPE_1).putScalar h .int size
  (writer.writeCString identifier BinaryWriter.DEFAULT_MAX_CSTR_LENGTH).writeRaw wdoc._ostr

/-- What `send` writes to `ss`. -/
def writePayload (m : OpMsgMessage) (writer : BinaryWriter) : BinaryWriter :=
  let writer := (writer.putScalar h .unsignedInt m._flags).putScalar h .unsignedChar PAYLOAD_TYPE_0
  let writer := Document.write h writer m._body
  if m._documents.isEmpty then writer else writeSection h m._commandName m._documents writer

/-- `send`: the message with its header, and the bytes of the stream. -/
def send (m : OpMsgMessage) (ostr : List UInt8) : Except MessageError (OpMsgMessage × List UInt8) :=
  let ss := (m.writePayload h (BinaryWriter.create h [] .littleEndianByteOrder))._ostr
  match m._header.messageLength (BitVec.ofNat 32 ss.length) with
  | .error e => .error e
  | .ok header =>
    let socketWriter := header.write h (BinaryWriter.create h ostr .littleEndianByteOrder)
    .ok ({ m with _header := header }, (socketWriter.writeRaw ss)._ostr)

/-- `tellg` of a stream over `total` bytes. -/
def tellg (total : ℕ) (istr : IStream) : ℤ := if istr.good then total - istr.rest.length else -1

/-- The loop of `read` over the documents of a section.  The fuel is for its rounds and for each document. -/
def readDocuments (total : ℕ) (endOfSection : ℤ) : ℕ → List Document → Reader (List Document)
  | 0, _ => throw .outOfFuel
  | fuel + 1, documents => do
    let r ← get
    if tellg total r._istr < endOfSection then do
      let doc ← Document.read h fuel []
      let r ← get
      if r._istr.good then readDocuments total endOfSection fuel (documents ++ [doc])
      else return documents ++ [doc]
    else return documents

/-- `BinaryReader::readCString` of a section's identifier, which is not used. -/
def readIdentifier : Reader (List UInt8) := fun r =>
  let (identifier, r) := r.readCString
  .ok identifier r

/-- The loop of `read` over the sections behind the body. -/
def readSections (total : ℕ) : ℕ → BitVec 8 → List Document → Reader (List Document)
  | 0, _, _ => throw .outOfFuel
  | fuel + 1, payloadType, documents => do
    let r ← get
    if r._istr.good then do
      let payloadType ← readScalar h .unsignedChar payloadType
      let r ← get
      if r._istr.good then do
        let sectionSize : BitVec 32 ← readScalar h .int (0 : BitVec 32)
        let r ← get
        let endOfSection := tellg total r._istr + (sectionSize.toInt - 4)
        let _ ← readIdentifier
        let documents ← readDocuments h total endOfSection fuel documents
        readSections total fuel payloadType documents
      else return documents
    else return documents

/-- `get<T::Ptr>(name, nullptr)`. -/
def getPtr (convert : Value → Option Document) (d : Document) (name : List UInt8) : Option Document :=
  d.getOr (fun v => (convert v).map some) name none

/-- The batch of the cursor in a body. -/
def cursorBatch (body : Document) : Option Document :=
  match getPtr Value.asDocument body (key "cursor") with
  | none => none
  | some curDoc =>
    match getPtr Value.asArray curDoc (key "firstBatch") with
    | some batch => some batch
    | none => getPtr Value.asArray curDoc (key "nextBatch")

/-- The documents of a batch: the elements with the names 0, 1, ... that are documents. -/
def batchDocuments (batch : Document) : List Document :=
  (List.range batch.length).filterMap fun i => getPtr Value.asDocument batch (NumberFormatter.formatAs uint64Type i)

/-- What `read` does with the complete message. -/
def interpret (fuel : ℕ) (m : OpMsgMessage) (message : List UInt8) : Reader OpMsgMessage := do
  let flags ← readScalar h .unsignedInt m._flags
  let payloadType ← readScalar h .unsignedChar (0xFF : BitVec 8)
  let body ← Document.read h fuel m._body
  let documents ← readSections h message.length fuel payloadType m._documents
  let batch := (cursorBatch body).elim [] batchDocuments
  return { m with _flags := flags, _body := body, _documents := documents ++ batch }

/-- `read`: the message, and what is left of the stream. -/
def read (fuel : ℕ) (m : OpMsgMessage) (istr : IStream) : Except MessageError (OpMsgMessage × IStream) :=
  match m._header.read h (BinaryReader.create h istr .littleEndianByteOrder) with
  | .error e => .error e
  | .ok (header, reader) =>
    let remainingSize := header._messageLength.toInt - MessageHeader.MSG_HEADER_SIZE
    if remainingSize < -2 ^ 31 then .error (.stop .undefined)
    else if remainingSize ≤ 0 then
      .error (.protocolException ("Invalid MongoDB message: remaining size is " ++ toString remainingSize))
    else if remainingSize > OP_MSG_MAX_SIZE then
      .error (.protocolException ("MongoDB message exceeds maximum size: " ++ toString remainingSize))
    else
      let (message, reader) := reader.readRaw h remainingSize.toNat
      match interpret h fuel { m with _header := header } message
          (BinaryReader.create h ⟨message, true⟩ .littleEndianByteOrder) with
      | .ok m _ => .ok (m, reader._istr)
      | .error e _ => .error (.stop e)

end

end OpMsgMessage

end Poco.MongoDB
