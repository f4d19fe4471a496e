import Poco.Lib.Bytes
import Poco.Lib.Memory
import Mathlib.Data.Int.Notation

/-! # `WebSocketImpl`

The frames of the WebSocket protocol over a stream socket.  `sendBytes` writes a frame;
`receiveBytes` peeks at the header of the next frame, skips it and reads the payload.  The
bytes that a peek has read ahead, and those that the HTTP session had read before the upgrade,
wait in `_buffer` from `_bufferOffset` on.

The underlying `StreamSocketImpl` is modelled by the bytes that are still to arrive and by
what the network decides: how many bytes each `recv` returns (at least one, and at most as
many as it is asked for) and how many bytes a non-blocking `send` accepts.  A `recv` on a
connection that stays open and on which nothing arrives any more does not return in blocking
mode (a receive timeout, where one is set, ends it with an exception).

A function that returns `int` gives `none` for `-1`; the bytes written to a caller's buffer
are part of the result, and the count the function returns is their number.  Signed overflow and a
write out of bounds are undefined: the model stops there.  `while (payloadLength < 0)` takes fuel. -/

namespace Poco.Net

open Poco.Lib

/-- `std::numeric_limits<int>::max()`. -/
def INT_MAX : ℕ := 2147483647

/-- How a call ends that does not return a value. -/
inductive Stop
  | webSocketException (message : String) (code : ℕ)
  | invalidArgumentException (message : String)
  /-- Signed integer overflow. -/
  | overflow
  /-- A write behind the end of an allocated block, or through a null pointer. -/
  | outOfBounds
  /-- Waits for bytes that do not arrive. -/
  | blocked
  /-- The loop has not ended yet. -/
  | outOfFuel
deriving DecidableEq, Repr

/-- The socket below, with the behaviour of the network. -/
structure StreamSocketImpl where
  blocking : Bool := true
  /-- The bytes that have not been received yet. -/
  incoming : List UInt8 := []
  /-- The peer shuts the connection down after them. -/
  shutdown : Bool := false
  /-- How many bytes there are for the `i`-th `recv`; none lets a non-blocking one return
  `-1`. -/
  fragment : ℕ → ℕ
  reads : ℕ := 0
  /-- The bytes put on the wire. -/
  outgoing : List UInt8 := []
  /-- How many bytes the `i`-th non-blocking `send` accepts; `none` is `EWOULDBLOCK`. -/
  accepts : ℕ → Option ℕ
  writes : ℕ := 0

namespace StreamSocketImpl

/-- `SocketImpl::receiveBytes`. -/
def receiveBytes (length : ℕ) : EStateM Stop StreamSocketImpl (Option (List UInt8)) := fun s =>
  if s.incoming = [] then
    if s.shutdown then .ok (some []) s
    else if s.blocking then .error .blocked s
    else .ok none s
  else
    let n := s.fragment s.reads
    let s := { s with reads := s.reads + 1 }
    if !s.blocking && n == 0 then .ok none s
    else
      let n := min (max 1 n) length
      .ok (some (s.incoming.take n)) { s with incoming := s.incoming.drop n }

/-- `StreamSocketImpl::sendBytes`: all bytes in blocking mode, else what one `send` accepts. -/
def sendBytes (bytes : List UInt8) : EStateM Stop StreamSocketImpl (Option ℕ) := fun s =>
  if s.blocking then
    .ok (some bytes.length) { s with outgoing := s.outgoing ++ bytes }
  else
    let n := s.accepts s.writes
    let s := { s with writes := s.writes + 1 }
    match n with
    | some n =>
        let n := min n bytes.length
        .ok (some n) { s with outgoing := s.outgoing ++ bytes.take n }
    | none => .ok none s

end StreamSocketImpl

/-- `WebSocketImpl::ReceiveState`; `payload` is the allocated block of the buffer, with as many
bytes as its capacity.  It is made with none, so that its pointer is null. -/
structure ReceiveState where
  frameFlags : UInt8 := 0
  useMask : Bool := false
  mask : List UInt8 := [0, 0, 0, 0]
  headerLength : ℕ := 0
  payloadLength : ℕ := 0
  remainingPayloadLength : ℕ := 0
  payload : List UInt8 := []
  maskOffset : ℕ := 0

/-- `WebSocketImpl::SendState`; `payload` is the frame at the start of the buffer. -/
structure SendState where
  length : ℕ := 0
  remainingPayloadOffset : ℕ := 0
  remainingPayloadLength : ℕ := 0
  payload : List UInt8 := []

/-- The members of `WebSocketImpl`. -/
structure WebSocketImpl where
  _pStreamSocketImpl : StreamSocketImpl
  _maxPayloadSize : ℕ
  _buffer : List UInt8
  _bufferOffset : ℕ
  _mustMaskPayload : Bool
  _receiveState : ReceiveState
  _sendState : SendState

namespace WebSocketImpl

def FRAME_FLAG_MASK : UInt8 := 0x80
def MAX_HEADER_LENGTH : ℕ := 14
def MASK_LENGTH : ℕ := 4
/-- `WebSocket::FRAME_BINARY`. -/
def FRAME_BINARY : ℤ := 0x82
def WS_ERR_PAYLOAD_TOO_BIG : ℕ := 10
def WS_ERR_INCOMPLETE_FRAME : ℕ := 11

/-- The constructor; `drained` are the bytes that `session.drainBuffer` hands over. -/
def create (socket : StreamSocketImpl) (drained : List UInt8) (mustMaskPayload : Bool) :
    WebSocketImpl :=
  { _pStreamSocketImpl := socket
    _maxPayloadSize := INT_MAX
    _buffer := drained
    _bufferOffset := 0
    _mustMaskPayload := mustMaskPayload
    _receiveState := {}
    _sendState := {} }

/-- `WebSocketImpl::setMaxPayloadSize`. -/
def setMaxPayloadSize (s : WebSocketImpl) (maxPayloadSize : ℕ) : WebSocketImpl :=
  { s with _maxPayloadSize := maxPayloadSize }

/-- `WebSocketImpl::frameFlags`. -/
def frameFlags (s : WebSocketImpl) : UInt8 := s._receiveState.frameFlags

/-- A member function. -/
abbrev Method := EStateM Stop WebSocketImpl

/-- A call of the socket below. -/
def onSocket {α : Type} (call : EStateM Stop StreamSocketImpl α) : Method α := fun s =>
  match call s._pStreamSocketImpl with
  | .ok a t => .ok a { s with _pStreamSocketImpl := t }
  | .error e t => .error e { s with _pStreamSocketImpl := t }

/-- A computation on `_receiveState`. -/
def onReceiveState {α : Type} (call : EStateM Stop ReceiveState α) : Method α := fun s =>
  match call s._receiveState with
  | .ok a r => .ok a { s with _receiveState := r }
  | .error e r => .error e { s with _receiveState := r }

/-- A value computed in `int`. -/
def toInt (n : ℕ) : Method ℕ := if n ≤ INT_MAX then pure n else throw .overflow

/-- `Buffer::resize` without the content: a larger block is allocated anew, a smaller one stays. -/
def resize (block : List UInt8) (newCapacity : ℕ) : List UInt8 :=
  if block.length < newCapacity then List.replicate newCapacity 0 else block

/-- Bytes written to an allocated block. -/
def writeBlock (block : List UInt8) (offset : ℕ) (bytes : List UInt8) : Method (List UInt8) :=
  match store block offset bytes with
  | some block => pure block
  | none => throw .outOfBounds

/-! ### Sending -/

/-- The length byte without its mask bit, and the extended length that follows it. -/
def encodeLength (length : ℕ) : UInt8 × List UInt8 :=
  if length < 126 then (UInt8.ofNat length, [])
  else if length < 65536 then (126, bigEndian 2 length)
  else (127, bigEndian 8 length)

/-- The flags byte that is sent. -/
def wireFlags (flags : ℤ) : UInt8 :=
  let flags := if flags = 0 then FRAME_BINARY else flags
  UInt8.ofNat (flags % 256).toNat

/-- `mask[(i + maskOffset) % MASK_LENGTH]`. -/
def keyStream (mask : List UInt8) (maskOffset : ℕ) (i : ℕ) : UInt8 :=
  mask.getD ((i + maskOffset) % MASK_LENGTH) 0

/-- The frame that `sendBytes` builds; `mask` are the four bytes of `_rnd.next()`. -/
def frame (mustMaskPayload : Bool) (mask : Vector UInt8 4) (buffer : List UInt8) (flags : ℤ) :
    List UInt8 :=
  let (lengthByte, extended) := encodeLength buffer.length
  if mustMaskPayload then
    wireFlags flags :: (FRAME_FLAG_MASK ||| lengthByte) :: extended ++ mask.toList ++
      xorWith (keyStream mask.toList 0) buffer
  else
    wireFlags flags :: lengthByte :: extended ++ buffer

/-- What `sendBytes` notes about the part of the frame from `offset` on after the socket has
been given `remaining` bytes and has taken `sent` of them. -/
def noteSent (length offset remaining : ℕ) (sent : Option ℕ) : Method (Option ℕ) := do
  let pending (offset remaining : ℕ) := modify fun s =>
    { s with _sendState := { s._sendState with
        length := length, remainingPayloadOffset := offset, remainingPayloadLength := remaining } }
  match sent with
  | some sent =>
      if sent < remaining then
        pending (offset + sent) (remaining - sent)
        return none
      else
        modify fun s => { s with _sendState := { s._sendState with
          length := 0, remainingPayloadOffset := 0, remainingPayloadLength := 0 } }
        return some length
  | none =>
      pending offset remaining
      return none

/-- `WebSocketImpl::sendBytes`. -/
def sendBytes (mask : Vector UInt8 4) (buffer : List UInt8) (flags : ℤ) : Method (Option ℕ) := do
  let s ← get
  let length := buffer.length
  if 0 < s._sendState.remainingPayloadLength then
    if length ≠ s._sendState.length then
      throw (.invalidArgumentException "Pending send buffer length mismatch")
    let offset := s._sendState.remainingPayloadOffset
    let remaining := s._sendState.remainingPayloadLength
    let sent ← onSocket (StreamSocketImpl.sendBytes (slice s._sendState.payload offset remaining))
    noteSent length offset remaining sent
  else
    discard <| toInt (length + MAX_HEADER_LENGTH)
    let bytes := frame s._mustMaskPayload mask buffer flags
    modify fun s => { s with _sendState := { s._sendState with payload := bytes } }
    let sent ← onSocket (StreamSocketImpl.sendBytes bytes)
    noteSent length 0 bytes.length sent

/-! ### Receiving -/

/-- `WebSocketImpl::receiveSomeBytes`. -/
def receiveSomeBytes (length : ℕ) : Method (Option (List UInt8)) := do
  let s ← get
  let n := (← toInt s._buffer.length) - s._bufferOffset
  if 0 < n then
    let bytes := slice s._buffer s._bufferOffset (min length n)
    -- by `length`, also when fewer bytes have been copied
    let offset ← toInt (s._bufferOffset + length)
    modify fun s => { s with _bufferOffset := offset }
    return some bytes
  else
    onSocket (StreamSocketImpl.receiveBytes length)

/-- `WebSocketImpl::peekSomeBytes`. -/
def peekSomeBytes (length : ℕ) : Method (Option (List UInt8)) := do
  let s ← get
  let n := (← toInt s._buffer.length) - s._bufferOffset
  if 0 < n then
    let n := min length n
    let bytes := slice s._buffer s._bufferOffset n
    if n < length then
      match ← onSocket (StreamSocketImpl.receiveBytes (length - n)) with
      | some more =>
          modify fun s => { s with _buffer := s._buffer ++ more }
          return some (bytes ++ more)
      | none => return some bytes
    else
      return some bytes
  else
    match ← onSocket (StreamSocketImpl.receiveBytes length) with
    | some bytes =>
        if 0 < bytes.length then
          modify fun s => { s with _buffer := bytes, _bufferOffset := 0 }
        return some bytes
    | none => return none

/-- The loop of `receiveNBytes`; each round adds a byte, so that `length` rounds are enough. -/
def receiveRest (length : ℕ) : ℕ → List UInt8 → Method (List UInt8)
  | 0, received => return received
  | rounds + 1, received => do
      if received.length < length then
        match ← receiveSomeBytes (length - received.length) with
        | some bytes =>
            if 0 < bytes.length then
              receiveRest length rounds (received ++ bytes)
            else
              return received
        | none => return received
      else
        return received

/-- `WebSocketImpl::receiveNBytes`. -/
def receiveNBytes (length : ℕ) : Method (Option (List UInt8)) := do
  match ← receiveSomeBytes length with
  | some received =>
      if 0 < received.length then
        return some (← receiveRest length length received)
      else
        return some received
  | none => return none

/-- The number of bytes of the extended length. -/
def extendedLength (lengthByte : UInt8) : ℕ :=
  if lengthByte &&& 0x7f = 127 then 8 else if lengthByte &&& 0x7f = 126 then 2 else 0

/-- The part of `peekHeader` that reads the `header` it has peeked, of at least two bytes. -/
def parseHeader (maxPayloadSize : ℕ) (header : List UInt8) :
    EStateM Stop ReceiveState (Option ℕ) := fun r =>
  let lengthByte := header.getD 1 0
  let useMask := decide (lengthByte &&& FRAME_FLAG_MASK ≠ 0)
  let r := { r with frameFlags := header.getD 0 0, useMask := useMask }
  let extended := extendedLength lengthByte
  let maskOffset := 2 + extended
  if header.length < maskOffset then .ok none { r with frameFlags := 0 }
  else
    let l :=
      if extended = 0 then (lengthByte &&& 0x7f).toNat else ofBigEndian (slice header 2 extended)
    if maxPayloadSize < l then
      .error (.webSocketException "Payload too big" WS_ERR_PAYLOAD_TOO_BIG) r
    else
      let r := { r with payloadLength := l }
      if useMask then
        if header.length < maskOffset + MASK_LENGTH then .ok none { r with frameFlags := 0 }
        else .ok (some l) { r with
          mask := slice header maskOffset MASK_LENGTH
          headerLength := maskOffset + MASK_LENGTH
          remainingPayloadLength := l }
      else .ok (some l) { r with headerLength := maskOffset, remainingPayloadLength := l }

/-- What `peekHeader` resets before it reads. -/
def resetHeader (r : ReceiveState) : ReceiveState :=
  { r with frameFlags := 0, useMask := false, headerLength := 0, payloadLength := 0,
           remainingPayloadLength := 0 }

/-- `WebSocketImpl::peekHeader`. -/
def peekHeader : Method (Option ℕ) := do
  onReceiveState (modify resetHeader)
  match ← peekSomeBytes MAX_HEADER_LENGTH with
  | some header =>
      if header.length = 0 then
        return some 0
      else if header.length < 2 then
        return none
      else
        let s ← get
        onReceiveState (parseHeader s._maxPayloadSize header)
  | none => return none

/-- `WebSocketImpl::skipHeader`. -/
def skipHeader (headerLength : ℕ) : Method Unit := do
  if 0 < headerLength then
    discard <| receiveNBytes headerLength

/-- `WebSocketImpl::receivePayload`. -/
def receivePayload (payloadLength : ℕ) (mask : List UInt8) (useMask : Bool) (maskOffset : ℕ) :
    Method (Option (List UInt8)) := do
  match ← receiveNBytes payloadLength with
  | some received =>
      return some (if useMask then xorWith (keyStream mask maskOffset) received else received)
  | none => return none

/-- `while (payloadLength < 0) payloadLength = peekHeader(_receiveState);` -/
def waitHeader : ℕ → Method ℕ
  | 0 => throw .outOfFuel
  | fuel + 1 => do
      match ← peekHeader with
      | some payloadLength => return payloadLength
      | none => waitHeader fuel

/-- The check of the caller's buffer; `none` is a buffer that grows. -/
def checkBuffer (limit : Option ℕ) (payloadLength : ℕ) : Method Unit :=
  match limit with
  | some length =>
      if length < payloadLength then
        throw (.webSocketException
          ("Insufficient buffer for payload size " ++ toString payloadLength)
          WS_ERR_PAYLOAD_TOO_BIG)
      else pure ()
  | none => pure ()

/-- `receiveBytes` on a blocking socket. -/
def receiveBlocking (fuel : ℕ) (limit : Option ℕ) : Method (Option (List UInt8)) := do
  let payloadLength ← waitHeader fuel
  let r := (← get)._receiveState
  if payloadLength = 0 then
    skipHeader r.headerLength
    return some []
  else
    checkBuffer limit payloadLength
    skipHeader r.headerLength
    match ← receivePayload payloadLength r.mask r.useMask 0 with
    | some payload =>
        if payload.length ≠ payloadLength then
          throw (.webSocketException "Incomplete frame received" WS_ERR_INCOMPLETE_FRAME)
        return some payload
    | none => throw (.webSocketException "Incomplete frame received" WS_ERR_INCOMPLETE_FRAME)

/-- The second half of `receiveBytes` on a non-blocking socket: more of the payload. -/
def receiveMore : Method (Option (List UInt8)) := do
  let r := (← get)._receiveState
  let payloadOffset := r.payloadLength - r.remainingPayloadLength
  match ← receivePayload r.remainingPayloadLength r.mask r.useMask r.maskOffset with
  | some received =>
      if 0 < received.length then
        let payload ← writeBlock r.payload payloadOffset received
        let r' := { r with
          payload := payload
          remainingPayloadLength := r.remainingPayloadLength - received.length }
        if r'.remainingPayloadLength = 0 then
          modify fun s => { s with _receiveState := { r' with maskOffset := 0 } }
          return some (r'.payload.take r'.payloadLength)
        else
          modify fun s =>
            { s with _receiveState := { r' with maskOffset := r.maskOffset + received.length } }
          return none
      else
        throw (.webSocketException "Incomplete frame received" WS_ERR_INCOMPLETE_FRAME)
  | none => return none

/-- `receiveBytes` on a non-blocking socket. -/
def receiveNonBlocking (limit : Option ℕ) : Method (Option (List UInt8)) := do
  let r := (← get)._receiveState
  if r.remainingPayloadLength = 0 then
    match ← peekHeader with
    | some payloadLength =>
        let r := (← get)._receiveState
        if payloadLength = 0 then
          skipHeader r.headerLength
          return some []
        else
          checkBuffer limit payloadLength
          onReceiveState <| modify fun r => { r with payload := resize r.payload payloadLength }
          skipHeader r.headerLength
          receiveMore
    | none =>
        skipHeader (← get)._receiveState.headerLength
        return none
  else
    checkBuffer limit r.payloadLength
    receiveMore

/-- `WebSocketImpl::receiveBytes` for both kinds of buffers: the caller's, of a fixed length, and (`none`) a
`Poco::Buffer<char>`, to which the result is appended. -/
def receiveFrame (fuel : ℕ) (limit : Option ℕ) : Method (Option (List UInt8)) := do
  if (← get)._pStreamSocketImpl.blocking then receiveBlocking fuel limit
  else receiveNonBlocking limit

/-- `WebSocketImpl::receiveBytes(void* buffer, int length, int)`. -/
def receiveBytes (fuel length : ℕ) : Method (Option (List UInt8)) := receiveFrame fuel (some length)

end WebSocketImpl

end Poco.Net
