import Poco.Net.MessageHeader
import Mathlib.Algebra.Group.Int.Defs
import Mathlib.Data.List.Infix

/-! # `MultipartWriter` and `MultipartReader`

The writer separates the parts of a message by lines `--boundary`.  The reader keeps a window of
the underlying stream (`ReadWindow`): header lines are read from it byte by byte, and the content
of a part is found by scanning the window for the next boundary and copying what stands before
it.  A part whose header gives its length is copied without scanning.

The window is the memory from `eback` to `gptr` (what has been read, the last byte first), the
memory from `gptr` to `egptr`, and the bytes that the underlying stream still has; the latter are
also what `MultipartReader` reads through `_istr` while it looks for the first boundary. -/

namespace Poco.Net

open Poco.Lib

/-! ### `MultipartWriter` -/

/-- The members of `MultipartWriter`; `_ostr` is what has been written. -/
structure MultipartWriter where
  _ostr : List UInt8 := []
  _boundary : List UInt8
  _firstPart : Bool := true

namespace MultipartWriter

/-- Eight hexadecimal digits. -/
def hexDigits : ℕ → ℕ → List UInt8
  | 0, _ => []
  | w + 1, n => hexDigits w (n / 16) ++ [(ascii "0123456789ABCDEF").getD (n % 16) 0]

/-- `MultipartWriter::createBoundary`, with the two numbers that `rnd.next()` returns. -/
def createBoundary (r1 r2 : UInt32) : List UInt8 :=
  ascii "MIME_boundary_" ++ hexDigits 8 r1.toNat ++ hexDigits 8 r2.toNat

/-- The constructor. -/
def create (boundary : List UInt8) (r1 r2 : UInt32) : MultipartWriter :=
  { _boundary := if boundary = [] then createBoundary r1 r2 else boundary }

/-- `MultipartWriter::nextPart`. -/
def nextPart (w : MultipartWriter) (header : List Field) : MultipartWriter :=
  { w with
    _ostr := w._ostr ++ (if w._firstPart then [] else ascii "\r\n") ++
      (ascii "--" ++ w._boundary ++ ascii "\r\n") ++ MessageHeader.write header ++ ascii "\r\n"
    _firstPart := false }

/-- Writing to the stream, as the user does with the content of a part. -/
def put (w : MultipartWriter) (content : List UInt8) : MultipartWriter :=
  { w with _ostr := w._ostr ++ content }

/-- `MultipartWriter::close`. -/
def close (w : MultipartWriter) : MultipartWriter :=
  { w with _ostr := w._ostr ++ (ascii "\r\n--" ++ w._boundary ++ ascii "--\r\n") }

end MultipartWriter

/-! ### `ReadWindow` -/

/-- `ReadWindow`. -/
structure ReadWindow where
  /-- From `eback` to `gptr`, the last byte first. -/
  before : List UInt8 := []
  /-- From `gptr` to `egptr`. -/
  ahead : List UInt8 := []
  /-- What the underlying stream has not delivered yet. -/
  underlying : List UInt8

namespace ReadWindow

def BUFFER_SIZE : ℕ := 32768
def PUTBACK_SIZE : ℕ := 512

/-- `ReadWindow::available`. -/
def available (w : ReadWindow) : ℕ := w.ahead.length

/-- `ReadWindow::consume`. -/
def consume (w : ReadWindow) (n : ℕ) : ReadWindow :=
  { w with before := (w.ahead.take n).reverse ++ w.before, ahead := w.ahead.drop n }

/-- `ReadWindow::fill`; `available` afterwards is what it returns. -/
def fill (w : ReadWindow) : ReadWindow :=
  let unconsumed := w.ahead.length
  if unconsumed > BUFFER_SIZE / 2 then w
  else
    let consumed := w.before.length
    let putback := min consumed PUTBACK_SIZE
    let space := BUFFER_SIZE - putback - unconsumed
    let new := w.underlying.take space
    if new = [] ∧ unconsumed = 0 then
      -- the putback area has been moved, but the pointers have not
      { w with before := w.before.take (consumed - putback) ++ w.before.take putback }
    else
      { before := w.before.take putback
        ahead := w.ahead ++ new
        underlying := w.underlying.drop space }

/-- `sbumpc`, with the `underflow` of the window. -/
def sbumpc (w : ReadWindow) : Option UInt8 × ReadWindow :=
  let w := if w.ahead = [] then w.fill else w
  match w.ahead with
  | b :: ahead => (some b, { w with before := b :: w.before, ahead := ahead })
  | [] => (none, w)

/-- `sgetc`. -/
def sgetc (w : ReadWindow) : Option UInt8 × ReadWindow :=
  let w := if w.ahead = [] then w.fill else w
  (w.ahead.head?, w)

/-- `sputbackc`, with the `pbackfail` of the window. -/
def sputbackc (c : UInt8) (w : ReadWindow) : ReadWindow :=
  match w.before with
  | _ :: before => { w with before := before, ahead := c :: w.ahead }
  | [] => w

instance : Source ReadWindow where
  sbumpc := sbumpc
  sputbackc := sputbackc

/-- `sgetn`: the bytes up to `length` of them, with a refill each time the window is empty. -/
def sgetn : ℕ → ReadWindow → List UInt8 × ReadWindow
  | 0, w => ([], w)
  | length + 1, w =>
      match w.sbumpc with
      | (some b, w) =>
          let (bs, w) := sgetn length w
          (b :: bs, w)
      | (none, w) => ([], w)

end ReadWindow

/-! ### `MultipartStreamBuf` -/

/-- The members of `MultipartStreamBuf`, with the window it reads from; the content length is
`none` for `-1`. -/
structure MultipartStreamBuf where
  win : ReadWindow
  _boundary : List UInt8
  _lastPart : Bool := false
  _boundaryFound : Bool := false
  _contentLength : Option ℕ := none
  _bytesRead : ℕ := 0

namespace MultipartStreamBuf

def STREAM_BUFFER_SIZE : ℕ := 32768

/-- `MultipartStreamBuf::scanForBoundary`; `i` is the position of `data` in the window. -/
def scanForBoundary (boundary : List UInt8) : List UInt8 → ℕ → Option ℕ
  | [], _ => none
  | c :: data, i =>
      if (c :: data).length < 3 + boundary.length then none
      else
        let line := if c = chr '\r' then data else c :: data
        match line with
        | lf :: d1 :: d2 :: text =>
            if lf = chr '\n' ∧ d1 = chr '-' ∧ d2 = chr '-' then
              if text.length < boundary.length then none
              else if boundary.isPrefixOf text then some i
              else scanForBoundary boundary data (i + 1)
            else scanForBoundary boundary data (i + 1)
        | _ => scanForBoundary boundary data (i + 1)

/-- `MultipartStreamBuf::consumePostBoundaryDelimiter`. -/
def consumePostBoundaryDelimiter (b : MultipartStreamBuf) : MultipartStreamBuf :=
  let (ch, win) := b.win.sbumpc
  if ch = some (chr '-') then
    let (next, win) := win.sgetc
    let win := if next = some (chr '-') then win.sbumpc.2 else win
    { b with win := win, _lastPart := true }
  else if ch = some (chr '\r') then
    let (next, win) := win.sgetc
    if next = some (chr '\n') then { b with win := win.sbumpc.2 }
    else { b with win := win, _lastPart := true }
  else if ch = some (chr '\n') then { b with win := win }
  else { b with win := win, _lastPart := true }

/-- The part of `readContent` that follows a boundary found at the start of the window. -/
def consumeBoundary (b : MultipartStreamBuf) : MultipartStreamBuf :=
  let p := b.win.ahead
  let avail := b.win.available
  let pos := (if p.head? = some (chr '\r') then 1 else 0) + 1 + 2 + b._boundary.length
  if pos < avail then
    if p.getD pos 0 = chr '-' then
      let pos := pos + if pos + 1 < avail ∧ p.getD (pos + 1) 0 = chr '-' then 2 else 1
      { b with win := b.win.consume pos, _lastPart := true, _boundaryFound := true }
    else if p.getD pos 0 = chr '\r' ∧ pos + 1 < avail ∧ p.getD (pos + 1) 0 = chr '\n' then
      { b with win := b.win.consume (pos + 2), _boundaryFound := true }
    else if p.getD pos 0 = chr '\n' then
      { b with win := b.win.consume (pos + 1), _boundaryFound := true }
    else
      { b with win := b.win.consume pos, _lastPart := true, _boundaryFound := true }
  else
    { consumePostBoundaryDelimiter { b with win := b.win.consume (min pos avail) } with
      _boundaryFound := true }

/-- Expect these bytes. -/
def expect : List UInt8 → ReadWindow → Bool × ReadWindow
  | [], w => (true, w)
  | c :: cs, w =>
      match w.sbumpc with
      | (some ch, w) => if ch = c then expect cs w else (false, w)
      | (none, w) => (false, w)

/-- The end of a part whose length is known: `[CR]LF--boundary` must follow. -/
def endOfContent (b : MultipartStreamBuf) : Option (List UInt8) × MultipartStreamBuf :=
  let (ch, win) := b.win.sgetc
  let win := if ch = some (chr '\r') then win.sbumpc.2 else win
  match expect (ascii "\n--" ++ b._boundary) win with
  | (true, win) =>
      (some [], { consumePostBoundaryDelimiter { b with win := win } with _boundaryFound := true })
  | (false, win) => (none, { b with win := win, _lastPart := true })

/-- Copy `n` bytes to the caller. -/
def copyOut (b : MultipartStreamBuf) (n : ℕ) : Option (List UInt8) × MultipartStreamBuf :=
  (some (b.win.ahead.take n), { b with win := b.win.consume n })

/-- The part of `readContent` that scans the window.  The recursive call of the source happens
when a second `fill` has brought the boundary into the window; `again` is the number of calls
that may still follow. -/
def scanContent (length : ℕ) : ℕ → MultipartStreamBuf →
    Option (List UInt8) × MultipartStreamBuf
  | again, b =>
      let patLen := b._boundary.length + 4
      let b := { b with win := b.win.fill }
      let avail := b.win.available
      if avail = 0 then (none, { b with _lastPart := true })
      else
        match scanForBoundary b._boundary b.win.ahead 0 with
        | some boundaryPos =>
            let contentLen := min boundaryPos length
            let (bytes, b) := b.copyOut contentLen
            if contentLen < boundaryPos then (bytes, b) else (bytes, b.consumeBoundary)
        | none =>
            if patLen < avail then b.copyOut (min (avail - patLen) length)
            else
              let prevAvail := avail
              let b := { b with win := b.win.fill }
              let avail := b.win.available
              let found := (scanForBoundary b._boundary b.win.ahead 0).isSome
              match again, decide (prevAvail < avail), found with
              | again + 1, true, true => scanContent length again b
              | _, grown, _ =>
                  if grown ∧ patLen < avail then b.copyOut (min (avail - patLen) length)
                  else
                    let toCopy := min avail length
                    let (bytes, b) := b.copyOut toCopy
                    let b := if avail = prevAvail then { b with _lastPart := true } else b
                    (if 0 < toCopy then bytes else none, b)

/-- `MultipartStreamBuf::readContent`. -/
def readContent (b : MultipartStreamBuf) (length : ℕ) :
    Option (List UInt8) × MultipartStreamBuf :=
  match b._contentLength with
  | some contentLength =>
      if b._bytesRead < contentLength then
        let (bytes, win) := b.win.sgetn (min (contentLength - b._bytesRead) length)
        if bytes = [] then (none, { b with win := win, _lastPart := true })
        else (some bytes, { b with win := win, _bytesRead := b._bytesRead + bytes.length })
      else b.endOfContent
  | none => scanContent length 1 b

/-- `MultipartStreamBuf::readFromDevice`. -/
def readFromDevice (b : MultipartStreamBuf) (length : ℕ) :
    Option (List UInt8) × MultipartStreamBuf :=
  if b._boundaryFound then (none, b) else b.readContent length

/-- What a user reads from the stream of the part: `underflow` asks for a buffer of bytes until
none come.  Each round but the last delivers a byte. -/
def readAll : ℕ → MultipartStreamBuf → List UInt8 × MultipartStreamBuf
  | 0, b => ([], b)
  | rounds + 1, b =>
      match b.readFromDevice (STREAM_BUFFER_SIZE - 4) with
      | (some (c :: cs), b) =>
          let (bytes, b) := readAll rounds b
          (c :: cs ++ bytes, b)
      | (_, b) => ([], b)

end MultipartStreamBuf

/-! ### The length of a part -/

/-- `std::from_chars` for an `Int64` in base 10: the value and the rest of the text; `none` when
there is no number or it does not fit. -/
def fromChars (text : List UInt8) : Option (ℤ × List UInt8) :=
  let negative := text.head? = some (chr '-')
  let text := if negative then text.tail else text
  let isDigit (c : UInt8) : Bool := chr '0' ≤ c && c ≤ chr '9'
  let digits := text.takeWhile isDigit
  let value : ℤ := digits.foldl (fun n c => n * 10 + (c.toNat - 48 : ℕ)) 0
  let value := if negative then -value else value
  if digits = [] ∨ value < -2 ^ 63 ∨ 2 ^ 63 ≤ value then none
  else some (value, text.dropWhile isDigit)

/-- `NumberParser::tryParse64`, which is `strToInt` in base 10 with `,` as the separator of
thousands. -/
def tryParse64 (s : List UInt8) : Option ℤ :=
  let begin := s.dropWhile isSpace
  let start := if begin.head? = some (chr '+') then begin.tail else begin
  match fromChars start with
  | some (value, []) => some value
  | some (_, _) =>
      let cleaned := start.filter fun c => c != chr ','
      if cleaned.length ≤ 66 then
        match fromChars cleaned with
        | some (value, []) => some value
        | _ => none
      else none
  | none => none

/-- The content length that `nextPart` takes from the header. -/
def contentLengthOf (m : List Field) : Option ℕ :=
  match NameValueCollection.find m (ascii "Content-Length") with
  | some f =>
      match tryParse64 f.value with
      | some len => if 0 ≤ len then some len.toNat else none
      | none => none
  | none => none

/-! ### `MultipartReader` -/

/-- The exceptions of the reader. -/
inductive MultipartError
  | multipartException (text : String)
  | message (e : MessageError)
  /-- A loop has not ended yet. -/
  | outOfFuel
deriving DecidableEq, Repr

/-- The members of `MultipartReader`.  The window is created together with the reader: without a
boundary the source defers this, but an empty window cannot be told from none. -/
structure MultipartReader where
  /-- `_istr.good()`. -/
  good : Bool := true
  _boundary : List UInt8
  _window : ReadWindow
  /-- The stream of the current part; its window is `_window`. -/
  _pMPI : Option MultipartStreamBuf := none

namespace MultipartReader

/-- The constructor, on a stream with these bytes; without boundary for the empty one. -/
def create (istr boundary : List UInt8) : MultipartReader :=
  { _boundary := boundary, _window := { underlying := istr } }

/-- `_istr.peek()`. -/
def peek (r : MultipartReader) : Option UInt8 × MultipartReader :=
  if r.good then
    match r._window.underlying with
    | [] => (none, { r with good := false })
    | c :: _ => (some c, r)
  else (none, r)

/-- `_istr.get()`. -/
def get (r : MultipartReader) : Option UInt8 × MultipartReader :=
  if r.good then
    match r._window.underlying with
    | [] => (none, { r with good := false })
    | c :: rest => (some c, { r with _window := { r._window with underlying := rest } })
  else (none, r)

/-- The loop of `readLine`; `left` is what is left of `maxLength`. -/
def lineLoop (n : ℕ) : ℕ → List UInt8 → MultipartReader →
    List UInt8 × Option UInt8 × ℕ × MultipartReader
  | 0, line, r => (line, r.peek.1, 0, r.peek.2)
  | left + 1, line, r =>
      match r.peek with
      | (some c, r) =>
          if c = chr '\r' ∨ c = chr '\n' then (line, some c, left + 1, r)
          else lineLoop n left (if line.length < n then line ++ [c] else line) r.get.2
      | (none, r) => (line, none, left + 1, r)

/-- `MultipartReader::readLine`: the line, the result and the reader. -/
def readLine (r : MultipartReader) (n : ℕ) : List UInt8 × Bool × MultipartReader :=
  let (line, ch, left, r) := lineLoop n 1024 [] r
  let r := if ch ≠ none then r.get.2 else r
  let r :=
    if ch = some (chr '\r') then
      let (next, r) := r.peek
      if next = some (chr '\n') then r.get.2 else r
    else r
  (line, decide (ch ≠ none ∧ 0 < left), r)

/-- The loop of `findFirstBoundary`; a line that is read takes a byte. -/
def firstBoundaryLoop : ℕ → MultipartReader → Except MultipartError MultipartReader
  | 0, _ => .error .outOfFuel
  | rounds + 1, r =>
      let expect := ascii "--" ++ r._boundary
      let (line, ok, r) := r.readLine expect.length
      if ok ∧ line ≠ expect then firstBoundaryLoop rounds r
      else if ok then .ok r
      else .error (.multipartException "No boundary line found")

/-- `MultipartReader::findFirstBoundary`. -/
def findFirstBoundary (r : MultipartReader) : Except MultipartError MultipartReader :=
  firstBoundaryLoop (r._window.underlying.length + 1) r

/-- The bytes of the boundary that `guessBoundary` reads. -/
def guessLoop : ℕ → MultipartReader → Option UInt8 × MultipartReader
  | 0, r => r.peek
  | left + 1, r =>
      match r.peek with
      | (some c, r) =>
          if c = chr '\r' ∨ c = chr '\n' then (some c, r)
          else
            let r := r.get.2
            guessLoop left { r with _boundary := r._boundary ++ [c] }
      | (none, r) => (none, r)

/-- White space before the first boundary; the byte behind it is returned. -/
def skipSpace : ℕ → MultipartReader → Option UInt8 × MultipartReader
  | 0, r => r.get
  | rounds + 1, r =>
      match r.get with
      | (some c, r) => if isSpace c then skipSpace rounds r else (some c, r)
      | (none, r) => (none, r)

/-- `MultipartReader::guessBoundary`. -/
def guessBoundary (r : MultipartReader) : Except MultipartError MultipartReader :=
  let (ch, r) := skipSpace r._window.underlying.length r
  let (next, r) := r.peek
  if ch = some (chr '-') ∧ next = some (chr '-') then
    let r := r.get.2
    let (ch, r) := guessLoop 128 r
    if ch ≠ some (chr '\r') ∧ ch ≠ some (chr '\n') then
      .error (.multipartException "Invalid boundary line found")
    else
      let r := r.get.2
      let (next, r) := r.peek
      .ok (if next = some (chr '\n') then r.get.2 else r)
  else .error (.multipartException "No boundary line found")

/-- `MultipartReader::parseHeader`, which reads into the `messageHeader` of the caller. -/
def parseHeader (decodeRFC2047 : List UInt8 → List UInt8) (messageHeader : MessageHeader)
    (win : ReadWindow) : Except MultipartError (MessageHeader × ReadWindow) :=
  let fuel := win.ahead.length + win.underlying.length + 1
  match MessageHeader.read decodeRFC2047 { messageHeader with _map := [] } fuel win with
  | .ok header win =>
      let (ch, win) := win.sbumpc
      if ch = some (chr '\r') then
        let (next, win) := win.sgetc
        .ok (header, if next = some (chr '\n') then win.sbumpc.2 else win)
      else .ok (header, win)
  | .error e _ => .error (.message e)

/-- `MultipartReader::nextPart`. -/
def nextPart (decodeRFC2047 : List UInt8 → List UInt8) (messageHeader : MessageHeader)
    (r : MultipartReader) : Except MultipartError (MessageHeader × MultipartReader) := do
  let r ← match r._pMPI with
    | none => if r._boundary = [] then r.guessBoundary else r.findFirstBoundary
    | some b =>
        if b._lastPart then .error (.multipartException "No more parts available") else .ok r
  let (header, win) ← parseHeader decodeRFC2047 messageHeader r._window
  let b := { win := win, _boundary := r._boundary, _contentLength := contentLengthOf header._map }
  return (header, { r with _window := win, _pMPI := some b })

/-- `MultipartReader::hasNextPart`. -/
def hasNextPart (r : MultipartReader) : Bool :=
  match r._pMPI with
  | some b => if b._lastPart then false else decide (0 < r._window.available) || r.good
  | none => decide (0 < r._window.available) || r.good

/-- Reading `stream()` to its end. -/
def readStream (r : MultipartReader) : List UInt8 × MultipartReader :=
  match r._pMPI with
  | some b =>
      let rounds := r._window.ahead.length + r._window.underlying.length + 2
      let (content, b) := { b with win := r._window }.readAll rounds
      (content, { r with _window := b.win, _pMPI := some b })
  | none => ([], r)

/-- A part: the fields of its header and its content. -/
structure Part where
  header : List Field
  content : List UInt8
deriving DecidableEq, Repr

/-- Reading all parts: while there is a next part, its header and its stream to the end. -/
def readParts (decodeRFC2047 : List UInt8 → List UInt8) (messageHeader : MessageHeader) :
    ℕ → MultipartReader → Except MultipartError (List Part)
  | 0, _ => .error .outOfFuel
  | rounds + 1, r =>
      if r.hasNextPart then do
        let (header, r) ← r.nextPart decodeRFC2047 messageHeader
        let (content, r) := r.readStream
        let parts ← readParts decodeRFC2047 messageHeader rounds r
        return ⟨header._map, content⟩ :: parts
      else return []

end MultipartReader

/-- What the writer makes of the parts: `nextPart` and the content for each, then `close`. -/
def MultipartWriter.writeParts (w : MultipartWriter) (parts : List MultipartReader.Part) :
    List UInt8 :=
  (parts.foldl (fun w p => (w.nextPart p.header).put p.content) w).close._ostr

end Poco.Net
