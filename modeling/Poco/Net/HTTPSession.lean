import Poco.Lib.Streams
import Poco.Net.MessageHeader

/-! # `HTTPSession` and `HTTPHeaderStream`

The two ends of a connection.  What is sent is collected; what arrives comes from the socket in pieces,
as the network delivers it, and `get`, `peek` and `read` take it from the buffer of the session or, when
that is empty, from the socket.  `incoming` are the bytes that are still to be read: the pieces do not
matter for what is read (`reads_incoming`, `read_spec`). -/

namespace Poco.Net

open Poco.Lib

/-- `HTTPBufferAllocator::BUFFER_SIZE`. -/
def HTTPBufferAllocator.BUFFER_SIZE : ℕ := 4096

/-- The members of `HTTPSession`: the bytes from `_pCurrent` to `_pEnd`, the pieces that the socket
will receive, what has been sent, and the text of the exception. -/
structure HTTPSession where
  _buffer : List UInt8 := []
  _socket : List (List UInt8) := []
  _sent : List UInt8 := []
  _exception : Option String := none
deriving DecidableEq, Repr

namespace HTTPSession

/-- What is still to be read. -/
def incoming (s : HTTPSession) : List UInt8 := s._buffer ++ s._socket.flatten

/-- `write`. -/
def write (s : HTTPSession) (bytes : List UInt8) : HTTPSession := { s with _sent := s._sent ++ bytes }

/-- `setException`. -/
def setException (s : HTTPSession) (text : String) : HTTPSession := { s with _exception := some text }

/-- `receiveBytes` of a socket: at most `length` bytes of the next piece that is not empty. -/
def receiveBytes (length : ℕ) : List (List UInt8) → List UInt8 × List (List UInt8)
  | [] => ([], [])
  | [] :: pieces => receiveBytes length pieces
  | piece :: pieces => (piece.take length, piece.drop length :: pieces)

/-- `receive`. -/
def receive (length : ℕ) (s : HTTPSession) : List UInt8 × HTTPSession :=
  let (bytes, socket) := receiveBytes length s._socket
  (bytes, { s with _socket := socket })

/-- `refill`, when the buffer is empty. -/
def refill (s : HTTPSession) : HTTPSession :=
  if s._buffer = [] then
    let (bytes, s) := receive HTTPBufferAllocator.BUFFER_SIZE s
    { s with _buffer := bytes }
  else s

/-- A `char` as an `int`: it is signed, and 0xFF becomes `eof`. -/
def intOfChar (c : UInt8) : Option UInt8 := if c = 0xFF then none else some c

/-- `get`. -/
def get (s : HTTPSession) : Option UInt8 × HTTPSession :=
  let s := refill s
  match s._buffer with
  | c :: buffer => (intOfChar c, { s with _buffer := buffer })
  | [] => (none, s)

/-- `peek`. -/
def peek (s : HTTPSession) : Option UInt8 × HTTPSession :=
  let s := refill s
  (s._buffer.head?.bind intOfChar, s)

/-- `read`. -/
def read (length : ℕ) (s : HTTPSession) : List UInt8 × HTTPSession :=
  if s._buffer ≠ [] then (s._buffer.take length, { s with _buffer := s._buffer.drop length })
  else receive length s

/-- `get` is how the bytes of a session are read one by one. -/
instance : Source HTTPSession where
  sbumpc := get
  sputbackc c s := { s with _buffer := c :: s._buffer }

/-! ### The pieces do not matter -/

variable {s : HTTPSession} {c : UInt8} {t : List UInt8}

theorem receiveBytes_spec {length : ℕ} (hlen : 0 < length) (pieces : List (List UInt8)) :
    (receiveBytes length pieces).1 ++ (receiveBytes length pieces).2.flatten = pieces.flatten ∧
      (receiveBytes length pieces).1.length ≤ length ∧
      (pieces.flatten ≠ [] → (receiveBytes length pieces).1 ≠ []) := by
  fun_induction receiveBytes length pieces with
  | case1 => simp
  | case2 pieces ih => simpa using ih
  | case3 piece pieces hpiece =>
      refine ⟨?_, List.length_take_le _ _, fun _ => ?_⟩
      · rw [List.flatten_cons, ← List.append_assoc, List.take_append_drop, List.flatten_cons]
      · cases piece with
        | nil => exact absurd rfl hpiece
        | cons c piece =>
            obtain ⟨n, rfl⟩ : ∃ n, length = n + 1 := ⟨length - 1, by omega⟩
            simp

theorem incoming_refill (s : HTTPSession) : (refill s).incoming = s.incoming := by
  rw [refill]
  split_ifs with hbuffer
  · rw [incoming, incoming, hbuffer, List.nil_append]
    exact (receiveBytes_spec (by decide) s._socket).1
  · rfl

/-- With something to read the buffer is not empty afterwards. -/
theorem refill_eq (h : s.incoming = c :: t) :
    ∃ buffer, (refill s)._buffer = c :: buffer ∧ buffer ++ (refill s)._socket.flatten = t := by
  have hin := (incoming_refill s).trans h
  have hne : (refill s)._buffer ≠ [] := by
    rw [refill]
    split_ifs with hbuffer
    · refine (receiveBytes_spec (by decide) s._socket).2.2 ?_
      rw [incoming, hbuffer, List.nil_append] at h
      simp [h]
    · exact hbuffer
  obtain ⟨d, buffer, hd⟩ := List.exists_cons_of_ne_nil hne
  rw [incoming, hd, List.cons_append] at hin
  obtain ⟨rfl, htail⟩ := List.cons.inj hin
  exact ⟨buffer, hd, htail⟩

theorem get_spec (h : s.incoming = c :: t) (hc : c ≠ 0xFF) :
    ∃ s', get s = (some c, s') ∧ s'.incoming = t := by
  obtain ⟨buffer, hbuffer, htail⟩ := refill_eq h
  refine ⟨{ refill s with _buffer := buffer }, ?_, htail⟩
  simp [get, hbuffer, intOfChar, hc]

theorem peek_spec (h : s.incoming = c :: t) (hc : c ≠ 0xFF) :
    ∃ s', peek s = (some c, s') ∧ s'.incoming = c :: t := by
  obtain ⟨buffer, hbuffer, -⟩ := refill_eq h
  refine ⟨refill s, ?_, (incoming_refill s).trans h⟩
  simp [peek, hbuffer, intOfChar, hc]

theorem reads_incoming {bs : List UInt8} (h : s.incoming = bs ++ t) (hbs : 0xFF ∉ bs) :
    ∃ s', Reads s bs s' ∧ s'.incoming = t := by
  induction bs generalizing s with
  | nil => exact ⟨s, rfl, h⟩
  | cons c bs ih =>
      rw [List.mem_cons, not_or] at hbs
      obtain ⟨s₁, hget, hin⟩ := get_spec h (Ne.symm hbs.1)
      obtain ⟨s', hreads, hin'⟩ := ih hin hbs.2
      exact ⟨s', ⟨s₁, hget, hreads⟩, hin'⟩

theorem read_spec {length : ℕ} (hlen : 0 < length) (h : s.incoming ≠ []) :
    ∃ bytes s', read length s = (bytes, s') ∧ bytes ≠ [] ∧ bytes.length ≤ length ∧
      s.incoming = bytes ++ s'.incoming := by
  rw [read]
  split_ifs with hbuffer
  · refine ⟨_, _, rfl, ?_, List.length_take_le _ _, ?_⟩
    · obtain ⟨n, rfl⟩ : ∃ n, length = n + 1 := ⟨length - 1, by omega⟩
      obtain ⟨c, buffer, hc⟩ := List.exists_cons_of_ne_nil hbuffer
      simp [hc]
    · rw [incoming, incoming, ← List.append_assoc, List.take_append_drop]
  · have hnil := not_not.mp hbuffer
    obtain ⟨heq, hle, hne⟩ := receiveBytes_spec hlen s._socket
    rw [incoming, hnil, List.nil_append] at h ⊢
    refine ⟨_, { s with _socket := (receiveBytes length s._socket).2 }, rfl, hne h, hle, ?_⟩
    rw [incoming, hnil, List.nil_append]
    exact heq.symm

end HTTPSession

/-! ### Headers -/

/-- The members of `HTTPHeaderStreamBuf`, with what is left in its get area. -/
structure HTTPHeaderStreamBuf where
  _session : HTTPSession
  _end : Bool := false
  get : List UInt8 := []

namespace HTTPHeaderStreamBuf

/-- `readFromDevice`: one line; an empty one is the last. -/
def readFromDevice (length : ℕ) (b : HTTPHeaderStreamBuf) : List UInt8 × HTTPHeaderStreamBuf :=
  if b._end then ([], b)
  else
    let line : EStateM MessageError HTTPSession (List UInt8 × Option UInt8) := do
      let ch ← bump
      collect (fun c => c != chr '\n') (length - 1) ch
    match line b._session with
    | .ok (bytes, some c) session =>
        let bytes := bytes ++ [c]
        (bytes, { b with _session := session, _end := b._end || bytes.length == 2 })
    | .ok (bytes, none) session => (bytes, { b with _session := session })
    | .error _ session => ([], { b with _session := session })

/-- The bytes of a header, line by line. -/
instance : Source HTTPHeaderStreamBuf where
  sbumpc b :=
    match b.get with
    | c :: get => (some c, { b with get })
    | [] =>
        match readFromDevice (HTTPBufferAllocator.BUFFER_SIZE - 4) b with
        | (c :: get, b) => (some c, { b with get })
        | ([], b) => (none, b)
  sputbackc c b := { b with get := c :: b.get }

end HTTPHeaderStreamBuf

end Poco.Net
