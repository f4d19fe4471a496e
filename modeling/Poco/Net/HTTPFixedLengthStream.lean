import Poco.Foundation.BufferedOutput
import Poco.Net.HTTPChunkedStream

/-! # `HTTPFixedLengthStreamBuf`

The stream buffer of HTTP message bodies whose length is known.  It counts the bytes that have gone
through it, in either direction, and takes or returns no more than the length; a stream to which more is
written becomes bad.

However a program divides what it writes, the first `length` bytes of it are sent (`sent_eq`), and a reader
of the same length returns these and leaves everything behind them in the session (`receives_sent`). -/

namespace Poco.Net

open Poco.Lib

open Poco.Foundation (BufferedStreamBuf)

open Poco.Foundation.BufferedStreamBuf (OutputStream)

open Poco.Net.HTTPChunkedStreamBuf (Op written)

/-- The members of `HTTPFixedLengthStreamBuf`. -/
structure HTTPFixedLengthStreamBuf where
  _session : HTTPSession
  _length : ℤ
  _count : ℤ := 0

namespace HTTPFixedLengthStreamBuf

/-- `readFromDevice`. -/
def readFromDevice (length : ℕ) : EStateM MessageError HTTPFixedLengthStreamBuf (Option (List UInt8)) := fun b =>
  if b._count < b._length then
    let length := if b._count + length > b._length then (b._length - b._count).toNat else length
    let (bytes, session) := b._session.read length
    .ok (some bytes) { b with _session := session, _count := b._count + bytes.length }
  else .ok (some []) b

/-- `writeToDevice`: how many bytes are sent. -/
def writeToDevice (buffer : List UInt8) (b : HTTPFixedLengthStreamBuf) : ℕ × HTTPFixedLengthStreamBuf :=
  if b._count < b._length then
    let length := if b._count + buffer.length > b._length then (b._length - b._count).toNat else buffer.length
    (length, { b with _session := b._session.write (buffer.take length), _count := b._count + length })
  else (0, b)

/-! ### Writing -/

/-- A new output stream. -/
def openOutput (session : HTTPSession) (length : ℤ) : OutputStream HTTPFixedLengthStreamBuf where
  buf := { device := { _session := session, _length := length }, _bufsize := HTTPBufferAllocator.BUFFER_SIZE }

/-- One operation of an output stream. -/
def step (o : OutputStream HTTPFixedLengthStreamBuf) : Op → OutputStream HTTPFixedLengthStreamBuf
  | .write bytes => o.write writeToDevice bytes
  | .flush => o.flush writeToDevice

/-- What the operations and the destructor of an output stream leave of the session. -/
def send (session : HTTPSession) (length : ℤ) (ops : List Op) : HTTPSession :=
  ((ops.foldl step (openOutput session length)).close writeToDevice)._session

/-- The bytes that the device has sent. -/
def Sent (session : HTTPSession) (length : ℤ) (taken : List UInt8) (b : HTTPFixedLengthStreamBuf) : Prop :=
  taken.length ≤ length.toNat ∧ b = ⟨session.write taken, length, taken.length⟩

theorem accepts_sent (session : HTTPSession) (length : ℤ) :
    BufferedStreamBuf.Accepts writeToDevice length.toNat (Sent session length) where
  le h := h.1
  count := by
    rintro taken d bytes ⟨hle, rfl⟩
    simp only [writeToDevice]
    split_ifs <;> dsimp only <;> omega
  takes := by
    rintro taken d bytes ⟨hle, rfl⟩
    have htaken : taken.take length.toNat = taken := List.take_of_length_le hle
    refine ⟨List.length_take_le _ _, ?_⟩
    rw [List.take_append, htaken]
    simp only [writeToDevice]
    split_ifs with hroom hlong
    · have hlen : (length - taken.length).toNat = length.toNat - taken.length := by omega
      simp only [hlen, HTTPSession.write, List.append_assoc, HTTPFixedLengthStreamBuf.mk.injEq, true_and]
      rw [List.length_append, List.length_take]
      omega
    · have hall : bytes.take (length.toNat - taken.length) = bytes := List.take_of_length_le (by omega)
      simp only [hall, List.take_length, HTTPSession.write, List.append_assoc, HTTPFixedLengthStreamBuf.mk.injEq,
        true_and]
      rw [List.length_append]
      omega
    · have hnone : length.toNat - taken.length = 0 := by omega
      rw [hnone, List.take_zero, List.append_nil]

theorem fills_steps (session : HTTPSession) (length : ℤ) (ops : List Op) :
    BufferedStreamBuf.Fills length.toNat (Sent session length) (written ops)
      (ops.foldl step (openOutput session length)) := by
  have hwrite := accepts_sent session length
  induction ops using List.reverseRecOn with
  | nil =>
      refine ⟨[], ⟨Nat.zero_le _, ?_⟩, rfl⟩
      simp [openOutput, HTTPSession.write]
  | append_singleton ops op ih =>
      rw [List.foldl_append, written, List.flatMap_append, List.flatMap_singleton]
      cases op with
      | write bytes => exact ih.write hwrite bytes
      | flush =>
          rw [List.append_nil]
          exact ih.flush hwrite

/-- The first bytes that are written are sent, up to the length of the stream. -/
theorem send_eq (session : HTTPSession) (length : ℤ) (ops : List Op) :
    send session length ops = session.write ((written ops).take length.toNat) := by
  obtain ⟨-, hdevice⟩ := (fills_steps session length ops).close_eq (accepts_sent session length)
  rw [send, hdevice]

/-! ### Reading -/

/-- A new input stream. -/
def openInput (session : HTTPSession) (length : ℤ) : BufferedStreamBuf HTTPFixedLengthStreamBuf where
  device := { _session := session, _length := length }
  _bufsize := HTTPBufferAllocator.BUFFER_SIZE

/-- The content is what is missing of the length, or all that arrives; the rest follows. -/
def Holds (rest content : List UInt8) (b : HTTPFixedLengthStreamBuf) : Prop :=
  b._session.incoming = content ++ rest ∧ content.length ≤ (b._length - b._count).toNat ∧
    (content.length = (b._length - b._count).toNat ∨ rest = [])

/-- The length is reached, or the connection has ended. -/
def Ended (rest : List UInt8) (b : HTTPFixedLengthStreamBuf) : Prop :=
  b._session.incoming = rest ∧ (b._length ≤ b._count ∨ b._session._buffer = [] ∧ b._session._socket = [])

theorem receiveBytes_nil {n : ℕ} {pieces : List (List UInt8)} (h : pieces.flatten = []) :
    HTTPSession.receiveBytes n pieces = ([], []) := by
  fun_induction HTTPSession.receiveBytes n pieces with
  | case1 => rfl
  | case2 pieces ih => exact ih h
  | case3 piece pieces hpiece =>
      rw [List.flatten_cons, List.append_eq_nil_iff] at h
      exact absurd h.1 hpiece

theorem read_closed {s : HTTPSession} (h : s.incoming = []) (n : ℕ) : s.read n = ([], { s with _socket := [] }) := by
  rw [HTTPSession.incoming, List.append_eq_nil_iff] at h
  simp [HTTPSession.read, HTTPSession.receive, h.1, receiveBytes_nil h.2]

theorem readFromDevice_closed {b : HTTPFixedLengthStreamBuf} (h : b._session.incoming = [])
    (hmore : b._count < b._length) (n : ℕ) :
    readFromDevice n b = .ok (some []) { b with _session := { b._session with _socket := [] } } := by
  rw [readFromDevice, if_pos hmore]
  simp only [read_closed h, List.length_nil, Nat.cast_zero, add_zero]

theorem Ended.eof {rest : List UInt8} {b : HTTPFixedLengthStreamBuf} (h : Ended rest b) (n : ℕ) :
    readFromDevice n b = .ok (some []) b := by
  by_cases hmore : b._count < b._length
  · obtain ⟨-, hle | ⟨hbuffer, hsocket⟩⟩ := h
    · exact absurd hmore (not_lt.mpr hle)
    · have hincoming : b._session.incoming = [] := by simp [HTTPSession.incoming, hbuffer, hsocket]
      rw [readFromDevice_closed hincoming hmore, ← hsocket]
  · rw [readFromDevice, if_neg hmore]

theorem supplies_holds (rest : List UInt8) :
    BufferedStreamBuf.Supplies readFromDevice (Holds rest) (Ended rest) where
  some := by
    rintro content b n ⟨hin, hle, hend⟩ hne hn
    have hpos := List.length_pos_iff.mpr hne
    have hmore : b._count < b._length := by omega
    obtain ⟨m, hm, hmpos, hmle⟩ : ∃ m, (if b._count + n > b._length then (b._length - b._count).toNat else n) = m ∧
        0 < m ∧ m ≤ (b._length - b._count).toNat := by
      refine ⟨_, rfl, ?_, ?_⟩ <;> split_ifs <;> omega
    obtain ⟨bytes, s', hread, hbytes, hlen, heq⟩ := HTTPSession.read_spec (s := b._session) hmpos
      (by rw [hin]; exact List.append_ne_nil_of_left_ne_nil hne _)
    -- the bytes are the first ones of the content
    obtain ⟨content', rfl⟩ : bytes <+: content := by
      have hbefore : bytes <+: content ++ rest := hin ▸ ⟨_, heq.symm⟩
      rcases hend with hfull | rfl
      · exact List.prefix_of_prefix_length_le hbefore (List.prefix_append _ _) (by omega)
      · rwa [List.append_nil] at hbefore
    rw [hin, List.append_assoc] at heq
    rw [List.length_append] at hle hend
    refine ⟨bytes, content', ⟨s', b._length, b._count + bytes.length⟩, ?_, hbytes, rfl,
      (List.append_cancel_left heq).symm, ?_, ?_⟩
    · rw [readFromDevice, if_pos hmore]
      simp only [hm, hread]
    · dsimp only
      omega
    · exact hend.imp_left fun hfull => by dsimp only; omega
  done := by
    rintro b n ⟨hin, -, hend⟩ -
    rw [List.length_nil] at hend
    by_cases hmore : b._count < b._length
    · have hrest : rest = [] := hend.resolve_left (by omega)
      rw [hrest, List.append_nil] at hin
      have hread := readFromDevice_closed hin hmore n
      rw [HTTPSession.incoming, List.append_eq_nil_iff] at hin
      refine ⟨_, _, hread, rfl, ?_, .inr ⟨hin.1, rfl⟩⟩
      rw [HTTPSession.incoming, hrest, hin.1]
      rfl
    · have hended : Ended rest b := ⟨hin, .inl (not_lt.mp hmore)⟩
      exact ⟨_, b, hended.eof n, rfl, hended⟩
  eof h := ⟨_, h.eof _, rfl⟩

/-- A reader returns the next bytes up to its length, and leaves what follows. -/
theorem readSizes_eq (session : HTTPSession) (length : ℤ) (sizes : List ℕ) :
    ∃ b', BufferedStreamBuf.readSizes readFromDevice sizes (openInput session length) =
        .ok (BufferedStreamBuf.slices sizes (session.incoming.take length.toNat)) b' ∧
      ((session.incoming.take length.toNat).length < sizes.sum →
        b'.get = [] ∧ b'.device._session.incoming = session.incoming.drop length.toNat) := by
  have hholds : Holds (session.incoming.drop length.toNat) (session.incoming.take length.toNat)
      (openInput session length).device := by
    refine ⟨(List.take_append_drop _ _).symm, ?_, ?_⟩
    · show _ ≤ (length - 0).toNat
      rw [List.length_take, sub_zero]
      exact Nat.min_le_left _ _
    · show _ = (length - 0).toNat ∨ _
      rw [List.length_take, sub_zero, List.drop_eq_nil_iff]
      omega
  obtain ⟨b', hok, hend⟩ := BufferedStreamBuf.readSizes_eq (supplies_holds _) (b := openInput session length)
    ⟨_, rfl, hholds⟩ (show 4 < HTTPBufferAllocator.BUFFER_SIZE by decide) sizes
  refine ⟨b', hok, fun hlt => ?_⟩
  obtain ⟨hget, hin, -⟩ := hend hlt
  exact ⟨hget, hin⟩

/-- **Main result.** An output stream sends what is written to it, however it is divided, up to its length;
an input stream of this length returns these bytes in pieces of any sizes, and leaves what follows. -/
theorem receives_sent (session : HTTPSession) (length : ℤ) (ops : List Op) (hlen : length.toNat ≤ (written ops).length)
    {s : HTTPSession} {rest : List UInt8} (h : s.incoming = (written ops).take length.toNat ++ rest)
    (sizes : List ℕ) :
    send session length ops = session.write ((written ops).take length.toNat) ∧
      ∃ b', BufferedStreamBuf.readSizes readFromDevice sizes (openInput s length) =
          .ok (BufferedStreamBuf.slices sizes ((written ops).take length.toNat)) b' ∧
        (length.toNat < sizes.sum → b'.get = [] ∧ b'.device._session.incoming = rest) := by
  have hfull : ((written ops).take length.toNat).length = length.toNat := List.length_take_of_le hlen
  have htake : s.incoming.take length.toNat = (written ops).take length.toNat := by
    rw [h, List.take_left' hfull]
  have hdrop : s.incoming.drop length.toNat = rest := by
    rw [h, List.drop_left' hfull]
  obtain ⟨b', hok, hend⟩ := readSizes_eq s length sizes
  rw [htake] at hok hend
  rw [hfull, hdrop] at hend
  exact ⟨send_eq session length ops, b', hok, hend⟩

/-- Of five bytes, written in two parts, four are sent, and read in two parts. -/
theorem receives_sent_pieces :
    send {} 4 [.write [1, 2], .flush, .write [3, 4, 5]] = HTTPSession.write {} [1, 2, 3, 4] ∧
      ∃ b', BufferedStreamBuf.readSizes readFromDevice [3, 3]
          (openInput { _socket := [[1], [2, 3, 4, 6]] } 4) = .ok [[1, 2, 3], [4]] b' ∧
        (Int.toNat 4 < [3, 3].sum → b'.get = [] ∧ b'.device._session.incoming = [6]) :=
  receives_sent {} 4 [.write [1, 2], .flush, .write [3, 4, 5]] (by decide)
    (show HTTPSession.incoming { _socket := [[1], [2, 3, 4, 6]] } = [1, 2, 3, 4] ++ [6] by decide) [3, 3]

end HTTPFixedLengthStreamBuf

end Poco.Net
