import Poco.Net.HTTPFixedLengthStream
import Poco.Net.HTTPHeaderStream
import Poco.Net.HTTPMessage

/-! # The bodies of HTTP messages

A message is sent by one of three streams: its header and then the body in chunks, its header and the body
through a stream whose length is known, or both through a stream that ends with the connection.  On the
other side a stream of the same kind reads the body.

`CarriesBody` says that a header and a content arrive when both sides have chosen the same kind: what is sent
is the header and some bytes, and from these the reader gets the content, for any pieces in which they
arrive and any sizes in which it is read, and leaves what follows in the session.  The trailers of chunked
messages, which a program can fill, are empty here. -/

namespace Poco.Net

open Poco.Lib

open Poco.Foundation (BufferedStreamBuf)

open Poco.Foundation.BufferedStreamBuf (OutputStream slices)

open Poco.Net.HTTPChunkedStreamBuf (Op written)

namespace HTTPStreamBuf

/-- `readFromDevice`. -/
def readFromDevice (length : ℕ) : EStateM MessageError HTTPSession (Option (List UInt8)) := fun session =>
  let (bytes, session) := session.read length
  .ok (some bytes) session

/-- `writeToDevice`. -/
def writeToDevice (buffer : List UInt8) (session : HTTPSession) : HTTPSession := session.write buffer

end HTTPStreamBuf

/-- The output stream of a message. -/
inductive BodyOutput
  | chunked (b : BufferedStreamBuf HTTPChunkedStreamBuf)
  | fixedLength (o : OutputStream HTTPFixedLengthStreamBuf)
  | plain (b : BufferedStreamBuf HTTPSession)

namespace BodyOutput

/-- One operation. -/
def step : BodyOutput → Op → BodyOutput
  | .chunked b, op => .chunked (HTTPChunkedStreamBuf.step b op)
  | .fixedLength o, op => .fixedLength (HTTPFixedLengthStreamBuf.step o op)
  | .plain b, .write bytes => .plain (b.sputn HTTPStreamBuf.writeToDevice bytes)
  | .plain b, .flush => .plain (b.sync HTTPStreamBuf.writeToDevice)

/-- What the destructor leaves of the session. -/
def close : BodyOutput → HTTPSession
  | .chunked b => (HTTPChunkedStreamBuf.close b).device._session
  | .fixedLength o => (o.close HTTPFixedLengthStreamBuf.writeToDevice)._session
  | .plain b => (b.sync HTTPStreamBuf.writeToDevice).device

/-- The header through an `HTTPHeaderOutputStream`, and an `HTTPChunkedOutputStream` with an empty trailer. -/
def openChunked (header : List UInt8) (session : HTTPSession) : BodyOutput :=
  .chunked
    { device := { _session := HTTPHeaderStreamBuf.send header session, _pTrailer := some {} }
      _bufsize := HTTPBufferAllocator.BUFFER_SIZE }

/-- An `HTTPFixedLengthOutputStream` for the header and so many bytes, with the header. -/
def openFixedLength (header : List UInt8) (length : ℤ) (session : HTTPSession) : BodyOutput :=
  .fixedLength ((HTTPFixedLengthStreamBuf.openOutput session (length + header.length)).write
    HTTPFixedLengthStreamBuf.writeToDevice header)

/-- An `HTTPOutputStream`, with the header. -/
def openPlain (header : List UInt8) (session : HTTPSession) : BodyOutput :=
  .plain (BufferedStreamBuf.sputn HTTPStreamBuf.writeToDevice
    { device := session, _bufsize := HTTPBufferAllocator.BUFFER_SIZE } header)

/-- What is sent of a message. -/
def send (ops : List Op) (o : BodyOutput) : HTTPSession := (ops.foldl step o).close

end BodyOutput

/-- The input stream of a body. -/
inductive BodyInput
  | chunked (b : BufferedStreamBuf HTTPChunkedStreamBuf)
  | fixedLength (b : BufferedStreamBuf HTTPFixedLengthStreamBuf)
  | plain (b : BufferedStreamBuf HTTPSession)

namespace BodyInput

/-- An `HTTPChunkedInputStream`. -/
def openChunked (session : HTTPSession) : BodyInput :=
  .chunked
    { device := { _session := session, _pTrailer := some {} }, _bufsize := HTTPBufferAllocator.BUFFER_SIZE }

/-- An `HTTPFixedLengthInputStream`. -/
def openFixedLength (length : ℤ) (session : HTTPSession) : BodyInput :=
  .fixedLength (HTTPFixedLengthStreamBuf.openInput session length)

/-- An `HTTPInputStream`. -/
def openPlain (session : HTTPSession) : BodyInput :=
  .plain { device := session, _bufsize := HTTPBufferAllocator.BUFFER_SIZE }

/-- One read after another, and the session behind them. -/
def read (decodeRFC2047 : List UInt8 → List UInt8) (sizes : List ℕ) :
    BodyInput → Except MessageError (List (List UInt8) × HTTPSession)
  | .chunked b =>
      match BufferedStreamBuf.readSizes (HTTPChunkedStreamBuf.readFromDevice decodeRFC2047) sizes b with
      | .ok bytes b => .ok (bytes, b.device._session)
      | .error e _ => .error e
  | .fixedLength b =>
      match BufferedStreamBuf.readSizes HTTPFixedLengthStreamBuf.readFromDevice sizes b with
      | .ok bytes b => .ok (bytes, b.device._session)
      | .error e _ => .error e
  | .plain b =>
      match BufferedStreamBuf.readSizes HTTPStreamBuf.readFromDevice sizes b with
      | .ok bytes b => .ok (bytes, b.device)
      | .error e _ => .error e

end BodyInput

/-- The header and the content arrive: `send` tells what the sender does to its session, and `input` is the
stream that the other side opens behind the header.  Only `closing` senders need the rest to be empty. -/
def CarriesBody (decodeRFC2047 : List UInt8 → List UInt8) (closing : Prop) (header content : List UInt8)
    (send : HTTPSession → HTTPSession) (input : HTTPSession → BodyInput) : Prop :=
  ∀ session : HTTPSession, ∃ bytes, send session = session.write (header ++ bytes) ∧
    ∀ (s : HTTPSession) (rest : List UInt8), s.incoming = bytes ++ rest → (closing → rest = []) →
      ∀ sizes : List ℕ, content.length < sizes.sum →
        ∃ s', (input s).read decodeRFC2047 sizes = .ok (slices sizes content, s') ∧ s'.incoming = rest

theorem BodyOutput.foldl_step_chunked (ops : List Op) (b : BufferedStreamBuf HTTPChunkedStreamBuf) :
    ops.foldl step (.chunked b) = .chunked (ops.foldl HTTPChunkedStreamBuf.step b) := by
  induction ops generalizing b with
  | nil => rfl
  | cons op ops ih => exact ih _

theorem BodyOutput.foldl_step_fixedLength (ops : List Op) (o : OutputStream HTTPFixedLengthStreamBuf) :
    ops.foldl step (.fixedLength o) = .fixedLength (ops.foldl HTTPFixedLengthStreamBuf.step o) := by
  induction ops generalizing o with
  | nil => rfl
  | cons op ops ih => exact ih _

/-- A plain stream hands what is written to it to the session. -/
theorem BodyOutput.flushes_plain (ops : List Op) {b : BufferedStreamBuf HTTPSession}
    (hsize : b._bufsize = HTTPBufferAllocator.BUFFER_SIZE) (hput : b.put.length ≤ b._bufsize) :
    ∃ b', ops.foldl step (.plain b) = .plain b' ∧
      BufferedStreamBuf.Flushes HTTPStreamBuf.writeToDevice b (written ops) b' := by
  induction ops using List.reverseRecOn with
  | nil => exact ⟨b, rfl, BufferedStreamBuf.flushes_nil hput⟩
  | append_singleton ops op ih =>
      obtain ⟨b', hfold, hflushes⟩ := ih
      obtain ⟨-, -, -, -, hle, hsame⟩ := id hflushes
      rw [← hsame] at hle
      have hpos : 0 < b'._bufsize := by
        rw [hsame, hsize]
        decide
      rw [List.foldl_append, hfold, written, List.flatMap_append]
      cases op with
      | write bytes =>
          rw [List.flatMap_singleton]
          exact ⟨_, rfl, hflushes.trans (BufferedStreamBuf.flushes_sputn hpos hle bytes)⟩
      | flush => exact ⟨_, rfl, hflushes.trans (BufferedStreamBuf.flushes_sync hle).1⟩

theorem HTTPStreamBuf.supplies_incoming :
    BufferedStreamBuf.Supplies HTTPStreamBuf.readFromDevice (fun content session => session.incoming = content)
      (fun session => session._buffer = [] ∧ session._socket = []) where
  some := by
    rintro content session n rfl hne hn
    obtain ⟨bytes, s', hread, hbytes, -, heq⟩ := HTTPSession.read_spec hn hne
    exact ⟨bytes, s'.incoming, s', by rw [HTTPStreamBuf.readFromDevice, hread], hbytes, heq, rfl⟩
  done := by
    rintro session n hnil -
    have hread := HTTPFixedLengthStreamBuf.read_closed hnil n
    rw [HTTPSession.incoming, List.append_eq_nil_iff] at hnil
    refine ⟨some [], { session with _socket := [] }, ?_, rfl, hnil.1, rfl⟩
    rw [HTTPStreamBuf.readFromDevice, hread]
  eof := by
    rintro session n ⟨hbuffer, hsocket⟩
    have hnil : session.incoming = [] := by simp [HTTPSession.incoming, hbuffer, hsocket]
    refine ⟨some [], ?_, rfl⟩
    rw [HTTPStreamBuf.readFromDevice, HTTPFixedLengthStreamBuf.read_closed hnil, ← hsocket]

section CarriesBody

variable {decodeRFC2047 : List UInt8 → List UInt8}

theorem CarriesBody.mono {closing closing' : Prop} {header content : List UInt8} {send : HTTPSession → HTTPSession}
    {input : HTTPSession → BodyInput} (h : CarriesBody decodeRFC2047 closing header content send input)
    (himp : closing → closing') : CarriesBody decodeRFC2047 closing' header content send input := by
  intro session
  obtain ⟨bytes, hsend, hreceive⟩ := h session
  exact ⟨bytes, hsend, fun s rest hs hclosing => hreceive s rest hs fun hc => hclosing (himp hc)⟩

theorem carries_chunked (header : List UInt8) (ops : List Op) :
    CarriesBody decodeRFC2047 False header (written ops)
      (fun session => BodyOutput.send ops (BodyOutput.openChunked header session)) BodyInput.openChunked := by
  intro session
  obtain ⟨bufs, hbufs, hflatten, hdevice⟩ := HTTPChunkedStreamBuf.close_steps
    (b := ⟨⟨HTTPHeaderStreamBuf.send header session, 0, some {}⟩, HTTPBufferAllocator.BUFFER_SIZE, [], []⟩)
    rfl rfl (by simp) ops
  refine ⟨HTTPChunkedStreamBuf.chunksText bufs [], ?_, ?_⟩
  · show (ops.foldl BodyOutput.step (.chunked _)).close = _
    rw [BodyOutput.foldl_step_chunked, BodyOutput.close, hdevice, HTTPHeaderStreamBuf.send_eq]
    simp [HTTPSession.write]
  · intro s rest h _ sizes hsizes
    have hstart : HTTPChunkedStreamBuf.Between rest (written ops) { _session := s, _pTrailer := some {} } := by
      refine ⟨[], bufs, by simp, hbufs, rfl, ?_, hflatten.symm⟩
      show s.incoming = _
      rw [h]
      simp [HTTPChunkedStreamBuf.chunksText]
    obtain ⟨b', hok, hend⟩ := BufferedStreamBuf.readSizes_eq
      (HTTPChunkedStreamBuf.supplies_chunks decodeRFC2047 rest)
      (b := ⟨{ _session := s, _pTrailer := some {} }, HTTPBufferAllocator.BUFFER_SIZE, [], []⟩)
      (show BufferedStreamBuf.Left _ (written ops) _ from ⟨written ops, rfl, .inr hstart⟩)
      (show 4 < HTTPBufferAllocator.BUFFER_SIZE by decide) sizes
    refine ⟨b'.device._session, ?_, (hend hsizes).2.2⟩
    simp only [BodyInput.openChunked, BodyInput.read, hok]

theorem carries_fixedLength (header : List UInt8) {ops : List Op} {length : ℤ} (hlen : 0 ≤ length)
    (henough : length.toNat ≤ (written ops).length) :
    CarriesBody decodeRFC2047 False header ((written ops).take length.toNat)
      (fun session => BodyOutput.send ops (BodyOutput.openFixedLength header length session))
      (BodyInput.openFixedLength length) := by
  intro session
  have hsent := HTTPFixedLengthStreamBuf.send_eq session (length + header.length) (.write header :: ops)
  refine ⟨(written ops).take length.toNat, ?_, ?_⟩
  · have htake : (written (.write header :: ops)).take (length + header.length).toNat =
        header ++ (written ops).take length.toNat := by
      have hsum : (length + header.length).toNat = header.length + length.toNat := by omega
      rw [written, List.flatMap_cons, hsum, List.take_length_add_append]
      rfl
    rw [htake] at hsent
    rw [← hsent]
    show (ops.foldl BodyOutput.step (.fixedLength _)).close = _
    rw [BodyOutput.foldl_step_fixedLength]
    rfl
  · intro s rest h _ sizes hsizes
    have hfull : ((written ops).take length.toNat).length = length.toNat := List.length_take_of_le henough
    obtain ⟨b', hok, hend⟩ := HTTPFixedLengthStreamBuf.readSizes_eq s length sizes
    rw [h, List.take_left' hfull] at hok hend
    refine ⟨b'.device._session, ?_, ?_⟩
    · simp only [BodyInput.openFixedLength, BodyInput.read, hok]
    · rw [(hend hsizes).2, List.drop_left' hfull]

/-- All that is written arrives, up to the end of the connection. -/
theorem carries_plain (header : List UInt8) (ops : List Op) :
    CarriesBody decodeRFC2047 True header (written ops)
      (fun session => BodyOutput.send ops (BodyOutput.openPlain header session)) BodyInput.openPlain := by
  intro session
  have hheader : BufferedStreamBuf.Flushes HTTPStreamBuf.writeToDevice
      ⟨session, HTTPBufferAllocator.BUFFER_SIZE, [], []⟩ header _ :=
    BufferedStreamBuf.flushes_sputn (show 0 < HTTPBufferAllocator.BUFFER_SIZE by decide) (by simp) header
  refine ⟨written ops, ?_, ?_⟩
  · obtain ⟨-, -, -, -, hle, hsize⟩ := id hheader
    obtain ⟨b', hfold, hops⟩ := BodyOutput.flushes_plain ops hsize (hle.trans_eq hsize.symm)
    obtain ⟨-, -, -, -, hle', hsize'⟩ := id hops
    obtain ⟨hsync, hnil⟩ : BufferedStreamBuf.Flushes HTTPStreamBuf.writeToDevice b' [] _ ∧ _ :=
      BufferedStreamBuf.flushes_sync (hle'.trans_eq hsize'.symm)
    obtain ⟨bufs, -, hdevice, hflatten, -⟩ := (hheader.trans hops).trans hsync
    rw [hnil, List.append_nil, List.append_nil, List.nil_append] at hflatten
    show (ops.foldl BodyOutput.step (.plain _)).close = _
    rw [hfold, BodyOutput.close, hdevice, ← hflatten]
    exact HTTPHeaderStreamBuf.foldl_write bufs session
  · intro s rest h hclosing sizes hsizes
    rw [hclosing trivial, List.append_nil] at h
    obtain ⟨b', hok, hend⟩ := BufferedStreamBuf.readSizes_eq HTTPStreamBuf.supplies_incoming
      (b := ⟨s, HTTPBufferAllocator.BUFFER_SIZE, [], []⟩)
      (show BufferedStreamBuf.Left _ (written ops) _ from ⟨written ops, rfl, h⟩)
      (show 4 < HTTPBufferAllocator.BUFFER_SIZE by decide) sizes
    obtain ⟨-, hbuffer, hsocket⟩ := hend hsizes
    refine ⟨b'.device, ?_, ?_⟩
    · simp only [BodyInput.openPlain, BodyInput.read, hok]
    · rw [HTTPSession.incoming, hbuffer, hsocket, hclosing trivial]
      rfl

end CarriesBody

end Poco.Net
