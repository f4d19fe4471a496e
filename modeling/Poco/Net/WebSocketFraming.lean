import Poco.Net.WebSocketImpl
import Poco.Lib.Runs
import Poco.Lib.Streams
import Mathlib.Data.List.Forall2
import Mathlib.Data.List.GetD

/-! # The frames of a WebSocket arrive as they were sent

What `sendBytes` writes for a sequence of messages, `receiveBytes` on the other side reads
back: the same payloads with the flags that were put on the wire, in order, each call taking
exactly the bytes of its frame from the stream, however the network cuts the stream.

Two things decide whether a blocking receiver gets that far, and both depend only on the sizes
of the frames (`Paced`).  A peek that finds fewer than `MAX_HEADER_LENGTH` bytes in the buffer
asks the socket for the rest, also when they hold a whole frame; if that frame is the last
thing the peer sends and the connection stays open, the call waits for ever.  And `_buffer`
only shrinks when it has been read to its end, which a sequence of short frames may put off
for as long as it likes. -/

namespace Poco.Net.WebSocketImpl

open Poco.Lib

variable {α : Type}

theorem toInt_of_le {n : ℕ} (h : n ≤ INT_MAX) (s : WebSocketImpl) : toInt n s = .ok n s := by
  simp [toInt, h, pure, EStateM.pure]

/-! ### The header of a frame -/

/-- The bytes of the frame before the payload. -/
def header (mustMaskPayload : Bool) (mask : Vector UInt8 4) (length : ℕ) (flags : ℤ) :
    List UInt8 :=
  let (lengthByte, extended) := encodeLength length
  wireFlags flags ::
    (if mustMaskPayload then FRAME_FLAG_MASK ||| lengthByte else lengthByte) ::
    (extended ++ if mustMaskPayload then mask.toList else [])

/-- The payload as it stands in the frame. -/
def body (mustMaskPayload : Bool) (mask : Vector UInt8 4) (buffer : List UInt8) : List UInt8 :=
  if mustMaskPayload then xorWith (keyStream mask.toList 0) buffer else buffer

/-- The number of bytes of the header. -/
def headerSize (mustMaskPayload : Bool) (length : ℕ) : ℕ :=
  2 + (encodeLength length).2.length + if mustMaskPayload then MASK_LENGTH else 0

/-- The number of bytes of the frame of a payload. -/
def frameLength (mustMaskPayload : Bool) (length : ℕ) : ℕ :=
  headerSize mustMaskPayload length + length

section Frame

variable (mustMaskPayload : Bool) (mask : Vector UInt8 4) (buffer : List UInt8) (flags : ℤ)

theorem frame_eq : frame mustMaskPayload mask buffer flags =
    header mustMaskPayload mask buffer.length flags ++ body mustMaskPayload mask buffer := by
  unfold frame header body
  cases mustMaskPayload <;> simp

@[simp] theorem length_body : (body mustMaskPayload mask buffer).length = buffer.length := by
  unfold body
  split <;> simp

@[simp] theorem length_header (length : ℕ) :
    (header mustMaskPayload mask length flags).length = headerSize mustMaskPayload length := by
  unfold header headerSize MASK_LENGTH
  cases mustMaskPayload <;> simp <;> omega

theorem length_frame : (frame mustMaskPayload mask buffer flags).length =
    frameLength mustMaskPayload buffer.length := by
  rw [frame_eq, List.length_append, length_header, length_body, frameLength]

theorem length_extended (length : ℕ) : (encodeLength length).2.length =
    if length < 126 then 0 else if length < 65536 then 2 else 8 := by
  unfold encodeLength
  split
  · rfl
  · split <;> simp

theorem two_le_headerSize (length : ℕ) : 2 ≤ headerSize mustMaskPayload length := by
  unfold headerSize
  omega

theorem headerSize_le (length : ℕ) : headerSize mustMaskPayload length ≤ MAX_HEADER_LENGTH := by
  unfold headerSize
  rw [length_extended]
  unfold MASK_LENGTH MAX_HEADER_LENGTH
  split <;> split <;> (try split) <;> omega

end Frame

/-- The seven low bits of the length byte and its mask bit do not disturb each other. -/
theorem lengthByte_bits : ∀ n < 128,
    UInt8.ofNat n &&& 0x7f = UInt8.ofNat n ∧ UInt8.ofNat n &&& FRAME_FLAG_MASK = 0 ∧
      (FRAME_FLAG_MASK ||| UInt8.ofNat n) &&& 0x7f = UInt8.ofNat n ∧
      (FRAME_FLAG_MASK ||| UInt8.ofNat n) &&& FRAME_FLAG_MASK ≠ 0 := by
  decide

theorem encodeLength_byte (length : ℕ) :
    ∃ n < 128, (encodeLength length).1 = UInt8.ofNat n := by
  unfold encodeLength
  split
  · exact ⟨length, by omega, rfl⟩
  · split
    · exact ⟨126, by omega, rfl⟩
    · exact ⟨127, by omega, rfl⟩

section Parse

variable {mustMaskPayload : Bool} {length : ℕ} {lengthByte : UInt8}

theorem lengthByte_spec (h : lengthByte = if mustMaskPayload then
    FRAME_FLAG_MASK ||| (encodeLength length).1 else (encodeLength length).1) :
    lengthByte &&& 0x7f = (encodeLength length).1 ∧
      (lengthByte &&& FRAME_FLAG_MASK ≠ 0 ↔ mustMaskPayload = true) := by
  obtain ⟨n, hn, he⟩ := encodeLength_byte length
  obtain ⟨h1, h2, h3, h4⟩ := lengthByte_bits n hn
  rw [he] at h ⊢
  subst h
  cases mustMaskPayload
  · exact ⟨h1, by simp [h2]⟩
  · exact ⟨h3, by simp [h4]⟩

theorem extendedLength_eq (h : lengthByte &&& 0x7f = (encodeLength length).1) :
    extendedLength lengthByte = (encodeLength length).2.length := by
  rw [length_extended, extendedLength, h]
  unfold encodeLength
  by_cases h1 : length < 126
  · have : ∀ n < 126, UInt8.ofNat n ≠ 127 ∧ UInt8.ofNat n ≠ 126 := by decide
    simp [h1, this length h1]
  · by_cases h2 : length < 65536
    · simp [h1, h2]
    · simp [h1, h2]

theorem decodeLength (h : length < 2 ^ 64) :
    (if (encodeLength length).2.length = 0 then (encodeLength length).1.toNat
      else ofBigEndian (encodeLength length).2) = length := by
  rw [length_extended]
  unfold encodeLength
  by_cases h1 : length < 126
  · simp only [h1, if_true]
    rw [UInt8.toNat_ofNat']
    omega
  · by_cases h2 : length < 65536
    · simp only [h1, h2, if_true, if_false]
      exact ofBigEndian_bigEndian h2
    · simp only [h1, h2, if_false]
      exact ofBigEndian_bigEndian h

end Parse

/-- The receive state after the header of a frame has been read. -/
def Announces (mustMaskPayload : Bool) (mask : Vector UInt8 4) (length : ℕ) (flags : ℤ)
    (r : ReceiveState) : Prop :=
  r.frameFlags = wireFlags flags ∧ r.headerLength = headerSize mustMaskPayload length ∧
    r.useMask = mustMaskPayload ∧ (mustMaskPayload = true → r.mask = mask.toList)

section Parse

variable {mustMaskPayload : Bool} {mask : Vector UInt8 4} {length maxPayloadSize : ℕ} {flags : ℤ}

/-- What a header says about the length, as soon as the length has arrived. -/
theorem header_spec (hlength : length < 2 ^ 64) {h : List UInt8}
    (hh : h <+: header mustMaskPayload mask length flags ∨
      header mustMaskPayload mask length flags <+: h)
    (hlong : 2 + (encodeLength length).2.length ≤ h.length) :
    h.getD 0 0 = wireFlags flags ∧ ∃ lengthByte, h.getD 1 0 = lengthByte ∧
      decide (lengthByte &&& FRAME_FLAG_MASK ≠ 0) = mustMaskPayload ∧
      extendedLength lengthByte = (encodeLength length).2.length ∧
      (if extendedLength lengthByte = 0 then (lengthByte &&& 0x7f).toNat
        else ofBigEndian (slice h 2 (extendedLength lengthByte))) = length := by
  let lengthByte :=
    if mustMaskPayload then FRAME_FLAG_MASK ||| (encodeLength length).1 else (encodeLength length).1
  obtain ⟨hlow, hbit⟩ := lengthByte_spec (rfl : lengthByte = _)
  have hext := extendedLength_eq hlow
  have hstart : wireFlags flags :: lengthByte :: (encodeLength length).2 <+:
      header mustMaskPayload mask length flags := ⟨_, rfl⟩
  have hstart' : wireFlags flags :: lengthByte :: (encodeLength length).2 <+: h := by
    cases hh with
    | inl hh => exact List.prefix_of_prefix_length_le hstart hh (by simp; omega)
    | inr hh => exact hstart.trans hh
  obtain ⟨rest, rfl⟩ := hstart'
  refine ⟨rfl, lengthByte, rfl, ?_, hext, ?_⟩
  · rw [Bool.eq_iff_iff, decide_eq_true_iff]
    exact hbit
  · rw [hext, hlow]
    have : slice (wireFlags flags :: lengthByte :: (encodeLength length).2 ++ rest) 2
        (encodeLength length).2.length = (encodeLength length).2 := by simp [slice]
    rw [this]
    exact decodeLength hlength

/-- A header that has arrived as a whole is understood, whatever follows it. -/
theorem parseHeader_complete (mustMaskPayload : Bool) (mask : Vector UInt8 4) (flags : ℤ) (hmax : length ≤ maxPayloadSize) (hlength : length < 2 ^ 64)
    (more : List UInt8) (r : ReceiveState) :
    ∃ r', parseHeader maxPayloadSize (header mustMaskPayload mask length flags ++ more) r =
        .ok (some length) r' ∧ Announces mustMaskPayload mask length flags r' := by
  have hge : headerSize mustMaskPayload length ≤
      (header mustMaskPayload mask length flags ++ more).length := by
    rw [List.length_append, length_header]
    omega
  have hlong : 2 + (encodeLength length).2.length ≤
      (header mustMaskPayload mask length flags ++ more).length := by
    unfold headerSize at hge
    omega
  obtain ⟨hflags, lengthByte, hbyte, hbit, hext, hval⟩ :=
    header_spec hlength (.inr (List.prefix_append _ _)) hlong
  unfold parseHeader
  dsimp only
  rw [hbyte, hval, hext, hbit, if_neg (by omega), if_neg (by omega)]
  cases mustMaskPayload with
  | false => exact ⟨_, rfl, hflags, by simp [headerSize], rfl, by simp⟩
  | true =>
      rw [if_pos rfl, if_neg (by simp [headerSize])]
      refine ⟨_, rfl, hflags, by simp [headerSize], rfl, fun _ => ?_⟩
      simp only [slice, header, if_true, List.cons_append, List.append_assoc]
      rw [Nat.add_comm 2, List.drop_succ_cons, List.drop_succ_cons, List.drop_left,
        List.take_append_of_le_length (by simp [MASK_LENGTH])]
      exact List.take_of_length_le (by simp [MASK_LENGTH])

theorem parseHeader_short {h : List UInt8} (hpart : h <+: header mustMaskPayload mask length flags)
    (htwo : 2 ≤ h.length) (hshort : h.length < 2 + (encodeLength length).2.length)
    (r : ReceiveState) : ∃ r', parseHeader maxPayloadSize h r = .ok none r' := by
  have hbyte : h.getD 1 0 = if mustMaskPayload then FRAME_FLAG_MASK ||| (encodeLength length).1
      else (encodeLength length).1 := by
    obtain ⟨t, ht⟩ := hpart
    have := congrArg (fun l => l.getD 1 0) ht
    rw [List.getD_append _ _ _ _ (by omega)] at this
    rw [this]
    rfl
  have hext := extendedLength_eq (lengthByte_spec hbyte).1
  unfold parseHeader
  dsimp only
  rw [hext, if_pos (by omega)]
  exact ⟨_, rfl⟩

/-- A part of a header is put aside until more bytes are there. -/
theorem parseHeader_part (hmax : length ≤ maxPayloadSize) (hlength : length < 2 ^ 64)
    {h : List UInt8} (hpart : h <+: header mustMaskPayload mask length flags) (htwo : 2 ≤ h.length)
    (hlt : h.length < headerSize mustMaskPayload length) (r : ReceiveState) :
    ∃ r', parseHeader maxPayloadSize h r = .ok none r' := by
  by_cases hlong : 2 + (encodeLength length).2.length ≤ h.length
  · -- the length is there, so that bytes of the mask are missing
    obtain ⟨-, lengthByte, hbyte, hbit, hext, hval⟩ := header_spec hlength (.inl hpart) hlong
    unfold parseHeader
    dsimp only
    rw [hbyte, hval, hext, hbit, if_neg (by omega), if_neg (by omega)]
    cases mustMaskPayload with
    | false =>
        simp only [headerSize, Bool.false_eq_true, if_false] at hlt
        omega
    | true =>
        rw [if_pos rfl, if_pos (by simpa [headerSize] using hlt)]
        exact ⟨_, rfl⟩
  · exact parseHeader_short hpart htwo (Nat.lt_of_not_le hlong) r

end Parse

/-! ### Reading from the stream -/

/-- The bytes the receiver has not consumed: those in the buffer and those to come. -/
def unread (s : WebSocketImpl) : List UInt8 :=
  s._buffer.drop s._bufferOffset ++ s._pStreamSocketImpl.incoming

/-- The number of unread bytes in the buffer. -/
def held (s : WebSocketImpl) : ℕ := s._buffer.length - s._bufferOffset

theorem length_unread (s : WebSocketImpl) :
    (unread s).length = held s + s._pStreamSocketImpl.incoming.length := by
  simp [unread, held]

theorem unread_of_held_eq_zero {s : WebSocketImpl} (h : held s = 0) :
    unread s = s._pStreamSocketImpl.incoming := by
  unfold held at h
  rw [unread, List.drop_eq_nil_of_le (by omega), List.nil_append]

theorem incoming_ne_nil {s : WebSocketImpl} (h : held s < (unread s).length) :
    s._pStreamSocketImpl.incoming ≠ [] := by
  intro hnil
  rw [length_unread, hnil] at h
  exact lt_irrefl _ h

/-- The socket has delivered `bs`. -/
structure Delivers (t : StreamSocketImpl) (bs : List UInt8) (t' : StreamSocketImpl) : Prop where
  incoming : t.incoming = bs ++ t'.incoming
  blocking : t'.blocking = t.blocking
  shutdown : t'.shutdown = t.shutdown

theorem Delivers.trans {t t' t'' : StreamSocketImpl} {bs bs' : List UInt8}
    (h : Delivers t bs t') (h' : Delivers t' bs' t'') : Delivers t (bs ++ bs') t'' where
  incoming := by rw [h.incoming, h'.incoming, List.append_assoc]
  blocking := h'.blocking.trans h.blocking
  shutdown := h'.shutdown.trans h.shutdown

/-- While bytes are to come, `recv` returns some of them. -/
theorem receiveBytes_socket {t : StreamSocketImpl} (hb : t.blocking = true)
    (hin : t.incoming ≠ []) {length : ℕ} (hlen : 0 < length) :
    ∃ bs t', StreamSocketImpl.receiveBytes length t = .ok (some bs) t' ∧ 0 < bs.length ∧
      bs.length ≤ length ∧ Delivers t bs t' := by
  let n := min (max 1 (t.fragment t.reads)) length
  refine ⟨t.incoming.take n, { t with incoming := t.incoming.drop n, reads := t.reads + 1 },
    by simp [StreamSocketImpl.receiveBytes, hin, hb, n], ?_, ?_,
    ⟨(List.take_append_drop n _).symm, rfl, rfl⟩⟩
  · have := List.length_pos_iff.mpr hin
    rw [List.length_take]
    omega
  · rw [List.length_take]
    omega

theorem onSocket_of_ok {call : EStateM Stop StreamSocketImpl α} {s : WebSocketImpl} {a : α}
    {t : StreamSocketImpl} (h : call s._pStreamSocketImpl = .ok a t) :
    onSocket call s = .ok a { s with _pStreamSocketImpl := t } := by
  simp [onSocket, h]

/-- The receiver has taken `bs` from the stream. -/
structure Consumed (s : WebSocketImpl) (bs : List UInt8) (s' : WebSocketImpl) : Prop where
  unread : unread s = bs ++ unread s'
  buffer : s'._buffer = s._buffer
  offset : s'._bufferOffset ≤ s._bufferOffset + bs.length
  held : held s' = held s - bs.length
  blocking : s'._pStreamSocketImpl.blocking = s._pStreamSocketImpl.blocking
  shutdown : s'._pStreamSocketImpl.shutdown = s._pStreamSocketImpl.shutdown
  maxPayloadSize : s'._maxPayloadSize = s._maxPayloadSize
  receiveState : s'._receiveState = s._receiveState

theorem Consumed.trans {s s' s'' : WebSocketImpl} {bs bs' : List UInt8} (h : Consumed s bs s')
    (h' : Consumed s' bs' s'') : Consumed s (bs ++ bs') s'' where
  unread := by rw [h.unread, h'.unread, List.append_assoc]
  buffer := h'.buffer.trans h.buffer
  offset := by
    have h1 := h.offset
    have h2 := h'.offset
    rw [List.length_append]
    omega
  held := by rw [h'.held, h.held, List.length_append, Nat.sub_sub]
  blocking := h'.blocking.trans h.blocking
  shutdown := h'.shutdown.trans h.shutdown
  maxPayloadSize := h'.maxPayloadSize.trans h.maxPayloadSize
  receiveState := h'.receiveState.trans h.receiveState

/-- Bytes from the socket are consumed when the buffer has none. -/
theorem Consumed.of_delivers {s : WebSocketImpl} {bs : List UInt8} {t : StreamSocketImpl}
    (h0 : WebSocketImpl.held s = 0) (h : Delivers s._pStreamSocketImpl bs t) :
    Consumed s bs { s with _pStreamSocketImpl := t } where
  unread := by
    rw [unread_of_held_eq_zero h0, unread_of_held_eq_zero (by exact h0), h.incoming]
  buffer := rfl
  offset := Nat.le_add_right _ _
  held := by
    rw [h0, Nat.zero_sub]
    exact h0
  blocking := h.blocking
  shutdown := h.shutdown
  maxPayloadSize := rfl
  receiveState := rfl

section Receive

variable {s : WebSocketImpl} {length : ℕ}

theorem receiveSomeBytes_socket (hint : s._buffer.length ≤ INT_MAX) (h0 : held s = 0) :
    receiveSomeBytes length s = onSocket (StreamSocketImpl.receiveBytes length) s := by
  unfold held at h0
  simp [receiveSomeBytes, bind, EStateM.bind, get_run,
    toInt_of_le hint, h0]

/-- With bytes in the buffer these are returned, as many as there are and are asked for. -/
theorem receiveSomeBytes_buffer (hint : s._buffer.length ≤ INT_MAX) (hpos : 0 < held s)
    (hoff : s._bufferOffset + length ≤ INT_MAX) :
    receiveSomeBytes length s = .ok (some (slice s._buffer s._bufferOffset (min length (held s))))
      { s with _bufferOffset := s._bufferOffset + length } := by
  unfold held at hpos ⊢
  simp [receiveSomeBytes, bind, EStateM.bind, get_run,
    toInt_of_le hint, toInt_of_le hoff, hpos, modify_run, pure, EStateM.pure]

theorem unread_slice (length : ℕ) (s : WebSocketImpl) :
    unread s = slice s._buffer s._bufferOffset (min length (held s)) ++
      unread { s with _bufferOffset := s._bufferOffset + length } := by
  simp only [unread, slice]
  rw [← List.append_assoc]
  congr 1
  rw [← List.drop_drop]
  by_cases hle : length ≤ held s
  · rw [Nat.min_eq_left hle, List.take_append_drop]
  · unfold held at hle ⊢
    have hall : (s._buffer.drop s._bufferOffset).drop length = [] :=
      List.drop_eq_nil_of_le (by rw [List.length_drop]; omega)
    rw [Nat.min_eq_right (by omega), List.take_of_length_le (by simp), hall, List.append_nil]

/-- `receiveSomeBytes` returns bytes from the front of what is unread; it comes back with
fewer than it was asked for only when the buffer is used up. -/
theorem receiveSomeBytes_spec (hb : s._pStreamSocketImpl.blocking = true)
    (hint : s._buffer.length ≤ INT_MAX) (hoff : s._bufferOffset + length ≤ INT_MAX)
    (hlen : 0 < length) (hin : length ≤ (unread s).length) :
    ∃ bs s', receiveSomeBytes length s = .ok (some bs) s' ∧ 0 < bs.length ∧ bs.length ≤ length ∧
      (bs.length < length → held s' = 0) ∧ unread s = bs ++ unread s' ∧ s'._buffer = s._buffer ∧
      s'._bufferOffset ≤ s._bufferOffset + length ∧ held s' = held s - length ∧
      s'._pStreamSocketImpl.blocking = s._pStreamSocketImpl.blocking ∧
      s'._pStreamSocketImpl.shutdown = s._pStreamSocketImpl.shutdown ∧
      s'._maxPayloadSize = s._maxPayloadSize ∧ s'._receiveState = s._receiveState := by
  by_cases h0 : held s = 0
  · rw [unread_of_held_eq_zero h0] at hin
    obtain ⟨bs, t, hr, hpos, hle, hd⟩ := receiveBytes_socket hb
      (List.ne_nil_of_length_pos (by omega : 0 < s._pStreamSocketImpl.incoming.length)) hlen
    have hc := Consumed.of_delivers h0 hd
    refine ⟨bs, _, (receiveSomeBytes_socket hint h0).trans (onSocket_of_ok hr), hpos, hle,
      fun _ => h0, hc.unread, rfl, Nat.le_add_right _ _, ?_, hd.blocking, hd.shutdown, rfl, rfl⟩
    rw [h0, Nat.zero_sub]
    exact h0
  · have hlt : s._bufferOffset < s._buffer.length := by
      unfold held at h0
      omega
    have hslice : (slice s._buffer s._bufferOffset (min length (held s))).length =
        min length (held s) := by
      apply slice_length
      unfold held
      omega
    refine ⟨_, _, receiveSomeBytes_buffer hint (by omega) hoff, ?_, ?_, ?_, ?_, rfl, Nat.le_refl _,
      ?_, rfl, rfl, rfl, rfl⟩
    · rw [hslice]
      omega
    · rw [hslice]
      omega
    · intro h
      rw [hslice] at h
      unfold held at h ⊢
      dsimp only
      omega
    · exact unread_slice length s
    · unfold held
      dsimp only
      omega

theorem receiveRest_spec {rounds : ℕ} {received bs rest : List UInt8} {s : WebSocketImpl}
    (hb : s._pStreamSocketImpl.blocking = true) (hint : s._buffer.length ≤ INT_MAX)
    (h0 : held s = 0) (hin : s._pStreamSocketImpl.incoming = bs ++ rest)
    (hlen : received.length + bs.length = length) (hrounds : bs.length ≤ rounds) :
    ∃ t, receiveRest length rounds received s =
      .ok (received ++ bs) { s with _pStreamSocketImpl := t } ∧
      Delivers s._pStreamSocketImpl bs t := by
  induction rounds generalizing received bs s with
  | zero =>
      obtain rfl := List.length_eq_zero_iff.mp (Nat.le_zero.mp hrounds)
      exact ⟨s._pStreamSocketImpl, by simp [receiveRest, pure, EStateM.pure], ⟨rfl, rfl, rfl⟩⟩
  | succ rounds ih =>
      by_cases hnil : bs = []
      · subst hnil
        refine ⟨s._pStreamSocketImpl, ?_, ⟨rfl, rfl, rfl⟩⟩
        rw [receiveRest, if_neg (by simp at hlen; omega)]
        simp [pure, EStateM.pure]
      · have hpos := List.length_pos_iff.mpr hnil
        obtain ⟨b, t, hr, hbpos, hble, hd⟩ := receiveBytes_socket hb (by rw [hin]; simp [hnil])
          (by omega : 0 < length - received.length)
        -- the socket has returned a part of `bs`
        obtain ⟨bs', rfl⟩ : b <+: bs := by
          apply List.prefix_of_prefix_length_le ⟨_, hd.incoming.symm⟩ ⟨_, hin.symm⟩
          omega
        rw [List.length_append] at hlen hrounds
        have hin' : t.incoming = bs' ++ rest := by
          have := hd.incoming.symm.trans hin
          rwa [List.append_assoc, List.append_cancel_left_eq] at this
        have hlen' : (received ++ b).length + bs'.length = length := by
          rw [List.length_append]
          omega
        obtain ⟨t', hrest, hd'⟩ := ih (s := { s with _pStreamSocketImpl := t })
          (hd.blocking.trans hb) hint h0 hin' hlen' (by omega)
        refine ⟨t', ?_, hd.trans hd'⟩
        have hsome := (receiveSomeBytes_socket hint h0).trans (onSocket_of_ok hr)
        rw [receiveRest, if_pos (by omega), bind_of_ok hsome]
        dsimp only
        rw [if_pos hbpos, hrest, List.append_assoc]

/-- `receiveNBytes` consumes exactly the bytes it is asked for. -/
theorem receiveNBytes_spec {bs rest : List UInt8} (hb : s._pStreamSocketImpl.blocking = true)
    (hint : s._buffer.length ≤ INT_MAX) (hoff : s._bufferOffset + bs.length ≤ INT_MAX)
    (hpos : 0 < bs.length) (hun : unread s = bs ++ rest) :
    ∃ s', receiveNBytes bs.length s = .ok (some bs) s' ∧ Consumed s bs s' := by
  obtain ⟨b, s', hr, hbpos, hble, hdone, hun', hbuf, hoff', hheld, hbl, hsd, hmax, hrs⟩ :=
    receiveSomeBytes_spec hb hint hoff hpos (by rw [hun, List.length_append]; omega)
  obtain ⟨bs', rfl⟩ : b <+: bs := by
    exact List.prefix_of_prefix_length_le ⟨_, hun'.symm⟩ ⟨_, hun.symm⟩ hble
  have hrest : unread s' = bs' ++ rest := by
    have := hun'.symm.trans hun
    rwa [List.append_assoc, List.append_cancel_left_eq] at this
  rw [receiveNBytes, bind_of_ok hr]
  dsimp only
  rw [if_pos hbpos]
  by_cases hnil : bs' = []
  · -- all bytes came with the first call
    subst hnil
    rw [List.append_nil] at *
    have hstop : receiveRest b.length b.length b s' = .ok b s' := by
      cases hb : b.length with
      | zero => omega
      | succ n => simp [receiveRest, hb, pure, EStateM.pure]
    exact ⟨s', by rw [bind_of_ok hstop]; rfl, hun', hbuf, hoff', hheld, hbl, hsd, hmax, hrs⟩
  · have hlt : 0 < bs'.length := List.length_pos_iff.mpr hnil
    have h0 : held s' = 0 := by
      apply hdone
      rw [List.length_append]
      omega
    rw [unread_of_held_eq_zero h0] at hrest
    have hrounds : bs'.length ≤ (b ++ bs').length := by
      rw [List.length_append]
      omega
    obtain ⟨t, hmore, hd⟩ := receiveRest_spec (hbl.trans hb) (hbuf ▸ hint) h0 hrest
      (List.length_append).symm hrounds
    have hc := Consumed.of_delivers h0 hd
    refine ⟨{ s' with _pStreamSocketImpl := t }, by rw [bind_of_ok hmore]; rfl, ?_, hbuf, hoff', ?_, hc.blocking.trans hbl,
      hc.shutdown.trans hsd, hmax, hrs⟩
    · rw [hun', hc.unread, List.append_assoc]
    · rw [← hheld, h0]
      exact h0

end Receive

/-! ### Peeking at the header -/

/-- The receiver has looked ahead: nothing is consumed, the buffer holds more of the stream. -/
structure Peeked (s s' : WebSocketImpl) : Prop where
  unread : unread s' = unread s
  held_pos : 0 < held s'
  held_le : held s ≤ held s'
  held_bound : held s' ≤ max MAX_HEADER_LENGTH (held s)
  grows : held s < MAX_HEADER_LENGTH → s._pStreamSocketImpl.incoming ≠ [] → held s < held s'
  offset : s'._bufferOffset ≤ if held s = 0 then 0 else s._bufferOffset
  size : s'._buffer.length = s'._bufferOffset + held s'
  blocking : s'._pStreamSocketImpl.blocking = s._pStreamSocketImpl.blocking
  shutdown : s'._pStreamSocketImpl.shutdown = s._pStreamSocketImpl.shutdown
  maxPayloadSize : s'._maxPayloadSize = s._maxPayloadSize

/-- A peek does not wait for bytes that never come. -/
def Ready (s : WebSocketImpl) : Prop :=
  held s = 0 ∨ MAX_HEADER_LENGTH ≤ held s ∨ s._pStreamSocketImpl.incoming ≠ [] ∨
    s._pStreamSocketImpl.shutdown = true

section Peek

variable {s : WebSocketImpl}

theorem peekSomeBytes_socket (hint : s._buffer.length ≤ INT_MAX) (h0 : held s = 0)
    {bs : List UInt8} {t : StreamSocketImpl} {length : ℕ} (hpos : 0 < bs.length)
    (hr : StreamSocketImpl.receiveBytes length s._pStreamSocketImpl = .ok (some bs) t) :
    peekSomeBytes length s = .ok (some bs)
      { s with _pStreamSocketImpl := t, _buffer := bs, _bufferOffset := 0 } := by
  unfold held at h0
  simp [peekSomeBytes, bind, EStateM.bind, get_run,
    toInt_of_le hint, h0, onSocket_of_ok hr, hpos, modify_run, pure, EStateM.pure]

theorem peekSomeBytes_buffer (hint : s._buffer.length ≤ INT_MAX) {length : ℕ}
    (hlen : length ≤ held s) (hpos : 0 < length) :
    peekSomeBytes length s = .ok (some (slice s._buffer s._bufferOffset length)) s := by
  unfold held at hlen
  have hlt : s._bufferOffset < s._buffer.length := by omega
  simp [peekSomeBytes, bind, EStateM.bind, get_run,
    toInt_of_le hint, hlt, Nat.min_eq_left hlen, pure, EStateM.pure]

/-- The buffer has some bytes and the socket adds to them. -/
theorem peekSomeBytes_both (hint : s._buffer.length ≤ INT_MAX) {length : ℕ} (hpos : 0 < held s)
    (hlt : held s < length) {bs : List UInt8} {t : StreamSocketImpl}
    (hr : StreamSocketImpl.receiveBytes (length - held s) s._pStreamSocketImpl =
      .ok (some bs) t) :
    peekSomeBytes length s = .ok (some (s._buffer.drop s._bufferOffset ++ bs))
      { s with _pStreamSocketImpl := t, _buffer := s._buffer ++ bs } := by
  have hall : slice s._buffer s._bufferOffset (held s) = s._buffer.drop s._bufferOffset :=
    List.take_of_length_le (by simp [held])
  unfold held at hpos hlt hr hall
  simp [peekSomeBytes, bind, EStateM.bind, get_run,
    toInt_of_le hint, hpos, Nat.min_eq_right (Nat.le_of_lt hlt), hlt, onSocket_of_ok hr, hall,
    modify_run, pure, EStateM.pure]

theorem Peeked.of_socket {bs : List UInt8} {t : StreamSocketImpl} (h0 : WebSocketImpl.held s = 0)
    (hd : Delivers s._pStreamSocketImpl bs t) (hpos : 0 < bs.length)
    (hle : bs.length ≤ MAX_HEADER_LENGTH) :
    Peeked s { s with _pStreamSocketImpl := t, _buffer := bs, _bufferOffset := 0 } where
  unread := by
    rw [unread_of_held_eq_zero h0, hd.incoming]
    rfl
  held_pos := hpos
  held_le := by rw [h0]; exact Nat.zero_le _
  held_bound := le_trans hle (le_max_left _ _)
  grows := by
    intro _ _
    rw [h0]
    exact hpos
  offset := Nat.zero_le _
  size := (Nat.zero_add _).symm
  blocking := hd.blocking
  shutdown := hd.shutdown
  maxPayloadSize := rfl

theorem Peeked.of_buffer (hlen : MAX_HEADER_LENGTH ≤ WebSocketImpl.held s) : Peeked s s where
  unread := rfl
  held_pos := lt_of_lt_of_le (by decide) hlen
  held_le := le_refl _
  held_bound := le_max_right _ _
  grows h := absurd hlen (not_le.mpr h)
  offset := by
    have : WebSocketImpl.held s ≠ 0 := Nat.ne_of_gt (lt_of_lt_of_le (by decide) hlen)
    rw [if_neg this]
  size := by
    unfold WebSocketImpl.held MAX_HEADER_LENGTH at *
    omega
  blocking := rfl
  shutdown := rfl
  maxPayloadSize := rfl

theorem held_append (bs : List UInt8) (t : StreamSocketImpl) (hpos : 0 < held s) :
    held { s with _pStreamSocketImpl := t, _buffer := s._buffer ++ bs } = held s + bs.length := by
  unfold held at hpos ⊢
  dsimp only
  rw [List.length_append]
  omega

theorem Peeked.of_both {bs : List UInt8} {t : StreamSocketImpl} (hpos : 0 < WebSocketImpl.held s)
    (hd : Delivers s._pStreamSocketImpl bs t) (hle : WebSocketImpl.held s + bs.length ≤
      MAX_HEADER_LENGTH) (hsome : s._pStreamSocketImpl.incoming ≠ [] → 0 < bs.length) :
    Peeked s { s with _pStreamSocketImpl := t, _buffer := s._buffer ++ bs } := by
  have hheld := held_append bs t hpos
  constructor
  · simp only [WebSocketImpl.unread]
    unfold WebSocketImpl.held at hpos
    rw [List.drop_append_of_le_length (by omega), hd.incoming, List.append_assoc]
  · rw [hheld]
    omega
  · rw [hheld]
    exact Nat.le_add_right _ _
  · rw [hheld]
    exact le_trans hle (le_max_left _ _)
  · intro _ hin
    have := hsome hin
    rw [hheld]
    omega
  · rw [if_neg (by omega)]
  · rw [hheld]
    unfold WebSocketImpl.held at hpos ⊢
    dsimp only
    rw [List.length_append]
    omega
  · exact hd.blocking
  · exact hd.shutdown
  · rfl

/-- A peek returns the bytes at the front of the stream that the buffer holds afterwards. -/
theorem peekSomeBytes_spec (hb : s._pStreamSocketImpl.blocking = true)
    (hint : s._buffer.length ≤ INT_MAX) (hne : unread s ≠ []) (hready : Ready s) :
    ∃ s', peekSomeBytes MAX_HEADER_LENGTH s =
        .ok (some ((unread s).take (min MAX_HEADER_LENGTH (held s')))) s' ∧
      Peeked s s' ∧ s'._receiveState = s._receiveState := by
  by_cases h0 : held s = 0
  · have hne' : s._pStreamSocketImpl.incoming ≠ [] := unread_of_held_eq_zero h0 ▸ hne
    obtain ⟨bs, t, hr, hpos, hle, hd⟩ := receiveBytes_socket hb hne'
      (by decide : 0 < MAX_HEADER_LENGTH)
    refine ⟨_, ?_, Peeked.of_socket h0 hd hpos hle, rfl⟩
    have hheld : held { s with _pStreamSocketImpl := t, _buffer := bs, _bufferOffset := 0 } =
        bs.length := rfl
    rw [peekSomeBytes_socket hint h0 hpos hr, unread_of_held_eq_zero h0, hd.incoming, hheld,
      Nat.min_eq_right hle, List.take_left]
  · by_cases hlen : MAX_HEADER_LENGTH ≤ held s
    · refine ⟨s, ?_, Peeked.of_buffer hlen, rfl⟩
      rw [peekSomeBytes_buffer hint hlen (by decide), Nat.min_eq_left hlen, unread, slice,
        List.take_append_of_le_length (by rw [List.length_drop]; exact hlen)]
    · have hpeek : ∀ bs t, Delivers s._pStreamSocketImpl bs t →
          bs.length ≤ MAX_HEADER_LENGTH - held s →
          (s._pStreamSocketImpl.incoming ≠ [] → 0 < bs.length) →
          StreamSocketImpl.receiveBytes (MAX_HEADER_LENGTH - held s) s._pStreamSocketImpl =
            .ok (some bs) t → ∃ s', peekSomeBytes MAX_HEADER_LENGTH s =
              .ok (some ((unread s).take (min MAX_HEADER_LENGTH (held s')))) s' ∧
            Peeked s s' ∧ s'._receiveState = s._receiveState := by
        intro bs t hd hle hsome hr
        refine ⟨_, ?_, Peeked.of_both (by omega) hd (by omega) hsome, rfl⟩
        have hfront : (s._buffer.drop s._bufferOffset ++ bs).length = held s + bs.length := by
          rw [List.length_append, List.length_drop, held]
        rw [peekSomeBytes_both hint (by omega) (by omega) hr, held_append bs t (by omega),
          Nat.min_eq_right (by omega), unread, hd.incoming, ← List.append_assoc, ← hfront,
          List.take_left]
      by_cases hin : s._pStreamSocketImpl.incoming = []
      · -- nothing comes any more, and the peek returns because the peer has closed
        have hsd : s._pStreamSocketImpl.shutdown = true := by
          unfold Ready at hready
          tauto
        apply hpeek [] s._pStreamSocketImpl ⟨rfl, rfl, rfl⟩ (Nat.zero_le _) (absurd hin)
        simp [StreamSocketImpl.receiveBytes, hin, hsd]
      · obtain ⟨bs, t, hr, hpos, hle, hd⟩ :=
          receiveBytes_socket hb hin (by omega : 0 < MAX_HEADER_LENGTH - held s)
        exact hpeek bs t hd hle (fun _ => hpos) hr

end Peek

/-- What has been read from the header does not matter for a peek. -/
theorem Peeked.withReceiveState {s s' : WebSocketImpl} {r : ReceiveState} (r' : ReceiveState)
    (h : Peeked { s with _receiveState := r } s') :
    Peeked s { s' with _receiveState := r' } where
  unread := h.unread
  held_pos := h.held_pos
  held_le := h.held_le
  held_bound := h.held_bound
  grows := h.grows
  offset := h.offset
  size := h.size
  blocking := h.blocking
  shutdown := h.shutdown
  maxPayloadSize := h.maxPayloadSize

section Header

variable {s : WebSocketImpl} {mustMaskPayload : Bool} {mask : Vector UInt8 4} {length : ℕ}
  {flags : ℤ} {rest : List UInt8}

theorem peekHeader_eq (hb : s._pStreamSocketImpl.blocking = true)
    (hint : s._buffer.length ≤ INT_MAX) (hne : unread s ≠ []) (hready : Ready s) :
    ∃ s' h, Peeked s s' ∧ h = (unread s).take (min MAX_HEADER_LENGTH (held s')) ∧
      peekHeader s = if h.length < 2 then .ok none s'
        else onReceiveState (parseHeader s'._maxPayloadSize h) s' := by
  have hreset : onReceiveState (modify resetHeader) s =
      .ok () { s with _receiveState := resetHeader s._receiveState } := rfl
  obtain ⟨s', hpeek, hp, -⟩ := peekSomeBytes_spec
    (s := { s with _receiveState := resetHeader s._receiveState }) hb hint hne hready
  have hfront : unread { s with _receiveState := resetHeader s._receiveState } = unread s := rfl
  rw [hfront] at hpeek
  refine ⟨s', _, hp.withReceiveState s'._receiveState, rfl, ?_⟩
  rw [peekHeader, bind_of_ok hreset, bind_of_ok hpeek]
  have hpos : ((unread s).take (min MAX_HEADER_LENGTH (held s'))).length ≠ 0 := by
    have h1 := List.length_pos_iff.mpr hne
    have h2 := hp.held_pos
    rw [List.length_take]
    unfold MAX_HEADER_LENGTH
    omega
  dsimp only
  rw [if_neg hpos]
  split <;> rfl

/-- One peek at the header of a frame: it is understood when it is there as a whole. -/
theorem peekHeader_spec (hb : s._pStreamSocketImpl.blocking = true)
    (hint : s._buffer.length ≤ INT_MAX) (hready : Ready s) (hmax : length ≤ s._maxPayloadSize)
    (hlength : length < 2 ^ 64)
    (hun : unread s = header mustMaskPayload mask length flags ++ rest) :
    ∃ s', Peeked s s' ∧
      ((headerSize mustMaskPayload length ≤ held s' ∧ peekHeader s = .ok (some length) s' ∧
          Announces mustMaskPayload mask length flags s'._receiveState) ∨
        (held s' < headerSize mustMaskPayload length ∧ peekHeader s = .ok none s')) := by
  have htwo := two_le_headerSize mustMaskPayload length
  have hle := headerSize_le mustMaskPayload length
  have hsize := length_header mustMaskPayload mask flags length
  have hne : unread s ≠ [] := by
    apply List.ne_nil_of_length_pos
    rw [hun, List.length_append]
    omega
  obtain ⟨s₁, h, hp, hh, heq⟩ := peekHeader_eq hb hint hne hready
  have hmax₁ : length ≤ s₁._maxPayloadSize := hp.maxPayloadSize ▸ hmax
  have hun₁ : (unread s₁).length = held s₁ + s₁._pStreamSocketImpl.incoming.length :=
    length_unread s₁
  have hhlen : h.length = min MAX_HEADER_LENGTH (held s₁) := by
    rw [hh, List.length_take, ← hp.unread]
    omega
  have hprefix : h <+: unread s := hh ▸ List.take_prefix _ _
  rw [heq]
  by_cases hwhole : headerSize mustMaskPayload length ≤ held s₁
  · -- the header and perhaps bytes behind it
    obtain ⟨more, hmore⟩ : header mustMaskPayload mask length flags <+: h := by
      apply List.prefix_of_prefix_length_le ⟨rest, hun.symm⟩ hprefix
      rw [hsize, hhlen]
      omega
    obtain ⟨r, hparse, hr⟩ := parseHeader_complete mustMaskPayload mask flags hmax₁ hlength more
      s₁._receiveState
    refine ⟨{ s₁ with _receiveState := r }, hp.withReceiveState r, .inl ⟨hwhole, ?_, hr⟩⟩
    rw [if_neg (by omega), ← hmore]
    simp [onReceiveState, hparse]
  · have hpart : h <+: header mustMaskPayload mask length flags := by
      apply List.prefix_of_prefix_length_le hprefix ⟨rest, hun.symm⟩
      rw [hsize, hhlen]
      omega
    by_cases hone : h.length < 2
    · exact ⟨s₁, hp.withReceiveState s₁._receiveState, .inr ⟨by omega, by rw [if_pos hone]⟩⟩
    · obtain ⟨r, hparse⟩ := parseHeader_part hmax₁ hlength hpart (by omega) (by omega)
        s₁._receiveState
      refine ⟨{ s₁ with _receiveState := r }, hp.withReceiveState r, .inr ⟨?_, ?_⟩⟩
      · exact not_le.mp hwhole
      · rw [if_neg hone]
        simp [onReceiveState, hparse]

theorem Peeked.trans {s s' s'' : WebSocketImpl} (h : Peeked s s') (h' : Peeked s' s'') :
    Peeked s s'' where
  unread := h'.unread.trans h.unread
  held_pos := h'.held_pos
  held_le := le_trans h.held_le h'.held_le
  held_bound := by
    have h1 := h.held_bound
    have h2 := h'.held_bound
    omega
  grows hlt hin := lt_of_lt_of_le (h.grows hlt hin) h'.held_le
  offset := by
    have h1 := h'.offset
    rw [if_neg (Nat.ne_of_gt h.held_pos)] at h1
    exact le_trans h1 h.offset
  size := h'.size
  blocking := h'.blocking.trans h.blocking
  shutdown := h'.shutdown.trans h.shutdown
  maxPayloadSize := h'.maxPayloadSize.trans h.maxPayloadSize

/-- From where on the buffer is in use when the next peek is over. -/
def base (s : WebSocketImpl) : ℕ := if held s = 0 then 0 else s._bufferOffset

/-- The loop ends: each peek that does not find the whole header brings at least one more
byte of it, so that as many rounds as a header may have bytes are enough. -/
theorem waitHeader_spec {fuel : ℕ} {s : WebSocketImpl} (hfuel : MAX_HEADER_LENGTH ≤ fuel + held s)
    (hone : 0 < fuel) (hb : s._pStreamSocketImpl.blocking = true)
    (hint : s._buffer.length ≤ INT_MAX) (hfit : base s + max MAX_HEADER_LENGTH (held s) ≤ INT_MAX)
    (hready : Ready s) (hmax : length ≤ s._maxPayloadSize) (hlength : length < 2 ^ 64)
    (hun : unread s = header mustMaskPayload mask length flags ++ rest) :
    ∃ s', waitHeader fuel s = .ok length s' ∧ Peeked s s' ∧
      Announces mustMaskPayload mask length flags s'._receiveState := by
  induction fuel generalizing s with
  | zero => omega
  | succ fuel ih =>
      obtain ⟨s₁, hp, ⟨_, heq, ha⟩ | ⟨hlt, heq⟩⟩ :=
        peekHeader_spec hb hint hready hmax hlength hun
      · exact ⟨s₁, by rw [waitHeader, bind_of_ok heq]; rfl, hp, ha⟩
      · have hle := headerSize_le mustMaskPayload length
        have hheld : held s < MAX_HEADER_LENGTH := lt_of_le_of_lt hp.held_le (by omega)
        have hun₁ : unread s₁ = header mustMaskPayload mask length flags ++ rest :=
          hp.unread.trans hun
        -- the rest of the header is still to come
        have hmore : s₁._pStreamSocketImpl.incoming ≠ [] := by
          apply incoming_ne_nil
          rw [hun₁, List.length_append, length_header]
          omega
        have hin : s._pStreamSocketImpl.incoming ≠ [] := by
          apply incoming_ne_nil
          rw [hun, List.length_append, length_header]
          exact lt_of_le_of_lt hp.held_le (by omega)
        have hgrow := hp.grows hheld hin
        have hoff := hp.offset
        have hsize := hp.size
        have hpos := hp.held_pos
        unfold base at hfit
        have hint₁ : s₁._buffer.length ≤ INT_MAX := by omega
        have hfit₁ : base s₁ + max MAX_HEADER_LENGTH (held s₁) ≤ INT_MAX := by
          unfold base
          rw [if_neg (by omega)]
          omega
        obtain ⟨s', hw, hp', ha⟩ := ih (s := s₁) (by omega) (by omega) (hp.blocking.trans hb) hint₁
          hfit₁ (.inr (.inr (.inl hmore))) (hp.maxPayloadSize ▸ hmax) hun₁
        exact ⟨s', by rw [waitHeader, bind_of_ok heq]; exact hw, hp.trans hp', ha⟩

end Header

/-! ### One frame -/

theorem skipHeader_of_ok {s s' : WebSocketImpl} {n : ℕ} {bs : List UInt8} (hpos : 0 < n)
    (h : receiveNBytes n s = .ok (some bs) s') : skipHeader n s = .ok () s' := by
  simp [skipHeader, hpos, discard, Functor.discard, Functor.mapConst, EStateM.map, h]

theorem receivePayload_of_ok {s s' : WebSocketImpl} {n offset : ℕ} {bs key : List UInt8}
    {useMask : Bool} (h : receiveNBytes n s = .ok (some bs) s') :
    receivePayload n key useMask offset s =
      .ok (some (if useMask then xorWith (keyStream key offset) bs else bs)) s' := by
  rw [receivePayload, bind_of_ok h]
  rfl

/-- What the receiver makes of the payload as it stands in the frame. -/
theorem unmask_body {mustMaskPayload : Bool} {mask : Vector UInt8 4} {buffer : List UInt8}
    {length : ℕ} {flags : ℤ} {r : ReceiveState}
    (h : Announces mustMaskPayload mask length flags r) :
    (if r.useMask then xorWith (keyStream r.mask 0) (body mustMaskPayload mask buffer)
      else body mustMaskPayload mask buffer) = buffer := by
  obtain ⟨-, -, huse, hmask⟩ := h
  rw [huse, body]
  cases mustMaskPayload with
  | false => simp
  | true => simp [hmask rfl]

section OneFrame

variable {s : WebSocketImpl} {mustMaskPayload : Bool} {mask : Vector UInt8 4}
  {buffer rest : List UInt8} {flags : ℤ}

/-- A call of `receiveBytes` returns the payload of the next frame and consumes the frame. -/
theorem receiveBlocking_spec {fuel : ℕ} (limit : Option ℕ) (hfuel : MAX_HEADER_LENGTH ≤ fuel)
    (hlimit : ∀ n ∈ limit, buffer.length ≤ n) (hb : s._pStreamSocketImpl.blocking = true)
    (hint : s._buffer.length ≤ INT_MAX) (hfit : base s + max MAX_HEADER_LENGTH (held s) ≤ INT_MAX)
    (hframe : base s + frameLength mustMaskPayload buffer.length ≤ INT_MAX) (hready : Ready s)
    (hmax : buffer.length ≤ s._maxPayloadSize)
    (hun : unread s = frame mustMaskPayload mask buffer flags ++ rest) :
    ∃ s', receiveBlocking fuel limit s = .ok (some buffer) s' ∧ s'.frameFlags = wireFlags flags ∧
      unread s' = rest ∧
      held s' ≤ max MAX_HEADER_LENGTH (held s) - frameLength mustMaskPayload buffer.length ∧
      s'._bufferOffset ≤ base s + frameLength mustMaskPayload buffer.length ∧
      s'._buffer.length ≤ INT_MAX ∧
      s'._pStreamSocketImpl.blocking = s._pStreamSocketImpl.blocking ∧
      s'._pStreamSocketImpl.shutdown = s._pStreamSocketImpl.shutdown ∧
      s'._maxPayloadSize = s._maxPayloadSize := by
  have hone : 0 < fuel := lt_of_lt_of_le (by decide) hfuel
  have hlength : buffer.length < 2 ^ 64 := by
    unfold frameLength INT_MAX at hframe
    omega
  have htwo := two_le_headerSize mustMaskPayload buffer.length
  rw [frame_eq, List.append_assoc] at hun
  obtain ⟨s₁, hwait, hp, ha⟩ := waitHeader_spec (by omega) hone hb hint hfit hready hmax hlength hun
  obtain ⟨hflags, hheader, -, -⟩ := id ha
  have hoff₁ : s₁._bufferOffset ≤ base s := hp.offset
  have hint₁ : s₁._buffer.length ≤ INT_MAX := by
    have h1 := hp.size
    have h2 := hp.held_bound
    omega
  have hget : (get : Method WebSocketImpl) s₁ = .ok s₁ s₁ := rfl
  have hsize := length_header mustMaskPayload mask flags buffer.length
  unfold frameLength at hframe ⊢
  -- the header
  obtain ⟨s₂, hskip, hc⟩ := receiveNBytes_spec (hp.blocking.trans hb) hint₁ (by omega) (by omega)
    (hp.unread.trans hun)
  rw [hsize] at hskip
  have hun₂ : unread s₂ = body mustMaskPayload mask buffer ++ rest := by
    have := hc.unread.symm.trans (hp.unread.trans hun)
    rwa [List.append_cancel_left_eq] at this
  have hoff₂ := hc.offset
  have hheld₂ := hc.held
  rw [hsize] at hoff₂ hheld₂
  have hbound := hp.held_bound
  rw [receiveBlocking, bind_of_ok hwait, bind_of_ok hget]
  dsimp only
  rw [hheader]
  by_cases hzero : buffer.length = 0
  · obtain rfl := List.length_eq_zero_iff.mp hzero
    rw [if_pos hzero, bind_of_ok (skipHeader_of_ok (by omega) hskip)]
    have hnil : body mustMaskPayload mask [] = [] :=
      List.length_eq_zero_iff.mp (length_body mustMaskPayload mask [])
    rw [hnil, List.nil_append] at hun₂
    refine ⟨s₂, rfl, ?_, hun₂, ?_, ?_, ?_, hc.blocking.trans hp.blocking,
      hc.shutdown.trans hp.shutdown, hc.maxPayloadSize.trans hp.maxPayloadSize⟩
    · rw [frameFlags, hc.receiveState, hflags]
    · omega
    · omega
    · rw [hc.buffer]
      exact hint₁
  · have hcheck : checkBuffer limit buffer.length s₁ = .ok () s₁ := by
      cases limit with
      | none => rfl
      | some n => simp [checkBuffer, not_lt.mpr (hlimit n rfl), pure, EStateM.pure]
    have hbody := length_body mustMaskPayload mask buffer
    -- the payload
    obtain ⟨s₃, hpay, hc'⟩ := receiveNBytes_spec (hc.blocking.trans (hp.blocking.trans hb))
      (hc.buffer ▸ hint₁) (by omega) (by omega) hun₂
    have hboth := hc.trans hc'
    have hoff₃ := hboth.offset
    have hheld₃ := hboth.held
    rw [List.length_append, hsize, hbody] at hoff₃ hheld₃
    rw [hbody] at hpay
    rw [if_neg hzero, bind_of_ok hcheck, bind_of_ok (skipHeader_of_ok (by omega) hskip),
      bind_of_ok (receivePayload_of_ok hpay), unmask_body ha]
    dsimp only
    rw [if_neg (not_not.mpr rfl)]
    refine ⟨s₃, rfl, ?_, ?_, ?_, ?_, ?_, hboth.blocking.trans hp.blocking,
      hboth.shutdown.trans hp.shutdown, hboth.maxPayloadSize.trans hp.maxPayloadSize⟩
    · rw [frameFlags, hboth.receiveState, hflags]
    · have := hc'.unread.symm.trans hun₂
      rwa [List.append_cancel_left_eq] at this
    · omega
    · omega
    · rw [hboth.buffer]
      exact hint₁

end OneFrame

/-! ### Sending a sequence of messages -/

/-- What is handed to `sendBytes`. -/
structure Message where
  payload : List UInt8
  flags : ℤ
deriving DecidableEq, Repr

/-- A frame of the message, with any mask. -/
def IsFrame (mustMaskPayload : Bool) (m : Message) (bytes : List UInt8) : Prop :=
  ∃ mask, bytes = frame mustMaskPayload mask m.payload m.flags

/-- The messages are sent one after the other; `sendBytes` is called with a message until it
no longer returns `-1`. -/
inductive Sends : WebSocketImpl → List Message → WebSocketImpl → Prop
  | done (s : WebSocketImpl) : Sends s [] s
  | again {s s' s'' : WebSocketImpl} {m : Message} {ms : List Message} (mask : Vector UInt8 4) :
      sendBytes mask m.payload m.flags s = .ok none s' → Sends s' (m :: ms) s'' →
      Sends s (m :: ms) s''
  | complete {s s' s'' : WebSocketImpl} {m : Message} {ms : List Message} {n : ℕ}
      (mask : Vector UInt8 4) :
      sendBytes mask m.payload m.flags s = .ok (some n) s' → Sends s' ms s'' →
      Sends s (m :: ms) s''

/-- No frame is waiting to be sent. -/
def Idle (s : WebSocketImpl) : Prop := s._sendState.remainingPayloadLength = 0

/-- After `sent` has been put on the wire, `offset` bytes of `bytes` have followed. -/
structure Sending (s : WebSocketImpl) (sent bytes : List UInt8) (offset remaining : ℕ) :
    Prop where
  outgoing : s._pStreamSocketImpl.outgoing = sent ++ bytes.take offset
  payload : s._sendState.payload = bytes
  sum : offset + remaining = bytes.length

/-- A frame has been sent in part. -/
def Pending (s : WebSocketImpl) (sent bytes : List UInt8) : Prop :=
  0 < s._sendState.remainingPayloadLength ∧ Sending s sent bytes
    s._sendState.remainingPayloadOffset s._sendState.remainingPayloadLength

theorem sendBytes_socket (bytes : List UInt8) (t : StreamSocketImpl) :
    ∃ sent t', StreamSocketImpl.sendBytes bytes t = .ok sent t' ∧ sent.getD 0 ≤ bytes.length ∧
      t'.outgoing = t.outgoing ++ bytes.take (sent.getD 0) := by
  unfold StreamSocketImpl.sendBytes
  by_cases hb : t.blocking = true
  · rw [if_pos hb]
    exact ⟨_, _, rfl, le_refl _, by simp⟩
  · rw [if_neg hb]
    cases ht : t.accepts t.writes with
    | none => exact ⟨_, _, rfl, Nat.zero_le _, by simp⟩
    | some n => exact ⟨_, _, rfl, Nat.min_le_right _ _, rfl⟩

section Send

variable {s s' : WebSocketImpl} {sent bytes : List UInt8} {r : Option ℕ}

theorem sendRest_spec {length offset remaining : ℕ} (h : Sending s sent bytes offset remaining)
    (hr : (onSocket (StreamSocketImpl.sendBytes (slice bytes offset remaining)) >>=
      noteSent length offset remaining) s = .ok r s') :
    s'._mustMaskPayload = s._mustMaskPayload ∧
      if r.isSome then Idle s' ∧ s'._pStreamSocketImpl.outgoing = sent ++ bytes
      else 0 < remaining → Pending s' sent bytes := by
  obtain ⟨n, t, ht, hle, hout⟩ :=
    sendBytes_socket (slice bytes offset remaining) s._pStreamSocketImpl
  have hslice : (slice bytes offset remaining).length = remaining :=
    slice_length (Nat.le_of_eq h.sum)
  rw [bind_of_ok (onSocket_of_ok ht)] at hr
  rw [hslice] at hle
  cases n with
  | none =>
      obtain ⟨rfl, rfl⟩ : r = none ∧ s' = _ := by
        simpa [noteSent, bind, EStateM.bind, modify_run, pure, EStateM.pure, eq_comm] using hr
      refine ⟨rfl, fun hpos => ⟨hpos, ?_, h.payload, h.sum⟩⟩
      rw [← h.outgoing]
      simpa using hout
  | some n =>
      rw [Option.getD_some] at hle hout
      have hout' : t.outgoing = sent ++ bytes.take (offset + n) := by
        rw [hout, h.outgoing, List.append_assoc, List.take_add, slice, List.take_take,
          Nat.min_eq_left hle]
      by_cases hlt : n < remaining
      · obtain ⟨rfl, rfl⟩ : r = none ∧ s' = _ := by
          simpa [noteSent, hlt, bind, EStateM.bind, modify_run, pure, EStateM.pure, eq_comm] using hr
        refine ⟨rfl, fun _ => ⟨?_, hout', h.payload, ?_⟩⟩
        · dsimp only
          omega
        · have := h.sum
          dsimp only
          omega
      · obtain ⟨rfl, rfl⟩ : r = some length ∧ s' = _ := by
          simpa [noteSent, hlt, bind, EStateM.bind, modify_run, pure, EStateM.pure, eq_comm] using hr
        refine ⟨rfl, rfl, ?_⟩
        dsimp only
        rw [hout', List.take_of_length_le]
        have := h.sum
        omega

theorem sendBytes_start {mask : Vector UInt8 4} {m : Message} (hidle : Idle s)
    (hr : sendBytes mask m.payload m.flags s = .ok r s') :
    ∃ bytes, IsFrame s._mustMaskPayload m bytes ∧ s'._mustMaskPayload = s._mustMaskPayload ∧
      if r.isSome then Idle s' ∧
        s'._pStreamSocketImpl.outgoing = s._pStreamSocketImpl.outgoing ++ bytes
      else Pending s' s._pStreamSocketImpl.outgoing bytes := by
  have hget : (get : Method WebSocketImpl) s = .ok s s := rfl
  have hpos : 0 < (frame s._mustMaskPayload mask m.payload m.flags).length := by
    have := two_le_headerSize s._mustMaskPayload m.payload.length
    rw [length_frame, frameLength]
    omega
  unfold Idle at hidle
  rw [sendBytes, bind_of_ok hget] at hr
  dsimp only at hr
  rw [if_neg (by omega)] at hr
  by_cases hlen : m.payload.length + MAX_HEADER_LENGTH ≤ INT_MAX
  · have hint : (discard (toInt (m.payload.length + MAX_HEADER_LENGTH)) : Method Unit) s =
        .ok () s := by
      simp [discard, Functor.discard, Functor.mapConst, EStateM.map, toInt_of_le hlen]
    rw [bind_of_ok hint] at hr
    generalize hbytes : frame s._mustMaskPayload mask m.payload m.flags = bytes at hr hpos
    have hmodify : (modify fun s : WebSocketImpl =>
        { s with _sendState := { s._sendState with payload := bytes } } : Method Unit) s =
        .ok () { s with _sendState := { s._sendState with payload := bytes } } := rfl
    rw [bind_of_ok hmodify] at hr
    have hall : slice bytes 0 bytes.length = bytes := List.take_length
    have hstart : Sending { s with _sendState := { s._sendState with payload := bytes } }
        s._pStreamSocketImpl.outgoing bytes 0 bytes.length := ⟨by simp, rfl, Nat.zero_add _⟩
    obtain ⟨hm, hcase⟩ := sendRest_spec hstart (by rw [hall]; exact hr)
    refine ⟨bytes, ⟨mask, hbytes.symm⟩, hm, ?_⟩
    split at hcase
    · rwa [if_pos ‹_›]
    · rw [if_neg ‹_›]
      exact hcase hpos
  · -- `length + MAX_HEADER_LENGTH` does not fit into an `int`
    simp [bind, EStateM.bind, discard, Functor.discard, Functor.mapConst, EStateM.map, toInt, hlen,
      throw_run] at hr

/-- A call with a frame pending sends more of it, whatever its arguments are. -/
theorem sendBytes_resume {mask : Vector UInt8 4} {buffer : List UInt8} {flags : ℤ}
    (h : Pending s sent bytes) (hr : sendBytes mask buffer flags s = .ok r s') :
    s'._mustMaskPayload = s._mustMaskPayload ∧
      if r.isSome then Idle s' ∧ s'._pStreamSocketImpl.outgoing = sent ++ bytes
      else Pending s' sent bytes := by
  have hget : (get : Method WebSocketImpl) s = .ok s s := rfl
  obtain ⟨hpos, hs⟩ := h
  rw [sendBytes, bind_of_ok hget] at hr
  dsimp only at hr
  rw [if_pos hpos, hs.payload] at hr
  by_cases hlen : buffer.length ≠ s._sendState.length
  · simp [hlen, bind, EStateM.bind, throw_run] at hr
  · rw [if_neg hlen] at hr
    obtain ⟨hm, hcase⟩ := sendRest_spec hs hr
    refine ⟨hm, ?_⟩
    split at hcase
    · rwa [if_pos ‹_›]
    · rw [if_neg ‹_›]
      exact hcase hpos

/-- Where the sender is in its sequence of messages: `sent` is complete, and a frame of the
next message may be pending. -/
def Midway (s : WebSocketImpl) (sent : List UInt8) (ms : List Message) : Prop :=
  (Idle s ∧ s._pStreamSocketImpl.outgoing = sent) ∨
    ∃ m ms' bytes, ms = m :: ms' ∧ IsFrame s._mustMaskPayload m bytes ∧ Pending s sent bytes

/-- The wire carries one frame for each message, in order, whatever the socket accepts at a
time. -/
theorem Sends.outgoing {ms : List Message} (h : Sends s ms s') {sent : List UInt8}
    (hmid : Midway s sent ms) :
    ∃ frames, List.Forall₂ (IsFrame s._mustMaskPayload) ms frames ∧
      s'._pStreamSocketImpl.outgoing = sent ++ frames.flatten := by
  induction h generalizing sent with
  | done s =>
      obtain ⟨-, hout⟩ | ⟨m, ms', bytes, hcons, -⟩ := hmid
      · exact ⟨[], .nil, by simp [hout]⟩
      · cases hcons
  | again mask hr _ ih =>
      obtain ⟨hidle, rfl⟩ | ⟨_, _, bytes, hcons, hframe, hp⟩ := hmid
      · obtain ⟨bytes, hframe, hm, hp⟩ := sendBytes_start hidle hr
        rw [← hm]
        exact ih (.inr ⟨_, _, bytes, rfl, hm ▸ hframe, hp⟩)
      · obtain ⟨rfl, rfl⟩ := List.cons.inj hcons
        obtain ⟨hm, hp'⟩ := sendBytes_resume hp hr
        rw [← hm]
        exact ih (.inr ⟨_, _, bytes, rfl, hm ▸ hframe, hp'⟩)
  | complete mask hr _ ih =>
      obtain ⟨hidle, rfl⟩ | ⟨_, _, bytes, hcons, hframe, hp⟩ := hmid
      · obtain ⟨bytes, hframe, hm, hdone⟩ := sendBytes_start hidle hr
        obtain ⟨frames, hframes, hout⟩ := ih (.inl hdone)
        rw [hm] at hframes
        exact ⟨bytes :: frames, .cons hframe hframes, by simpa using hout⟩
      · obtain ⟨rfl, rfl⟩ := List.cons.inj hcons
        obtain ⟨hm, hdone⟩ := sendBytes_resume hp hr
        obtain ⟨frames, hframes, hout⟩ := ih (.inl hdone)
        rw [hm] at hframes
        exact ⟨bytes :: frames, .cons hframe hframes, by simpa using hout⟩

end Send

/-! ### The round trip -/

/-- Conditions on the sizes of the frames, of which `tail` bytes follow.  When a frame is
next, the receiver holds at most `ahead` bytes of the stream and its buffer is in use from
`start` or earlier on.

* The call does not stall: the peer shuts the connection down after the frames, or the
  receiver holds nothing, or not everything, or a whole header anyway.
* The `int` arithmetic on the buffer does not overflow.

Reading a frame of at least the bytes that were held empties the buffer, and the next peek
starts at its beginning again. -/
def Paced (shutdown : Bool) (tail : ℕ) : ℕ → ℕ → List ℕ → Prop
  | _, _, [] => True
  | ahead, start, f :: fs =>
      (shutdown = true ∨ ahead = 0 ∨ ahead < f + fs.sum + tail ∨
        MAX_HEADER_LENGTH ≤ f + fs.sum + tail) ∧
      start + max f (max MAX_HEADER_LENGTH ahead) ≤ INT_MAX ∧
      Paced shutdown tail (max MAX_HEADER_LENGTH ahead - f)
        (if max MAX_HEADER_LENGTH ahead ≤ f then 0 else start + f) fs

/-- A call of `receiveBytes` with a buffer of `length` bytes: what it returns, the frame flags
afterwards and the bytes it takes from the stream. -/
structure Receipt where
  length : ℕ
  payload : List UInt8
  flags : UInt8
  consumed : List UInt8

/-- The call happens. -/
def Receives (fuel : ℕ) (s : WebSocketImpl) (c : Receipt) (s' : WebSocketImpl) : Prop :=
  receiveBytes fuel c.length s = .ok (some c.payload) s' ∧ s'.frameFlags = c.flags ∧
    unread s = c.consumed ++ unread s'

/-- The call is the one that receives the message. -/
def IsReceiptOf (mustMaskPayload : Bool) (m : Message) (c : Receipt) : Prop :=
  c.payload = m.payload ∧
    c.flags = (if m.flags = 0 then 0x82 else UInt8.ofNat (m.flags % 256).toNat) ∧
    IsFrame mustMaskPayload m c.consumed

/-- The bytes of a message on the wire. -/
def wireLength (mustMaskPayload : Bool) (m : Message) : ℕ :=
  frameLength mustMaskPayload m.payload.length

theorem length_flatten_frames {mustMaskPayload : Bool} {ms : List Message}
    {frames : List (List UInt8)} (h : List.Forall₂ (IsFrame mustMaskPayload) ms frames) :
    frames.flatten.length = (ms.map (wireLength mustMaskPayload)).sum := by
  induction h with
  | nil => rfl
  | cons hm _ ih =>
      obtain ⟨mask, rfl⟩ := hm
      rw [List.flatten_cons, List.length_append, ih, length_frame, List.map_cons, List.sum_cons,
        wireLength]

theorem receives_frames {fuel : ℕ} (hfuel : MAX_HEADER_LENGTH ≤ fuel) {mustMaskPayload : Bool}
    {tail : List UInt8} {ms : List Message} {frames : List (List UInt8)} {lengths : List ℕ}
    (hframes : List.Forall₂ (IsFrame mustMaskPayload) ms frames)
    (hlengths : List.Forall₂ (fun m length => m.payload.length ≤ length) ms lengths)
    {s : WebSocketImpl} {ahead start : ℕ} (hb : s._pStreamSocketImpl.blocking = true)
    (hint : s._buffer.length ≤ INT_MAX) (hahead : held s ≤ ahead) (hstart : base s ≤ start)
    (hmax : ∀ m ∈ ms, m.payload.length ≤ s._maxPayloadSize)
    (hun : unread s = frames.flatten ++ tail)
    (hpaced : Paced s._pStreamSocketImpl.shutdown tail.length ahead start
      (ms.map (wireLength mustMaskPayload))) :
    ∃ receipts s', Run (Receives fuel) s receipts s' ∧ unread s' = tail ∧
      receipts.map Receipt.length = lengths ∧
      List.Forall₂ (IsReceiptOf mustMaskPayload) ms receipts := by
  induction hframes generalizing s ahead start lengths with
  | nil =>
      cases hlengths
      exact ⟨[], s, .refl s, hun, rfl, .nil⟩
  | @cons m bytes ms frames hframe hframes ih =>
      obtain ⟨mask, rfl⟩ := hframe
      cases hlengths with
      | @cons _ length _ lengths hlength hlengths =>
          obtain ⟨hstall, hfits, hpaced⟩ := hpaced
          rw [List.flatten_cons, List.append_assoc] at hun
          have htotal := length_unread s
          rw [hun, List.length_append, List.length_append, length_frame,
            length_flatten_frames hframes] at htotal
          have hready : Ready s := by
            unfold wireLength at hstall htotal
            obtain hsd | hnone | hless | hmany := hstall
            · exact .inr (.inr (.inr hsd))
            · exact .inl (by omega)
            · refine .inr (.inr (.inl (List.ne_nil_of_length_pos ?_)))
              omega
            · by_cases hheld : MAX_HEADER_LENGTH ≤ held s
              · exact .inr (.inl hheld)
              · refine .inr (.inr (.inl (List.ne_nil_of_length_pos ?_)))
                omega
          have hle : max MAX_HEADER_LENGTH (held s) ≤ max MAX_HEADER_LENGTH ahead := by omega
          unfold wireLength at hfits hpaced
          obtain ⟨s₁, hr, hflags, hun₁, hheld₁, hoff₁, hint₁, hb₁, hsd₁, hmax₁⟩ :=
            receiveBlocking_spec (some length) hfuel (by simpa using hlength) hb hint (by omega)
              (by omega) hready (hmax m List.mem_cons_self) hun
          have hcall : receiveBytes fuel length s = .ok (some m.payload) s₁ := by
            have hget : (get : Method WebSocketImpl) s = .ok s s := rfl
            rw [receiveBytes, receiveFrame, bind_of_ok hget, if_pos hb]
            exact hr
          -- the buffer is empty again, or it is in use up to the end of this frame
          have hbase₁ : base s₁ ≤ if max MAX_HEADER_LENGTH ahead ≤
              frameLength mustMaskPayload m.payload.length then 0
              else start + frameLength mustMaskPayload m.payload.length := by
            unfold base
            split
            · exact Nat.zero_le _
            · rw [if_neg (by omega)]
              omega
          obtain ⟨receipts, s', hrun, htail, hls, hms⟩ := ih hlengths (hb₁.trans hb) hint₁
            (by omega : held s₁ ≤ max MAX_HEADER_LENGTH ahead -
              frameLength mustMaskPayload m.payload.length) hbase₁
            (fun m' hm' => hmax₁ ▸ hmax m' (List.mem_cons_of_mem _ hm')) hun₁ (hsd₁ ▸ hpaced)
          refine ⟨⟨length, m.payload, wireFlags m.flags, frame mustMaskPayload mask m.payload m.flags⟩ ::
            receipts, s', .cons ⟨hcall, hflags, hun.trans (by rw [hun₁])⟩ hrun, htail, ?_, ?_⟩
          · rw [List.map_cons, hls]
          · refine .cons ⟨rfl, ?_, mask, rfl⟩ hms
            dsimp only [wireFlags]
            split <;> rfl

variable {socket peer : StreamSocketImpl} {drained drained' tail : List UInt8}
  {mustMaskPayload mustMaskPayload' : Bool} {ms : List Message} {sender : WebSocketImpl}
  {lengths : List ℕ} {maxPayloadSize fuel : ℕ}

/-- **The messages are received as they were sent.**  A sender writes the messages; the bytes
of its frames, and perhaps `tail`, reach a blocking receiver, the first of them with the
bytes drained from the HTTP session, the others cut into reads in any way.  Then one call of
`receiveBytes` for each message returns its payload and sets the flags that were sent, and
takes exactly the bytes of its frame. -/
theorem receives_sent_messages (hsent : Sends (create socket drained' mustMaskPayload) ms sender)
    (hblocking : peer.blocking = true)
    (hstream : socket.outgoing ++ (drained ++ peer.incoming) =
      sender._pStreamSocketImpl.outgoing ++ tail)
    (hmax : ∀ m ∈ ms, m.payload.length ≤ maxPayloadSize)
    (hlengths : List.Forall₂ (fun m length => m.payload.length ≤ length) ms lengths)
    (hpaced : Paced peer.shutdown tail.length drained.length 0
      (ms.map (wireLength mustMaskPayload)))
    (hfuel : MAX_HEADER_LENGTH ≤ fuel) :
    ∃ receipts receiver,
      Run (Receives fuel) ((create peer drained mustMaskPayload').setMaxPayloadSize maxPayloadSize)
        receipts receiver ∧
      unread receiver = tail ∧ receipts.map Receipt.length = lengths ∧
      List.Forall₂ (IsReceiptOf mustMaskPayload) ms receipts := by
  obtain ⟨frames, hframes, hout⟩ := hsent.outgoing (.inl ⟨rfl, rfl⟩)
  rw [hout, List.append_assoc] at hstream
  replace hstream := List.append_cancel_left hstream
  cases hframes with
  | nil =>
      cases hlengths
      exact ⟨[], _, .refl _, hstream, rfl, .nil⟩
  | cons hframe hframes =>
      have hdrained : drained.length ≤ INT_MAX := by
        obtain ⟨-, hfits, -⟩ := hpaced
        omega
      exact receives_frames hfuel (.cons hframe hframes) hlengths hblocking hdrained (le_refl _)
        (Nat.le_of_eq (ite_self _)) hmax hstream hpaced

/-- A connection on which every `recv` returns one byte. -/
def byteByByte (incoming : List UInt8) (shutdown : Bool) : StreamSocketImpl :=
  { incoming := incoming, shutdown := shutdown, fragment := fun _ => 1, accepts := fun _ => none }

/-- Two masked messages, the second with the raw flags byte 0, on a connection that stays
open; the first byte has been read by the HTTP session. -/
theorem receives_sent_messages_two :
    ∃ receipts receiver,
      Run (Receives 14) ((create (byteByByte
        [0x83, 1, 2, 3, 4, 0, 0, 0, 0x00, 0x80, 5, 6, 7, 8] false) [0x81] false).setMaxPayloadSize
        125) receipts receiver ∧
      unread receiver = [] ∧ receipts.map Receipt.length = [3, 0] ∧
      List.Forall₂ (IsReceiptOf true) [⟨[1, 2, 3], 0x81⟩, ⟨[], 0x100⟩] receipts :=
  have hsent : Sends (create (byteByByte [] true) [] true) [⟨[1, 2, 3], 0x81⟩, ⟨[], 0x100⟩] _ :=
    .complete #v[1, 2, 3, 4] rfl (.complete #v[5, 6, 7, 8] rfl (.done _))
  receives_sent_messages hsent rfl rfl (by decide) (.cons (by decide) (.cons (by decide) .nil))
    ⟨by decide, by decide, by decide, by decide, trivial⟩ (by decide)

/-- Flags 0 are sent as `FRAME_BINARY`, and this is what arrives. -/
theorem zero_flags_arrive_as_binary :
    ∃ sender receiver,
      Sends (create (byteByByte [] true) [] false) [⟨[7], 0⟩] sender ∧
      Receives 14 (create (byteByByte sender._pStreamSocketImpl.outgoing true) [] true)
        ⟨1, [7], 0x82, [0x82, 1, 7]⟩ receiver ∧ receiver.frameFlags ≠ 0 := by
  refine ⟨_, finalState (receiveBytes 14 1 (create (byteByByte [0x82, 1, 7] true) [] true)),
    .complete #v[0, 0, 0, 0] rfl (.done _), ⟨ok_of_returned ?_, ?_, ?_⟩, ?_⟩
  all_goals decide +kernel

-- Two short frames that arrive with one `recv`: the second is in the buffer, and the call for it
-- asks the open connection for the rest of the longest header.
example :
    let peer := { byteByByte [0x82, 1, 7, 0x82, 1, 8] false with fragment := fun _ => 6 }
    let first := receiveBytes 14 1 (create peer [] true)
    returned first = .ok (some [7]) ∧ (finalState first)._buffer = [0x82, 1, 7, 0x82, 1, 8] ∧
      returned (receiveBytes 14 1 (finalState first)) = .error .blocked := by
  decide +kernel

end Poco.Net.WebSocketImpl
