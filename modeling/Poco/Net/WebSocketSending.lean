import Poco.Net.WebSocketFraming

/-! # A WebSocket message is sent as one frame

`sendBytes` on a non-blocking socket may put only a part of the frame on the wire.  It then
returns `-1` and keeps the rest, and the caller calls it again with the same arguments until it
returns the length of the message.  Each call draws a masking key, but only the call that
starts the frame uses it.

`SendsOnce` is what the caller relies on: whatever the socket accepts at a time, and whatever
the keys are, the wire carries a growing part of one frame of the protocol (`WellFormed`), each
byte once and in order, and completion is reported when its last byte is on the wire.

The frame is built in a buffer of `length + MAX_HEADER_LENGTH` bytes, which is computed in
`int`: the sum overflows for the last lengths an `int` can have. -/

namespace Poco.Net.WebSocketImpl

open Poco.Lib

/-! ### Frames of the protocol -/

/-- The length byte without its mask bit and the extended length are the shortest encoding of
the length. -/
def EncodesLength (low : ℕ) (extended : List UInt8) (length : ℕ) : Prop :=
  (length < 126 ∧ low = length ∧ extended = []) ∨
  (126 ≤ length ∧ length < 65536 ∧ low = 126 ∧ extended.length = 2 ∧
    ofBigEndian extended = length) ∨
  (65536 ≤ length ∧ low = 127 ∧ extended.length = 8 ∧ ofBigEndian extended = length)

/-- A frame of the message: the flags, the length with the mask bit, the key if there is one,
and the payload, each byte of it combined with a byte of the key in turn. -/
def WellFormed (masked : Bool) (m : Message) (bytes : List UInt8) : Prop :=
  ∃ lengthByte extended key payload,
    bytes = UInt8.ofNat ((if m.flags = 0 then FRAME_BINARY else m.flags) % 256).toNat ::
      lengthByte :: (extended ++ key ++ payload) ∧
    (lengthByte &&& FRAME_FLAG_MASK ≠ 0 ↔ masked = true) ∧
    EncodesLength (lengthByte &&& 0x7f).toNat extended m.payload.length ∧
    key.length = (if masked then MASK_LENGTH else 0) ∧
    payload.length = m.payload.length ∧
    ∀ i < payload.length, payload.getD i 0 =
      if masked then m.payload.getD i 0 ^^^ key.getD (i % MASK_LENGTH) 0 else m.payload.getD i 0

theorem encodesLength_encodeLength {length : ℕ} (h : length < 2 ^ 64) :
    EncodesLength (encodeLength length).1.toNat (encodeLength length).2 length := by
  unfold encodeLength
  by_cases h1 : length < 126
  · rw [if_pos h1]
    exact .inl ⟨h1, by simp; omega, rfl⟩
  · by_cases h2 : length < 65536
    · rw [if_neg h1, if_pos h2]
      exact .inr (.inl ⟨by omega, h2, rfl, by simp, ofBigEndian_bigEndian h2⟩)
    · rw [if_neg h1, if_neg h2]
      exact .inr (.inr ⟨by omega, rfl, by simp, ofBigEndian_bigEndian h⟩)

theorem wellFormed_frame (masked : Bool) (mask : Vector UInt8 4) (m : Message)
    (h : m.payload.length < 2 ^ 64) :
    WellFormed masked m (frame masked mask m.payload m.flags) := by
  obtain ⟨hlow, hbit⟩ := lengthByte_spec (rfl : (if masked then
    FRAME_FLAG_MASK ||| (encodeLength m.payload.length).1 else (encodeLength m.payload.length).1) = _)
  refine ⟨_, (encodeLength m.payload.length).2, if masked then mask.toList else [],
    body masked mask m.payload, ?_, hbit, ?_, ?_, length_body _ _ _, ?_⟩
  · rw [frame_eq, header, wireFlags]
    simp
  · rw [hlow]
    exact encodesLength_encodeLength h
  · cases masked <;> simp [MASK_LENGTH]
  · intro i hi
    rw [length_body] at hi
    cases masked with
    | false => rfl
    | true => simp [body, xorWith, keyStream, hi, List.getD_eq_getElem?_getD]

/-! ### Repeated calls -/

/-- Calls of `sendBytes` with the same arguments until one reports completion, at most `calls`
of them; `masks` are the values of `_rnd.next()`. -/
def repeatSendBytes (m : Message) : ℕ → (ℕ → Vector UInt8 4) → Method (Option ℕ)
  | 0, _ => return none
  | calls + 1, masks => do
      match ← sendBytes (masks 0) m.payload m.flags with
      | some n => return some n
      | none => repeatSendBytes m calls fun i => masks (i + 1)

/-- How many bytes the `i`-th `send` from now on takes when it is given at most `length`. -/
def ready (t : StreamSocketImpl) (length i : ℕ) : ℕ :=
  if t.blocking then length else (t.accepts (t.writes + i)).getD 0

/-- How many bytes the next `calls` of them take. -/
def takes (t : StreamSocketImpl) (length calls : ℕ) : ℕ :=
  ((List.range calls).map (ready t length)).sum

/-- After `calls` calls as many bytes of `bytes` from `offset` on have followed what was `sent` as the
socket has taken; the call that sends the last of them returns the length of the message, and
leaves nothing behind. -/
def Progress (s : WebSocketImpl) (m : Message) (masks : ℕ → Vector UInt8 4)
    (sent bytes : List UInt8) (offset calls : ℕ) : Prop :=
  let total := offset + takes s._pStreamSocketImpl bytes.length calls
  ∃ r s', repeatSendBytes m calls masks s = .ok r s' ∧
    s'._pStreamSocketImpl.outgoing = sent ++ bytes.take total ∧
    r = (if bytes.length ≤ total then some m.payload.length else none) ∧ (r.isSome → Idle s')

/-- Sending the message puts exactly one frame on the wire. -/
def SendsOnce (s : WebSocketImpl) (m : Message) : Prop :=
  ∀ masks, ∃ bytes, WellFormed s._mustMaskPayload m bytes ∧
    ∀ calls, Progress s m masks s._pStreamSocketImpl.outgoing bytes 0 calls

/-- The socket after a call of `send`. -/
structure Wrote (t t' : StreamSocketImpl) : Prop where
  blocking : t'.blocking = t.blocking
  accepts : t'.accepts = t.accepts
  writes : t.blocking = false → t'.writes = t.writes + 1

theorem takes_succ {t t' : StreamSocketImpl} (h : Wrote t t') (length calls : ℕ) :
    takes t length (calls + 1) = ready t length 0 + takes t' length calls := by
  have hready : ∀ i, ready t length (i + 1) = ready t' length i := by
    intro i
    unfold ready
    rw [h.blocking, h.accepts]
    cases hb : t.blocking with
    | true => rfl
    | false =>
        rw [h.writes hb, Nat.add_assoc, Nat.add_comm 1 i]
  simp only [takes, List.range_succ_eq_map, List.map_cons, List.sum_cons, List.map_map,
    Function.comp_def, hready]

theorem sendBytes_socket_eq (bytes : List UInt8) (t : StreamSocketImpl) {length : ℕ}
    (hle : bytes.length ≤ length) :
    ∃ sent t', StreamSocketImpl.sendBytes bytes t = .ok sent t' ∧
      sent.getD 0 = min (ready t length 0) bytes.length ∧
      t'.outgoing = t.outgoing ++ bytes.take (ready t length 0) ∧ Wrote t t' := by
  unfold StreamSocketImpl.sendBytes ready
  cases hb : t.blocking with
  | true =>
      refine ⟨_, _, rfl, by simp [hle], ?_, ⟨hb.symm, rfl, by simp [hb]⟩⟩
      simp [List.take_of_length_le hle]
  | false =>
      cases ht : t.accepts t.writes with
      | none => exact ⟨_, _, rfl, by simp, by simp, ⟨hb.symm, rfl, fun _ => rfl⟩⟩
      | some n =>
          refine ⟨_, _, rfl, by simp, ?_, ⟨hb.symm, rfl, fun _ => rfl⟩⟩
          simp [List.take_eq_take_min]

section Repeat

variable {s : WebSocketImpl} {sent bytes : List UInt8} {m : Message}

theorem noteSent_all (length offset remaining : ℕ) (s : WebSocketImpl) :
    noteSent length offset remaining (some remaining) s = .ok (some length)
      { s with _sendState := { s._sendState with
          length := 0, remainingPayloadOffset := 0, remainingPayloadLength := 0 } } := by
  rw [noteSent, if_neg (Nat.lt_irrefl remaining)]
  rfl

theorem noteSent_part {length offset remaining : ℕ} {taken : Option ℕ}
    (h : taken.getD 0 < remaining) (s : WebSocketImpl) :
    noteSent length offset remaining taken s = .ok none
      { s with _sendState := { s._sendState with
          length := length
          remainingPayloadOffset := offset + taken.getD 0
          remainingPayloadLength := remaining - taken.getD 0 } } := by
  cases taken with
  | none => rfl
  | some k =>
      rw [noteSent, if_pos (show k < remaining from h)]
      rfl

/-- Handing the rest of a frame to the socket completes the frame or leaves less of it. -/
theorem sendRest_eq (length : ℕ) {offset remaining : ℕ}
    (h : Sending s sent bytes offset remaining)
    (hpos : 0 < remaining) :
    let n := ready s._pStreamSocketImpl bytes.length 0
    ∃ r s', (onSocket (StreamSocketImpl.sendBytes (slice bytes offset remaining)) >>=
        noteSent length offset remaining) s = .ok r s' ∧
      Wrote s._pStreamSocketImpl s'._pStreamSocketImpl ∧
      if remaining ≤ n then
        r = some length ∧ Idle s' ∧ s'._pStreamSocketImpl.outgoing = sent ++ bytes
      else
        r = none ∧ Pending s' sent bytes ∧ s'._sendState.length = length ∧
          s'._sendState.remainingPayloadOffset = offset + n := by
  intro n
  have hslice : (slice bytes offset remaining).length = remaining :=
    slice_length (Nat.le_of_eq h.sum)
  have hle : (slice bytes offset remaining).length ≤ bytes.length := by
    have := h.sum
    omega
  obtain ⟨taken, t, ht, htaken, hout, hwrote⟩ :=
    sendBytes_socket_eq (slice bytes offset remaining) s._pStreamSocketImpl hle
  rw [bind_of_ok (onSocket_of_ok ht)]
  change taken.getD 0 = min n _ at htaken
  change t.outgoing = _ ++ (slice bytes offset remaining).take n at hout
  rw [hslice] at htaken
  by_cases hn : remaining ≤ n
  · -- the rest of the frame
    simp only [if_pos hn]
    rw [Nat.min_eq_right hn] at htaken
    obtain rfl : taken = some remaining := by
      cases taken with
      | none => exact absurd htaken (Nat.ne_of_lt hpos)
      | some k => exact congrArg some htaken
    refine ⟨_, _, noteSent_all _ _ _ _, hwrote, rfl, rfl, ?_⟩
    have htake : (slice bytes offset remaining).take n = bytes.drop offset := by
      rw [List.take_of_length_le (by omega)]
      exact List.take_of_length_le (by rw [List.length_drop, ← h.sum]; omega)
    change t.outgoing = _
    rw [hout, htake, h.outgoing, List.append_assoc, List.take_append_drop]
  · simp only [if_neg hn]
    rw [Nat.min_eq_left (by omega)] at htaken
    have hwire : t.outgoing = sent ++ bytes.take (offset + n) := by
      rw [hout, h.outgoing, List.append_assoc, slice_take bytes offset (by omega), List.take_add]
      rfl
    have hsum : offset + n + (remaining - n) = bytes.length := by
      have := h.sum
      omega
    refine ⟨_, _, noteSent_part (by omega) _, hwrote, rfl, ?_, rfl, ?_⟩
    · rw [htaken]
      exact ⟨Nat.sub_pos_of_lt (Nat.lt_of_not_le hn), hwire, h.payload, hsum⟩
    · rw [htaken]

/-- The first of several calls hands the frame, from `offset` on, to the socket. -/
theorem progress_of_send {s₁ : WebSocketImpl} {masks : ℕ → Vector UInt8 4}
    {offset remaining calls : ℕ}
    (hcall : sendBytes (masks 0) m.payload m.flags s =
      (onSocket (StreamSocketImpl.sendBytes (slice bytes offset remaining)) >>=
        noteSent m.payload.length offset remaining) s₁)
    (hsocket : s₁._pStreamSocketImpl = s._pStreamSocketImpl)
    (h : Sending s₁ sent bytes offset remaining)
    (hpos : 0 < remaining)
    (hrest : ∀ s', Pending s' sent bytes → s'._sendState.length = m.payload.length →
      Progress s' m (fun i => masks (i + 1)) sent bytes s'._sendState.remainingPayloadOffset calls) :
    Progress s m masks sent bytes offset (calls + 1) := by
  obtain ⟨r, s', hr, hwrote, hcase⟩ := sendRest_eq m.payload.length h hpos
  have hsum := h.sum
  rw [hsocket] at hwrote hcase
  rw [← hcall] at hr
  unfold Progress
  dsimp only
  rw [repeatSendBytes, bind_of_ok hr, takes_succ hwrote, ← Nat.add_assoc]
  by_cases hn : remaining ≤ ready s._pStreamSocketImpl bytes.length 0
  · rw [if_pos hn] at hcase
    obtain ⟨rfl, hidle, hout⟩ := hcase
    refine ⟨_, _, rfl, ?_, ?_, fun _ => hidle⟩
    · rw [List.take_of_length_le (by omega)]
      exact hout
    · rw [if_pos (by omega)]
  · rw [if_neg hn] at hcase
    obtain ⟨rfl, hpending, hlength, hoffset⟩ := hcase
    have := hrest s' hpending hlength
    rwa [hoffset] at this

/-- A frame that has been sent in part is sent to its end. -/
theorem progress_pending (calls : ℕ) {masks : ℕ → Vector UInt8 4} (h : Pending s sent bytes)
    (hlength : s._sendState.length = m.payload.length) :
    Progress s m masks sent bytes s._sendState.remainingPayloadOffset calls := by
  induction calls generalizing s masks with
  | zero =>
      obtain ⟨hpos, hs⟩ := h
      have hsum := hs.sum
      refine ⟨none, s, rfl, by simpa [takes] using hs.outgoing, ?_, by simp⟩
      rw [if_neg (by simp [takes]; omega)]
  | succ calls ih =>
      obtain ⟨hpos, hs⟩ := h
      refine progress_of_send ?_ rfl hs hpos fun s' h' hlength' => ih h' hlength'
      rw [sendBytes, get_bind, if_pos hpos, hs.payload, if_neg (not_not.mpr hlength.symm)]

/-- A message is sent to its end when nothing else is being sent. -/
theorem progress_idle (calls : ℕ) {masks : ℕ → Vector UInt8 4} (hidle : Idle s)
    (hint : m.payload.length + MAX_HEADER_LENGTH ≤ INT_MAX)
    (hbytes : bytes = frame s._mustMaskPayload (masks 0) m.payload m.flags) :
    Progress s m masks s._pStreamSocketImpl.outgoing bytes 0 calls := by
  have hpos : 0 < bytes.length := by
    have := two_le_headerSize s._mustMaskPayload m.payload.length
    rw [hbytes, length_frame, frameLength]
    omega
  cases calls with
  | zero =>
      refine ⟨none, s, rfl, by simp [takes], ?_, by simp⟩
      rw [if_neg (by simp [takes]; exact List.ne_nil_of_length_pos hpos)]
  | succ calls =>
      have hs : Sending { s with _sendState := { s._sendState with payload := bytes } }
          s._pStreamSocketImpl.outgoing bytes 0 bytes.length := ⟨by simp, rfl, Nat.zero_add _⟩
      have hcheck : (discard (toInt (m.payload.length + MAX_HEADER_LENGTH)) : Method Unit) s =
          .ok () s := by
        simp [discard, Functor.discard, Functor.mapConst, EStateM.map, toInt_of_le hint]
      refine progress_of_send ?_ ?_ hs hpos fun s' h' hlength => progress_pending calls h' hlength
      · have hall : slice bytes 0 bytes.length = bytes := List.take_length
        unfold Idle at hidle
        rw [sendBytes, get_bind, hall]
        dsimp only
        rw [if_neg (by omega), ← hbytes, bind_of_ok hcheck]
        rfl
      · rfl

end Repeat

/-! ### When the message is sent -/

section

variable {s : WebSocketImpl} {m : Message}

theorem sendsOnce_of_le (hidle : Idle s) (hint : m.payload.length + MAX_HEADER_LENGTH ≤ INT_MAX) :
    SendsOnce s m := fun masks =>
  have hlength : m.payload.length < 2 ^ 64 := by
    unfold INT_MAX at hint
    omega
  ⟨_, wellFormed_frame _ (masks 0) m hlength, fun calls => progress_idle calls hidle hint rfl⟩

/-- The size of the buffer does not fit into an `int`: the first call does not return. -/
theorem not_sendsOnce_of_lt (hidle : Idle s)
    (hint : INT_MAX < m.payload.length + MAX_HEADER_LENGTH) : ¬SendsOnce s m := by
  intro h
  obtain ⟨bytes, -, hprogress⟩ := h fun _ => #v[0, 0, 0, 0]
  obtain ⟨r, s', hr, -⟩ := hprogress 1
  unfold Idle at hidle
  have hcall : sendBytes #v[0, 0, 0, 0] m.payload m.flags s = .error .overflow s := by
    rw [sendBytes, get_bind]
    dsimp only
    rw [if_neg (by omega)]
    apply bind_of_error
    simp [discard, Functor.discard, Functor.mapConst, EStateM.map, toInt, Nat.not_le.mpr hint,
      throw_run]
  rw [repeatSendBytes, bind_of_error hcall] at hr
  cases hr

/-- **Repeated calls put one frame on the wire.**  With no other frame pending, a message is
sent as exactly one frame, whatever the socket accepts at a time, just when the size of the
frame's buffer fits into an `int`. -/
theorem sendsOnce_iff (hidle : Idle s) :
    SendsOnce s m ↔ m.payload.length + MAX_HEADER_LENGTH ≤ INT_MAX :=
  ⟨fun h => Nat.le_of_not_lt fun hlt => not_sendsOnce_of_lt hidle hlt h, sendsOnce_of_le hidle⟩

/-- A socket that takes one byte, then nothing, then the rest. -/
def reluctant : StreamSocketImpl :=
  { blocking := false, fragment := fun _ => 1,
    accepts := fun i => if i = 0 then some 1 else if i = 1 then none else some 100 }

theorem sendsOnce_reluctant : SendsOnce (create reluctant [] true) ⟨[1, 2, 3], 0x81⟩ := by
  have hidle : Idle (create reluctant [] true) := rfl
  exact (sendsOnce_iff hidle).mpr (by decide)

/-- 14 bytes more than the message do not fit into an `int`. -/
theorem not_sendsOnce_longest :
    ¬SendsOnce (create reluctant [] true) ⟨List.replicate 2147483634 0, 0x82⟩ := by
  have hidle : Idle (create reluctant [] true) := rfl
  -- the payload is never unfolded
  have hlong : ∀ payload : List UInt8, payload.length = 2147483634 →
      ¬SendsOnce (create reluctant [] true) ⟨payload, 0x82⟩ := by
    intro payload hlength
    refine not_sendsOnce_of_lt hidle ?_
    rw [hlength]
    decide
  exact hlong _ List.length_replicate

end

end Poco.Net.WebSocketImpl
