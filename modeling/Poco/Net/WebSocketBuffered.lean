import Poco.Net.WebSocketNonBlocking

/-! # Frames that a non-blocking WebSocket already holds

A `recv` may bring more than the frame it was made for; the rest waits in `_buffer`.  A call of
`receiveBytes` that finds the next frame there as a whole need not wait for the socket: the
peek at the header asks the socket for more when fewer than `MAX_HEADER_LENGTH` bytes are
held, but makes do with what it has when there is no more.

`deliversBuffered_iff` says in which states the frame is delivered.  What it asks of the
receive state is that the receiver is in front of a frame.  The blocking path leaves
`remainingPayloadLength` as it was in front of the payload, so that this fails after a change from
blocking to non-blocking mode: the header is taken for payload, and written to a buffer that has
not been made large enough for it. -/

namespace Poco.Net.WebSocketImpl

open Poco.Lib

/-! ### The states of a receiver -/

/-- No more of a payload is missing than the whole. -/
def Consistent (s : WebSocketImpl) : Prop :=
  s._receiveState.remainingPayloadLength ≤ s._receiveState.payloadLength

/-- The member functions, and what else changes between two calls: the bytes that have arrived,
and the mode of the socket. -/
inductive Action
  | receive (fuel : ℕ) (limit : Option ℕ)
  | send (mask : Vector UInt8 4) (buffer : List UInt8) (flags : ℤ)
  | setMaxPayloadSize (maxPayloadSize : ℕ)
  | socket (t : StreamSocketImpl)

/-- The state in which a call leaves the object, if it comes back: it returns or throws, a `recv` on
which nothing arrives with the exception of a timeout. -/
def comesBack {α : Type} : EStateM.Result Stop WebSocketImpl α → Option WebSocketImpl
  | .ok _ s => some s
  | .error .overflow _ => none
  | .error .outOfBounds _ => none
  | .error .outOfFuel _ => none
  | .error _ s => some s

theorem eq_finalState {α : Type} {x : EStateM.Result Stop WebSocketImpl α} {s : WebSocketImpl}
    (h : comesBack x = some s) : finalState x = s := by
  unfold comesBack at h
  split at h <;> cases h <;> rfl

/-- The state after the call, whether it returns or throws. -/
def act (s : WebSocketImpl) : Action → Option WebSocketImpl
  | .receive fuel limit => comesBack (receiveFrame fuel limit s)
  | .send mask buffer flags => comesBack (sendBytes mask buffer flags s)
  | .setMaxPayloadSize maxPayloadSize => some (s.setMaxPayloadSize maxPayloadSize)
  | .socket t => some { s with _pStreamSocketImpl := t }

/-- The states of a WebSocket after any calls, all of which have come back. -/
def Reachable (s : WebSocketImpl) : Prop :=
  ∃ socket drained mustMaskPayload actions,
    Run (fun s a s' => act s a = some s') (create socket drained mustMaskPayload) actions s

/-- The call does not touch the receive state. -/
def LeavesReceiveState {α : Type} (x : Method α) : Prop :=
  ∀ r, Preserves (fun s => s._receiveState = r) x

section Leaves

variable {α β : Type} {x : Method α} {f : α → Method β}

theorem LeavesReceiveState.bind (hx : LeavesReceiveState x) (hf : ∀ a, LeavesReceiveState (f a)) :
    LeavesReceiveState (x >>= f) := fun r => (hx r).bind fun a => hf a r

theorem LeavesReceiveState.get_bind {f : WebSocketImpl → Method β} (hf : ∀ s, LeavesReceiveState (f s)) :
    LeavesReceiveState (get >>= f) := fun r => .get_bind fun s h => hf s r s h

theorem leaves_pure (a : α) : LeavesReceiveState (pure a : Method α) := fun _ => .pure a

theorem leaves_throw (e : Stop) : LeavesReceiveState (throw e : Method α) := fun _ => .throw e

theorem leaves_onSocket (call : EStateM Stop StreamSocketImpl α) : LeavesReceiveState (onSocket call) := by
  intro r s h
  unfold onSocket
  split <;> exact h

theorem leaves_toInt (n : ℕ) : LeavesReceiveState (toInt n) := by
  unfold toInt
  split
  · exact leaves_pure n
  · exact leaves_throw _

theorem leaves_writeBlock (block : List UInt8) (offset : ℕ) (bytes : List UInt8) :
    LeavesReceiveState (writeBlock block offset bytes) := by
  unfold writeBlock
  split
  · exact leaves_pure _
  · exact leaves_throw _

theorem LeavesReceiveState.ite {c : Prop} [Decidable c] {y : Method α} (hx : LeavesReceiveState x)
    (hy : LeavesReceiveState y) : LeavesReceiveState (if c then x else y) := by
  split
  · exact hx
  · exact hy

theorem leaves_receiveSomeBytes (length : ℕ) : LeavesReceiveState (receiveSomeBytes length) := by
  refine .get_bind fun s => .bind (leaves_toInt _) fun n => .ite ?_ (leaves_onSocket _)
  exact .bind (leaves_toInt _) fun offset _ _ h => h

theorem leaves_peekSomeBytes (length : ℕ) : LeavesReceiveState (peekSomeBytes length) := by
  refine .get_bind fun s => .bind (leaves_toInt _) fun n => .ite (.ite ?_ (leaves_pure _)) ?_
  · refine .bind (leaves_onSocket _) fun r => ?_
    cases r with
    | none => exact leaves_pure _
    | some more => exact fun _ _ h => h
  · refine .bind (leaves_onSocket _) fun r => ?_
    cases r with
    | none => exact leaves_pure _
    | some bytes =>
        refine .ite (fun _ _ h => h) (leaves_pure _)

theorem leaves_receiveRest (length rounds : ℕ) (received : List UInt8) :
    LeavesReceiveState (receiveRest length rounds received) := by
  induction rounds generalizing received with
  | zero => exact leaves_pure _
  | succ rounds ih =>
      refine .ite (.bind (leaves_receiveSomeBytes _) fun r => ?_) (leaves_pure _)
      cases r with
      | none => exact leaves_pure _
      | some bytes => exact .ite (ih _) (leaves_pure _)

theorem leaves_receiveNBytes (length : ℕ) : LeavesReceiveState (receiveNBytes length) := by
  refine .bind (leaves_receiveSomeBytes _) fun r => ?_
  cases r with
  | none => exact leaves_pure _
  | some received => exact .ite (.bind (leaves_receiveRest _ _ _) fun _ => leaves_pure _) (leaves_pure _)

theorem leaves_skipHeader (headerLength : ℕ) : LeavesReceiveState (skipHeader headerLength) := by
  refine .ite ?_ (leaves_pure _)
  exact .bind (leaves_receiveNBytes _) fun _ => leaves_pure _

theorem leaves_receivePayload (payloadLength : ℕ) (mask : List UInt8) (useMask : Bool) (maskOffset : ℕ) :
    LeavesReceiveState (receivePayload payloadLength mask useMask maskOffset) := by
  refine .bind (leaves_receiveNBytes _) fun r => ?_
  cases r with
  | none => exact leaves_pure _
  | some received => exact leaves_pure _

theorem leaves_checkBuffer (limit : Option ℕ) (payloadLength : ℕ) :
    LeavesReceiveState (checkBuffer limit payloadLength) := by
  cases limit with
  | none => exact leaves_pure _
  | some length => exact .ite (leaves_throw _) (leaves_pure _)

theorem leaves_noteSent (length offset remaining : ℕ) (sent : Option ℕ) :
    LeavesReceiveState (noteSent length offset remaining sent) := by
  cases sent with
  | none => exact fun _ _ h => h
  | some sent => exact .ite (fun _ _ h => h) (fun _ _ h => h)

theorem leaves_sendBytes (mask : Vector UInt8 4) (buffer : List UInt8) (flags : ℤ) :
    LeavesReceiveState (sendBytes mask buffer flags) := by
  refine .get_bind fun s => .ite ?_ ?_
  · have hrest : LeavesReceiveState (do
        let sent ← onSocket (StreamSocketImpl.sendBytes (slice s._sendState.payload
          s._sendState.remainingPayloadOffset s._sendState.remainingPayloadLength))
        noteSent buffer.length s._sendState.remainingPayloadOffset s._sendState.remainingPayloadLength
          sent) := .bind (leaves_onSocket _) fun sent => leaves_noteSent _ _ _ sent
    exact .ite (.bind (leaves_throw _) fun _ => hrest) hrest
  · refine .bind (.bind (leaves_toInt _) fun _ => leaves_pure _) fun _ => ?_
    refine .bind (fun _ _ h => h) fun _ => ?_
    exact .bind (leaves_onSocket _) fun sent => leaves_noteSent _ _ _ sent

/-- The state after a call that does not touch the receive state. -/
theorem LeavesReceiveState.receiveState (h : LeavesReceiveState x) (s : WebSocketImpl) :
    (finalState (x s))._receiveState = s._receiveState := h _ s rfl

end Leaves

section Invariant

theorem Consistent.congr {s s' : WebSocketImpl} (h : Consistent s)
    (hstate : s'._receiveState = s._receiveState) : Consistent s' := by
  unfold Consistent
  rw [hstate]
  exact h

theorem consistent_of_remaining_eq_zero {s : WebSocketImpl}
    (h : s._receiveState.remainingPayloadLength = 0) : Consistent s := by
  rw [Consistent, h]
  exact Nat.zero_le _

/-- All of the payload is missing. -/
def Untouched (s : WebSocketImpl) : Prop :=
  s._receiveState.remainingPayloadLength = s._receiveState.payloadLength

theorem Untouched.consistent {s : WebSocketImpl} (h : Untouched s) : Consistent s := Nat.le_of_eq h

/-- A peek announces a payload of which everything is missing, or none. -/
theorem peekHeader_cases (s : WebSocketImpl) :
    (∃ l s', peekHeader s = .ok (some l) s' ∧ Untouched s') ∨
    (∃ s', peekHeader s = .ok none s' ∧ s'._receiveState.remainingPayloadLength = 0) ∨
    ∃ e s', peekHeader s = .error e s' ∧ s'._receiveState.remainingPayloadLength = 0 := by
  have hreset : onReceiveState (modify resetHeader) s =
      .ok () { s with _receiveState := resetHeader s._receiveState } := rfl
  have hleaves := (leaves_peekSomeBytes MAX_HEADER_LENGTH).receiveState
    { s with _receiveState := resetHeader s._receiveState }
  rw [peekHeader, bind_of_ok hreset]
  cases hpeek : peekSomeBytes MAX_HEADER_LENGTH { s with _receiveState := resetHeader s._receiveState } with
  | error e s₁ =>
      rw [hpeek] at hleaves
      exact .inr (.inr ⟨e, s₁, bind_of_error hpeek, congrArg ReceiveState.remainingPayloadLength hleaves⟩)
  | ok r s₁ =>
      rw [hpeek] at hleaves
      change s₁._receiveState = resetHeader s._receiveState at hleaves
      have hzero : s₁._receiveState.remainingPayloadLength = 0 :=
        congrArg ReceiveState.remainingPayloadLength hleaves
      rw [bind_of_ok hpeek]
      cases r with
      | none => exact .inr (.inl ⟨s₁, rfl, hzero⟩)
      | some h =>
          dsimp only
          by_cases hnil : h.length = 0
          · rw [if_pos hnil]
            refine .inl ⟨0, s₁, rfl, ?_⟩
            rw [Untouched, hleaves]
            rfl
          · rw [if_neg hnil]
            by_cases htwo : h.length < 2
            · rw [if_pos htwo]
              exact .inr (.inl ⟨s₁, rfl, hzero⟩)
            · rw [if_neg htwo, get_bind]
              obtain ⟨r, hr, -, hrem⟩ | ⟨r, hr, hrem⟩ | ⟨l, r, hr, hl, hrem, -⟩ :=
                parseHeader_cases s₁._maxPayloadSize h s₁._receiveState
              · exact .inr (.inl ⟨_, onReceiveState_of_ok hr, hrem.trans hzero⟩)
              · exact .inr (.inr ⟨_, _, onReceiveState_of_error hr, hrem.trans hzero⟩)
              · exact .inl ⟨l, _, onReceiveState_of_ok hr, hrem.trans hl.symm⟩

theorem consistent_peekHeader : Preserves Consistent peekHeader := by
  intro s _
  obtain ⟨l, s', hr, hrem⟩ | ⟨s', hr, hzero⟩ | ⟨e, s', hr, hzero⟩ := peekHeader_cases s
  · rw [hr]
    exact hrem.consistent
  · rw [hr]
    exact consistent_of_remaining_eq_zero hzero
  · rw [hr]
    exact consistent_of_remaining_eq_zero hzero

theorem LeavesReceiveState.consistent {α : Type} {x : Method α} (h : LeavesReceiveState x) :
    Preserves Consistent x := fun s hs => hs.congr (h.receiveState s)

theorem consistent_receiveMore : Preserves Consistent receiveMore := by
  refine .get_bind fun s hs => ?_
  have hleaves := (leaves_receivePayload s._receiveState.remainingPayloadLength s._receiveState.mask
    s._receiveState.useMask s._receiveState.maskOffset).receiveState s
  cases hpay : receivePayload s._receiveState.remainingPayloadLength s._receiveState.mask
      s._receiveState.useMask s._receiveState.maskOffset s with
  | error e s₁ =>
      rw [hpay] at hleaves
      rw [bind_of_error hpay]
      exact hs.congr hleaves
  | ok r s₁ =>
      rw [hpay] at hleaves
      change s₁._receiveState = s._receiveState at hleaves
      rw [bind_of_ok hpay]
      cases r with
      | none => exact hs.congr hleaves
      | some received =>
          dsimp only
          by_cases hpos : 0 < received.length
          · rw [if_pos hpos]
            have hwritten := (leaves_writeBlock s._receiveState.payload
              (s._receiveState.payloadLength - s._receiveState.remainingPayloadLength) received).receiveState s₁
            cases hwrite : writeBlock s._receiveState.payload
                (s._receiveState.payloadLength - s._receiveState.remainingPayloadLength) received s₁ with
            | error e s₂ =>
                rw [hwrite] at hwritten
                rw [bind_of_error hwrite]
                exact hs.congr (hwritten.trans hleaves)
            | ok payload s₂ =>
                rw [bind_of_ok hwrite]
                by_cases hzero : s._receiveState.remainingPayloadLength - received.length = 0
                · rw [if_pos hzero]
                  exact consistent_of_remaining_eq_zero hzero
                · rw [if_neg hzero]
                  exact (Nat.sub_le _ _).trans hs
          · rw [if_neg hpos]
            exact hs.congr hleaves

theorem LeavesReceiveState.untouched {α : Type} {x : Method α} (h : LeavesReceiveState x) :
    Preserves Untouched x := by
  intro s hs
  unfold Untouched
  rw [h.receiveState s]
  exact hs

theorem consistent_receiveNonBlocking (limit : Option ℕ) :
    Preserves Consistent (receiveNonBlocking limit) := by
  refine .get_bind fun s hs => ?_
  by_cases hzero : s._receiveState.remainingPayloadLength = 0
  · dsimp only
    rw [if_pos hzero]
    obtain ⟨l, s', hr, hall⟩ | ⟨s', hr, hnone⟩ | ⟨e, s', hr, hnone⟩ := peekHeader_cases s
    · rw [bind_of_ok hr]
      dsimp only
      rw [get_bind]
      by_cases hempty : l = 0
      · rw [if_pos hempty]
        exact Preserves.bind (leaves_skipHeader _).consistent (fun _ => .pure _) s' hall.consistent
      · rw [if_neg hempty]
        have hfail : ∀ s, Untouched s → Consistent s := fun _ h => h.consistent
        refine Leads.bind (leaves_checkBuffer _ _).untouched hfail (fun _ => ?_) s' hall
        refine Leads.bind (fun _ h => h) hfail fun _ => ?_
        exact Leads.bind (leaves_skipHeader _).untouched hfail fun _ s h =>
          consistent_receiveMore s h.consistent
    · rw [bind_of_ok hr]
      dsimp only
      rw [get_bind]
      exact Preserves.bind (leaves_skipHeader _).consistent (fun _ => .pure _) s'
        (consistent_of_remaining_eq_zero hnone)
    · rw [bind_of_error hr]
      exact consistent_of_remaining_eq_zero hnone
  · dsimp only
    rw [if_neg hzero]
    exact Preserves.bind (leaves_checkBuffer _ _).consistent (fun _ => consistent_receiveMore) s hs

theorem consistent_waitHeader (fuel : ℕ) : Preserves Consistent (waitHeader fuel) := by
  induction fuel with
  | zero => exact .throw _
  | succ fuel ih =>
      refine .bind consistent_peekHeader fun r => ?_
      cases r with
      | none => exact ih
      | some payloadLength => exact .pure _

theorem consistent_receiveBlocking (fuel : ℕ) (limit : Option ℕ) :
    Preserves Consistent (receiveBlocking fuel limit) := by
  refine .bind (consistent_waitHeader fuel) fun payloadLength => ?_
  refine LeavesReceiveState.consistent (.get_bind fun s => .ite ?_ ?_)
  · exact .bind (leaves_skipHeader _) fun _ => leaves_pure _
  · refine .bind (leaves_checkBuffer _ _) fun _ => .bind (leaves_skipHeader _) fun _ => ?_
    refine .bind (leaves_receivePayload _ _ _ _) fun r => ?_
    cases r with
    | none => exact leaves_throw _
    | some payload => exact .ite (.bind (leaves_throw _) fun _ => leaves_pure _) (leaves_pure _)

theorem Reachable.consistent {s : WebSocketImpl} (h : Reachable s) : Consistent s := by
  obtain ⟨socket, drained, mustMaskPayload, actions, hrun⟩ := h
  refine hrun.invariant ?_ (consistent_of_remaining_eq_zero rfl)
  intro s a s' hs hact
  cases a with
  | receive fuel limit =>
      rw [← eq_finalState hact]
      have hreceive : Preserves Consistent (receiveFrame fuel limit) := by
        refine .get_bind fun s hs => ?_
        split
        · exact consistent_receiveBlocking fuel limit s hs
        · exact consistent_receiveNonBlocking limit s hs
      exact hreceive s hs
  | send mask buffer flags =>
      rw [← eq_finalState hact]
      exact (leaves_sendBytes mask buffer flags).consistent s hs
  | setMaxPayloadSize maxPayloadSize =>
      cases hact
      exact hs
  | socket t =>
      cases hact
      exact hs

end Invariant

/-! ### A frame in the buffer -/

/-- The next `recv` reports that it would block. -/
def WouldBlock (t : StreamSocketImpl) : Prop :=
  t.blocking = false ∧ ∀ length, ∃ t', StreamSocketImpl.receiveBytes length t = .ok none t'

/-- The call returns the payload and the flags of the message, and `more` is left in the
buffer. -/
def DeliversBuffered (fuel : ℕ) (limit : Option ℕ) (s : WebSocketImpl) (m : Message)
    (more : List UInt8) : Prop :=
  ∃ s', receiveFrame fuel limit s = .ok (some m.payload) s' ∧ s'.frameFlags = wireFlags m.flags ∧
    s'._buffer.drop s'._bufferOffset = more

section Buffered

variable {s : WebSocketImpl} {mustMaskPayload : Bool} {mask : Vector UInt8 4} {m : Message}
  {more : List UInt8} {fuel : ℕ} {limit : Option ℕ}

theorem receiveNBytes_buffer {n : ℕ} (hint : s._buffer.length ≤ INT_MAX) (hpos : 0 < n)
    (hheld : n ≤ held s) :
    receiveNBytes n s = .ok (some (slice s._buffer s._bufferOffset n))
      { s with _bufferOffset := s._bufferOffset + n } := by
  have hend : s._bufferOffset + n ≤ s._buffer.length := by
    unfold held at hheld
    omega
  have hlength : (slice s._buffer s._bufferOffset n).length = n := slice_length hend
  have hsome := receiveSomeBytes_buffer hint (lt_of_lt_of_le hpos hheld) (hend.trans hint)
  rw [Nat.min_eq_left hheld] at hsome
  have hstop : ∀ rounds t, receiveRest n rounds (slice s._buffer s._bufferOffset n) t =
      .ok (slice s._buffer s._bufferOffset n) t := by
    intro rounds t
    cases rounds with
    | zero => rfl
    | succ rounds =>
        rw [receiveRest, if_neg (by omega)]
        rfl
  rw [receiveNBytes, bind_of_ok hsome]
  dsimp only
  rw [if_pos (by omega), bind_of_ok (hstop _ _)]
  rfl

theorem peekSomeBytes_buffered (hblock : WouldBlock s._pStreamSocketImpl)
    (hint : s._buffer.length ≤ INT_MAX) (hpos : 0 < held s) :
    ∃ t, peekSomeBytes MAX_HEADER_LENGTH s =
      .ok (some ((s._buffer.drop s._bufferOffset).take MAX_HEADER_LENGTH))
        { s with _pStreamSocketImpl := t } := by
  by_cases hlen : MAX_HEADER_LENGTH ≤ held s
  · exact ⟨s._pStreamSocketImpl, peekSomeBytes_buffer hint hlen (by decide)⟩
  · obtain ⟨t, ht⟩ := hblock.2 (MAX_HEADER_LENGTH - held s)
    refine ⟨t, ?_⟩
    have hshort : (s._buffer.drop s._bufferOffset).length ≤ MAX_HEADER_LENGTH := by
      rw [List.length_drop]
      exact Nat.le_of_not_le hlen
    rw [List.take_of_length_le hshort]
    exact peekSomeBytes_waits hint hpos (Nat.lt_of_not_le hlen) ht

theorem held_eq (hheld : s._buffer.drop s._bufferOffset =
    frame mustMaskPayload mask m.payload m.flags ++ more) :
    held s = headerSize mustMaskPayload m.payload.length + m.payload.length + more.length := by
  rw [held, ← List.length_drop, hheld, List.length_append, length_frame, frameLength]

theorem peekHeader_buffered (hblock : WouldBlock s._pStreamSocketImpl)
    (hint : s._buffer.length ≤ INT_MAX)
    (hheld : s._buffer.drop s._bufferOffset =
      frame mustMaskPayload mask m.payload m.flags ++ more) :
    ∃ t, if m.payload.length ≤ s._maxPayloadSize then
        ∃ r, peekHeader s = .ok (some m.payload.length)
            { s with _pStreamSocketImpl := t, _receiveState := r } ∧
          Opened s mustMaskPayload mask m.payload.length m.flags
            { s with _pStreamSocketImpl := t, _receiveState := r }
      else ∃ s', peekHeader s = .error tooBig s' := by
  have hlength := held_eq hheld
  have htwo := two_le_headerSize mustMaskPayload m.payload.length
  have hle := headerSize_le mustMaskPayload m.payload.length
  have h64 : m.payload.length < 2 ^ 64 := by
    unfold held INT_MAX at *
    omega
  obtain ⟨t, hpeek⟩ := peekSomeBytes_buffered
    (s := { s with _receiveState := resetHeader s._receiveState }) hblock hint
    (show 0 < held s by omega)
  refine ⟨t, ?_⟩
  have hfront : (s._buffer.drop s._bufferOffset).take MAX_HEADER_LENGTH =
      header mustMaskPayload mask m.payload.length m.flags ++
        (body mustMaskPayload mask m.payload ++ more).take
          (MAX_HEADER_LENGTH - headerSize mustMaskPayload m.payload.length) := by
    rw [hheld, frame_eq, List.append_assoc, List.take_append, length_header,
      List.take_of_length_le (by rw [length_header]; exact hle)]
  dsimp only at hpeek
  rw [hfront] at hpeek
  by_cases hmax : m.payload.length ≤ s._maxPayloadSize
  · rw [if_pos hmax]
    exact peekHeader_complete hpeek rfl h64 hmax
  · rw [if_neg hmax]
    exact peekHeader_big hpeek h64 (Nat.lt_of_not_le hmax)

theorem receiveMore_buffered {l : ℕ} (hint : s._buffer.length ≤ INT_MAX) (hpos : 0 < l)
    (hl : s._receiveState.payloadLength = l) (hrem : s._receiveState.remainingPayloadLength = l)
    (hsize : l ≤ s._receiveState.payload.length) (hheld : l ≤ held s) :
    ∃ r, receiveMore s = .ok (some (unmask s._receiveState (slice s._buffer s._bufferOffset l)))
        { s with _bufferOffset := s._bufferOffset + l, _receiveState := r } ∧
      r.frameFlags = s._receiveState.frameFlags := by
  have hend : s._bufferOffset + l ≤ s._buffer.length := by
    unfold held at hheld
    omega
  have hlength := length_unmask s._receiveState (slice s._buffer s._bufferOffset l)
  rw [slice_length hend] at hlength
  have hpayload : receivePayload l s._receiveState.mask s._receiveState.useMask
      s._receiveState.maskOffset s =
      .ok (some (unmask s._receiveState (slice s._buffer s._bufferOffset l)))
        { s with _bufferOffset := s._bufferOffset + l } :=
    receivePayload_of_ok (receiveNBytes_buffer hint hpos hheld)
  generalize unmask s._receiveState (slice s._buffer s._bufferOffset l) = received at *
  -- the payload stands at the start of the receiver's buffer for it
  have hwhole : (overwrite s._receiveState.payload 0 received).take l = received := by
    rw [overwrite_zero, List.take_left' hlength]
  refine ⟨{ s._receiveState with
    payloadLength := l
    payload := overwrite s._receiveState.payload 0 received
    remainingPayloadLength := l - received.length
    maskOffset := 0 }, ?_, rfl⟩
  rw [receiveMore, get_bind, hrem, hl, bind_of_ok hpayload]
  dsimp only
  rw [if_pos (by omega), Nat.sub_self, bind_of_ok (writeBlock_of_le (by omega) _), if_pos (by omega), hwhole]
  rfl

/-- What becomes of a payload that is unmasked with the key from its byte `k` on. -/
def remasked (mustMaskPayload : Bool) (mask : Vector UInt8 4) (k : ℕ) (buffer : List UInt8) :
    List UInt8 :=
  if mustMaskPayload then xorWith (keyStream mask.toList k) (body true mask buffer) else buffer

theorem remasked_eq_iff {k : ℕ} {buffer : List UInt8} :
    remasked mustMaskPayload mask k buffer = buffer ↔
      (mustMaskPayload = true → ∀ i < buffer.length,
        keyStream mask.toList k i = keyStream mask.toList 0 i) := by
  cases mustMaskPayload with
  | false => simp [remasked]
  | true =>
      have hbyte : ∀ a b c : UInt8, a ^^^ b ^^^ c = a ↔ c = b := by
        intro a b c
        rw [UInt8.xor_assoc]
        constructor
        · intro h
          have := congrArg (a ^^^ ·) h
          simp only [← UInt8.xor_assoc, UInt8.xor_self, UInt8.zero_xor] at this
          have := congrArg (b ^^^ ·) this
          simpa [← UInt8.xor_assoc] using this
        · rintro rfl
          simp
      rw [List.ext_getElem_iff]
      simp [remasked, body, xorWith, hbyte]

theorem drop_header (hheld : s._buffer.drop s._bufferOffset =
    frame mustMaskPayload mask m.payload m.flags ++ more) :
    s._buffer.drop (s._bufferOffset + headerSize mustMaskPayload m.payload.length) =
      body mustMaskPayload mask m.payload ++ more := by
  rw [← List.drop_drop, hheld, frame_eq, List.append_assoc,
    List.drop_left' (length_header mustMaskPayload mask m.flags m.payload.length)]

/-- In front of a frame that is held, the call returns what it has for its payload. -/
theorem receiveFrame_buffered (hblock : WouldBlock s._pStreamSocketImpl)
    (hint : s._buffer.length ≤ INT_MAX)
    (hheld : s._buffer.drop s._bufferOffset =
      frame mustMaskPayload mask m.payload m.flags ++ more)
    (hrem : s._receiveState.remainingPayloadLength = 0) (hmax : m.payload.length ≤ s._maxPayloadSize)
    (hlimit : ∀ n ∈ limit, m.payload.length ≤ n) :
    ∃ s', receiveFrame fuel limit s =
        .ok (some (remasked mustMaskPayload mask s._receiveState.maskOffset m.payload)) s' ∧
      s'.frameFlags = wireFlags m.flags ∧ s'._buffer.drop s'._bufferOffset = more := by
  have hlength := held_eq hheld
  have htwo := two_le_headerSize mustMaskPayload m.payload.length
  have hdrop := drop_header hheld
  obtain ⟨t, hpeek⟩ := peekHeader_buffered hblock hint hheld
  rw [if_pos hmax] at hpeek
  obtain ⟨r, hpeek, hopened⟩ := hpeek
  obtain ⟨hflags, hheader, huse, hmask⟩ := hopened.announces
  dsimp only at hflags hheader huse hmask
  have hskip : ∀ r', skipHeader r.headerLength
      { s with _pStreamSocketImpl := t, _receiveState := r' } =
      .ok () { s with _pStreamSocketImpl := t, _receiveState := r', _bufferOffset :=
        s._bufferOffset + headerSize mustMaskPayload m.payload.length } := by
    intro r'
    rw [hheader]
    exact skipHeader_of_ok (by omega) (receiveNBytes_buffer hint (by omega) (show _ ≤ held s by omega))
  rw [receiveFrame, get_bind, hblock.1]
  change ∃ s', receiveNonBlocking limit s = _ ∧ _
  rw [receiveNonBlocking, get_bind, if_pos hrem, bind_of_ok hpeek]
  dsimp only
  rw [get_bind]
  dsimp only
  by_cases hzero : m.payload.length = 0
  · obtain hnil : m.payload = [] := List.length_eq_zero_iff.mp hzero
    rw [if_pos hzero, bind_of_ok (hskip r)]
    refine ⟨{ s with _pStreamSocketImpl := t, _receiveState := r, _bufferOffset :=
      s._bufferOffset + headerSize mustMaskPayload m.payload.length }, ?_, hflags, ?_⟩
    · rw [hnil]
      cases mustMaskPayload <;> rfl
    · dsimp only
      rw [hdrop, List.length_eq_zero_iff.mp ((length_body mustMaskPayload mask m.payload).trans hzero)]
      rfl
  · have hcheck : checkBuffer limit m.payload.length
        { s with _pStreamSocketImpl := t, _receiveState := r } =
        .ok () { s with _pStreamSocketImpl := t, _receiveState := r } := by
      cases limit with
      | none => rfl
      | some n => exact checkBuffer_of_le (hlimit n rfl) _
    have hresize : onReceiveState (modify fun r => { r with payload := resize r.payload m.payload.length })
        { s with _pStreamSocketImpl := t, _receiveState := r } =
        .ok () { s with _pStreamSocketImpl := t, _receiveState :=
          { r with payload := resize r.payload m.payload.length } } := rfl
    rw [if_neg hzero, bind_of_ok hcheck, bind_of_ok hresize, bind_of_ok (hskip _)]
    have hl : r.payloadLength = m.payload.length := hopened.payloadLength
    have hr : r.remainingPayloadLength = m.payload.length := hopened.remaining
    have hoff : r.maskOffset = s._receiveState.maskOffset := hopened.maskOffset
    have hbody := length_body mustMaskPayload mask m.payload
    have hroom : m.payload.length ≤ held { s with
        _pStreamSocketImpl := t
        _receiveState := { r with payload := resize r.payload m.payload.length }
        _bufferOffset := s._bufferOffset + headerSize mustMaskPayload m.payload.length } := by
      unfold held at hlength ⊢
      dsimp only
      omega
    obtain ⟨r', hmore, hflags'⟩ := receiveMore_buffered (s := { s with
        _pStreamSocketImpl := t
        _receiveState := { r with payload := resize r.payload m.payload.length }
        _bufferOffset := s._bufferOffset + headerSize mustMaskPayload m.payload.length })
      hint (Nat.pos_of_ne_zero hzero) hl hr (le_length_resize _ _) hroom
    have hslice : slice s._buffer (s._bufferOffset + headerSize mustMaskPayload m.payload.length)
        m.payload.length = body mustMaskPayload mask m.payload := by
      rw [slice, hdrop, List.take_left' hbody]
    rw [hslice] at hmore
    refine ⟨{ s with
      _pStreamSocketImpl := t
      _bufferOffset := s._bufferOffset + headerSize mustMaskPayload m.payload.length + m.payload.length
      _receiveState := r' }, ?_, hflags'.trans hflags, ?_⟩
    · rw [hmore]
      unfold unmask remasked
      dsimp only
      rw [huse, hoff]
      cases mustMaskPayload with
      | false => rfl
      | true =>
          rw [hmask rfl]
          rfl
    · dsimp only
      rw [← List.drop_drop, hdrop, List.drop_left' hbody]

/-- A call within a payload that returns it has read all that was missing. -/
theorem receiveMore_some {payload : List UInt8} {s' : WebSocketImpl}
    (h : receiveMore s = .ok (some payload) s') :
    ∃ received s₁, receiveNBytes s._receiveState.remainingPayloadLength s = .ok (some received) s₁ ∧
      s._receiveState.remainingPayloadLength ≤ received.length ∧ HasRoom s._receiveState received.length ∧
      payload = (overwrite s._receiveState.payload
        (s._receiveState.payloadLength - s._receiveState.remainingPayloadLength)
        (unmask s._receiveState received)).take s._receiveState.payloadLength ∧
      s'._buffer = s₁._buffer ∧ s'._bufferOffset = s₁._bufferOffset := by
  rw [receiveMore, get_bind] at h
  cases hread : receiveNBytes s._receiveState.remainingPayloadLength s with
  | error e s₁ =>
      rw [receivePayload, bind_of_error (bind_of_error hread)] at h
      cases h
  | ok r s₁ =>
      cases r with
      | none =>
          rw [bind_of_ok (receivePayload_of_none hread)] at h
          cases h
      | some received =>
          have hpayload : receivePayload s._receiveState.remainingPayloadLength s._receiveState.mask
              s._receiveState.useMask s._receiveState.maskOffset s =
              .ok (some (unmask s._receiveState received)) s₁ := receivePayload_of_ok hread
          have hlength := length_unmask s._receiveState received
          rw [bind_of_ok hpayload] at h
          dsimp only at h
          by_cases hpos : 0 < (unmask s._receiveState received).length
          · rw [if_pos hpos] at h
            by_cases hroom : HasRoom s._receiveState received.length
            · rw [bind_of_ok (writeBlock_of_le (by rw [hlength]; exact hroom) s₁)] at h
              by_cases hdone : s._receiveState.remainingPayloadLength -
                  (unmask s._receiveState received).length = 0
              · rw [if_pos hdone] at h
                cases h
                exact ⟨received, s₁, rfl, by omega, hroom, rfl, rfl, rfl⟩
              · rw [if_neg hdone] at h
                cases h
            · rw [bind_of_error (writeBlock_of_gt (by rw [hlength]; exact Nat.lt_of_not_le hroom) s₁)] at h
              cases h
          · rw [if_neg hpos] at h
            cases h

/-- Within a payload the call does not get to the frame. -/
theorem not_deliversBuffered_within (hnb : s._pStreamSocketImpl.blocking = false)
    (hconsistent : Consistent s) (hpos : 0 < s._receiveState.remainingPayloadLength)
    (hheld : s._buffer.drop s._bufferOffset =
      frame mustMaskPayload mask m.payload m.flags ++ more) :
    ¬DeliversBuffered fuel limit s m more := by
  rintro ⟨s', hr, -, hmore⟩
  have hle : s._receiveState.remainingPayloadLength ≤ s._receiveState.payloadLength := hconsistent
  have htwo := two_le_headerSize mustMaskPayload m.payload.length
  have hlength := held_eq hheld
  rw [receiveFrame, get_bind, hnb] at hr
  change receiveNonBlocking limit s = _ at hr
  rw [receiveNonBlocking, get_bind, if_neg (Nat.ne_of_gt hpos)] at hr
  have hmore' : receiveMore s = .ok (some m.payload) s' := by
    cases limit with
    | none => exact hr
    | some n =>
        by_cases hn : s._receiveState.payloadLength ≤ n
        · rwa [bind_of_ok (checkBuffer_of_le hn s)] at hr
        · rw [bind_of_error (checkBuffer_of_lt (Nat.lt_of_not_le hn) s)] at hr
          cases hr
  obtain ⟨received, s₁, hread, hreceived, hroom, hpayload, hbuffer, hoffset⟩ := receiveMore_some hmore'
  -- the payload that is returned has the length of the one that was begun
  have hsize : m.payload.length = s._receiveState.payloadLength := by
    unfold HasRoom at hroom
    rw [hpayload, List.length_take, overwrite_length (by rw [length_unmask]; exact hroom)]
    omega
  by_cases hint : s._buffer.length ≤ INT_MAX
  · rw [receiveNBytes_buffer hint hpos (by omega)] at hread
    cases hread
    rw [hbuffer, hoffset] at hmore
    dsimp only at hmore
    rw [← List.drop_drop, hheld] at hmore
    have hleft := congrArg List.length hmore
    rw [List.length_drop, List.length_append, length_frame, frameLength] at hleft
    omega
  · rw [receiveNBytes_overflow fun h => hint h.1] at hread
    cases hread

theorem not_deliversBuffered_of_error {e : Stop} {s' : WebSocketImpl}
    (hnb : s._pStreamSocketImpl.blocking = false) (h : receiveNonBlocking limit s = .error e s') :
    ¬DeliversBuffered fuel limit s m more := by
  rintro ⟨t, hr, -⟩
  rw [receiveFrame, get_bind, hnb] at hr
  cases h.symm.trans hr

theorem receiveNonBlocking_of_peek_error {e : Stop} {s' : WebSocketImpl}
    (hrem : s._receiveState.remainingPayloadLength = 0) (h : peekHeader s = .error e s') :
    receiveNonBlocking limit s = .error e s' := by
  rw [receiveNonBlocking, get_bind, if_pos hrem, bind_of_error h]

/-- **When a held frame is delivered.**  In every state of a non-blocking WebSocket whose buffer
holds a whole frame and whose socket would block, `receiveBytes` delivers the frame just when the
receiver is in front of it: no payload is being received, and the position in the key does not
matter.  The frame must not be too large for the limits, nor the buffer for an `int`. -/
theorem deliversBuffered_iff (hreachable : Reachable s) (hblock : WouldBlock s._pStreamSocketImpl)
    (hheld : s._buffer.drop s._bufferOffset =
      frame mustMaskPayload mask m.payload m.flags ++ more) :
    DeliversBuffered fuel limit s m more ↔
      s._receiveState.remainingPayloadLength = 0 ∧
      (mustMaskPayload = true → ∀ i < m.payload.length,
        keyStream mask.toList s._receiveState.maskOffset i = keyStream mask.toList 0 i) ∧
      s._buffer.length ≤ INT_MAX ∧ m.payload.length ≤ s._maxPayloadSize ∧
      ∀ n ∈ limit, m.payload.length ≤ n := by
  by_cases hrem : s._receiveState.remainingPayloadLength = 0
  · by_cases hint : s._buffer.length ≤ INT_MAX
    · obtain ⟨t, hpeek⟩ := peekHeader_buffered hblock hint hheld
      by_cases hmax : m.payload.length ≤ s._maxPayloadSize
      · by_cases hlimit : ∀ n ∈ limit, m.payload.length ≤ n
        · obtain ⟨s', hr, hend⟩ := receiveFrame_buffered hblock hint hheld hrem hmax hlimit
          rw [← remasked_eq_iff]
          constructor
          · rintro ⟨t, ht, -⟩
            have hpayload := (EStateM.Result.ok.inj (hr.symm.trans ht)).1
            exact ⟨hrem, Option.some.inj hpayload, hint, hmax, hlimit⟩
          · rintro ⟨-, hpayload, -⟩
            rw [hpayload] at hr
            exact ⟨s', hr, hend⟩
        · refine iff_of_false ?_ fun h => hlimit h.2.2.2.2
          push Not at hlimit
          obtain ⟨n, rfl, hn⟩ := hlimit
          rw [if_pos hmax] at hpeek
          obtain ⟨r, hpeek, -⟩ := hpeek
          have hthrow : receiveNonBlocking (some n) s = .error (insufficient m.payload.length)
              { s with _pStreamSocketImpl := t, _receiveState := r } := by
            rw [receiveNonBlocking, get_bind, if_pos hrem, bind_of_ok hpeek]
            dsimp only
            rw [get_bind, if_neg (by omega), bind_of_error (checkBuffer_of_lt hn _)]
          exact not_deliversBuffered_of_error hblock.1 hthrow
      · refine iff_of_false ?_ fun h => hmax h.2.2.2.1
        rw [if_neg hmax] at hpeek
        obtain ⟨s', hpeek⟩ := hpeek
        exact not_deliversBuffered_of_error hblock.1 (receiveNonBlocking_of_peek_error hrem hpeek)
    · refine iff_of_false ?_ fun h => hint h.2.2.1
      obtain ⟨s', hpeek⟩ := peekHeader_overflow (Nat.lt_of_not_le hint)
      exact not_deliversBuffered_of_error hblock.1 (receiveNonBlocking_of_peek_error hrem hpeek)
  · refine iff_of_false ?_ fun h => hrem h.1
    exact not_deliversBuffered_within hblock.1 hreachable.consistent (Nat.pos_of_ne_zero hrem) hheld

/-- A non-blocking socket without bytes. -/
def silent : StreamSocketImpl :=
  { blocking := false, fragment := fun _ => 0, accepts := fun _ => none }

/-- A ping of two bytes that the HTTP session has handed over. -/
theorem deliversBuffered_ping :
    DeliversBuffered 0 (some 125) (create silent [0x89, 0] true) ⟨[], 0x89⟩ [] := by
  have hreachable : Reachable (create silent [0x89, 0] true) := ⟨_, _, _, [], .refl _⟩
  have hblock : WouldBlock (create silent [0x89, 0] true)._pStreamSocketImpl := ⟨rfl, fun _ => ⟨_, rfl⟩⟩
  have hheld : (create silent [0x89, 0] true)._buffer.drop (create silent [0x89, 0] true)._bufferOffset =
      frame false #v[0, 0, 0, 0] [] 0x89 ++ [] := by decide
  exact (deliversBuffered_iff hreachable hblock hheld).mpr ⟨rfl, nofun, by decide, by decide, by decide⟩

/-- Two frames that have come with one `recv` to a blocking socket. -/
def twoFrames : WebSocketImpl :=
  create { byteByByte [0x82, 1, 7, 0x82, 1, 8] false with fragment := fun _ => 6 } [] true

/-- The first has been received, and the socket has been set to non-blocking mode. -/
def secondFrame : WebSocketImpl :=
  { finalState (receiveBytes 14 1 twoFrames) with _pStreamSocketImpl := silent }

/-- The call for the second frame takes its header for a payload, for which there is no memory. -/
theorem not_deliversBuffered_secondFrame :
    Reachable secondFrame ∧ WouldBlock secondFrame._pStreamSocketImpl ∧
      secondFrame._buffer.drop secondFrame._bufferOffset = frame false #v[0, 0, 0, 0] [8] 0x82 ∧
      returned (receiveBytes 14 1 secondFrame) = .error .outOfBounds ∧
      ¬DeliversBuffered 14 (some 1) secondFrame ⟨[8], 0x82⟩ [] := by
  have hfirst : returned (receiveBytes 14 1 twoFrames) = .ok (some [7]) := by decide
  have hcall : returned (receiveBytes 14 1 secondFrame) = .error .outOfBounds := by decide
  have hreturn : act twoFrames (.receive 14 (some 1)) = some (finalState (receiveBytes 14 1 twoFrames)) :=
    congrArg comesBack (ok_of_returned hfirst)
  have hrun : Run (fun s a s' => act s a = some s') twoFrames [.receive 14 (some 1), .socket silent]
      secondFrame := .cons hreturn (.single rfl)
  refine ⟨⟨_, _, _, _, hrun⟩, ⟨rfl, fun _ => ⟨_, rfl⟩⟩, by decide, hcall, ?_⟩
  rintro ⟨s', hr, -⟩
  have hvalue : returned (receiveBytes 14 1 secondFrame) = .ok (some [8]) := congrArg returned hr
  cases hcall.symm.trans hvalue

end Buffered

end Poco.Net.WebSocketImpl
