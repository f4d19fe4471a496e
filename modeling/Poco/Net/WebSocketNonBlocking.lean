import Poco.Net.WebSocketFraming

/-! # Receiving from a non-blocking WebSocket

A call of `receiveBytes` on a non-blocking socket takes what there is.  It returns `-1` as long
as the header or the payload of the frame is not complete; the state of the frame stays in
`_receiveState`, and `remainingPayloadLength` tells the next call where it stands: 0 is in front
of a header, anything else within a payload.

The exception for a payload that does not fit into the caller's buffer does not keep to that: it
is thrown after the header has been read but before it is skipped, with `remainingPayloadLength`
already set.  The next call takes the header for payload, and writes it to a buffer that has not
been made large enough for it: to one without memory, when no payload has been received before
(`not_recovers_freshFrame`).  Only a call that is made within the payload can be repeated
(`recovers_iff`). -/

namespace Poco.Net.WebSocketImpl

open Poco.Lib

/-! ### Reading what there is -/

/-- A `recv` on a non-blocking socket. -/
structure Received (t : StreamSocketImpl) (r : Option (List UInt8)) (t' : StreamSocketImpl) :
    Prop where
  incoming : t.incoming = r.getD [] ++ t'.incoming
  blocking : t'.blocking = false
  fragment : t'.fragment = t.fragment
  reads : t.reads ≤ t'.reads
  waits : r = none → t.incoming ≠ [] → t.fragment t.reads = 0 ∧ t'.reads = t.reads + 1
  ends : r = some [] → t.incoming = []

theorem receiveBytes_received {t : StreamSocketImpl} (hnb : t.blocking = false) {length : ℕ}
    (hlen : 0 < length) :
    ∃ r t', StreamSocketImpl.receiveBytes length t = .ok r t' ∧ (r.getD []).length ≤ length ∧
      Received t r t' := by
  unfold StreamSocketImpl.receiveBytes
  by_cases hin : t.incoming = []
  · rw [if_pos hin]
    cases t.shutdown with
    | true => exact ⟨some [], t, rfl, Nat.zero_le _, ⟨rfl, hnb, rfl, le_refl _, nofun, fun _ => hin⟩⟩
    | false =>
        refine ⟨none, t, by rw [hnb]; rfl, Nat.zero_le _, ⟨rfl, hnb, rfl, le_refl _, ?_, nofun⟩⟩
        exact fun _ hne => absurd hin hne
  · rw [if_neg hin]
    by_cases hzero : t.fragment t.reads = 0
    · refine ⟨none, { t with reads := t.reads + 1 }, by simp [hnb, hzero], Nat.zero_le _,
        ⟨rfl, hnb, rfl, Nat.le_succ _, fun _ _ => ⟨hzero, rfl⟩, nofun⟩⟩
    · let n := min (max 1 (t.fragment t.reads)) length
      refine ⟨some (t.incoming.take n), { t with incoming := t.incoming.drop n, reads := t.reads + 1 },
        by simp [hnb, hzero, n], ?_,
        ⟨(List.take_append_drop n _).symm, hnb, rfl, Nat.le_succ _, nofun, fun hnil => ?_⟩⟩
      · rw [Option.getD_some, List.length_take]
        omega
      · have hnone := List.take_eq_nil_iff.mp (Option.some.inj hnil)
        exact hnone.resolve_left (by omega)

/-- The receiver has taken `bs` from the front of what is unread. -/
structure Took (s : WebSocketImpl) (bs : List UInt8) (s' : WebSocketImpl) : Prop where
  unread : unread s = bs ++ unread s'
  buffer : s'._buffer = s._buffer
  blocking : s'._pStreamSocketImpl.blocking = false
  fragment : s'._pStreamSocketImpl.fragment = s._pStreamSocketImpl.fragment
  reads : s._pStreamSocketImpl.reads ≤ s'._pStreamSocketImpl.reads
  maxPayloadSize : s'._maxPayloadSize = s._maxPayloadSize
  receiveState : s'._receiveState = s._receiveState

theorem Took.trans {s s' s'' : WebSocketImpl} {bs bs' : List UInt8} (h : Took s bs s')
    (h' : Took s' bs' s'') : Took s (bs ++ bs') s'' where
  unread := by rw [h.unread, h'.unread, List.append_assoc]
  buffer := h'.buffer.trans h.buffer
  blocking := h'.blocking
  fragment := h'.fragment.trans h.fragment
  reads := le_trans h.reads h'.reads
  maxPayloadSize := h'.maxPayloadSize.trans h.maxPayloadSize
  receiveState := h'.receiveState.trans h.receiveState

theorem Took.nil {s : WebSocketImpl} (hnb : s._pStreamSocketImpl.blocking = false) : Took s [] s :=
  ⟨rfl, rfl, hnb, rfl, le_refl _, rfl, rfl⟩

/-- Nothing has come because the socket would have had to wait. -/
def Waits (s s' : WebSocketImpl) : Prop :=
  s._pStreamSocketImpl.incoming ≠ [] →
    s._pStreamSocketImpl.fragment s._pStreamSocketImpl.reads = 0 ∧
      s'._pStreamSocketImpl.reads = s._pStreamSocketImpl.reads + 1

/-- The `int` arithmetic on the buffer does not overflow when `length` bytes are asked for. -/
def Fits (s : WebSocketImpl) (length : ℕ) : Prop :=
  s._buffer.length ≤ INT_MAX ∧ (held s = 0 ∨ s._bufferOffset + length ≤ INT_MAX)

/-- What a read of at most `length` bytes has come to. -/
structure Reads (length : ℕ) (s : WebSocketImpl) (r : Option (List UInt8)) (s' : WebSocketImpl) :
    Prop where
  took : Took s (r.getD []) s'
  le : (r.getD []).length ≤ length
  emptied : (r.getD []).length < length → held s' = 0
  held : WebSocketImpl.held s' ≤ WebSocketImpl.held s
  waits : r = none → WebSocketImpl.held s = 0 ∧ Waits s s'
  ends : r = some [] → unread s = []

section Receive

variable {s : WebSocketImpl} {length : ℕ}

theorem receiveSomeBytes_reads (hnb : s._pStreamSocketImpl.blocking = false) (hfits : Fits s length)
    (hlen : 0 < length) :
    ∃ r s', receiveSomeBytes length s = .ok r s' ∧ Reads length s r s' := by
  obtain ⟨hint, hoff⟩ := hfits
  by_cases h0 : held s = 0
  · obtain ⟨r, t, hr, hle, hrec⟩ := receiveBytes_received hnb hlen
    have hun := unread_of_held_eq_zero h0
    refine ⟨r, _, (receiveSomeBytes_socket hint h0).trans (onSocket_of_ok hr), ?_⟩
    refine ⟨⟨?_, rfl, hrec.blocking, hrec.fragment, hrec.reads, rfl, rfl⟩, hle, fun _ => h0, le_refl _, ?_, ?_⟩
    · rw [hun, unread_of_held_eq_zero (by exact h0), hrec.incoming]
    · exact fun hnone => ⟨h0, hrec.waits hnone⟩
    · exact fun hnil => hun.trans (hrec.ends hnil)
  · have hslice : (slice s._buffer s._bufferOffset (min length (held s))).length =
        min length (held s) := by
      apply slice_length
      unfold held at h0 ⊢
      omega
    refine ⟨_, _, receiveSomeBytes_buffer hint (Nat.pos_of_ne_zero h0) (hoff.resolve_left h0), ?_⟩
    refine ⟨⟨?_, rfl, hnb, rfl, le_refl _, rfl, rfl⟩, ?_, ?_, ?_, nofun, ?_⟩
    · exact unread_slice length s
    · rw [Option.getD_some, hslice]
      exact Nat.min_le_left _ _
    · rw [Option.getD_some, hslice]
      intro hlt
      unfold held at hlt ⊢
      dsimp only
      omega
    · unfold held
      dsimp only
      omega
    · intro hnil
      rw [Option.some.inj hnil, List.length_nil] at hslice
      omega

theorem receiveRest_took (hnb : s._pStreamSocketImpl.blocking = false)
    (hint : s._buffer.length ≤ INT_MAX) (h0 : held s = 0) (rounds : ℕ) {received : List UInt8}
    (hle : received.length ≤ length) :
    ∃ bs s', receiveRest length rounds received s = .ok (received ++ bs) s' ∧ Took s bs s' ∧
      (received ++ bs).length ≤ length ∧ held s' = 0 := by
  induction rounds generalizing s received with
  | zero => exact ⟨[], s, by rw [List.append_nil]; rfl, .nil hnb, by simpa using hle, h0⟩
  | succ rounds ih =>
      by_cases hlt : received.length < length
      · obtain ⟨r, s₁, hr, hreads⟩ :=
          receiveSomeBytes_reads hnb ⟨hint, .inl h0⟩ (Nat.sub_pos_of_lt hlt)
        have h0₁ : held s₁ = 0 := Nat.le_zero.mp (h0 ▸ hreads.held)
        rw [receiveRest, if_pos hlt, bind_of_ok hr]
        have hstop : r.getD [] = [] → ∃ bs s',
            (pure received : Method (List UInt8)) s₁ = .ok (received ++ bs) s' ∧ Took s bs s' ∧
              (received ++ bs).length ≤ length ∧ held s' = 0 := fun hnil =>
          ⟨[], s₁, by rw [List.append_nil]; rfl, hnil ▸ hreads.took, by simpa using hle, h0₁⟩
        cases r with
        | none => exact hstop rfl
        | some bytes =>
            dsimp only
            by_cases hpos : 0 < bytes.length
            · rw [if_pos hpos]
              have hbytes : bytes.length ≤ length - received.length := hreads.le
              obtain ⟨bs, s', hrest, htook, hall, h0'⟩ :=
                ih hreads.took.blocking (hreads.took.buffer ▸ hint) h0₁
                  (show (received ++ bytes).length ≤ length by rw [List.length_append]; omega)
              rw [List.append_assoc] at hrest hall
              exact ⟨bytes ++ bs, s', hrest, hreads.took.trans htook, hall, h0'⟩
            · rw [if_neg hpos]
              exact hstop (List.length_eq_zero_iff.mp (Nat.eq_zero_of_not_pos hpos))
      · rw [receiveRest, if_neg hlt]
        exact ⟨[], s, by rw [List.append_nil]; rfl, .nil hnb, by simpa using hle, h0⟩

/-- `receiveNBytes` takes what there is, at most what it is asked for. -/
theorem receiveNBytes_reads (hnb : s._pStreamSocketImpl.blocking = false) (hfits : Fits s length)
    (hlen : 0 < length) :
    ∃ r s', receiveNBytes length s = .ok r s' ∧ Reads length s r s' := by
  obtain ⟨r, s₁, hr, hreads⟩ := receiveSomeBytes_reads hnb hfits hlen
  rw [receiveNBytes, bind_of_ok hr]
  cases r with
  | none => exact ⟨none, s₁, rfl, hreads⟩
  | some bytes =>
      dsimp only
      by_cases hpos : 0 < bytes.length
      · rw [if_pos hpos]
        by_cases hall : bytes.length < length
        · obtain ⟨bs, s', hrest, htook, hle, h0⟩ := receiveRest_took hreads.took.blocking
            (hreads.took.buffer ▸ hfits.1) (hreads.emptied hall) length
            (show bytes.length ≤ length from hreads.le)
          refine ⟨some (bytes ++ bs), s', by rw [bind_of_ok hrest]; rfl, ?_⟩
          refine ⟨hreads.took.trans htook, hle, fun _ => h0, h0 ▸ Nat.zero_le _, fun hnone => (by cases hnone), fun hnil => ?_⟩
          rw [(List.append_eq_nil_iff.mp (Option.some.inj hnil)).1] at hpos
          exact absurd hpos (Nat.lt_irrefl 0)
        · have hstop : receiveRest length length bytes s₁ = .ok bytes s₁ := by
            cases length with
            | zero => rfl
            | succ n =>
                rw [receiveRest, if_neg hall]
                rfl
          exact ⟨some bytes, s₁, by rw [bind_of_ok hstop]; rfl, hreads⟩
      · rw [if_neg hpos]
        exact ⟨some bytes, s₁, rfl, hreads⟩

theorem receiveNBytes_overflow (hfits : ¬Fits s length) :
    receiveNBytes length s = .error .overflow s := by
  have hsome : receiveSomeBytes length s = .error .overflow s := by
    rw [receiveSomeBytes, get_bind]
    by_cases hint : s._buffer.length ≤ INT_MAX
    · have hno : held s ≠ 0 ∧ INT_MAX < s._bufferOffset + length := by
        unfold Fits at hfits
        constructor <;> by_contra h <;> exact hfits ⟨hint, by omega⟩
      rw [bind_of_ok (toInt_of_le hint s)]
      dsimp only
      rw [if_pos (show 0 < s._buffer.length - s._bufferOffset from Nat.pos_of_ne_zero hno.1)]
      apply bind_of_error
      simp [toInt, Nat.not_le.mpr hno.2, throw_run]
    · apply bind_of_error
      simp [toInt, hint, throw_run]
  rw [receiveNBytes, bind_of_error hsome]

end Receive

/-! ### The payload -/

/-- The payload bytes behind bytes as they stand in the frame. -/
def unmask (r : ReceiveState) (bs : List UInt8) : List UInt8 :=
  if r.useMask then xorWith (keyStream r.mask r.maskOffset) bs else bs

/-- The receive state when `bs` have been added to the payload and more is to come. -/
def addPayload (r : ReceiveState) (bs : List UInt8) : ReceiveState :=
  { r with
    payload := overwrite r.payload (r.payloadLength - r.remainingPayloadLength) (unmask r bs)
    remainingPayloadLength := r.remainingPayloadLength - bs.length
    maskOffset := r.maskOffset + bs.length }

/-- The allocated block has room for `n` more bytes of the payload. -/
def HasRoom (r : ReceiveState) (n : ℕ) : Prop :=
  r.payloadLength - r.remainingPayloadLength + n ≤ r.payload.length

instance (r : ReceiveState) (n : ℕ) : Decidable (HasRoom r n) := inferInstanceAs (Decidable (_ ≤ _))

/-- How a call ends that has taken `bs` of the payload. -/
def moreResult (s : WebSocketImpl) (bs : List UInt8) (s₁ : WebSocketImpl) :
    EStateM.Result Stop WebSocketImpl (Option (List UInt8)) :=
  let r := addPayload s._receiveState bs
  if HasRoom s._receiveState bs.length then
    if r.remainingPayloadLength = 0 then
      .ok (some (r.payload.take r.payloadLength)) { s₁ with _receiveState := { r with maskOffset := 0 } }
    else .ok none { s₁ with _receiveState := r }
  else .error .outOfBounds s₁

section More

variable {s : WebSocketImpl}

@[simp] theorem length_unmask (r : ReceiveState) (bs : List UInt8) :
    (unmask r bs).length = bs.length := by
  unfold unmask
  split <;> simp

theorem writeBlock_of_le {block bytes : List UInt8} {offset : ℕ} (h : offset + bytes.length ≤ block.length)
    (s : WebSocketImpl) : writeBlock block offset bytes s = .ok (overwrite block offset bytes) s := by
  rw [writeBlock, store_of_le h]
  rfl

theorem writeBlock_of_gt {block bytes : List UInt8} {offset : ℕ} (h : block.length < offset + bytes.length)
    (s : WebSocketImpl) : writeBlock block offset bytes s = .error .outOfBounds s := by
  rw [writeBlock, store, if_neg (Nat.not_le.mpr h)]
  rfl

theorem le_length_resize (block : List UInt8) (n : ℕ) : n ≤ (resize block n).length := by
  unfold resize
  split
  · rw [List.length_replicate]
  · omega

theorem receivePayload_of_none {s' : WebSocketImpl} {n offset : ℕ} {key : List UInt8} {useMask : Bool}
    (h : receiveNBytes n s = .ok none s') : receivePayload n key useMask offset s = .ok none s' := by
  rw [receivePayload, bind_of_ok h]
  rfl

/-- A call in the middle of a payload takes what there is of it. -/
theorem receiveMore_spec (hnb : s._pStreamSocketImpl.blocking = false)
    (hfits : Fits s s._receiveState.remainingPayloadLength)
    (hpos : 0 < s._receiveState.remainingPayloadLength) :
    ∃ r s₁, Reads s._receiveState.remainingPayloadLength s r s₁ ∧ receiveMore s = match r with
      | none => .ok none s₁
      | some [] => .error (.webSocketException "Incomplete frame received" WS_ERR_INCOMPLETE_FRAME) s₁
      | some (b :: bs) => moreResult s (b :: bs) s₁ := by
  obtain ⟨r, s₁, hr, hreads⟩ := receiveNBytes_reads hnb hfits hpos
  refine ⟨r, s₁, hreads, ?_⟩
  rw [receiveMore, get_bind]
  cases r with
  | none =>
      rw [bind_of_ok (receivePayload_of_none hr)]
      rfl
  | some bs =>
      rw [bind_of_ok (receivePayload_of_ok hr)]
      dsimp only
      cases bs with
      | nil =>
          rw [if_neg (by split <;> simp)]
          rfl
      | cons b bs =>
          have hlen := length_unmask s._receiveState (b :: bs)
          unfold unmask at hlen
          rw [if_pos (by rw [hlen]; exact Nat.succ_pos _)]
          dsimp only [moreResult]
          by_cases hroom : HasRoom s._receiveState (b :: bs).length
          · rw [if_pos hroom, bind_of_ok (writeBlock_of_le (by rw [hlen]; exact hroom) s₁), hlen]
            by_cases hzero : s._receiveState.remainingPayloadLength - (b :: bs).length = 0
            · rw [if_pos hzero]
              exact (if_pos hzero).symm
            · rw [if_neg hzero]
              exact (if_neg hzero).symm
          · rw [if_neg hroom]
            exact bind_of_error (writeBlock_of_gt (by rw [hlen]; exact Nat.lt_of_not_le hroom) s₁)

end More

/-! ### Within a payload -/

/-- The first `k` bytes of the message's payload have been received. -/
structure Holds (r : ReceiveState) (mustMaskPayload : Bool) (mask : Vector UInt8 4) (m : Message)
    (k : ℕ) : Prop where
  total : r.payloadLength = m.payload.length
  remaining : k + r.remainingPayloadLength = m.payload.length
  flags : r.frameFlags = wireFlags m.flags
  useMask : r.useMask = mustMaskPayload
  mask : mustMaskPayload = true → r.mask = mask.toList
  maskOffset : r.maskOffset = k
  size : m.payload.length ≤ r.payload.length
  payload : r.payload.take k = m.payload.take k

section Payload

variable {s : WebSocketImpl} {mustMaskPayload : Bool} {mask : Vector UInt8 4} {m : Message}
  {rest : List UInt8} {r : ReceiveState} {k : ℕ}

/-- A part of the payload is masked with the part of the key that belongs to it. -/
theorem xorWith_slice (key : List UInt8) (buffer : List UInt8) (k n : ℕ) :
    xorWith (keyStream key k) (slice (xorWith (keyStream key 0) buffer) k n) = slice buffer k n := by
  apply List.ext_getElem
  · simp [slice]
  · intro i h1 h2
    simp only [xorWith, keyStream, slice, Nat.add_zero, List.getElem_mapIdx, List.getElem_take,
      List.getElem_drop, Nat.add_comm k i, UInt8.xor_assoc, UInt8.xor_self, UInt8.xor_zero]

theorem unmask_slice_body (h : Holds r mustMaskPayload mask m k) (n : ℕ) :
    unmask r (slice (body mustMaskPayload mask m.payload) k n) = slice m.payload k n := by
  unfold unmask body
  rw [h.useMask, h.maskOffset]
  cases mustMaskPayload with
  | false => rfl
  | true =>
      rw [if_pos rfl, if_pos rfl, h.mask rfl]
      exact xorWith_slice _ _ _ _

/-- More bytes of the frame are added where they belong. -/
theorem Holds.addPayload (h : Holds r mustMaskPayload mask m k) {n : ℕ}
    (hn : n ≤ r.remainingPayloadLength) :
    Holds (addPayload r (slice (body mustMaskPayload mask m.payload) k n)) mustMaskPayload mask m
      (k + n) := by
  have hrem := h.remaining
  have hlen : (slice (body mustMaskPayload mask m.payload) k n).length = n := by
    apply slice_length
    rw [length_body]
    omega
  have hoff : r.payloadLength - r.remainingPayloadLength = k := by
    rw [h.total]
    omega
  have hslice : (slice m.payload k n).length = n := slice_length (by omega)
  constructor
  · exact h.total
  · dsimp only [WebSocketImpl.addPayload]
    rw [hlen]
    omega
  · exact h.flags
  · exact h.useMask
  · exact h.mask
  · dsimp only [WebSocketImpl.addPayload]
    rw [hlen, h.maskOffset]
  · dsimp only [WebSocketImpl.addPayload]
    have hsize := h.size
    rw [unmask_slice_body h, hoff, overwrite_length (by omega)]
    exact hsize
  · dsimp only [WebSocketImpl.addPayload]
    have hsize := h.size
    have htake : (overwrite r.payload k (slice m.payload k n)).take (k + (slice m.payload k n).length) =
        r.payload.take k ++ slice m.payload k n := take_overwrite (by omega)
    rw [hslice] at htake
    rw [unmask_slice_body h, hoff, htake, h.payload, List.take_add]
    rfl

theorem take_drop_of_append_eq {α : Type} {a b c d : List α} (h : a ++ b = c ++ d)
    (hle : c.length ≤ a.length) : a.take c.length = c ∧ d = a.drop c.length ++ b := by
  obtain ⟨e, rfl⟩ := List.prefix_of_prefix_length_le ⟨d, h.symm⟩ (List.prefix_append a b) hle
  rw [List.append_assoc, List.append_cancel_left_eq] at h
  exact ⟨List.take_left, by rw [List.drop_left, h]⟩

/-- The receiver is within the payload of a frame, of which `rest` follows. -/
def Receiving (s : WebSocketImpl) (mustMaskPayload : Bool) (mask : Vector UInt8 4) (m : Message)
    (rest : List UInt8) : Prop :=
  0 < s._receiveState.remainingPayloadLength ∧ ∃ k, Holds s._receiveState mustMaskPayload mask m k ∧
    unread s = (body mustMaskPayload mask m.payload).drop k ++ rest

/-- The receiver is in front of a frame: the stream and the state agree. -/
structure AtBoundary (s : WebSocketImpl) (stream : List UInt8) : Prop where
  unread : unread s = stream
  remaining : s._receiveState.remainingPayloadLength = 0
  maskOffset : s._receiveState.maskOffset = 0

/-- A call within a payload returns it, or comes closer to its end, or uses up a `recv` that
has nothing. -/
theorem receiveMore_receiving (hnb : s._pStreamSocketImpl.blocking = false)
    (h : Receiving s mustMaskPayload mask m rest)
    (hfits : Fits s s._receiveState.remainingPayloadLength) :
    ∃ s', s'._pStreamSocketImpl.blocking = false ∧
      s'._pStreamSocketImpl.fragment = s._pStreamSocketImpl.fragment ∧
      ((receiveMore s = .ok (some m.payload) s' ∧ s'.frameFlags = wireFlags m.flags ∧
          AtBoundary s' rest) ∨
        (receiveMore s = .ok none s' ∧ Receiving s' mustMaskPayload mask m rest ∧
          Fits s' s'._receiveState.remainingPayloadLength ∧
          (s'._receiveState.remainingPayloadLength < s._receiveState.remainingPayloadLength ∨
            s'._receiveState.remainingPayloadLength = s._receiveState.remainingPayloadLength ∧
              s._pStreamSocketImpl.fragment s._pStreamSocketImpl.reads = 0 ∧
              s'._pStreamSocketImpl.reads = s._pStreamSocketImpl.reads + 1))) := by
  obtain ⟨hpos, k, hholds, hun⟩ := h
  obtain ⟨r, s₁, hreads, hmore⟩ := receiveMore_spec hnb hfits hpos
  obtain ⟨hint, -⟩ := hfits
  have hrem := hholds.remaining
  have hbody := length_body mustMaskPayload mask m.payload
  have htook := hreads.took
  have hint₁ : s₁._buffer.length ≤ INT_MAX := htook.buffer ▸ hint
  have hlt : 0 < (unread s).length := by
    rw [hun, List.length_append, List.length_drop]
    omega
  cases r with
  | none =>
      obtain ⟨h0, hwaits⟩ := hreads.waits rfl
      have hin : s._pStreamSocketImpl.incoming ≠ [] := by
        rw [← unread_of_held_eq_zero h0]
        exact List.ne_nil_of_length_pos hlt
      have hun₁ : unread s₁ = unread s := htook.unread.symm
      refine ⟨s₁, htook.blocking, htook.fragment, .inr ⟨hmore, ?_, ?_, .inr ⟨?_, hwaits hin⟩⟩⟩
      · rw [Receiving, htook.receiveState, hun₁]
        exact ⟨hpos, k, hholds, hun⟩
      · exact ⟨hint₁, .inl (Nat.le_zero.mp (h0 ▸ hreads.held))⟩
      · rw [htook.receiveState]
  | some bs =>
      cases bs with
      | nil =>
          rw [hreads.ends rfl] at hlt
          exact absurd hlt (Nat.lt_irrefl 0)
      | cons b bs =>
          have hle : (b :: bs).length ≤ s._receiveState.remainingPayloadLength := hreads.le
          have hsplit : (body mustMaskPayload mask m.payload).drop k ++ rest = (b :: bs) ++ unread s₁ :=
            hun.symm.trans htook.unread
          obtain ⟨hfront, hrest⟩ := take_drop_of_append_eq hsplit
            (by rw [List.length_drop, hbody]; omega)
          rw [List.drop_drop] at hrest
          have hadd := hholds.addPayload hle
          rw [slice, hfront] at hadd
          have hroom : HasRoom s._receiveState (b :: bs).length := by
            have hsize := hholds.size
            have htotal := hholds.total
            unfold HasRoom
            omega
          dsimp only at hmore
          rw [moreResult, if_pos hroom] at hmore
          by_cases hdone : (addPayload s._receiveState (b :: bs)).remainingPayloadLength = 0
          · -- the payload is complete
            have hall : k + (b :: bs).length = m.payload.length := by
              have := hadd.remaining
              omega
            have hpayload := hadd.payload
            rw [hall, List.take_length] at hpayload
            rw [hall, ← hbody, List.drop_length, List.nil_append] at hrest
            rw [if_pos hdone] at hmore
            refine ⟨{ s₁ with _receiveState :=
              { addPayload s._receiveState (b :: bs) with maskOffset := 0 } }, htook.blocking,
              htook.fragment, .inl ⟨?_, hadd.flags, hrest, hdone, rfl⟩⟩
            rw [hmore, ← hpayload, ← hadd.total]
          · rw [if_neg hdone] at hmore
            have hless : (b :: bs).length < s._receiveState.remainingPayloadLength := by
              have := hadd.remaining
              omega
            refine ⟨{ s₁ with _receiveState := addPayload s._receiveState (b :: bs) }, htook.blocking,
              htook.fragment, .inr ⟨hmore, ⟨Nat.pos_of_ne_zero hdone, _, hadd, hrest⟩,
                ⟨hint₁, .inl (hreads.emptied hless)⟩, .inl ?_⟩⟩
            have h1 := hadd.remaining
            have h2 : 0 < (b :: bs).length := Nat.succ_pos _
            dsimp only
            omega

end Payload

/-! ### Peeking at the header -/

/-- The receiver has looked ahead, perhaps without finding anything. -/
structure Looked (s s' : WebSocketImpl) : Prop where
  unread : unread s' = unread s
  blocking : s'._pStreamSocketImpl.blocking = false
  fragment : s'._pStreamSocketImpl.fragment = s._pStreamSocketImpl.fragment
  maxPayloadSize : s'._maxPayloadSize = s._maxPayloadSize
  receiveState : s'._receiveState = s._receiveState

section Peek

variable {s : WebSocketImpl}

theorem peekSomeBytes_waits (hint : s._buffer.length ≤ INT_MAX) (hpos : 0 < held s)
    (hlt : held s < MAX_HEADER_LENGTH) {t : StreamSocketImpl}
    (hr : StreamSocketImpl.receiveBytes (MAX_HEADER_LENGTH - held s) s._pStreamSocketImpl = .ok none t) :
    peekSomeBytes MAX_HEADER_LENGTH s =
      .ok (some (s._buffer.drop s._bufferOffset)) { s with _pStreamSocketImpl := t } := by
  have hall : slice s._buffer s._bufferOffset (held s) = s._buffer.drop s._bufferOffset :=
    List.take_of_length_le (by simp [held])
  unfold held at hpos hlt hr hall
  simp [peekSomeBytes, bind, EStateM.bind, get_run,
    toInt_of_le hint, hpos, Nat.min_eq_right (Nat.le_of_lt hlt), hlt, onSocket_of_ok hr, hall,
    pure, EStateM.pure]

/-- A peek returns bytes from the front of the stream, and none at its end only. -/
theorem peekSomeBytes_looked (hnb : s._pStreamSocketImpl.blocking = false)
    (hint : s._buffer.length ≤ INT_MAX) :
    ∃ r s', peekSomeBytes MAX_HEADER_LENGTH s = .ok r s' ∧ Looked s s' ∧
      ∀ h ∈ r, h <+: unread s ∧ (h = [] → unread s = []) := by
  by_cases h0 : held s = 0
  · obtain ⟨r, t, hr, -, hrec⟩ := receiveBytes_received hnb (by decide : 0 < MAX_HEADER_LENGTH)
    have hun : unread s = r.getD [] ++ t.incoming := (unread_of_held_eq_zero h0).trans hrec.incoming
    by_cases hpos : 0 < (r.getD []).length
    · cases r with
      | none => exact absurd hpos (Nat.lt_irrefl 0)
      | some bs =>
          refine ⟨_, _, peekSomeBytes_socket hint h0 hpos hr,
            ⟨hun.symm, hrec.blocking, hrec.fragment, rfl, rfl⟩, ?_⟩
          rintro h hh
          obtain rfl := Option.some.inj hh
          exact ⟨⟨t.incoming, hun.symm⟩, fun hnil => absurd hnil (List.ne_nil_of_length_pos hpos)⟩
    · -- nothing was read
      have hnil : r.getD [] = [] := List.length_eq_zero_iff.mp (Nat.eq_zero_of_not_pos hpos)
      have hpeek : peekSomeBytes MAX_HEADER_LENGTH s = .ok r { s with _pStreamSocketImpl := t } := by
        have hno : ¬0 < s._buffer.length - s._bufferOffset := by
          unfold held at h0
          omega
        rw [peekSomeBytes, get_bind, bind_of_ok (toInt_of_le hint s)]
        dsimp only
        rw [if_neg hno, bind_of_ok (onSocket_of_ok hr)]
        cases r with
        | none => rfl
        | some bs =>
            obtain rfl : bs = [] := hnil
            rfl
      refine ⟨r, _, hpeek, ⟨?_, hrec.blocking, hrec.fragment, rfl, rfl⟩, ?_⟩
      · rw [hun, hnil]
        exact unread_of_held_eq_zero (by exact h0)
      · rintro h hh
        rw [Option.mem_def.mp hh] at hnil hrec
        obtain rfl : h = [] := hnil
        exact ⟨List.nil_prefix, fun _ => (unread_of_held_eq_zero h0).trans (hrec.ends rfl)⟩
  · have hpos : 0 < (s._buffer.drop s._bufferOffset).length := by
      rw [List.length_drop]
      exact Nat.pos_of_ne_zero h0
    by_cases hlen : MAX_HEADER_LENGTH ≤ held s
    · refine ⟨_, _, peekSomeBytes_buffer hint hlen (by decide), ⟨rfl, hnb, rfl, rfl, rfl⟩, ?_⟩
      rintro h hh
      obtain rfl := Option.some.inj hh
      refine ⟨(List.take_prefix _ _).trans (List.prefix_append _ _), fun hnil => ?_⟩
      have hsize : (slice s._buffer s._bufferOffset MAX_HEADER_LENGTH).length = MAX_HEADER_LENGTH := by
        apply slice_length
        unfold held MAX_HEADER_LENGTH at *
        omega
      rw [hnil] at hsize
      cases hsize
    · have hlt := Nat.lt_of_not_le hlen
      obtain ⟨r, t, hr, -, hrec⟩ := receiveBytes_received hnb (Nat.sub_pos_of_lt hlt)
      have hun : unread s = s._buffer.drop s._bufferOffset ++ r.getD [] ++ t.incoming := by
        rw [unread, hrec.incoming, List.append_assoc]
      cases r with
      | none =>
          refine ⟨_, _, peekSomeBytes_waits hint (Nat.pos_of_ne_zero h0) hlt hr,
            ⟨?_, hrec.blocking, hrec.fragment, rfl, rfl⟩, ?_⟩
          · rw [hun, Option.getD_none, List.append_nil]
            rfl
          · rintro h hh
            obtain rfl := Option.some.inj hh
            exact ⟨List.prefix_append _ _, fun hnil => absurd hnil (List.ne_nil_of_length_pos hpos)⟩
      | some bs =>
          refine ⟨_, _, peekSomeBytes_both hint (Nat.pos_of_ne_zero h0) hlt hr,
            ⟨?_, hrec.blocking, hrec.fragment, rfl, rfl⟩, ?_⟩
          · rw [hun, Option.getD_some, ← List.drop_append_of_le_length (by rw [List.length_drop] at hpos; omega)]
            rfl
          · rintro h hh
            obtain rfl := Option.some.inj hh
            refine ⟨⟨t.incoming, hun.symm⟩, fun hnil => ?_⟩
            rw [(List.append_eq_nil_iff.mp hnil).1] at hpos
            exact absurd hpos (Nat.lt_irrefl 0)

end Peek

theorem onReceiveState_of_ok {α : Type} {call : EStateM Stop ReceiveState α} {s : WebSocketImpl} {a : α}
    {r : ReceiveState} (h : call s._receiveState = .ok a r) :
    onReceiveState call s = .ok a { s with _receiveState := r } := by
  simp [onReceiveState, h]

theorem onReceiveState_of_error {α : Type} {call : EStateM Stop ReceiveState α} {s : WebSocketImpl}
    {e : Stop} {r : ReceiveState} (h : call s._receiveState = .error e r) :
    onReceiveState call s = .error e { s with _receiveState := r } := by
  simp [onReceiveState, h]

/-- "Payload too big". -/
def tooBig : Stop := .webSocketException "Payload too big" WS_ERR_PAYLOAD_TOO_BIG

/-- A length beyond the limit is rejected as soon as it is there. -/
theorem parseHeader_big {mustMaskPayload : Bool} {mask : Vector UInt8 4} {length maxPayloadSize : ℕ}
    {flags : ℤ} (hbig : maxPayloadSize < length) (hlength : length < 2 ^ 64) {h : List UInt8}
    (hh : h <+: header mustMaskPayload mask length flags ∨
      header mustMaskPayload mask length flags <+: h)
    (hlong : 2 + (encodeLength length).2.length ≤ h.length) (r : ReceiveState) :
    ∃ r', parseHeader maxPayloadSize h r = .error tooBig r' := by
  obtain ⟨-, lengthByte, hbyte, -, hext, hval⟩ := header_spec hlength hh hlong
  unfold parseHeader
  dsimp only
  rw [hbyte, hval, hext, if_neg (by omega), if_pos hbig]
  exact ⟨_, rfl⟩

/-- A header that is understood sets the lengths, and no other sets the length of the header. -/
theorem parseHeader_cases (maxPayloadSize : ℕ) (h : List UInt8) (r : ReceiveState) :
    (∃ r', parseHeader maxPayloadSize h r = .ok none r' ∧ r'.headerLength = r.headerLength ∧
        r'.remainingPayloadLength = r.remainingPayloadLength) ∨
      (∃ r', parseHeader maxPayloadSize h r = .error tooBig r' ∧
        r'.remainingPayloadLength = r.remainingPayloadLength) ∨
      ∃ l r', parseHeader maxPayloadSize h r = .ok (some l) r' ∧ r'.payloadLength = l ∧
        r'.remainingPayloadLength = l ∧ r'.payload = r.payload ∧ r'.maskOffset = r.maskOffset := by
  unfold parseHeader
  dsimp only
  generalize (if extendedLength (h.getD 1 0) = 0 then _ else _) = l
  by_cases hshort : h.length < 2 + extendedLength (h.getD 1 0)
  · rw [if_pos hshort]
    exact .inl ⟨_, rfl, rfl, rfl⟩
  · rw [if_neg hshort]
    by_cases hbig : maxPayloadSize < l
    · rw [if_pos hbig]
      exact .inr (.inl ⟨_, rfl, rfl⟩)
    · rw [if_neg hbig]
      split_ifs
      · exact .inl ⟨_, rfl, rfl, rfl⟩
      · exact .inr (.inr ⟨l, _, rfl, rfl, rfl, rfl, rfl⟩)
      · exact .inr (.inr ⟨l, _, rfl, rfl, rfl, rfl, rfl⟩)

theorem parseHeader_some {maxPayloadSize l : ℕ} {h : List UInt8} {r r' : ReceiveState}
    (hok : parseHeader maxPayloadSize h r = .ok (some l) r') :
    r'.payloadLength = l ∧ r'.remainingPayloadLength = l ∧ r'.payload = r.payload ∧
      r'.maskOffset = r.maskOffset := by
  obtain ⟨t, ht, -⟩ | ⟨t, ht, -⟩ | ⟨n, t, ht, hfields⟩ := parseHeader_cases maxPayloadSize h r
  · cases hok.symm.trans ht
  · cases hok.symm.trans ht
  · cases hok.symm.trans ht
    exact hfields

theorem parseHeader_none {maxPayloadSize : ℕ} {h : List UInt8} {r r' : ReceiveState}
    (hok : parseHeader maxPayloadSize h r = .ok none r') : r'.headerLength = r.headerLength := by
  obtain ⟨t, ht, hfield, -⟩ | ⟨t, ht, -⟩ | ⟨n, t, ht, -⟩ := parseHeader_cases maxPayloadSize h r
  · cases hok.symm.trans ht
    exact hfield
  · cases hok.symm.trans ht
  · cases hok.symm.trans ht

section Header

variable {s : WebSocketImpl} {mustMaskPayload : Bool} {mask : Vector UInt8 4} {length : ℕ}
  {flags : ℤ} {rest : List UInt8}

/-- The header of a frame with a payload of `length` bytes has been read, and not skipped. -/
structure Opened (s : WebSocketImpl) (mustMaskPayload : Bool) (mask : Vector UInt8 4) (length : ℕ)
    (flags : ℤ) (s' : WebSocketImpl) : Prop where
  announces : Announces mustMaskPayload mask length flags s'._receiveState
  payloadLength : s'._receiveState.payloadLength = length
  remaining : s'._receiveState.remainingPayloadLength = length
  payload : s'._receiveState.payload = s._receiveState.payload
  maskOffset : s'._receiveState.maskOffset = s._receiveState.maskOffset

/-- What `peekHeader` makes of the bytes it has peeked. -/
theorem peekHeader_of_peek {s₁ : WebSocketImpl} {h : List UInt8}
    (hpeek : peekSomeBytes MAX_HEADER_LENGTH { s with _receiveState := resetHeader s._receiveState } =
      .ok (some h) s₁) (htwo : 2 ≤ h.length) :
    peekHeader s = onReceiveState (parseHeader s₁._maxPayloadSize h) s₁ := by
  have hreset : onReceiveState (modify resetHeader) s =
      .ok () { s with _receiveState := resetHeader s._receiveState } := rfl
  rw [peekHeader, bind_of_ok hreset, bind_of_ok hpeek]
  dsimp only
  rw [if_neg (by omega), if_neg (by omega)]
  rfl

theorem peekHeader_complete {s₁ : WebSocketImpl} {more : List UInt8}
    (hpeek : peekSomeBytes MAX_HEADER_LENGTH { s with _receiveState := resetHeader s._receiveState } =
      .ok (some (header mustMaskPayload mask length flags ++ more)) s₁)
    (hstate : s₁._receiveState = resetHeader s._receiveState) (hlength : length < 2 ^ 64)
    (hmax : length ≤ s₁._maxPayloadSize) :
    ∃ r, peekHeader s = .ok (some length) { s₁ with _receiveState := r } ∧
      Opened s mustMaskPayload mask length flags { s₁ with _receiveState := r } := by
  have htwo := two_le_headerSize mustMaskPayload length
  obtain ⟨r, hparse, hr⟩ := parseHeader_complete mustMaskPayload mask flags hmax hlength more
    s₁._receiveState
  obtain ⟨hl, hrem, hpay, hoff⟩ := parseHeader_some hparse
  rw [hstate] at hpay hoff
  refine ⟨r, ?_, ⟨hr, hl, hrem, hpay, hoff⟩⟩
  rw [peekHeader_of_peek hpeek (by rw [List.length_append, length_header]; omega)]
  exact onReceiveState_of_ok hparse

theorem peekHeader_big {s₁ : WebSocketImpl} {more : List UInt8}
    (hpeek : peekSomeBytes MAX_HEADER_LENGTH { s with _receiveState := resetHeader s._receiveState } =
      .ok (some (header mustMaskPayload mask length flags ++ more)) s₁)
    (hlength : length < 2 ^ 64) (hbig : s₁._maxPayloadSize < length) :
    ∃ s', peekHeader s = .error tooBig s' := by
  have hsize := length_header mustMaskPayload mask flags length
  obtain ⟨r, hparse⟩ := parseHeader_big hbig hlength
    (.inr (List.prefix_append (header mustMaskPayload mask length flags) more))
    (by rw [List.length_append, hsize, headerSize]; omega) s₁._receiveState
  refine ⟨{ s₁ with _receiveState := r }, ?_⟩
  rw [peekHeader_of_peek hpeek (by rw [List.length_append, hsize, headerSize]; omega)]
  exact onReceiveState_of_error hparse

/-- A peek at a frame that is not rejected finds its header as a whole, or asks for more. -/
theorem peekHeader_frame (hnb : s._pStreamSocketImpl.blocking = false)
    (hint : s._buffer.length ≤ INT_MAX) (hlength : length < 2 ^ 64)
    (hun : unread s = header mustMaskPayload mask length flags ++ rest) :
    (∃ s', peekHeader s = .ok none s' ∧ s'._receiveState.headerLength = 0) ∨
      (∃ s', peekHeader s = .error tooBig s') ∨
      ∃ s', peekHeader s = .ok (some length) s' ∧ Opened s mustMaskPayload mask length flags s' ∧
        s'._pStreamSocketImpl.blocking = false ∧ unread s' = unread s := by
  have hsize := length_header mustMaskPayload mask flags length
  have hge := two_le_headerSize mustMaskPayload length
  obtain ⟨r, s₁, hpeek, hlooked, hfront⟩ :=
    peekSomeBytes_looked (s := { s with _receiveState := resetHeader s._receiveState }) hnb hint
  have hreset : onReceiveState (modify resetHeader) s =
      .ok () { s with _receiveState := resetHeader s._receiveState } := rfl
  have hzero : s₁._receiveState.headerLength = 0 := by
    rw [hlooked.receiveState]
    rfl
  cases r with
  | none =>
      refine .inl ⟨s₁, ?_, hzero⟩
      rw [peekHeader, bind_of_ok hreset, bind_of_ok hpeek]
      rfl
  | some h =>
      obtain ⟨hstart, hnil⟩ := hfront h rfl
      have hfull : unread { s with _receiveState := resetHeader s._receiveState } = unread s := rfl
      rw [hfull, hun] at hstart hnil
      have hne : h ≠ [] := by
        intro hempty
        rw [(List.append_eq_nil_iff.mp (hnil hempty)).1, List.length_nil] at hsize
        omega
      by_cases htwo : 2 ≤ h.length
      · by_cases hwhole : headerSize mustMaskPayload length ≤ h.length
        · -- the header and perhaps bytes behind it
          obtain ⟨more, rfl⟩ := List.prefix_of_prefix_length_le (List.prefix_append _ _) hstart
            (hsize ▸ hwhole)
          by_cases hmax : length ≤ s₁._maxPayloadSize
          · obtain ⟨r, hok, hopened⟩ := peekHeader_complete hpeek hlooked.receiveState hlength hmax
            exact .inr (.inr ⟨_, hok, hopened, hlooked.blocking, hlooked.unread⟩)
          · exact .inr (.inl (peekHeader_big hpeek hlength (Nat.lt_of_not_le hmax)))
        · have hpart := List.prefix_of_prefix_length_le hstart
            (List.prefix_append (header mustMaskPayload mask length flags) rest) (by omega)
          rw [peekHeader_of_peek hpeek htwo]
          by_cases hlong : 2 + (encodeLength length).2.length ≤ h.length
          · by_cases hmax : length ≤ s₁._maxPayloadSize
            · obtain ⟨r, hparse⟩ := parseHeader_part hmax hlength hpart htwo (Nat.lt_of_not_le hwhole)
                s₁._receiveState
              exact .inl ⟨_, onReceiveState_of_ok hparse, (parseHeader_none hparse).trans hzero⟩
            · obtain ⟨r, hparse⟩ := parseHeader_big (Nat.lt_of_not_le hmax) hlength (.inl hpart) hlong
                s₁._receiveState
              exact .inr (.inl ⟨_, onReceiveState_of_error hparse⟩)
          · obtain ⟨r, hparse⟩ := parseHeader_short hpart htwo (Nat.lt_of_not_le hlong) s₁._receiveState
            exact .inl ⟨_, onReceiveState_of_ok hparse, (parseHeader_none hparse).trans hzero⟩
      · refine .inl ⟨s₁, ?_, hzero⟩
        rw [peekHeader, bind_of_ok hreset, bind_of_ok hpeek]
        dsimp only
        rw [if_neg (mt List.length_eq_zero_iff.mp hne), if_pos (Nat.lt_of_not_le htwo)]
        rfl

end Header

/-! ### After "Insufficient buffer for payload size" -/

/-- The exception for a payload of `length` bytes. -/
def insufficient (length : ℕ) : Stop :=
  .webSocketException ("Insufficient buffer for payload size " ++ toString length)
    WS_ERR_PAYLOAD_TOO_BIG

/-- Calls of `receiveBytes` until one returns something else than `-1`, at most `calls` of them. -/
def repeatReceiveBytes (fuel length : ℕ) : ℕ → Method (Option (List UInt8))
  | 0 => return none
  | calls + 1 => do
      match ← receiveBytes fuel length with
      | some payload => return some payload
      | none => repeatReceiveBytes fuel length calls

/-- Calling `receiveBytes` again and again returns the payload and the flags of the message, and
leaves the receiver in front of what follows its frame. -/
def Recovers (fuel length : ℕ) (s : WebSocketImpl) (m : Message) (rest : List UInt8) : Prop :=
  ∃ calls s', repeatReceiveBytes fuel length calls s = .ok (some m.payload) s' ∧
    s'.frameFlags = wireFlags m.flags ∧ AtBoundary s' rest

/-- A frame of the message is next in the stream, or the receiver is within its payload. -/
def AtFrame (s : WebSocketImpl) (mustMaskPayload : Bool) (mask : Vector UInt8 4) (m : Message)
    (rest : List UInt8) : Prop :=
  m.payload.length < 2 ^ 64 ∧
    (AtBoundary s (frame mustMaskPayload mask m.payload m.flags ++ rest) ∨
      Receiving s mustMaskPayload mask m rest)

/-- The network goes on delivering. -/
def Delivering (t : StreamSocketImpl) : Prop := ∀ i, ∃ j, i ≤ j ∧ 0 < t.fragment j

section Retry

variable {s s' : WebSocketImpl} {mustMaskPayload : Bool} {mask : Vector UInt8 4} {m : Message}
  {rest : List UInt8} {fuel length limit : ℕ}

theorem receiveBytes_nonBlocking (hnb : s._pStreamSocketImpl.blocking = false) :
    receiveBytes fuel length s = receiveNonBlocking (some length) s := by
  rw [receiveBytes, receiveFrame, get_bind, hnb]
  rfl

theorem checkBuffer_of_le {n : ℕ} (h : n ≤ length) (s : WebSocketImpl) :
    checkBuffer (some length) n s = .ok () s := by
  simp [checkBuffer, not_lt.mpr h, pure, EStateM.pure]

theorem checkBuffer_of_lt {n : ℕ} (h : length < n) (s : WebSocketImpl) :
    checkBuffer (some length) n s = .error (insufficient n) s := by
  simp [checkBuffer, h, insufficient, throw_run]

theorem receiveBytes_within (hnb : s._pStreamSocketImpl.blocking = false)
    (hpos : 0 < s._receiveState.remainingPayloadLength)
    (hle : s._receiveState.payloadLength ≤ length) : receiveBytes fuel length s = receiveMore s := by
  rw [receiveBytes_nonBlocking hnb, receiveNonBlocking, get_bind, if_neg (Nat.ne_of_gt hpos),
    bind_of_ok (checkBuffer_of_le hle s)]

theorem Recovers.again (hr : receiveBytes fuel length s = .ok none s') (h : Recovers fuel length s' m rest) :
    Recovers fuel length s m rest := by
  obtain ⟨calls, t, hcalls, hend⟩ := h
  exact ⟨calls + 1, t, by rw [repeatReceiveBytes, bind_of_ok hr]; exact hcalls, hend⟩

theorem Recovers.done (hr : receiveBytes fuel length s = .ok (some m.payload) s')
    (hflags : s'.frameFlags = wireFlags m.flags) (h : AtBoundary s' rest) : Recovers fuel length s m rest :=
  ⟨1, s', by rw [repeatReceiveBytes, bind_of_ok hr]; rfl, hflags, h⟩

/-- A receiver within a payload reaches its end: each call takes some of what is missing, or the next
`recv` that has something is nearer than before. -/
theorem recovers_of_wait {s : WebSocketImpl} (wait : ℕ) (hnb : s._pStreamSocketImpl.blocking = false)
    (hnet : Delivering s._pStreamSocketImpl) (h : Receiving s mustMaskPayload mask m rest)
    (hfits : Fits s s._receiveState.remainingPayloadLength) (hlength : m.payload.length ≤ length)
    (hwait : 0 < s._pStreamSocketImpl.fragment (s._pStreamSocketImpl.reads + wait)) :
    Recovers fuel length s m rest := by
  have hle : s._receiveState.payloadLength ≤ length := by
    obtain ⟨-, k, hholds, -⟩ := h
    exact hholds.total.trans_le hlength
  obtain ⟨s', hnb', hfragment, hcase⟩ := receiveMore_receiving hnb h hfits
  have hcall : receiveBytes fuel length s = receiveMore s := receiveBytes_within hnb h.1 hle
  rw [← hcall] at hcase
  have hnet' : Delivering s'._pStreamSocketImpl := by
    rw [Delivering, hfragment]
    exact hnet
  obtain ⟨hr, hflags, hend⟩ | ⟨hr, h', hfits', hless | ⟨hsame, hzero, hreads⟩⟩ := hcase
  · exact .done hr hflags hend
  · obtain ⟨j, hj, hpos⟩ := hnet' s'._pStreamSocketImpl.reads
    refine .again hr (recovers_of_wait (j - s'._pStreamSocketImpl.reads) hnb' hnet' h' hfits' hlength ?_)
    rwa [Nat.add_sub_cancel' hj]
  · have hlater : 0 < wait := by
      refine Nat.pos_of_ne_zero fun hnow => ?_
      rw [hnow] at hwait
      exact absurd hzero (Nat.ne_of_gt hwait)
    refine .again hr (recovers_of_wait (wait - 1) hnb' hnet' h' hfits' hlength ?_)
    rwa [hfragment, hreads, Nat.add_assoc, Nat.add_sub_cancel' hlater]
termination_by (s._receiveState.remainingPayloadLength, wait)
decreasing_by
  · exact Prod.Lex.left _ _ hless
  · rw [hsame]
    exact Prod.Lex.right _ (Nat.sub_one_lt_of_lt hlater)

theorem recovers_receiving (hnb : s._pStreamSocketImpl.blocking = false)
    (hnet : Delivering s._pStreamSocketImpl) (h : Receiving s mustMaskPayload mask m rest)
    (hfits : Fits s s._receiveState.remainingPayloadLength) (hlength : m.payload.length ≤ length) :
    Recovers fuel length s m rest := by
  obtain ⟨j, hj, hpos⟩ := hnet s._pStreamSocketImpl.reads
  refine recovers_of_wait (j - s._pStreamSocketImpl.reads) hnb hnet h hfits hlength ?_
  rwa [Nat.add_sub_cancel' hj]

/-- Calls within a payload take exactly what is missing of it before they return something. -/
theorem repeatReceiveBytes_takes {calls : ℕ} {payload : List UInt8}
    (hnb : s._pStreamSocketImpl.blocking = false) (hpos : 0 < s._receiveState.remainingPayloadLength)
    (hle : s._receiveState.payloadLength ≤ length)
    (hr : repeatReceiveBytes fuel length calls s = .ok (some payload) s') :
    Fits s s._receiveState.remainingPayloadLength ∧
      (unread s).length = s._receiveState.remainingPayloadLength + (unread s').length := by
  induction calls generalizing s with
  | zero => cases hr
  | succ calls ih =>
      have hcall : receiveBytes fuel length s = receiveMore s := receiveBytes_within hnb hpos hle
      rw [repeatReceiveBytes] at hr
      by_cases hfits : Fits s s._receiveState.remainingPayloadLength
      · obtain ⟨r, s₁, hreads, hmore⟩ := receiveMore_spec hnb hfits hpos
        have htook := hreads.took
        refine ⟨hfits, ?_⟩
        have hlen : (unread s).length = (r.getD []).length + (unread s₁).length := by
          rw [htook.unread, List.length_append]
        cases r with
        | none =>
            rw [bind_of_ok (hcall.trans hmore)] at hr
            obtain ⟨-, hrest⟩ := ih htook.blocking (htook.receiveState ▸ hpos) (htook.receiveState ▸ hle) hr
            rw [hlen, hrest, htook.receiveState]
            exact Nat.zero_add _
        | some bs =>
            cases bs with
            | nil =>
                rw [bind_of_error (hcall.trans hmore)] at hr
                cases hr
            | cons b bs =>
                have hbs : (b :: bs).length ≤ s._receiveState.remainingPayloadLength := hreads.le
                have hrem : (addPayload s._receiveState (b :: bs)).remainingPayloadLength =
                    s._receiveState.remainingPayloadLength - (b :: bs).length := rfl
                have hlen : (unread s).length = (b :: bs).length + (unread s₁).length := hlen
                dsimp only [moreResult] at hmore
                by_cases hroom : HasRoom s._receiveState (b :: bs).length
                swap
                · rw [bind_of_error (hcall.trans (hmore.trans (if_neg hroom)))] at hr
                  cases hr
                rw [if_pos hroom] at hmore
                by_cases hdone : (addPayload s._receiveState (b :: bs)).remainingPayloadLength = 0
                · have hmore := hmore.trans (if_pos hdone)
                  rw [bind_of_ok (hcall.trans hmore)] at hr
                  cases hr
                  rw [hlen]
                  change _ = _ + (unread s₁).length
                  omega
                · have hmore := hmore.trans (if_neg hdone)
                  rw [bind_of_ok (hcall.trans hmore)] at hr
                  obtain ⟨-, hrest⟩ := ih (s := { s₁ with _receiveState := addPayload s._receiveState (b :: bs) })
                    htook.blocking (Nat.pos_of_ne_zero hdone) hle hr
                  change (unread s₁).length = _ at hrest
                  rw [hlen, hrest, hrem]
                  omega
      · have hover : receiveMore s = .error .overflow s := by
          rw [receiveMore, get_bind]
          apply bind_of_error
          rw [receivePayload]
          exact bind_of_error (receiveNBytes_overflow hfits)
        rw [bind_of_error (hcall.trans hover)] at hr
        cases hr

theorem peekHeader_overflow (hint : INT_MAX < s._buffer.length) :
    ∃ s', peekHeader s = .error .overflow s' := by
  have hreset : onReceiveState (modify resetHeader) s =
      .ok () { s with _receiveState := resetHeader s._receiveState } := rfl
  refine ⟨{ s with _receiveState := resetHeader s._receiveState }, ?_⟩
  rw [peekHeader, bind_of_ok hreset]
  apply bind_of_error
  rw [peekSomeBytes, get_bind]
  apply bind_of_error
  simp [toInt, Nat.not_le.mpr hint, throw_run]

theorem tooBig_ne_insufficient (n : ℕ) : tooBig ≠ insufficient n := by
  intro h
  obtain ⟨htext, -⟩ := Stop.webSocketException.inj h
  have hlength := congrArg String.length htext
  rw [String.length_append] at hlength
  have h1 : "Payload too big".length = 15 := by decide
  have h2 : "Insufficient buffer for payload size ".length = 37 := by decide
  omega

/-- In front of a frame the exception is thrown with its header read and not skipped. -/
theorem insufficient_atBoundary (hnb : s._pStreamSocketImpl.blocking = false)
    (h64 : m.payload.length < 2 ^ 64)
    (h : AtBoundary s (frame mustMaskPayload mask m.payload m.flags ++ rest))
    (hlimit : limit < m.payload.length)
    (hthrow : receiveBytes fuel limit s = .error (insufficient m.payload.length) s') :
    Opened s mustMaskPayload mask m.payload.length m.flags s' ∧
      s'._pStreamSocketImpl.blocking = false ∧ unread s' = unread s := by
  have hun := h.unread
  rw [frame_eq, List.append_assoc] at hun
  rw [receiveBytes_nonBlocking hnb, receiveNonBlocking, get_bind, if_pos h.remaining] at hthrow
  by_cases hint : s._buffer.length ≤ INT_MAX
  · obtain ⟨s₁, hpeek, hzero⟩ | ⟨s₁, hpeek⟩ | ⟨s₁, hpeek, hopened, hnb₁, hun₁⟩ :=
      peekHeader_frame hnb hint h64 hun
    · rw [bind_of_ok hpeek] at hthrow
      dsimp only at hthrow
      rw [get_bind, hzero] at hthrow
      cases hthrow
    · rw [bind_of_error hpeek] at hthrow
      exact absurd (EStateM.Result.error.inj hthrow).1 (tooBig_ne_insufficient _)
    · rw [bind_of_ok hpeek] at hthrow
      dsimp only at hthrow
      rw [get_bind, if_neg (by omega), bind_of_error (checkBuffer_of_lt hlimit s₁)] at hthrow
      obtain ⟨-, rfl⟩ := EStateM.Result.error.inj hthrow
      exact ⟨hopened, hnb₁, hun₁⟩
  · obtain ⟨s₁, hpeek⟩ := peekHeader_overflow (Nat.lt_of_not_le hint)
    rw [bind_of_error hpeek] at hthrow
    cases (EStateM.Result.error.inj hthrow).1

theorem insufficient_receiving (hnb : s._pStreamSocketImpl.blocking = false)
    (h : Receiving s mustMaskPayload mask m rest) (hlimit : limit < m.payload.length) :
    receiveBytes fuel limit s = .error (insufficient m.payload.length) s := by
  obtain ⟨hpos, k, hholds, -⟩ := h
  rw [receiveBytes_nonBlocking hnb, receiveNonBlocking, get_bind, if_neg (Nat.ne_of_gt hpos),
    hholds.total, bind_of_error (checkBuffer_of_lt hlimit s)]

/-- **When a larger buffer helps.**  A non-blocking receiver is at a frame whose payload does not
fit into the caller's buffer, and says so.  The following calls with a buffer that is large enough
return the payload just when the first call has been made within the payload of the frame (and
the arithmetic on the receiver's own buffer does not overflow). -/
theorem recovers_iff (hnb : s._pStreamSocketImpl.blocking = false)
    (hnet : Delivering s._pStreamSocketImpl) (hframe : AtFrame s mustMaskPayload mask m rest)
    (hlimit : limit < m.payload.length)
    (hthrow : receiveBytes fuel limit s = .error (insufficient m.payload.length) s')
    (hlength : m.payload.length ≤ length) :
    Recovers fuel length s' m rest ↔
      0 < s._receiveState.remainingPayloadLength ∧ Fits s s._receiveState.remainingPayloadLength := by
  obtain ⟨h64, hfresh | hwithin⟩ := hframe
  · -- the header that has not been skipped is taken for payload
    refine iff_of_false ?_ (fun h => absurd hfresh.remaining (Nat.ne_of_gt h.1))
    rintro ⟨calls, t, hr, -, hend⟩
    obtain ⟨hopened, hnb', hun⟩ := insufficient_atBoundary hnb h64 hfresh hlimit hthrow
    have hrem := hopened.remaining
    obtain ⟨-, htakes⟩ := repeatReceiveBytes_takes hnb' (by omega)
      (hopened.payloadLength.trans_le hlength) hr
    rw [hun, hfresh.unread, hend.unread, List.length_append, length_frame, frameLength, hrem] at htakes
    have := two_le_headerSize mustMaskPayload m.payload.length
    omega
  · obtain ⟨-, rfl⟩ := EStateM.Result.error.inj (hthrow.symm.trans
      (insufficient_receiving hnb hwithin hlimit))
    constructor
    · rintro ⟨calls, t, hr, -⟩
      obtain ⟨hpos, k, hholds, -⟩ := hwithin
      exact ⟨hpos, (repeatReceiveBytes_takes hnb hpos (hholds.total.trans_le hlength) hr).1⟩
    · exact fun h => recovers_receiving hnb hnet hwithin h.2 hlength

/-- A non-blocking connection with some bytes to come. -/
def arriving (incoming : List UInt8) : StreamSocketImpl :=
  { blocking := false, incoming := incoming, fragment := fun _ => 100, accepts := fun _ => none }

/-- One byte of a payload of three has been received. -/
def withinPayload : WebSocketImpl :=
  { create (arriving [8, 9, 0x81]) [] true with
    _receiveState := { frameFlags := 0x82, headerLength := 2, payloadLength := 3,
                       remainingPayloadLength := 2, payload := [7, 0, 0], maskOffset := 1 } }

theorem recovers_withinPayload : Recovers 0 3 withinPayload ⟨[7, 8, 9], 0x82⟩ [0x81] := by
  have hnet : Delivering withinPayload._pStreamSocketImpl := fun i => ⟨i, le_refl i, Nat.succ_pos _⟩
  have hholds : Holds withinPayload._receiveState false #v[0, 0, 0, 0] ⟨[7, 8, 9], 0x82⟩ 1 :=
    ⟨rfl, rfl, rfl, rfl, nofun, rfl, le_refl 3, rfl⟩
  have hframe : AtFrame withinPayload false #v[0, 0, 0, 0] ⟨[7, 8, 9], 0x82⟩ [0x81] :=
    ⟨by decide, .inr ⟨by decide, 1, hholds, rfl⟩⟩
  have hthrow : receiveBytes 0 2 withinPayload = .error (insufficient 3) withinPayload := rfl
  have hfits : Fits withinPayload 2 := ⟨by decide, by decide⟩
  exact (recovers_iff rfl hnet hframe (by decide) hthrow (by decide)).mpr ⟨by decide, hfits⟩

/-- A receiver in front of a frame with a payload of three bytes. -/
def freshFrame : WebSocketImpl := create (arriving [0x82, 3, 7, 8, 9, 0x81, 0]) [] true

/-- The frame meets a buffer of one byte: the next call writes its header where no memory is. -/
theorem not_recovers_freshFrame :
    ∃ s', receiveBytes 0 1 freshFrame = .error (insufficient 3) s' ∧
      returned (receiveBytes 0 3 s') = .error .outOfBounds ∧
      ¬Recovers 0 3 s' ⟨[7, 8, 9], 0x82⟩ [0x81, 0] := by
  have hnext : returned (receiveBytes 0 3 (finalState (receiveBytes 0 1 freshFrame))) =
      .error .outOfBounds := by decide
  refine ⟨finalState (receiveBytes 0 1 freshFrame), rfl, hnext, ?_⟩
  rintro ⟨calls, t, hr, -, -⟩
  cases calls with
  | zero => cases hr
  | succ calls =>
      rw [repeatReceiveBytes, bind_of_error (error_of_returned hnext)] at hr
      cases hr

end Retry

end Poco.Net.WebSocketImpl
