import Poco.Net.HTTPBody

/-! # HTTP connections

The two ends of a persistent connection.  `HTTPClientSession::sendRequestImpl` and
`HTTPServerRequestImpl` choose the streams of a request by its fields, `HTTPServerResponseImpl::send` and
`HTTPClientSession::receiveResponse` those of a response by its status, the method of the request and the
fields.

Requests that are sent one after another are received one after another, each with its start line, its
fields and its body, however the network divides the bytes, if every body is read to its end
(`serves_sent`); so are the responses to them, with the `100 Continue` responses in front of them
(`receives_responses`). -/

namespace Poco.Net

open Poco.Lib

open Poco.Foundation.BufferedStreamBuf (slices)

open Poco.Net.HTTPChunkedStreamBuf (Op written)

open Poco.Net.HTTPHeaderStreamBuf (linesText IsLine EndsHeader)

/-! ### The lines of a header -/

/-- The line of a field, without its end. -/
def fieldLine (f : Field) : List UInt8 := f.name ++ ascii ": " ++ f.value ++ ascii "\r"

/-- The lines of a header in front of the empty one. -/
def headerLines (first : List UInt8) (m : List Field) : List (List UInt8) := (first ++ ascii "\r") :: m.map fieldLine

theorem linesText_header (first : List UInt8) (m : List Field) :
    linesText (headerLines first m ++ [ascii "\r"]) =
      first ++ ascii "\r\n" ++ MessageHeader.write m ++ ascii "\r\n" := by
  have hfields : linesText (m.map fieldLine) = MessageHeader.write m := by
    rw [linesText, List.flatMap_map, MessageHeader.write]
    congr 1
    funext f
    simp [fieldLine, ascii]
  have hempty : linesText [ascii "\r"] = ascii "\r\n" := rfl
  rw [headerLines, linesText, List.cons_append, List.flatMap_cons, List.flatMap_append]
  rw [linesText] at hfields hempty
  rw [hfields, hempty]
  simp [ascii]

/-- A header that the header stream returns as it is. -/
def Passes (first : List UInt8) (m : List Field) : Prop :=
  ∀ line ∈ headerLines first m, IsLine line ∧ ¬EndsHeader line

instance (first : List UInt8) (m : List Field) : Decidable (Passes first m) := by
  unfold Passes
  infer_instance

/-- The header is read up to the empty line, the session is behind it. -/
theorem Passes.reads {first : List UInt8} {m : List Field} (h : Passes first m) {s : HTTPSession} {rest : List UInt8}
    (hs : s.incoming = first ++ ascii "\r\n" ++ MessageHeader.write m ++ ascii "\r\n" ++ rest) :
    ∃ b : HTTPHeaderStreamBuf, Reads ({ _session := s } : HTTPHeaderStreamBuf)
        (first ++ ascii "\r\n" ++ MessageHeader.write m ++ ascii "\r\n") b ∧ b._session.incoming = rest := by
  rw [← linesText_header] at hs ⊢
  obtain ⟨b, hreads, -, hin⟩ := HTTPHeaderStreamBuf.reads_header h (by decide) (by decide) hs
  exact ⟨b, hreads, hin⟩

theorem sputbackc_sbumpc (c : UInt8) (b : HTTPHeaderStreamBuf) :
    Source.sbumpc (Source.sputbackc c b) = (some c, b) := rfl

/-- Texts that are not empty are at least as long as there are many. -/
theorem length_le_flatMap {α β : Type} {f : α → List β} (hf : ∀ a, f a ≠ []) (l : List α) :
    l.length ≤ (l.flatMap f).length := by
  induction l with
  | nil => exact Nat.zero_le _
  | cons a l ih =>
      have hpos := List.length_pos_iff.mpr (hf a)
      rw [List.flatMap_cons, List.length_append, List.length_cons]
      omega

/-- There is enough fuel for the fields of a header that has arrived. -/
theorem length_lt_incoming {first rest : List UInt8} {m : List Field} {s : HTTPSession}
    (hs : s.incoming = first ++ ascii "\r\n" ++ MessageHeader.write m ++ ascii "\r\n" ++ rest) :
    m.length < s.incoming.length := by
  have hle := length_le_flatMap (f := fun f : Field => f.name ++ ascii ": " ++ f.value ++ ascii "\r\n")
    (by simp [ascii]) m
  have hend : (ascii "\r\n").length = 2 := rfl
  rw [hs]
  simp only [List.length_append, MessageHeader.write]
  omega

/-! ### Requests -/

/-- `HTTPClientSession::sendRequestImpl`. -/
def HTTPClientSession.sendRequestImpl (request : HTTPRequest) (session : HTTPSession) : Except HTTPError BodyOutput :=
  if request.getChunkedTransferEncoding then .ok (.openChunked request.write session)
  else if request.hasContentLength then do
    let length ← request.getContentLength64
    return .openFixedLength request.write length session
  else .ok (.openFixedLength request.write 0 session)

/-- A request, what a program writes to its stream, and the end of the stream. -/
def HTTPClientSession.sendRequest (request : HTTPRequest) (ops : List Op) (session : HTTPSession) :
    Except HTTPError HTTPSession := do
  let out ← sendRequestImpl request session
  return out.send ops

namespace HTTPServerRequestImpl

/-- The stream of the body. -/
def openStream (request : HTTPRequest) (session : HTTPSession) : Except HTTPError BodyInput :=
  if request.getChunkedTransferEncoding then .ok (.openChunked session)
  else if request.hasContentLength then do
    let length ← request.getContentLength64
    return .openFixedLength length session
  else .ok (.openFixedLength 0 session)

/-- The constructor: the request and the stream of its body. -/
def receive (decodeRFC2047 : List UInt8 → List UInt8) (autoDecode : Bool) (session : HTTPSession) :
    Except HTTPError (HTTPRequest × BodyInput) := do
  let request : HTTPRequest := { _autoDecode := autoDecode }
  let hs : HTTPHeaderStreamBuf := { _session := session }
  match HTTPRequest.read decodeRFC2047 request session.incoming.length hs with
  | .ok request hs =>
      let body ← openStream request hs._session
      return (request, body)
  | .error e _ => .error e

end HTTPServerRequestImpl

namespace HTTPRequest

/-- The first line without its end. -/
def firstLine (r : HTTPRequest) : List UInt8 := r._method ++ ascii " " ++ r._uri ++ ascii " " ++ r._version

/-- The body that goes with a request when a program writes these bytes. -/
def body (r : HTTPRequest) (bytes : List UInt8) : List UInt8 :=
  if r.getChunkedTransferEncoding then bytes
  else if r.hasContentLength then
    match r.getContentLength64 with
    | .ok length => bytes.take length.toNat
    | .error _ => []
  else []

/-- The request as a server has it. -/
def received (autoDecode : Bool) (r : HTTPRequest) : HTTPRequest :=
  { _autoDecode := autoDecode, _map := r._map, _version := r._version, _method := r._method, _uri := r._uri }

/-- A request that can be read, with enough bytes for its content length.  The length of the stream, which
includes the header, is an `Int64`. -/
structure Sendable (autoDecode : Bool) (r : HTTPRequest) (bytes : List UInt8) : Prop where
  fits : r.Fits
  fields : FieldsFit { _autoDecode := autoDecode } r._map
  lines : Passes r.firstLine r._map
  length : r.getChunkedTransferEncoding = false → r.hasContentLength = true → ∃ n, r.getContentLength64 = .ok n ∧
    0 ≤ n ∧ n.toNat ≤ bytes.length ∧ n + r.write.length < 2 ^ 63

variable {decodeRFC2047 : List UInt8 → List UInt8} {autoDecode : Bool} {r : HTTPRequest} {ops : List Op}

theorem Sendable.carries (decodeRFC2047 : List UInt8 → List UInt8) (h : Sendable autoDecode r (written ops)) :
    ∃ send input, (∀ session, HTTPClientSession.sendRequest r ops session = .ok (send session)) ∧
      (∀ s, HTTPServerRequestImpl.openStream (received autoDecode r) s = .ok (input s)) ∧
      CarriesBody decodeRFC2047 False r.write (r.body (written ops)) send input := by
  have hchunked : (received autoDecode r).getChunkedTransferEncoding = r.getChunkedTransferEncoding := rfl
  have hlength : (received autoDecode r).hasContentLength = r.hasContentLength := rfl
  have hparsed : (received autoDecode r).getContentLength64 = r.getContentLength64 := rfl
  unfold HTTPClientSession.sendRequest HTTPClientSession.sendRequestImpl HTTPServerRequestImpl.openStream body
  rw [hchunked, hlength, hparsed]
  cases hc : r.getChunkedTransferEncoding with
  | true => exact ⟨_, _, fun _ => rfl, fun _ => rfl, carries_chunked r.write ops⟩
  | false =>
      cases hl : r.hasContentLength with
      | true =>
          obtain ⟨n, hn, hnonneg, henough, -⟩ := h.length hc hl
          rw [hn]
          exact ⟨_, _, fun _ => rfl, fun _ => rfl, carries_fixedLength r.write hnonneg henough⟩
      | false => exact ⟨_, _, fun _ => rfl, fun _ => rfl, carries_fixedLength r.write le_rfl (Nat.zero_le _)⟩

end HTTPRequest

/-- Requests that a client sends on one connection. -/
def sendAll : List (HTTPRequest × List Op) → HTTPSession → Except HTTPError HTTPSession
  | [], session => .ok session
  | (request, ops) :: sends, session => do
      let session ← HTTPClientSession.sendRequest request ops session
      sendAll sends session

/-- A server that reads the bodies of the requests in blocks of these sizes. -/
def serve (decodeRFC2047 : List UInt8 → List UInt8) (autoDecode : Bool) :
    List (List ℕ) → HTTPSession → Except HTTPError (List (HTTPRequest × List (List UInt8)) × HTTPSession)
  | [], session => .ok ([], session)
  | sizes :: more, session => do
      let (request, body) ← HTTPServerRequestImpl.receive decodeRFC2047 autoDecode session
      match body.read decodeRFC2047 sizes with
      | .ok (bytes, session) =>
          let (requests, session) ← serve decodeRFC2047 autoDecode more session
          return ((request, bytes) :: requests, session)
      | .error e => .error (.message e)

section Requests

variable {decodeRFC2047 : List UInt8 → List UInt8} {autoDecode : Bool}

theorem receive_eq (decodeRFC2047 : List UInt8 → List UInt8) {r : HTTPRequest} {bytes rest : List UInt8}
    (h : r.Sendable autoDecode bytes) {s : HTTPSession} (hs : s.incoming = r.write ++ rest) :
    ∃ s', s'.incoming = rest ∧ HTTPServerRequestImpl.receive decodeRFC2047 autoDecode s =
      (HTTPServerRequestImpl.openStream (r.received autoDecode) s').map fun body => (r.received autoDecode, body) := by
  have hwrite : r.write = r.firstLine ++ ascii "\r\n" ++ MessageHeader.write r._map ++ ascii "\r\n" := rfl
  have hfuel : r._map.length < s.incoming.length := length_lt_incoming (hwrite ▸ hs)
  obtain ⟨b, hreads, hin⟩ := h.lines.reads (hwrite ▸ hs)
  have hread : HTTPRequest.read decodeRFC2047 { _autoDecode := autoDecode } s.incoming.length
      ({ _session := s } : HTTPHeaderStreamBuf) = .ok (r.received autoDecode) b :=
    HTTPRequest.read_write rfl h.fits h.fields hfuel (sputbackc_sbumpc _) hreads
  refine ⟨b._session, hin, ?_⟩
  simp only [HTTPServerRequestImpl.receive, hread]
  rfl

/-- **Main result.** Requests that a client sends one after another on a connection are received one after
another, for any pieces in which the bytes arrive and any sizes in which the bodies are read to their ends. -/
theorem serves_sent (decodeRFC2047 : List UInt8 → List UInt8) {sends : List ((HTTPRequest × List Op) × List ℕ)}
    (h : ∀ x ∈ sends, x.1.1.Sendable autoDecode (written x.1.2) ∧ (x.1.1.body (written x.1.2)).length < x.2.sum)
    (session : HTTPSession) :
    ∃ text, sendAll (sends.map Prod.fst) session = .ok (session.write text) ∧
      ∀ (s : HTTPSession) (rest : List UInt8), s.incoming = text ++ rest →
        ∃ s', serve decodeRFC2047 autoDecode (sends.map Prod.snd) s =
            .ok (sends.map fun x => (x.1.1.received autoDecode, slices x.2 (x.1.1.body (written x.1.2))), s') ∧
          s'.incoming = rest := by
  induction sends generalizing session with
  | nil => exact ⟨[], by simp [sendAll, HTTPSession.write], fun s rest hs => ⟨s, rfl, hs⟩⟩
  | cons x sends ih =>
      obtain ⟨⟨r, ops⟩, sizes⟩ := x
      obtain ⟨⟨hsendable, hsizes⟩, hrest⟩ := List.forall_mem_cons.mp h
      obtain ⟨send, input, hsend, hinput, hcarries⟩ := hsendable.carries decodeRFC2047
      obtain ⟨bytes, hsent, hreceived⟩ := hcarries session
      obtain ⟨text, hsendAll, hserve⟩ := ih hrest (send session)
      refine ⟨r.write ++ bytes ++ text, ?_, ?_⟩
      · rw [List.map_cons, sendAll, hsend]
        show sendAll (sends.map Prod.fst) (send session) = _
        rw [hsendAll, hsent]
        simp [HTTPSession.write]
      · intro s rest hs
        rw [List.append_assoc, List.append_assoc] at hs
        obtain ⟨s₁, hin₁, hreceive⟩ := receive_eq decodeRFC2047 hsendable hs
        obtain ⟨s₂, hread, hin₂⟩ := hreceived s₁ (text ++ rest) hin₁ False.elim sizes hsizes
        obtain ⟨s', hmore, hin'⟩ := hserve s₂ rest hin₂
        refine ⟨s', ?_, hin'⟩
        rw [hinput] at hreceive
        simp only [List.map_cons, serve, hreceive, Except.map, bind, Except.bind, hread, hmore]
        rfl

/-- A chunked request and one with a content length; the body of the second is longer than that. -/
def twoRequests : List ((HTTPRequest × List Op) × List ℕ) :=
  [(({ _map := [⟨ascii "Transfer-Encoding", ascii "chunked"⟩], _version := ascii "HTTP/1.1", _method := ascii "POST" },
      [.write [0xFF, 1]]), [1, 2]),
    (({ _map := [⟨ascii "Content-Length", ascii "3"⟩], _version := ascii "HTTP/1.1", _method := ascii "PUT" },
      [.write [2, 3], .flush, .write [4, 5]]), [4])]

theorem serves_sent_two :
    ∃ text, sendAll (twoRequests.map Prod.fst) {} = .ok (HTTPSession.write {} text) ∧
      ∀ (s : HTTPSession) (rest : List UInt8), s.incoming = text ++ rest →
        ∃ s', serve id true (twoRequests.map Prod.snd) s =
            .ok (twoRequests.map fun x => (x.1.1.received true, slices x.2 (x.1.1.body (written x.1.2))), s') ∧
          s'.incoming = rest := by
  refine serves_sent id (List.forall_mem_cons.mpr ⟨⟨⟨⟨by decide +kernel, by decide +kernel, by decide +kernel⟩,
    ⟨by decide, NameValueCollection.grouped_singleton _, by decide⟩, by decide, ?_⟩, by decide⟩,
    List.forall_mem_singleton.mpr ⟨⟨⟨by decide +kernel, by decide +kernel, by decide +kernel⟩,
    ⟨by decide, NameValueCollection.grouped_singleton _, by decide⟩, by decide, ?_⟩, by decide +kernel⟩⟩) {}
  · intro hchunked
    exact absurd hchunked (by decide)
  · exact fun _ _ => ⟨3, by decide +kernel, by decide, by decide, by decide⟩

end Requests

/-! ### Responses -/

/-- A status without a body. -/
def HTTPResponse.hasNoBody (r : HTTPResponse) : Bool := r._status < 200 || r._status == 204 || r._status == 304

namespace HTTPServerResponseImpl

/-- `sendContinue`. -/
def sendContinue (version : List UInt8) (session : HTTPSession) : HTTPSession :=
  HTTPHeaderStreamBuf.send (version ++ ascii " 100 Continue\r\n\r\n") session

/-- `send`, for a request with this method, if there is one: the response as it is sent, and its stream. -/
def send (method : Option (List UInt8)) (response : HTTPResponse) (session : HTTPSession) :
    Except HTTPError (HTTPResponse × BodyOutput) :=
  if method = some (ascii "HEAD") ∨ response.hasNoBody then
    .ok (response, .openFixedLength response.write 0 session)
  else if response.getChunkedTransferEncoding then .ok (response, .openChunked response.write session)
  else if response.hasContentLength then do
    let length ← response.getContentLength64
    return (response, .openFixedLength response.write length session)
  else
    let response := { response with toHTTPMessage := response.setKeepAlive false }
    .ok (response, .openPlain response.write session)

/-- Some `100 Continue` responses, a response, what a handler writes to its stream, and the end of the
stream. -/
def respond (continues : List (List UInt8)) (method : Option (List UInt8)) (response : HTTPResponse) (ops : List Op)
    (session : HTTPSession) : Except HTTPError HTTPSession := do
  let session := continues.foldl (fun session version => sendContinue version session) session
  let (_, out) ← send method response session
  return out.send ops

end HTTPServerResponseImpl

namespace HTTPClientSession

/-- The loop of `receiveResponse` over the `100 Continue` responses. -/
def readResponse (decodeRFC2047 : List UInt8 → List UInt8) (response : HTTPResponse) :
    ℕ → HTTPSession → Except HTTPError (HTTPResponse × HTTPSession)
  | 0, _ => .error (.message .outOfFuel)
  | fuel + 1, session =>
      let his : HTTPHeaderStreamBuf := { _session := session }
      match HTTPResponse.read decodeRFC2047 { response with _map := [] } session.incoming.length his with
      | .ok response his =>
          if response._status = 100 then readResponse decodeRFC2047 response fuel his._session
          else .ok (response, his._session)
      | .error e _ => .error e

/-- The stream of the body. -/
def openStream (expectResponseBody : Bool) (response : HTTPResponse) (session : HTTPSession) :
    Except HTTPError BodyInput :=
  if expectResponseBody = false ∨ response.hasNoBody then .ok (.openFixedLength 0 session)
  else if response.getChunkedTransferEncoding then .ok (.openChunked session)
  else if response.hasContentLength then do
    let length ← response.getContentLength64
    return .openFixedLength length session
  else .ok (.openPlain session)

/-- `receiveResponse`, behind a request with this method: the response and the stream of its body. -/
def receiveResponse (decodeRFC2047 : List UInt8 → List UInt8) (method : List UInt8) (response : HTTPResponse)
    (session : HTTPSession) : Except HTTPError (HTTPResponse × BodyInput) := do
  let expectResponseBody := method != ascii "HEAD"
  let (response, session) ← readResponse decodeRFC2047 response (session.incoming.length + 1) session
  let body ← openStream expectResponseBody response session
  return (response, body)

end HTTPClientSession

namespace HTTPResponse

/-- The first line without its end. -/
def firstLine (r : HTTPResponse) : List UInt8 :=
  r._version ++ ascii " " ++ decimal r._status ++ ascii " " ++ r._reason

/-- The response ends with the connection. -/
def closes (method : List UInt8) (r : HTTPResponse) : Bool :=
  !(method == ascii "HEAD" || r.hasNoBody || r.getChunkedTransferEncoding || r.hasContentLength)

/-- The response as it is sent. -/
def sent (method : List UInt8) (r : HTTPResponse) : HTTPResponse :=
  if r.closes method then { r with toHTTPMessage := r.setKeepAlive false } else r

/-- The body that goes with a response when a program writes these bytes. -/
def body (method : List UInt8) (r : HTTPResponse) (bytes : List UInt8) : List UInt8 :=
  if method = ascii "HEAD" ∨ r.hasNoBody then []
  else if r.getChunkedTransferEncoding then bytes
  else if r.hasContentLength then
    match r.getContentLength64 with
    | .ok length => bytes.take length.toNat
    | .error _ => []
  else bytes

/-- The response as a client has it that reads it into `response`. -/
def received (response r : HTTPResponse) : HTTPResponse :=
  { toMessageHeader := { response.toMessageHeader with _map := r._map }
    _version := r._version, _status := r._status, _reason := r._reason }

/-- A response that can be read, with enough bytes for its content length. -/
structure Sendable (response : HTTPResponse) (method : List UInt8) (r : HTTPResponse) (bytes : List UInt8) : Prop where
  fits : r.Fits
  final : r._status ≠ 100
  fields : FieldsFit response.toMessageHeader (r.sent method)._map
  lines : Passes r.firstLine (r.sent method)._map
  length : ¬(method = ascii "HEAD" ∨ r.hasNoBody) → r.getChunkedTransferEncoding = false → r.hasContentLength = true →
    ∃ n, r.getContentLength64 = .ok n ∧ 0 ≤ n ∧ n.toNat ≤ bytes.length ∧ n + r.write.length < 2 ^ 63

/-- The response that `sendContinue` sends. -/
def ofContinue (version : List UInt8) : HTTPResponse :=
  { _version := version, _status := 100, _reason := ascii "Continue" }

end HTTPResponse

/-- What is answered to a request: its method, the versions of the `100 Continue` responses, the response, what a
handler writes to its stream, and the sizes in which the client reads the body. -/
structure Exchange where
  method : List UInt8
  continues : List (List UInt8)
  response : HTTPResponse
  ops : List Op
  sizes : List ℕ

namespace Exchange

/-- The body of the response. -/
def content (x : Exchange) : List UInt8 := x.response.body x.method (written x.ops)

/-- An exchange whose responses can be read, with their body read to its end. -/
structure Valid (response : HTTPResponse) (x : Exchange) : Prop where
  continues : ∀ version ∈ x.continues, IsWord HTTPResponse.MAX_VERSION_LENGTH version ∧
    Passes (version ++ ascii " 100 Continue") []
  sendable : HTTPResponse.Sendable response x.method x.response (written x.ops)
  sizes : x.content.length < x.sizes.sum

end Exchange

/-- A server that answers one request after another. -/
def respondAll : List Exchange → HTTPSession → Except HTTPError HTTPSession
  | [], session => .ok session
  | x :: xs, session => do
      let session ← HTTPServerResponseImpl.respond x.continues (some x.method) x.response x.ops session
      respondAll xs session

/-- A client that reads the responses to these requests. -/
def receiveAll (decodeRFC2047 : List UInt8 → List UInt8) (response : HTTPResponse) :
    List Exchange → HTTPSession → Except HTTPError (List (HTTPResponse × List (List UInt8)) × HTTPSession)
  | [], session => .ok ([], session)
  | x :: xs, session => do
      let (r, body) ← HTTPClientSession.receiveResponse decodeRFC2047 x.method response session
      match body.read decodeRFC2047 x.sizes with
      | .ok (bytes, session) =>
          let (responses, session) ← receiveAll decodeRFC2047 response xs session
          return ((r, bytes) :: responses, session)
      | .error e => .error (.message e)

section Responses

variable {decodeRFC2047 : List UInt8 → List UInt8} {response r : HTTPResponse} {method : List UInt8} {ops : List Op}
  {rest : List UInt8} {s : HTTPSession}

theorem NameValueCollection.find_set {name name' value : List UInt8} (h : iequal name name' = false) (m : List Field) :
    find (set m name value) name' = find m name' := by
  have hother {f : List UInt8} (hf : iequal f name = true) : iequal f name' = false := by
    rw [← Bool.not_eq_true]
    intro hf'
    rw [iequal_comm] at hf
    rw [iequal_trans hf hf'] at h
    cases h
  induction m with
  | nil => simp [set, find, h]
  | cons f m ih =>
      rw [set]
      simp only [find] at ih ⊢
      split_ifs with hf
      · simp only [List.find?_cons, hother hf]
      · simp only [List.find?_cons, ih]

theorem HTTPMessage.getOr_setKeepAlive {m : HTTPMessage} {name : List UInt8} (keepAlive : Bool)
    (h : iequal (ascii "Connection") name = false) (defaultValue : List UInt8) :
    (m.setKeepAlive keepAlive).getOr name defaultValue = m.getOr name defaultValue := by
  simp only [getOr, setKeepAlive, setField, NameValueCollection.find_set h]

/-- The fields that decide about the body are those of the response. -/
theorem HTTPResponse.sent_fields (method : List UInt8) (r : HTTPResponse) :
    (r.sent method).getChunkedTransferEncoding = r.getChunkedTransferEncoding ∧
      (r.sent method).hasContentLength = r.hasContentLength ∧
      (r.sent method).getContentLength64 = r.getContentLength64 ∧ (r.sent method).hasNoBody = r.hasNoBody := by
  unfold sent
  split_ifs
  · refine ⟨?_, ?_, ?_, rfl⟩
    · rw [HTTPMessage.getChunkedTransferEncoding, HTTPMessage.getTransferEncoding,
        HTTPMessage.getOr_setKeepAlive false (by decide)]
      rfl
    · simp only [HTTPMessage.hasContentLength, NameValueCollection.has, HTTPMessage.setKeepAlive, HTTPMessage.setField]
      rw [NameValueCollection.find_set (by decide)]
    · rw [HTTPMessage.getContentLength64, HTTPMessage.getOr_setKeepAlive false (by decide)]
      rfl
  · exact ⟨rfl, rfl, rfl, rfl⟩

theorem HTTPResponse.Sendable.carries (decodeRFC2047 : List UInt8 → List UInt8)
    (h : Sendable response method r (written ops)) :
    ∃ send input, (∀ session, (HTTPServerResponseImpl.send (some method) r session).map (fun x => x.2.send ops) =
        .ok (send session)) ∧
      (∀ s, HTTPClientSession.openStream (method != ascii "HEAD") (received response (r.sent method)) s =
        .ok (input s)) ∧
      CarriesBody decodeRFC2047 (r.closes method = true) (r.sent method).write (r.body method (written ops)) send
        input := by
  obtain ⟨hchunked, hlength, hparsed, hnoBody⟩ := r.sent_fields method
  unfold HTTPServerResponseImpl.send HTTPClientSession.openStream body
  have hreceived : (received response (r.sent method)).hasNoBody = r.hasNoBody := hnoBody
  have hchunked' : (received response (r.sent method)).getChunkedTransferEncoding = r.getChunkedTransferEncoding :=
    hchunked
  have hlength' : (received response (r.sent method)).hasContentLength = r.hasContentLength := hlength
  have hparsed' : (received response (r.sent method)).getContentLength64 = r.getContentLength64 := hparsed
  rw [hreceived, hchunked', hlength', hparsed']
  have hsent (hopen : r.closes method = false) : r.sent method = r := by rw [sent, if_neg (by simp [hopen])]
  by_cases hnone : method = ascii "HEAD" ∨ r.hasNoBody = true
  · have hexpect : (method != ascii "HEAD") = false ∨ r.hasNoBody = true := by simpa using hnone
    have hopen : r.closes method = false := by
      rw [closes]
      rcases hnone with hhead | hbody
      · simp [hhead]
      · simp [hbody]
    simp only [Option.some.injEq, if_pos hexpect, if_pos hnone, hsent hopen]
    exact ⟨_, _, fun _ => rfl, fun _ => rfl, (carries_fixedLength r.write le_rfl (Nat.zero_le _)).mono False.elim⟩
  · have hexpect : ¬((method != ascii "HEAD") = false ∨ r.hasNoBody = true) := by simpa using hnone
    simp only [Option.some.injEq, if_neg hexpect, if_neg hnone]
    have hcloses : r.closes method = !(r.getChunkedTransferEncoding || r.hasContentLength) := by
      rw [not_or, Bool.not_eq_true] at hnone
      have hmethod : (method == ascii "HEAD") = false := beq_eq_false_iff_ne.mpr hnone.1
      simp [closes, hmethod, hnone.2]
    cases hc : r.getChunkedTransferEncoding with
    | true =>
        rw [hsent (by simp [hcloses, hc])]
        exact ⟨_, _, fun _ => rfl, fun _ => rfl, (carries_chunked r.write ops).mono False.elim⟩
    | false =>
        cases hl : r.hasContentLength with
        | true =>
            obtain ⟨n, hn, hnonneg, henough, -⟩ := h.length hnone hc hl
            rw [hsent (by simp [hcloses, hl]), hn]
            exact ⟨_, _, fun _ => rfl, fun _ => rfl, (carries_fixedLength r.write hnonneg henough).mono False.elim⟩
        | false =>
            have htrue : r.closes method = true := by simp [hcloses, hc, hl]
            have hclosed : r.sent method = { r with toHTTPMessage := r.setKeepAlive false } := if_pos htrue
            refine ⟨fun session => BodyOutput.send ops (.openPlain (r.sent method).write session), BodyInput.openPlain,
              fun session => ?_, fun _ => rfl, (carries_plain _ ops).mono fun _ => htrue⟩
            rw [hclosed]
            rfl

theorem decimal_continue : decimal 100 = ascii "100" := by
  have hplaces : Foundation.NumericString.places 10 100 = [0, 0, 1] := by
    rw [Foundation.NumericString.places, if_neg (by decide)]
    norm_num
  have habs : (100 : ℤ).natAbs = 100 := rfl
  rw [decimal_of_nonneg (by decide), habs, hplaces]
  decide

/-- What `sendContinue` sends is a response without fields. -/
theorem HTTPResponse.write_ofContinue (version : List UInt8) :
    (ofContinue version).write = version ++ ascii " 100 Continue\r\n\r\n" := by
  rw [write, startLine, ofContinue, decimal_continue]
  simp [MessageHeader.write, ascii]

theorem read_response (decodeRFC2047 : List UInt8 → List UInt8) (hfits : r.Fits)
    (hfields : FieldsFit response.toMessageHeader r._map) (hlines : Passes r.firstLine r._map)
    (hs : s.incoming = r.write ++ rest) :
    ∃ b : HTTPHeaderStreamBuf, HTTPResponse.read decodeRFC2047 { response with _map := [] } s.incoming.length
        ({ _session := s } : HTTPHeaderStreamBuf) = .ok (response.received r) b ∧ b._session.incoming = rest := by
  have hwrite : r.write = r.firstLine ++ ascii "\r\n" ++ MessageHeader.write r._map ++ ascii "\r\n" := rfl
  have hfuel : r._map.length < s.incoming.length := length_lt_incoming (hwrite ▸ hs)
  obtain ⟨b, hreads, hin⟩ := hlines.reads (hwrite ▸ hs)
  exact ⟨b, HTTPResponse.read_write rfl hfits (hfields.withMap []) hfuel (sputbackc_sbumpc _) hreads, hin⟩

theorem readResponse_eq (decodeRFC2047 : List UInt8 → List UInt8) {continues : List (List UInt8)} {fuel : ℕ}
    (hcontinues : ∀ version ∈ continues, IsWord HTTPResponse.MAX_VERSION_LENGTH version ∧
      Passes (version ++ ascii " 100 Continue") [])
    (hfits : r.Fits) (hfinal : r._status ≠ 100) (hfields : FieldsFit response.toMessageHeader r._map)
    (hlines : Passes r.firstLine r._map)
    (hs : s.incoming = continues.flatMap (fun version => (HTTPResponse.ofContinue version).write) ++ r.write ++ rest)
    (hfuel : continues.length < fuel) :
    ∃ s', HTTPClientSession.readResponse decodeRFC2047 response fuel s = .ok (response.received r, s') ∧
      s'.incoming = rest := by
  induction continues generalizing fuel response s with
  | nil =>
      obtain ⟨n, rfl⟩ : ∃ n, fuel = n + 1 := ⟨fuel - 1, by simp at hfuel; omega⟩
      obtain ⟨b, hread, hin⟩ := read_response decodeRFC2047 hfits hfields hlines hs
      refine ⟨b._session, ?_, hin⟩
      simp only [HTTPClientSession.readResponse, hread]
      exact if_neg hfinal
  | cons version continues ih =>
      rw [List.length_cons] at hfuel
      obtain ⟨n, rfl⟩ : ∃ n, fuel = n + 1 := ⟨fuel - 1, by omega⟩
      obtain ⟨⟨hword, hpasses⟩, hmore⟩ := List.forall_mem_cons.mp hcontinues
      rw [List.flatMap_cons, List.append_assoc, List.append_assoc, ← List.append_assoc (continues.flatMap _)] at hs
      have hfits₁ : (HTTPResponse.ofContinue version).Fits :=
        ⟨hword, show (0 : ℤ) ≤ 100 by decide, show (100 : ℤ) < 1000 by decide,
          List.all_eq_true.mp (by decide : (ascii "Continue").all MessageHeader.isValueByte = true),
          fun c hc => Option.some.inj (hc : some 'C'.toUInt8 = some c) ▸ by decide,
          show (ascii "Continue").length ≤ HTTPResponse.MAX_REASON_LENGTH by decide⟩
      have hfields₁ : FieldsFit response.toMessageHeader (HTTPResponse.ofContinue version)._map :=
        ⟨by simp [HTTPResponse.ofContinue], NameValueCollection.grouped_nil, fun _ => Nat.zero_le _⟩
      have hlines₁ : Passes (HTTPResponse.ofContinue version).firstLine (HTTPResponse.ofContinue version)._map := by
        have hfirst : (HTTPResponse.ofContinue version).firstLine = version ++ ascii " 100 Continue" := by
          rw [HTTPResponse.firstLine, HTTPResponse.ofContinue, decimal_continue]
          simp [ascii]
        rw [hfirst]
        exact hpasses
      obtain ⟨b, hread, hin⟩ := read_response decodeRFC2047 hfits₁ hfields₁ hlines₁ hs
      have hfields₂ : FieldsFit (response.received (HTTPResponse.ofContinue version)).toMessageHeader r._map :=
        hfields.withMap _
      obtain ⟨s', hloop, hin'⟩ := ih hmore hfields₂ hin (by omega : continues.length < n)
      refine ⟨s', ?_, hin'⟩
      simp only [HTTPClientSession.readResponse, hread]
      exact (if_pos rfl).trans hloop

/-- The response to a request is received with the stream of its body. -/
theorem receiveResponse_eq (decodeRFC2047 : List UInt8 → List UInt8) {x : Exchange} (h : x.Valid response)
    (hs : s.incoming = x.continues.flatMap (fun version => (HTTPResponse.ofContinue version).write) ++
      (x.response.sent x.method).write ++ rest) :
    ∃ s', s'.incoming = rest ∧ HTTPClientSession.receiveResponse decodeRFC2047 x.method response s =
      (HTTPClientSession.openStream (x.method != ascii "HEAD") (response.received (x.response.sent x.method)) s').map
        fun body => (response.received (x.response.sent x.method), body) := by
  obtain ⟨hfits, hfinal, hfields, hlines, -⟩ := h.sendable
  have hstart : (x.response.sent x.method)._version = x.response._version ∧
      (x.response.sent x.method)._status = x.response._status ∧
      (x.response.sent x.method)._reason = x.response._reason := by
    unfold HTTPResponse.sent
    split_ifs <;> exact ⟨rfl, rfl, rfl⟩
  have hfirst : (x.response.sent x.method).firstLine = x.response.firstLine := by
    rw [HTTPResponse.firstLine, hstart.1, hstart.2.1, hstart.2.2, HTTPResponse.firstLine]
  have hfits' : (x.response.sent x.method).Fits := by
    constructor
    · rw [hstart.1]
      exact hfits.version
    · rw [hstart.2.1]
      exact hfits.status_nonneg
    · rw [hstart.2.1]
      exact hfits.status_lt
    · rw [hstart.2.2]
      exact hfits.reason_bytes
    · rw [hstart.2.2]
      exact hfits.reason_start
    · rw [hstart.2.2]
      exact hfits.reason_length
  have hfuel : x.continues.length < s.incoming.length + 1 := by
    have hcount := length_le_flatMap (f := fun version => (HTTPResponse.ofContinue version).write)
      (fun version => by simp [HTTPResponse.write, HTTPResponse.startLine, ascii]) x.continues
    rw [hs, List.length_append, List.length_append]
    omega
  obtain ⟨s', hread, hin⟩ := readResponse_eq decodeRFC2047 h.continues hfits'
    (hstart.2.1 ▸ hfinal) hfields (hfirst ▸ hlines) hs hfuel
  refine ⟨s', hin, ?_⟩
  simp only [HTTPClientSession.receiveResponse, hread]
  rfl

theorem respond_eq {x : Exchange} {send : HTTPSession → HTTPSession}
    (hsend : ∀ session, (HTTPServerResponseImpl.send (some x.method) x.response session).map
      (fun out => out.2.send x.ops) = .ok (send session)) (session : HTTPSession) :
    HTTPServerResponseImpl.respond x.continues (some x.method) x.response x.ops session =
      .ok (send (session.write (x.continues.flatMap fun version => (HTTPResponse.ofContinue version).write))) := by
  have hcontinues : x.continues.foldl (fun session version => HTTPServerResponseImpl.sendContinue version session)
      session = session.write (x.continues.flatMap fun version => (HTTPResponse.ofContinue version).write) := by
    induction x.continues generalizing session with
    | nil => simp [HTTPSession.write]
    | cons version continues ih =>
        rw [List.foldl_cons, ih, HTTPServerResponseImpl.sendContinue, HTTPHeaderStreamBuf.send_eq, List.flatMap_cons,
          HTTPResponse.write_ofContinue]
        simp [HTTPSession.write]
  rw [HTTPServerResponseImpl.respond, hcontinues, ← hsend]
  rfl

/-- **Main result.** The responses that a server sends one after another on a connection are received one after
another, without the `100 Continue` responses in front of them, each with the body that belongs to its status,
its fields and the method of the request.  A response that ends with the connection is the last. -/
theorem receives_responses (decodeRFC2047 : List UInt8 → List UInt8) {xs : List Exchange}
    (h : ∀ x ∈ xs, x.Valid response) (hopen : ∀ x ∈ xs.dropLast, x.response.closes x.method = false)
    (session : HTTPSession) :
    ∃ text, respondAll xs session = .ok (session.write text) ∧
      ∀ (s : HTTPSession) (rest : List UInt8), s.incoming = text ++ rest →
        ((∃ x ∈ xs, x.response.closes x.method = true) → rest = []) →
        ∃ s', receiveAll decodeRFC2047 response xs s =
            .ok (xs.map fun x => (response.received (x.response.sent x.method), slices x.sizes x.content), s') ∧
          s'.incoming = rest := by
  induction xs generalizing session with
  | nil => exact ⟨[], by simp [respondAll, HTTPSession.write], fun s rest hs _ => ⟨s, rfl, hs⟩⟩
  | cons x xs ih =>
      obtain ⟨hx, hxs⟩ := List.forall_mem_cons.mp h
      obtain ⟨send, input, hsend, hinput, hcarries⟩ := hx.sendable.carries decodeRFC2047
      obtain ⟨bytes, hsent, hreceived⟩ := hcarries
        (session.write (x.continues.flatMap fun version => (HTTPResponse.ofContinue version).write))
      have hmore : ∀ y ∈ xs.dropLast, y.response.closes y.method = false := by
        intro y hy
        cases xs with
        | nil => cases hy
        | cons z xs => exact hopen y (List.mem_cons_of_mem _ hy)
      obtain ⟨text, hrespond, hreceive⟩ := ih hxs hmore (send (session.write _))
      refine ⟨x.continues.flatMap (fun version => (HTTPResponse.ofContinue version).write) ++
        (x.response.sent x.method).write ++ bytes ++ text, ?_, ?_⟩
      · rw [respondAll, respond_eq hsend]
        show respondAll xs (send _) = _
        rw [hrespond, hsent]
        simp [HTTPSession.write]
      · intro s rest hs hclosing
        rw [List.append_assoc, List.append_assoc] at hs
        obtain ⟨s₁, hin₁, hresponse⟩ := receiveResponse_eq decodeRFC2047 hx hs
        have hlast : x.response.closes x.method = true → text ++ rest = [] := by
          intro hcloses
          have hnil : xs = [] := by
            cases xs with
            | nil => rfl
            | cons z xs =>
                rw [hopen x List.mem_cons_self] at hcloses
                cases hcloses
          subst hnil
          have htext : text = [] := by
            have hsame := congrArg HTTPSession._sent (Except.ok.inj hrespond)
            simpa [HTTPSession.write] using hsame
          rw [htext, hclosing ⟨x, List.mem_cons_self, hcloses⟩]
          rfl
        obtain ⟨s₂, hread, hin₂⟩ := hreceived s₁ (text ++ rest) hin₁ hlast x.sizes hx.sizes
        have hrest : (∃ y ∈ xs, y.response.closes y.method = true) → rest = [] := by
          rintro ⟨y, hy, hcloses⟩
          exact hclosing ⟨y, List.mem_cons_of_mem _ hy, hcloses⟩
        obtain ⟨s', hall, hin'⟩ := hreceive s₂ rest hin₂ hrest
        refine ⟨s', ?_, hin'⟩
        rw [hinput] at hresponse
        simp only [List.map_cons, receiveAll, hresponse, Except.map, bind, Except.bind, hread, hall]
        rfl

/-- A chunked response behind a `100 Continue`, one to a `HEAD` request, and one that ends with the connection. -/
def threeExchanges : List Exchange :=
  [⟨ascii "POST", [ascii "HTTP/1.1"], { _map := [⟨ascii "Transfer-Encoding", ascii "chunked"⟩] }, [.write [0xFF, 1]],
      [1, 2]⟩,
    ⟨ascii "HEAD", [], { _map := [⟨ascii "Content-Length", ascii "5"⟩] }, [.write [2]], [1]⟩,
    ⟨ascii "GET", [], {}, [.write [3], .flush, .write [4]], [3]⟩]

theorem receives_responses_three :
    ∃ text, respondAll threeExchanges {} = .ok (HTTPSession.write {} text) ∧
      ∀ (s : HTTPSession) (rest : List UInt8), s.incoming = text ++ rest →
        ((∃ x ∈ threeExchanges, x.response.closes x.method = true) → rest = []) →
        ∃ s', receiveAll id {} threeExchanges s = .ok (threeExchanges.map fun x =>
            ((({} : HTTPResponse).received (x.response.sent x.method)), slices x.sizes x.content), s') ∧
          s'.incoming = rest := by
  have hdecimal : decimal 200 = ascii "200" := by
    have hplaces : Foundation.NumericString.places 10 200 = [0, 0, 2] := by
      rw [Foundation.NumericString.places, if_neg (by decide)]
      norm_num
    have habs : (200 : ℤ).natAbs = 200 := rfl
    rw [decimal_of_nonneg (by decide), habs, hplaces]
    decide
  have hstart : ({} : HTTPResponse).Fits :=
    ⟨by decide +kernel, by decide, by decide, List.all_eq_true.mp (by decide),
      fun c hc => Option.some.inj (hc : some 'O'.toUInt8 = some c) ▸ by decide, by decide⟩
  have hfits (m : List Field) : ({ _map := m } : HTTPResponse).Fits :=
    ⟨hstart.version, hstart.status_nonneg, hstart.status_lt, hstart.reason_bytes, hstart.reason_start,
      hstart.reason_length⟩
  have hfirst : ({} : HTTPResponse).firstLine = ascii "HTTP/1.0 200 OK" := by
    rw [HTTPResponse.firstLine, hdecimal]
    decide
  refine receives_responses id ?_ (by decide) {}
  simp only [threeExchanges, List.forall_mem_cons]
  have hgrouped (f : Field) := NameValueCollection.grouped_singleton f
  refine ⟨⟨by decide +kernel, ⟨hfits _, by decide, ⟨by decide, hgrouped _, by decide⟩, ?_, ?_⟩, by decide⟩,
    ⟨by decide, ⟨hfits _, by decide, ⟨by decide, hgrouped _, by decide⟩, ?_, ?_⟩, by decide⟩,
    ⟨by decide, ⟨hfits _, by decide, ⟨by decide, hgrouped _, by decide⟩, ?_, ?_⟩, by decide⟩, by simp⟩
  · show Passes ({} : HTTPResponse).firstLine _
    rw [hfirst]
    decide
  · exact fun _ hchunked => absurd hchunked (by decide)
  · show Passes ({} : HTTPResponse).firstLine _
    rw [hfirst]
    decide
  · exact fun hbody => absurd (Or.inl rfl) hbody
  · show Passes ({} : HTTPResponse).firstLine _
    rw [hfirst]
    decide
  · exact fun _ _ hlength => absurd hlength (by decide)

end Responses

end Poco.Net
