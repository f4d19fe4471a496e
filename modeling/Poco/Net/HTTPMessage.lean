import Poco.Foundation.IntToStr
import Poco.Net.HTTPSession

/-! # `HTTPRequest` and `HTTPResponse`

A message is a start line and the fields of a `MessageHeader`.  `write` gives its text, up to the empty line,
and `read` takes it from a stream, with the limits and the exceptions of the source; what is behind it stays
in the stream.  A start line that `read` can take apart is described by `HTTPRequest.Fits` and
`HTTPResponse.Fits`.

The loops of `read` that have no limit of their own take fuel, as those of `MessageHeader` do. -/

namespace Poco.Net

open Poco.Lib

open Poco.Foundation.NumericString
  (digitChar dropWhile_sign isDigitOf isDigitOf_places length_places_le number number_places numeral places
    places_ne_nil strToInt strToIntRange_eq strip strip_digits)

/-- The exceptions of reading an HTTP message. -/
inductive HTTPError
  | noMessageException
  | message (e : MessageError)
  | syntaxException (text : String)
deriving DecidableEq, Repr

theorem NumberParser.bits_int : 32 = 8 ∨ 32 = 16 ∨ 32 = 32 ∨ 32 = 64 := by decide

theorem NumberParser.bits_int64 : 64 = 8 ∨ 64 = 16 ∨ 64 = 32 ∨ 64 = 64 := by decide

/-- `int`, and `Int64`. -/
def NumberParser.parse (s : List UInt8) : Option ℤ := strToInt ⟨32, true, bits_int⟩ s 10 (chr ',')

def NumberParser.parse64 (s : List UInt8) : Option ℤ := strToInt ⟨64, true, bits_int64⟩ s 10 (chr ',')

/-- An `int` as an output stream writes it. -/
def decimal (n : ℤ) : List UInt8 :=
  (if n < 0 then [chr '-'] else []) ++ numeral 10 n.natAbs 0 false

/-! ### `HTTPMessage` -/

/-- `NameValueCollection::set`: the first field with the name gets the value. -/
def NameValueCollection.set (m : List Field) (name value : List UInt8) : List Field :=
  match m with
  | [] => [⟨name, value⟩]
  | f :: m => if iequal f.name name then ⟨f.name, value⟩ :: m else f :: set m name value

/-- The members of `HTTPMessage`. -/
structure HTTPMessage extends MessageHeader where
  _version : List UInt8 := ascii "HTTP/1.0"

namespace HTTPMessage

/-- `get` with a default. -/
def getOr (m : HTTPMessage) (name defaultValue : List UInt8) : List UInt8 :=
  match NameValueCollection.find m._map name with
  | some f => f.value
  | none => defaultValue

/-- `set`. -/
def setField (m : HTTPMessage) (name value : List UInt8) : HTTPMessage :=
  { m with _map := NameValueCollection.set m._map name value }

/-- `setKeepAlive`. -/
def setKeepAlive (m : HTTPMessage) (keepAlive : Bool) : HTTPMessage :=
  m.setField (ascii "Connection") (ascii (if keepAlive then "Keep-Alive" else "Close"))

/-- `getTransferEncoding`. -/
def getTransferEncoding (m : HTTPMessage) : List UInt8 := m.getOr (ascii "Transfer-Encoding") (ascii "identity")

/-- `getChunkedTransferEncoding`. -/
def getChunkedTransferEncoding (m : HTTPMessage) : Bool := iequal m.getTransferEncoding (ascii "chunked")

/-- `hasContentLength`. -/
def hasContentLength (m : HTTPMessage) : Bool := NameValueCollection.has m._map (ascii "Content-Length")

/-- `getContentLength64`. -/
def getContentLength64 (m : HTTPMessage) : Except HTTPError ℤ :=
  let contentLength := m.getOr (ascii "Content-Length") []
  if contentLength ≠ [] then
    match NumberParser.parse64 contentLength with
    | some length => .ok length
    | none => .error (.syntaxException "Not a valid integer")
  else .ok (-1)

end HTTPMessage

section Read

variable {σ : Type} [Source σ]

/-- A call of `MessageHeader`. -/
def ofMessage {α : Type} (x : EStateM MessageError σ α) : EStateM HTTPError σ α := fun s =>
  match x s with
  | .ok a s => .ok a s
  | .error e s => .error (.message e) s

/-- A word of the start line, which must end with white space. -/
def readWord (limit : ℕ) (text : String) (ch : Option UInt8) :
    EStateM HTTPError σ (List UInt8 × Option UInt8) := do
  let (word, ch) ← collect (fun c => !isSpace c) limit ch
  if ch.any isSpace then return (word, ch)
  else throw (.message (.messageException text))

/-- The fields and the empty line; `atEnd` says that the stream has ended in the start line. -/
def readFieldLines (decodeRFC2047 : List UInt8 → List UInt8) (h : MessageHeader) (fuel : ℕ) (atEnd : Bool) :
    EStateM HTTPError σ MessageHeader := do
  let h ← ofMessage (MessageHeader.read decodeRFC2047 h fuel)
  let ch ← if atEnd then pure none else bump
  let _ ← collect (fun c => c != chr '\n') fuel ch
  return h

end Read

/-! ### `HTTPRequest` -/

/-- The members of `HTTPRequest`. -/
structure HTTPRequest extends HTTPMessage where
  _method : List UInt8 := ascii "GET"
  _uri : List UInt8 := ascii "/"

namespace HTTPRequest

def MAX_METHOD_LENGTH : ℕ := 32

def MAX_URI_LENGTH : ℕ := 16384

def MAX_VERSION_LENGTH : ℕ := 8

/-- The first line that `write` makes. -/
def startLine (r : HTTPRequest) : List UInt8 :=
  r._method ++ ascii " " ++ r._uri ++ ascii " " ++ r._version ++ ascii "\r\n"

/-- `write`. -/
def write (r : HTTPRequest) : List UInt8 := r.startLine ++ MessageHeader.write r._map ++ ascii "\r\n"

/-- `read`. -/
def read {σ : Type} [Source σ] (decodeRFC2047 : List UInt8 → List UInt8) (r : HTTPRequest) (fuel : ℕ) :
    EStateM HTTPError σ HTTPRequest := do
  let ch ← bump
  if ch = none then throw .noMessageException
  else
    let (_, ch) ← collect isSpace fuel ch
    if ch = none then throw (.message (.messageException "No HTTP request header"))
    else
      let (method, ch) ← readWord MAX_METHOD_LENGTH "HTTP request method invalid or too long" ch
      let (_, ch) ← collect isSpace fuel ch
      let (uri, ch) ← readWord MAX_URI_LENGTH "HTTP request URI invalid or too long" ch
      let (_, ch) ← collect isSpace fuel ch
      let (version, ch) ← readWord MAX_VERSION_LENGTH "Invalid HTTP version string" ch
      let (_, ch) ← collect (fun c => c != chr '\n') fuel ch
      let h ← readFieldLines decodeRFC2047 r.toMessageHeader fuel (ch = none)
      return { toMessageHeader := h, _version := version, _method := method, _uri := uri }

end HTTPRequest

/-! ### `HTTPResponse` -/

/-- The members of `HTTPResponse`. -/
structure HTTPResponse extends HTTPMessage where
  _status : ℤ := 200
  _reason : List UInt8 := ascii "OK"

namespace HTTPResponse

def MAX_VERSION_LENGTH : ℕ := 8

def MAX_STATUS_LENGTH : ℕ := 3

def MAX_REASON_LENGTH : ℕ := 512

/-- The first line that `write` makes. -/
def startLine (r : HTTPResponse) : List UInt8 :=
  r._version ++ ascii " " ++ decimal r._status ++ ascii " " ++ r._reason ++ ascii "\r\n"

/-- `write`. -/
def write (r : HTTPResponse) : List UInt8 := r.startLine ++ MessageHeader.write r._map ++ ascii "\r\n"

/-- `read`. -/
def read {σ : Type} [Source σ] (decodeRFC2047 : List UInt8 → List UInt8) (r : HTTPResponse) (fuel : ℕ) :
    EStateM HTTPError σ HTTPResponse := do
  let ch ← bump
  if ch = none then throw .noMessageException
  else
    let (_, ch) ← collect isSpace fuel ch
    if ch = none then throw (.message (.messageException "No HTTP response header"))
    else
      let (version, ch) ← readWord MAX_VERSION_LENGTH "Invalid HTTP version string" ch
      let (_, ch) ← collect isSpace fuel ch
      let (status, ch) ← readWord MAX_STATUS_LENGTH "Invalid HTTP status code" ch
      let (_, ch) ← collect (fun c => isSpace c && MessageHeader.isValueByte c) fuel ch
      let (reason, ch) ← collect MessageHeader.isValueByte MAX_REASON_LENGTH ch
      if !ch.any isSpace then throw (.message (.messageException "HTTP reason string too long"))
      else
        let ch ← if ch = some (chr '\r') then bump else pure ch
        if ch ≠ some (chr '\n') then throw (.message (.messageException "Unterminated HTTP response line"))
        else
          let h ← readFieldLines decodeRFC2047 r.toMessageHeader fuel false
          match NumberParser.parse status with
          | none => throw (.syntaxException "Not a valid integer")
          | some status => return { toMessageHeader := h, _version := version, _status := status, _reason := reason }

end HTTPResponse

/-! ### Numbers -/

theorem isSpace_of_isDigitOf {c : UInt8} (h : isDigitOf 10 c = true) : isSpace c = false := by
  have hall : ∀ c : UInt8, (!isDigitOf 10 c || !isSpace c) = true := by
    apply forall_byte
    decide +kernel
  have hc := hall c
  rw [h] at hc
  simpa using hc

theorem decimal_of_nonneg {n : ℤ} (h : 0 ≤ n) :
    decimal n = ((places 10 n.natAbs).map (digitChar false)).reverse := by
  rw [decimal, if_neg (not_lt.mpr h), List.nil_append, numeral, if_neg (by decide)]

theorem decimal_digits {n : ℤ} (h : 0 ≤ n) : ∀ c ∈ decimal n, isDigitOf 10 c = true := by
  rw [decimal_of_nonneg h]
  intro c hc
  exact isDigitOf_places (by decide) (by decide) false n.natAbs c (List.mem_reverse.mp hc)

theorem length_decimal {n : ℤ} {k : ℕ} (h : 0 ≤ n) (hk : 0 < k) (hn : n < 10 ^ k) : (decimal n).length ≤ k := by
  rw [decimal_of_nonneg h, List.length_reverse, List.length_map]
  refine length_places_le (by decide) hk ?_
  zify
  rwa [abs_of_nonneg h]

theorem decimal_ne_nil {n : ℤ} (h : 0 ≤ n) : decimal n ≠ [] := by
  rw [decimal_of_nonneg h, ne_eq, List.reverse_eq_nil_iff, List.map_eq_nil_iff]
  exact places_ne_nil (by decide) _

theorem parse_decimal {n : ℤ} (h : 0 ≤ n) (hn : n < 2 ^ 31) : NumberParser.parse (decimal n) = some n := by
  have hdigits := decimal_digits h
  have hhead : ∃ c ∈ (decimal n).head?, isDigitOf 10 c = true := by
    obtain ⟨c, s, hc⟩ := List.exists_cons_of_ne_nil (decimal_ne_nil h)
    exact ⟨c, by rw [hc]; rfl, hdigits c (by rw [hc]; exact List.mem_cons_self)⟩
  have hstrip : strip 10 (chr ',') (decimal n) = decimal n := by
    have hnil := strip_digits (fun _ => by decide : 10 = 10 →
      isDigitOf 10 (chr ',') = false) hdigits []
    rw [List.append_nil] at hnil
    rw [hnil]
    exact List.append_nil _
  have hlen := length_decimal (k := 10) h (by decide) (hn.trans (by decide))
  have hspaces := dropWhile_sign (v := n) hhead
  have hnumber : number 10 (decimal n) = n.natAbs := by
    rw [decimal_of_nonneg h, number_places (by decide) (by decide)]
  have hvalue := strToIntRange_eq (T := ⟨32, true, by decide⟩) (v := n)
    ⟨(by decide : _ ≤ (0 : ℤ)).trans h, Int.le_sub_one_of_lt hn⟩ (fun hneg => absurd hneg (not_lt.mpr h))
    (fun _ => by decide : 10 = 10 → isDigitOf 10 (chr ',') = false ∧ chr ',' ≠ '-'.toUInt8) (s := decimal n)
    (by rw [if_neg (not_lt.mpr h)]; simpa using hlen.trans (by decide)) hhead (by rwa [hstrip]) (by rwa [hstrip])
  rw [if_neg (not_lt.mpr h), List.nil_append] at hspaces hvalue
  rw [NumberParser.parse, strToInt, hspaces, hvalue]

/-! ### What is written is read back -/

/-- A word of a start line. -/
def IsWord (limit : ℕ) (word : List UInt8) : Prop :=
  word ≠ [] ∧ word.length ≤ limit ∧ ∀ c ∈ word, isSpace c = false

instance (limit : ℕ) (word : List UInt8) : Decidable (IsWord limit word) := inferInstanceAs (Decidable (_ ∧ _ ∧ _))

/-- Fields that a header takes. -/
structure FieldsFit (h : MessageHeader) (m : List Field) : Prop where
  readable : ∀ f ∈ m, MessageHeader.Readable h f
  grouped : NameValueCollection.Grouped m
  limit : 0 < h._fieldLimit → m.length ≤ h._fieldLimit

/-- Which fields fit does not depend on those that are there. -/
theorem FieldsFit.withMap {h : MessageHeader} {m : List Field} (hm : FieldsFit h m) (m' : List Field) :
    FieldsFit { h with _map := m' } m where
  readable f hf := by
    have hread := hm.readable f hf
    exact ⟨hread.name_bytes, hread.name_start, hread.name_length, hread.value_bytes, hread.value_start,
      hread.value_end, hread.value_length, hread.value_plain⟩
  grouped := hm.grouped
  limit := hm.limit

section RoundTrip

variable {σ : Type} [Source σ] {decodeRFC2047 : List UInt8 → List UInt8} {s s' : σ} {ch : Option UInt8}
  {fuel limit : ℕ} {word rest : List UInt8} {c : UInt8}

omit [Source σ] in
theorem ofMessage_ok {α : Type} {x : EStateM MessageError σ α} {a : α} (h : x s = .ok a s') :
    ofMessage x s = .ok a s' := by
  rw [ofMessage, h]

theorem readWord_eq (text : String) (hword : IsWord limit word) (hc : isSpace c = true)
    (ha : Ahead ch s (word ++ c :: rest) s') :
    ∃ t, readWord limit text ch s = .ok (word, some c) t ∧ Ahead (some c) t (c :: rest) s' := by
  obtain ⟨t, hcollect, ht⟩ := ha.collect (ε := HTTPError) (p := fun c => !isSpace c)
    (fun b hb => by rw [hword.2.2 b hb]; rfl) (by rw [hc]; rfl) hword.2.1
  refine ⟨t, ?_, ht⟩
  rw [readWord, bind_of_ok hcollect]
  dsimp only
  rw [if_pos (by simpa using hc)]
  rfl

theorem skipBlank_eq (hword : IsWord limit word) (hfuel : 0 < fuel) (ha : Ahead ch s (chr ' ' :: (word ++ rest)) s') :
    ∃ ch' t, (collect isSpace fuel ch : EStateM HTTPError σ _) s = .ok ([chr ' '], ch') t ∧
      Ahead ch' t (word ++ rest) s' := by
  obtain ⟨d, word', rfl⟩ := List.exists_cons_of_ne_nil hword.1
  have hd := hword.2.2 d List.mem_cons_self
  have ha' : Ahead ch s ([chr ' '] ++ d :: (word' ++ rest)) s' := ha
  obtain ⟨t, hcollect, ht⟩ := ha'.collect (ε := HTTPError) (p := isSpace)
    (List.forall_mem_singleton.mpr (by decide)) hd hfuel
  exact ⟨some d, t, hcollect, ht⟩

/-- The fields of a message are read, and the empty line behind them. -/
theorem readFieldLines_eq {h : MessageHeader} {m : List Field} (hempty : h._map = []) (hm : FieldsFit h m)
    (hfuel : m.length < fuel)
    (hback : ∀ s : σ, Source.sbumpc (Source.sputbackc (chr '\r') s) = (some (chr '\r'), s))
    (hr : Reads s (MessageHeader.write m ++ ascii "\r\n") s') :
    readFieldLines decodeRFC2047 h fuel false s = .ok { h with _map := m } s' := by
  have hsplit : MessageHeader.write m ++ ascii "\r\n" = (MessageHeader.write m ++ [chr '\r']) ++ [chr '\n'] := by
    rw [List.append_assoc]
    rfl
  rw [hsplit] at hr
  obtain ⟨t, hfields, u, hlf, hu⟩ := hr.split
  obtain rfl : s' = u := hu
  have hread : MessageHeader.read decodeRFC2047 h fuel s = _ :=
    MessageHeader.read_write hempty hm.readable hm.grouped hm.limit hfuel hfields
  have hbump : (bump : EStateM HTTPError σ _) (Source.sputbackc (chr '\r') t) = .ok (some (chr '\r')) t := by
    rw [bump, hback]
  have ha : Ahead (some (chr '\r')) t ([chr '\r'] ++ chr '\n' :: []) s' :=
    ⟨_, _, rfl, rfl, s', hlf, rfl⟩
  obtain ⟨v, hcollect, hv⟩ := ha.collect (ε := HTTPError) (p := fun c => c != chr '\n') (n := fuel)
    (List.forall_mem_singleton.mpr (by decide)) (by decide) (by simp; omega)
  obtain rfl : s' = v := hv.reads
  rw [readFieldLines, bind_of_ok (ofMessage_ok hread)]
  simp only [Bool.false_eq_true, if_false]
  rw [bind_of_ok hbump, bind_of_ok hcollect]
  rfl

theorem skipNone_eq (fuel : ℕ) (hword : IsWord limit word) (ha : Ahead ch s (word ++ rest) s') :
    ∃ t, (collect isSpace fuel ch : EStateM HTTPError σ _) s = .ok ([], ch) t ∧ ch ≠ none ∧
      Ahead ch t (word ++ rest) s' := by
  obtain ⟨d, word', rfl⟩ := List.exists_cons_of_ne_nil hword.1
  have hd := hword.2.2 d List.mem_cons_self
  have ha' : Ahead ch s ([] ++ d :: (word' ++ rest)) s' := ha
  obtain rfl := ha.eq_some
  obtain ⟨t, hcollect, ht⟩ := ha'.collect (ε := HTTPError) (p := isSpace) (n := fuel) (by simp) hd (Nat.zero_le _)
  exact ⟨t, hcollect, by simp, ht⟩

end RoundTrip

namespace HTTPRequest

/-- The words of the start line. -/
structure Fits (r : HTTPRequest) : Prop where
  method : IsWord MAX_METHOD_LENGTH r._method
  uri : IsWord MAX_URI_LENGTH r._uri
  version : IsWord MAX_VERSION_LENGTH r._version

theorem read_write {σ : Type} [Source σ] {decodeRFC2047 : List UInt8 → List UInt8} {s s' : σ} {r r₀ : HTTPRequest}
    {fuel : ℕ} (hempty : r₀._map = []) (hfits : r.Fits) (hm : FieldsFit r₀.toMessageHeader r._map)
    (hfuel : r._map.length < fuel)
    (hback : ∀ s : σ, Source.sbumpc (Source.sputbackc (chr '\r') s) = (some (chr '\r'), s))
    (hr : Reads s r.write s') :
    read decodeRFC2047 r₀ fuel s = .ok
      { toMessageHeader := { r₀.toMessageHeader with _map := r._map }
        _version := r._version, _method := r._method, _uri := r._uri } s' := by
  have hpos : 0 < fuel := by omega
  have hline : r.write = r._method ++ (chr ' ' :: (r._uri ++ (chr ' ' :: (r._version ++
      (chr '\r' :: chr '\n' :: (MessageHeader.write r._map ++ ascii "\r\n")))))) := by
    simp [write, startLine, ascii]
  rw [hline] at hr
  obtain ⟨ch, s₀, hbump, ha₀⟩ := bump_ahead (ε := HTTPError) hr (by simp)
  obtain ⟨s₁, hskip₁, hsome, ha₁⟩ := skipNone_eq fuel hfits.method ha₀
  obtain ⟨s₂, hmethod, ha₂⟩ := readWord_eq "HTTP request method invalid or too long" hfits.method (by decide) ha₁
  obtain ⟨ch₃, s₃, hskip₃, ha₃⟩ := skipBlank_eq hfits.uri hpos ha₂
  obtain ⟨s₄, huri, ha₄⟩ := readWord_eq "HTTP request URI invalid or too long" hfits.uri (by decide) ha₃
  obtain ⟨ch₅, s₅, hskip₅, ha₅⟩ := skipBlank_eq hfits.version hpos ha₄
  obtain ⟨s₆, hversion, ha₆⟩ := readWord_eq "Invalid HTTP version string" hfits.version (by decide) ha₅
  have hend : Ahead (some (chr '\r')) s₆ ([chr '\r'] ++ chr '\n' :: (MessageHeader.write r._map ++ ascii "\r\n")) s' :=
    ha₆
  obtain ⟨s₇, hskip₇, ha₇⟩ := hend.collect (ε := HTTPError) (p := fun c => c != chr '\n')
    (List.forall_mem_singleton.mpr (by decide)) (by decide) hpos
  have hlines : readFieldLines decodeRFC2047 r₀.toMessageHeader fuel false s₇ = _ :=
    readFieldLines_eq hempty hm hfuel hback ha₇.reads
  rw [read, bind_of_ok hbump, if_neg (by rintro rfl; exact hsome rfl), bind_of_ok hskip₁]
  dsimp only
  rw [if_neg hsome, bind_of_ok hmethod]
  dsimp only
  rw [bind_of_ok hskip₃]
  dsimp only
  rw [bind_of_ok huri]
  dsimp only
  rw [bind_of_ok hskip₅]
  dsimp only
  rw [bind_of_ok hversion]
  dsimp only
  rw [bind_of_ok hskip₇]
  dsimp only
  have hnone : decide (some (chr '\n') = none) = false := rfl
  rw [hnone, bind_of_ok hlines]
  rfl

end HTTPRequest

namespace HTTPResponse

/-- The words of the start line; the reason ends with the line. -/
structure Fits (r : HTTPResponse) : Prop where
  version : IsWord MAX_VERSION_LENGTH r._version
  status_nonneg : 0 ≤ r._status
  status_lt : r._status < 1000
  reason_bytes : ∀ c ∈ r._reason, MessageHeader.isValueByte c = true
  reason_start : ∀ c ∈ r._reason.head?, isSpace c = false
  reason_length : r._reason.length ≤ MAX_REASON_LENGTH

theorem Fits.status {r : HTTPResponse} (h : r.Fits) : IsWord MAX_STATUS_LENGTH (decimal r._status) :=
  ⟨decimal_ne_nil h.status_nonneg, length_decimal h.status_nonneg (by decide) h.status_lt,
    fun c hc => isSpace_of_isDigitOf (decimal_digits h.status_nonneg c hc)⟩

theorem read_write {σ : Type} [Source σ] {decodeRFC2047 : List UInt8 → List UInt8} {s s' : σ} {r r₀ : HTTPResponse}
    {fuel : ℕ} (hempty : r₀._map = []) (hfits : r.Fits) (hm : FieldsFit r₀.toMessageHeader r._map)
    (hfuel : r._map.length < fuel)
    (hback : ∀ s : σ, Source.sbumpc (Source.sputbackc (chr '\r') s) = (some (chr '\r'), s))
    (hr : Reads s r.write s') :
    read decodeRFC2047 r₀ fuel s = .ok
      { toMessageHeader := { r₀.toMessageHeader with _map := r._map }
        _version := r._version, _status := r._status, _reason := r._reason } s' := by
  have hpos : 0 < fuel := by omega
  have hline : r.write = r._version ++ (chr ' ' :: (decimal r._status ++ (chr ' ' :: (r._reason ++
      (chr '\r' :: chr '\n' :: (MessageHeader.write r._map ++ ascii "\r\n")))))) := by
    simp [write, startLine, ascii]
  rw [hline] at hr
  obtain ⟨ch, s₀, hbump, ha₀⟩ := bump_ahead (ε := HTTPError) hr (by simp)
  obtain ⟨s₁, hskip₁, hsome, ha₁⟩ := skipNone_eq fuel hfits.version ha₀
  obtain ⟨s₂, hversion, ha₂⟩ := readWord_eq "Invalid HTTP version string" hfits.version (by decide) ha₁
  obtain ⟨ch₃, s₃, hskip₃, ha₃⟩ := skipBlank_eq hfits.status hpos ha₂
  obtain ⟨s₄, hstatus, ha₄⟩ := readWord_eq "Invalid HTTP status code" hfits.status (by decide) ha₃
  -- the blank is skipped, but not the end of the line when the reason is empty
  obtain ⟨d, tl, hd, hstop⟩ : ∃ d tl,
      r._reason ++ chr '\r' :: chr '\n' :: (MessageHeader.write r._map ++ ascii "\r\n") = d :: tl ∧
        (isSpace d && MessageHeader.isValueByte d) = false := by
    cases hreason : r._reason with
    | nil => exact ⟨_, _, rfl, by decide⟩
    | cons d tl =>
        refine ⟨d, _, rfl, ?_⟩
        rw [hfits.reason_start d (by rw [hreason]; rfl), Bool.false_and]
  have hblank : Ahead (some (chr ' ')) s₄ ([chr ' '] ++ d :: tl) s' := hd ▸ ha₄
  obtain ⟨s₅, hskip₅, ha₅⟩ := hblank.collect (ε := HTTPError) (p := fun c => isSpace c && MessageHeader.isValueByte c)
    (List.forall_mem_singleton.mpr (by decide)) hstop hpos
  rw [← hd] at ha₅
  obtain ⟨s₆, hreason, ha₆⟩ := ha₅.collect (ε := HTTPError) hfits.reason_bytes (by decide) hfits.reason_length
  obtain ⟨s₇, hlf, ha₇⟩ := ha₆.bump (ε := HTTPError)
  have hlines : readFieldLines decodeRFC2047 r₀.toMessageHeader fuel false s₇ = _ :=
    readFieldLines_eq hempty hm hfuel hback ha₇.reads
  have hparse := parse_decimal hfits.status_nonneg (hfits.status_lt.trans (by decide))
  rw [read, bind_of_ok hbump, if_neg (by rintro rfl; exact hsome rfl), bind_of_ok hskip₁]
  dsimp only
  rw [if_neg hsome, bind_of_ok hversion]
  dsimp only
  rw [bind_of_ok hskip₃]
  dsimp only
  rw [bind_of_ok hstatus]
  dsimp only
  rw [bind_of_ok hskip₅]
  dsimp only
  rw [bind_of_ok hreason]
  dsimp only
  rw [if_neg (by decide), if_pos rfl, bind_of_ok hlf, if_neg (by decide), bind_of_ok hlines, hparse]
  rfl

end HTTPResponse

end Poco.Net
