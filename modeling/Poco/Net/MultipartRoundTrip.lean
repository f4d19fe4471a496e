import Poco.Net.MultipartStreamBuf

/-! # The parts of a multipart message are read as they were written

The writer puts a boundary line before each part and the closing one behind the last.  The reader
finds the first of them in the underlying stream, and each of the others at the end of the part
before it.  `Clear` is the condition on the lengths of the parts under which it recognises the
latter: where the boundary before another part is handled, the window does not end between the
carriage return and the line feed behind it.  At such an edge `readContent` takes the part for the
last one. -/

namespace Poco.Net

open Poco.Lib ReadWindow

namespace MultipartReader

/-! ### The header of a part -/

theorem length_le_write (m : List Field) : m.length ≤ (MessageHeader.write m).length := by
  induction m with
  | nil => exact le_rfl
  | cons f m ih =>
      simp only [MessageHeader.write, List.flatMap_cons, List.length_append, List.length_cons] at ih ⊢
      have : (ascii "\r\n").length = 2 := rfl
      omega

/-- A header that `messageHeader` can hold and read. -/
structure ReadableHeader (messageHeader : MessageHeader) (m : List Field) : Prop where
  readable : ∀ f ∈ m, MessageHeader.Readable messageHeader f
  grouped : NameValueCollection.Grouped m
  limit : 0 < messageHeader._fieldLimit → m.length ≤ messageHeader._fieldLimit

/-- The header and the empty line behind it are read, wherever the window ends. -/
theorem parseHeader_spec {decodeRFC2047 : List UInt8 → List UInt8} {messageHeader : MessageHeader}
    {m : List Field} {win : ReadWindow} {tl : List UInt8} (hm : ReadableHeader messageHeader m)
    (hrest : win.rest = MessageHeader.write m ++ chr '\r' :: chr '\n' :: tl) :
    parseHeader decodeRFC2047 messageHeader win =
      .ok ({ messageHeader with _map := m }, skip ((MessageHeader.write m).length + 2) win) := by
  have hcr : win.rest = MessageHeader.write m ++ ([chr '\r'] ++ chr '\n' :: tl) := hrest
  have hreads := (reads_skip hcr).append (reads_skip (rest_skip hcr))
  have hfuel : m.length < win.ahead.length + win.underlying.length + 1 := by
    have hwrite := length_le_write m
    have hlen := congrArg List.length hrest
    simp only [rest, List.length_append, List.length_cons] at hlen
    omega
  have hreadable : ∀ f ∈ m, MessageHeader.Readable { messageHeader with _map := [] } f := by
    intro f hf
    have h := hm.readable f hf
    exact ⟨h.1, h.2, h.3, h.4, h.5, h.6, h.7, h.8⟩
  have hread : MessageHeader.read decodeRFC2047 { messageHeader with _map := [] }
      (win.ahead.length + win.underlying.length + 1) win = .ok { messageHeader with _map := m }
        (sputbackc (chr '\r') (skip 1 (skip (MessageHeader.write m).length win))) :=
    MessageHeader.read_write rfl hreadable hm.grouped hm.limit hfuel hreads
  have hback := sbumpc_sputbackc (rest_skip hcr)
  obtain ⟨hget, hbump⟩ := sgetc_spec (sbumpc_spec (rest_skip hcr)).2
  rw [parseHeader]
  dsimp only
  rw [hread]
  dsimp only
  rw [hback]
  dsimp only
  rw [if_pos rfl, hget]
  dsimp only
  rw [if_pos rfl, hbump, skip_add]
  rfl

/-! ### The first boundary -/

/-- The reader when the underlying stream has got to `bs`. -/
def movedTo (r : MultipartReader) (bs : List UInt8) : MultipartReader :=
  { r with _window := { r._window with underlying := bs } }

/-- Bytes within one line. -/
def OneLine (bs : List UInt8) : Prop := ∀ c ∈ bs, c ≠ chr '\r' ∧ c ≠ chr '\n'

instance (bs : List UInt8) : Decidable (OneLine bs) := List.decidableBAll _ bs

theorem OneLine.append {xs ys : List UInt8} (hx : OneLine xs) (hy : OneLine ys) :
    OneLine (xs ++ ys) := by
  intro c hc
  obtain hc | hc := List.mem_append.mp hc
  · exact hx c hc
  · exact hy c hc

section FirstBoundary

variable {r : MultipartReader} {c : UInt8} {bs tl : List UInt8} (hgood : r.good = true)

include hgood in
theorem peek_movedTo : (r.movedTo (c :: tl)).peek = (some c, r.movedTo (c :: tl)) := by
  rw [peek, if_pos (by exact hgood)]
  rfl

include hgood in
theorem get_movedTo : (r.movedTo (c :: tl)).get = (some c, r.movedTo tl) := by
  rw [get, if_pos (by exact hgood)]
  rfl

include hgood in
theorem lineLoop_spec {n left : ℕ} {line : List UInt8} (hbs : OneLine bs)
    (hn : line.length + bs.length ≤ n) (hleft : bs.length < left) :
    lineLoop n left line (r.movedTo (bs ++ chr '\r' :: tl)) =
      (line ++ bs, some (chr '\r'), left - bs.length, r.movedTo (chr '\r' :: tl)) := by
  obtain ⟨left, rfl⟩ : ∃ k, left = k + 1 := ⟨left - 1, by omega⟩
  induction bs generalizing left line with
  | nil =>
      rw [List.nil_append, lineLoop, peek_movedTo hgood]
      simp
  | cons b bs ih =>
      simp only [List.length_cons] at hn hleft
      obtain ⟨left, rfl⟩ : ∃ k, left = k + 1 := ⟨left - 1, by omega⟩
      have hb := hbs b List.mem_cons_self
      rw [List.cons_append, lineLoop, peek_movedTo hgood]
      dsimp only
      rw [if_neg (by simpa using hb), if_pos (by omega), get_movedTo hgood,
        ih (fun c hc => hbs c (List.mem_cons_of_mem _ hc)) (by simp; omega) left (by omega)]
      simp

include hgood in
theorem readLine_spec (hbs : OneLine bs) (hlen : bs.length < 1024) :
    (r.movedTo (bs ++ chr '\r' :: chr '\n' :: tl)).readLine bs.length =
      (bs, true, r.movedTo tl) := by
  have hloop : lineLoop bs.length 1024 [] (r.movedTo (bs ++ chr '\r' :: chr '\n' :: tl)) = _ :=
    lineLoop_spec hgood hbs (by simp) hlen
  rw [readLine, hloop]
  dsimp only
  rw [if_pos (by decide : some (chr '\r') ≠ none), get_movedTo hgood]
  dsimp only
  rw [if_pos rfl, peek_movedTo hgood]
  dsimp only
  rw [if_pos rfl, get_movedTo hgood, List.nil_append]
  have hleft : 0 < 1024 - bs.length := by omega
  simp [hleft]

include hgood in
theorem findFirstBoundary_spec (hboundary : OneLine r._boundary)
    (hlen : r._boundary.length ≤ 1021) :
    (r.movedTo (ascii "--" ++ r._boundary ++ chr '\r' :: chr '\n' :: tl)).findFirstBoundary =
      .ok (r.movedTo tl) := by
  have hline : OneLine (ascii "--" ++ r._boundary) :=
    OneLine.append (by decide) hboundary
  have hdashes : (ascii "--").length = 2 := rfl
  rw [findFirstBoundary, firstBoundaryLoop]
  dsimp only [movedTo]
  rw [← movedTo, readLine_spec hgood hline (by rw [List.length_append]; omega)]
  simp [movedTo]

include hgood in
theorem guessLoop_spec {left : ℕ} (hbs : OneLine bs) (hleft : bs.length ≤ left) :
    guessLoop left (r.movedTo (bs ++ chr '\r' :: tl)) =
      (some (chr '\r'),
        { r with _boundary := r._boundary ++ bs }.movedTo (chr '\r' :: tl)) := by
  induction bs generalizing left r with
  | nil =>
      rw [List.append_nil, List.nil_append]
      cases left with
      | zero => exact peek_movedTo hgood
      | succ left =>
          rw [guessLoop, peek_movedTo hgood]
          rfl
  | cons b bs ih =>
      simp only [List.length_cons] at hleft
      obtain ⟨left, rfl⟩ : ∃ k, left = k + 1 := ⟨left - 1, by omega⟩
      have hb := hbs b List.mem_cons_self
      rw [List.cons_append, guessLoop, peek_movedTo hgood]
      dsimp only
      rw [if_neg (by simpa using hb), get_movedTo hgood]
      have hrest := ih (r := { r with _boundary := r._boundary ++ [b] }) hgood
        (fun c hc => hbs c (List.mem_cons_of_mem _ hc)) (by omega : bs.length ≤ left)
      rw [List.append_assoc] at hrest
      exact hrest

include hgood in
/-- Without a boundary the reader takes it from the first line. -/
theorem guessBoundary_spec {boundary : List UInt8} (hempty : r._boundary = [])
    (hboundary : OneLine boundary) (hlen : boundary.length ≤ 128) :
    (r.movedTo (ascii "--" ++ boundary ++ chr '\r' :: chr '\n' :: tl)).guessBoundary =
      .ok ({ r with _boundary := boundary }.movedTo tl) := by
  have hskip : ∀ n bs, skipSpace n (r.movedTo (chr '-' :: bs)) = (some (chr '-'), r.movedTo bs) := by
    intro n bs
    cases n with
    | zero => exact get_movedTo hgood
    | succ n =>
        rw [skipSpace, get_movedTo hgood]
        rfl
  have hloop : guessLoop 128 (r.movedTo (boundary ++ chr '\r' :: chr '\n' :: tl)) = _ :=
    guessLoop_spec hgood hboundary hlen
  rw [hempty, List.nil_append] at hloop
  have hgood' : { r with _boundary := boundary }.good = true := hgood
  have hdashes : ascii "--" ++ boundary ++ chr '\r' :: chr '\n' :: tl =
      chr '-' :: chr '-' :: (boundary ++ chr '\r' :: chr '\n' :: tl) := rfl
  rw [guessBoundary, hdashes, hskip]
  dsimp only
  rw [peek_movedTo hgood]
  dsimp only
  rw [if_pos ⟨rfl, rfl⟩, get_movedTo hgood, hloop]
  dsimp only
  rw [if_neg (by decide), get_movedTo hgood', peek_movedTo hgood']
  dsimp only
  rw [if_pos rfl, get_movedTo hgood']

end FirstBoundary

/-! ### The parts of a message -/

open MultipartStreamBuf (delimiter Clean ClearBehind sizeBehind)

/-- A part as it is written, without the boundary line. -/
def Part.bytes (p : Part) : List UInt8 :=
  MessageHeader.write p.header ++ chr '\r' :: chr '\n' :: p.content

/-- What is written behind a part. -/
def following (boundary : List UInt8) : List Part → List UInt8
  | [] => delimiter boundary ++ chr '-' :: chr '-' :: ascii "\r\n"
  | p :: ps => delimiter boundary ++ chr '\r' :: chr '\n' :: (p.bytes ++ following boundary ps)

/-- Whether the header gives the length of the content. -/
def Part.known (p : Part) : Bool := (contentLengthOf p.header).isSome

/-- The lengths of the window when the content of a part begins. -/
def Part.sizeAtContent (p : Part) (z : WindowSize) : WindowSize :=
  z.skip ((MessageHeader.write p.header).length + 2)

/-- No boundary before another part is handled at an edge of the window, when the first of these
parts begins with a window of these lengths. -/
def Clear (boundary : ℕ) : List Part → WindowSize → Prop
  | p :: q :: ps, z =>
      ClearBehind p.known boundary p.content.length (p.sizeAtContent z) ∧
        Clear boundary (q :: ps)
          (sizeBehind p.known boundary p.content.length (p.sizeAtContent z))
  | _, _ => True

instance decidableClear (boundary : ℕ) :
    (parts : List Part) → (z : WindowSize) → Decidable (Clear boundary parts z)
  | [], _ => inferInstanceAs (Decidable True)
  | [_], _ => inferInstanceAs (Decidable True)
  | p :: q :: ps, z =>
      haveI := decidableClear boundary (q :: ps)
        (sizeBehind p.known boundary p.content.length (p.sizeAtContent z))
      inferInstanceAs (Decidable (_ ∧ _))

/-- A part that a reader with this boundary can read. -/
structure Part.Readable (messageHeader : MessageHeader) (boundary : List UInt8) (p : Part) :
    Prop where
  header : ReadableHeader messageHeader p.header
  clean : Clean boundary p.content
  length : ∀ n ∈ contentLengthOf p.header, n = p.content.length

/-- What `nextPart` does before it reads the header. -/
def start (r : MultipartReader) : Except MultipartError MultipartReader :=
  match r._pMPI with
  | none => if r._boundary = [] then r.guessBoundary else r.findFirstBoundary
  | some b =>
      if b._lastPart then .error (.multipartException "No more parts available") else .ok r

section Parts

variable {decodeRFC2047 : List UInt8 → List UInt8} {messageHeader : MessageHeader}
  {r r' : MultipartReader} {p : Part} {tl : List UInt8}

theorem nextPart_eq (r : MultipartReader) : nextPart decodeRFC2047 messageHeader r = (do
    let r ← start r
    let (header, win) ← parseHeader decodeRFC2047 messageHeader r._window
    let b := { win := win, _boundary := r._boundary, _contentLength := contentLengthOf header._map }
    return (header, { r with _window := win, _pMPI := some b })) := by
  unfold nextPart start
  cases r._pMPI with
  | none =>
      dsimp only
      split <;> rfl
  | some b =>
      dsimp only
      split <;> rfl

variable (decodeRFC2047) in
/-- `nextPart` reads the header and opens the stream of the part. -/
theorem nextPart_spec (hstart : start r = .ok r') (hp : ReadableHeader messageHeader p.header)
    (hrest : r'._window.rest = p.bytes ++ tl) :
    ∃ win, nextPart decodeRFC2047 messageHeader r = .ok ({ messageHeader with _map := p.header },
        { r' with
          _window := win
          _pMPI := some { win := win, _boundary := r'._boundary,
                          _contentLength := contentLengthOf p.header } }) ∧
      win.rest = p.content ++ tl ∧ win.size = p.sizeAtContent r'._window.size := by
  have hbytes : r'._window.rest =
      MessageHeader.write p.header ++ chr '\r' :: chr '\n' :: (p.content ++ tl) := by
    simp [hrest, Part.bytes]
  have hbytes' : r'._window.rest =
      (MessageHeader.write p.header ++ [chr '\r', chr '\n']) ++ (p.content ++ tl) := by
    simp [hbytes]
  have hskip := rest_skip hbytes'
  rw [List.length_append] at hskip
  refine ⟨skip ((MessageHeader.write p.header).length + 2) r'._window, ?_, hskip, ?_⟩
  · rw [nextPart_eq, hstart]
    change (parseHeader _ _ _ >>= _) = _
    rw [parseHeader_spec hp hbytes]
    rfl
  · apply size_skip
    rw [hbytes]
    simp

theorem readParts_cons {rounds : ℕ} {header : MessageHeader} {content : List UInt8}
    {r₁ r₂ : MultipartReader} (hnext : r.hasNextPart = true)
    (hpart : nextPart decodeRFC2047 messageHeader r = .ok (header, r₁))
    (hstream : r₁.readStream = (content, r₂)) :
    readParts decodeRFC2047 messageHeader (rounds + 1) r =
      (readParts decodeRFC2047 messageHeader rounds r₂).map (⟨header._map, content⟩ :: ·) := by
  rw [readParts, if_pos hnext, hpart]
  simp only [bind, Except.bind]
  rw [hstream]
  cases readParts decodeRFC2047 messageHeader rounds r₂ with
  | error e => rfl
  | ok parts => rfl

theorem readStream_eq {b b' : MultipartStreamBuf} {content : List UInt8} (hb : r._pMPI = some b)
    (h : MultipartStreamBuf.readAll (r._window.rest.length + 2) { b with win := r._window } =
      (content, b')) :
    r.readStream = (content, { r with _window := b'.win, _pMPI := some b' }) := by
  rw [rest, List.length_append] at h
  rw [readStream, hb]
  dsimp only
  rw [h]

section OnePart

variable {rounds : ℕ} (hcr : chr '\r' ∉ r'._boundary)
  (hpat : r'._boundary.length + 4 ≤ BUFFER_SIZE / 2) (hp : p.Readable messageHeader r'._boundary)
  (hnext : r.hasNextPart = true) (hstart : start r = .ok r')

include hcr hpat hp hnext hstart in
theorem readParts_last
    (hrest : r'._window.rest = p.bytes ++ (delimiter r'._boundary ++ chr '-' :: tl)) :
    readParts decodeRFC2047 messageHeader (rounds + 2) r = .ok [p] := by
  obtain ⟨win, hpart, hwin, -⟩ := nextPart_spec decodeRFC2047 hstart hp.header hrest
  obtain ⟨b', hread, hlast⟩ := MultipartStreamBuf.readAll_last
    (b := { win := win, _boundary := r'._boundary, _contentLength := contentLengthOf p.header })
    rfl rfl hp.length hcr hp.clean hpat
    (by rw [hwin, List.length_append]; omega : p.content.length < win.rest.length + 2) hwin
  rw [readParts_cons hnext hpart (readStream_eq rfl hread), readParts,
    if_neg (by simp [hasNextPart, hlast])]
  rfl

variable (decodeRFC2047 rounds) in
include hcr hpat hp hnext hstart in
/-- A part before another one is read, and the next one begins. -/
theorem readParts_next (hgood : r'.good = true)
    (hrest : r'._window.rest =
      p.bytes ++ (delimiter r'._boundary ++ chr '\r' :: chr '\n' :: tl))
    (hclear : ClearBehind p.known r'._boundary.length p.content.length
      (p.sizeAtContent r'._window.size)) :
    ∃ r₂ : MultipartReader, readParts decodeRFC2047 messageHeader (rounds + 1) r =
        (readParts decodeRFC2047 messageHeader rounds r₂).map (p :: ·) ∧
      r₂.hasNextPart = true ∧ start r₂ = .ok r₂ ∧ r₂.good = true ∧ r₂._boundary = r'._boundary ∧
      r₂._window.rest = tl ∧ r₂._window.size = sizeBehind p.known r'._boundary.length
        p.content.length (p.sizeAtContent r'._window.size) := by
  obtain ⟨win, hpart, hwin, hsize⟩ := nextPart_spec decodeRFC2047 hstart hp.header hrest
  rw [← hsize] at hclear
  obtain ⟨b', hread, hlast, hrest', hsize'⟩ := MultipartStreamBuf.readAll_next
    (b := { win := win, _boundary := r'._boundary, _contentLength := contentLengthOf p.header })
    rfl rfl hp.length hcr hp.clean hpat
    (by rw [hwin, List.length_append]; omega : p.content.length < win.rest.length + 2) rfl hwin
    hclear
  rw [hsize] at hsize'
  refine ⟨_, readParts_cons hnext hpart (readStream_eq rfl hread), ?_, ?_, hgood, rfl, hrest',
    hsize'⟩
  · simp [hasNextPart, hlast, hgood]
  · simp [start, hlast]

end OnePart

variable {boundary : List UInt8}

theorem readParts_spec {ps : List Part} {rounds : ℕ} (hcr : chr '\r' ∉ boundary)
    (hpat : boundary.length + 4 ≤ BUFFER_SIZE / 2)
    (hparts : ∀ q ∈ p :: ps, q.Readable messageHeader boundary)
    (hnext : r.hasNextPart = true) (hstart : start r = .ok r') (hgood : r'.good = true)
    (hboundary : r'._boundary = boundary) (hrest : r'._window.rest = p.bytes ++ following boundary ps)
    (hclear : Clear boundary.length (p :: ps) r'._window.size) (hrounds : ps.length + 1 < rounds) :
    readParts decodeRFC2047 messageHeader rounds r = .ok (p :: ps) := by
  subst hboundary
  induction ps generalizing p r r' rounds with
  | nil =>
      obtain ⟨rounds, rfl⟩ : ∃ n, rounds = n + 2 := ⟨rounds - 2, by simp at hrounds; omega⟩
      exact readParts_last hcr hpat (hparts p List.mem_cons_self) hnext hstart hrest
  | cons q ps ih =>
      obtain ⟨rounds, rfl⟩ : ∃ n, rounds = n + 1 := ⟨rounds - 1, by omega⟩
      obtain ⟨r₂, hread, hnext₂, hstart₂, hgood₂, hboundary₂, hrest₂, hsize₂⟩ :=
        readParts_next decodeRFC2047 rounds hcr hpat (hparts p List.mem_cons_self) hnext hstart hgood
          hrest hclear.1
      have hclear₂ := hclear.2
      rw [← hsize₂, ← hboundary₂] at hclear₂
      rw [← hboundary₂] at hcr hpat hparts hrest₂
      rw [hread, ih hnext₂ hstart₂ hgood₂ (by simpa using hrounds) hcr hpat
        (fun q' hq => hparts q' (List.mem_cons_of_mem _ hq)) hrest₂ hclear₂]
      rfl

end Parts

end MultipartReader

/-! ### What the writer makes of the parts -/

namespace MultipartWriter

open MultipartReader (Part OneLine following)

variable {w : MultipartWriter}

theorem ostr_foldl_close (hfirst : w._firstPart = false) (ps : List Part) :
    (ps.foldl (fun w p => (w.nextPart p.header).put p.content) w).close._ostr =
      w._ostr ++ following w._boundary ps := by
  induction ps generalizing w with
  | nil =>
      have hclose : ascii "\r\n--" ++ w._boundary ++ ascii "--\r\n" = following w._boundary [] := by
        simp [following, MultipartStreamBuf.delimiter, MultipartStreamBuf.mark, ascii]
      rw [List.foldl_nil, close, hclose]
  | cons p ps ih =>
      have hpart : ((w.nextPart p.header).put p.content)._ostr =
          w._ostr ++ (MultipartStreamBuf.delimiter w._boundary ++
            chr '\r' :: chr '\n' :: p.bytes) := by
        simp [nextPart, put, hfirst, MultipartReader.Part.bytes, MultipartStreamBuf.delimiter,
          MultipartStreamBuf.mark, ascii]
      rw [List.foldl_cons, ih rfl, hpart]
      simp [following, nextPart, put]

theorem writeParts_cons (hostr : w._ostr = []) (hfirst : w._firstPart = true) (p : Part)
    (ps : List Part) :
    w.writeParts (p :: ps) = ascii "--" ++ w._boundary ++
      chr '\r' :: chr '\n' :: (p.bytes ++ following w._boundary ps) := by
  rw [writeParts, List.foldl_cons, ostr_foldl_close rfl]
  simp [nextPart, put, hostr, hfirst, MultipartReader.Part.bytes, ascii]

/-! ### The boundary of a writer -/

theorem length_hexDigits (w n : ℕ) : (hexDigits w n).length = w := by
  induction w generalizing n with
  | zero => rfl
  | succ w ih => simp [hexDigits, ih]

theorem oneLine_hexDigits (w n : ℕ) : OneLine (hexDigits w n) := by
  induction w generalizing n with
  | zero => exact fun c hc => absurd hc List.not_mem_nil
  | succ w ih =>
      apply OneLine.append (ih (n / 16))
      have hdigit : ∀ k < 16, OneLine [(ascii "0123456789ABCDEF").getD k 0] := by decide
      exact hdigit (n % 16) (Nat.mod_lt n (by decide))

theorem oneLine_createBoundary (r1 r2 : UInt32) : OneLine (createBoundary r1 r2) := by
  have htext : OneLine (ascii "MIME_boundary_") := by decide
  exact (htext.append (oneLine_hexDigits _ _)).append (oneLine_hexDigits _ _)

variable {boundary : List UInt8} (r1 r2 : UInt32)

theorem create_boundary_ne_nil : (create boundary r1 r2)._boundary ≠ [] := by
  unfold create
  dsimp only
  split
  · intro h
    have := congrArg List.length h
    simp [createBoundary, length_hexDigits] at this
  · exact ‹_›

theorem create_boundary_oneLine (h : OneLine boundary) :
    OneLine (create boundary r1 r2)._boundary := by
  unfold create
  dsimp only
  split
  · exact oneLine_createBoundary r1 r2
  · exact h

theorem create_boundary_length (h : boundary.length ≤ 1021) :
    (create boundary r1 r2)._boundary.length ≤ 1021 := by
  unfold create
  dsimp only
  split
  · have : (ascii "MIME_boundary_").length = 14 := rfl
    simp only [createBoundary, List.length_append, length_hexDigits]
    omega
  · exact h

end MultipartWriter

/-! ### Round trip -/

namespace MultipartReader

/-- The lengths of the window behind the first boundary line of a message. -/
def sizeAtFirstPart (boundary message : List UInt8) : WindowSize :=
  { underlying := message.length - (boundary.length + 4) }

end MultipartReader

end Poco.Net
