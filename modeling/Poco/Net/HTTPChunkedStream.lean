import Mathlib.Data.List.Induction
import Poco.Foundation.BufferedStreamBuf
import Poco.Foundation.NumericString
import Poco.Net.HTTPSession

/-! # `HTTPChunkedStreamBuf`

The stream buffer of HTTP message bodies in chunked transfer coding.  The put area becomes a chunk
whenever it is written; `close` writes the chunk of length zero and an empty line.  The reader parses
the length of a chunk when it begins, hands out its bytes as they come, and reads the empty line, or a
trailer, behind the last chunk.

`Inside` and `Between` describe the reader within a chunk and between two of them, with the content
that is left.  Each call of `readFromDevice` returns some of it, or the end (`supplies_chunks`), for any
length of the call and any pieces in which the bytes arrive. -/

namespace Poco.Net

open Poco.Lib

open Poco.Foundation (BufferedStreamBuf)

open Poco.Foundation.Hex (appendHex isHexDigit tryParseHex)

/-- The members of `HTTPChunkedStreamBuf`. -/
structure HTTPChunkedStreamBuf where
  _session : HTTPSession
  _chunk : ℤ := 0
  _pTrailer : Option MessageHeader := none

namespace HTTPChunkedStreamBuf

/-! ### Writing -/

/-- `writeToDevice`. -/
def writeToDevice (buffer : List UInt8) (b : HTTPChunkedStreamBuf) : HTTPChunkedStreamBuf :=
  let _chunkBuffer := appendHex [] buffer.length
  let _chunkBuffer := _chunkBuffer ++ ascii "\r\n"
  let _chunkBuffer := _chunkBuffer ++ buffer
  let _chunkBuffer := _chunkBuffer ++ ascii "\r\n"
  { b with _session := b._session.write _chunkBuffer }

/-- What `close` writes behind the chunks. -/
def writeEnd (b : HTTPChunkedStreamBuf) : HTTPChunkedStreamBuf :=
  match b._pTrailer with
  | some trailer =>
      if trailer._map ≠ [] then
        { b with
          _session := b._session.write
            (ascii "0\r\n" ++ MessageHeader.write trailer._map ++ ascii "\r\n") }
      else { b with _session := b._session.write (ascii "0\r\n\r\n") }
  | none => { b with _session := b._session.write (ascii "0\r\n\r\n") }

/-- What a program does with an output stream. -/
inductive Op
  | write (bytes : List UInt8)
  | flush
deriving DecidableEq, Repr

/-- One operation of an output stream. -/
def step (b : BufferedStreamBuf HTTPChunkedStreamBuf) : Op → BufferedStreamBuf HTTPChunkedStreamBuf
  | .write bytes => b.sputn writeToDevice bytes
  | .flush => b.sync writeToDevice

/-- `close`, for an output stream. -/
def close (b : BufferedStreamBuf HTTPChunkedStreamBuf) : BufferedStreamBuf HTTPChunkedStreamBuf :=
  let b := b.sync writeToDevice
  { b with device := writeEnd b.device }

/-- A new output stream. -/
def create : BufferedStreamBuf HTTPChunkedStreamBuf where
  device := { _session := {} }
  _bufsize := HTTPBufferAllocator.BUFFER_SIZE

/-- What has been sent when the stream is closed behind the operations. -/
def sent (ops : List Op) : List UInt8 := (close (ops.foldl step create)).device._session._sent

/-- What has been written by the operations. -/
def written (ops : List Op) : List UInt8 :=
  ops.flatMap fun
    | .write bytes => bytes
    | .flush => []

/-! ### Reading -/

/-- The text of a chunk length, up to the end of its line; `none` if something else follows it. -/
def readChunkLen : EStateM MessageError HTTPSession (Option (List UInt8)) := do
  let fuel := (← get).incoming.length
  let ch ← bump
  let (_, ch) ← collect Foundation.Hex.isSpace fuel ch
  let (chunkLen, ch) ← collect isHexDigit 8 ch
  if ch ≠ none ∧ ¬(ch.any Foundation.Hex.isSpace ∨ ch = some (chr ';')) then return none
  else
    let _ ← collect (fun c => c != chr '\n') fuel ch
    return some chunkLen

/-- The line behind the last chunk, or the trailer; `decodeRFC2047` is that of `MessageHeader`. -/
def readTrailer (decodeRFC2047 : List UInt8 → List UInt8) :
    EStateM MessageError HTTPChunkedStreamBuf Unit := fun b =>
  let fuel := b._session.incoming.length
  let (ch, session) := b._session.peek
  if ch ≠ none ∧ ch ≠ some (chr '\r') ∧ ch ≠ some (chr '\n') then
    let trailer := b._pTrailer.getD {}
    match MessageHeader.read decodeRFC2047 trailer fuel ({ _session := session } : HTTPHeaderStreamBuf) with
    | .ok trailer his =>
        .ok () { b with _session := his._session, _pTrailer := b._pTrailer.map fun _ => trailer }
    | .error e his => .error e { b with _session := his._session }
  else
    let line : EStateM MessageError HTTPSession (List UInt8 × Option UInt8) := do
      let ch ← bump
      collect (fun c => c != chr '\n') fuel ch
    match line session with
    | .ok _ session => .ok () { b with _session := session }
    | .error e session => .error e { b with _session := session }

/-- The first part of `readFromDevice`: the length of the next chunk; `false` means end of file. -/
def nextChunk : EStateM MessageError HTTPChunkedStreamBuf Bool := fun b =>
  if b._chunk = 0 then
    match readChunkLen b._session with
    | .ok none session => .ok false { b with _session := session }
    | .ok (some chunkLen) session =>
        match tryParseHex chunkLen with
        | some chunk => .ok true { b with _session := session, _chunk := chunk }
        | none =>
            .ok false
              { b with
                _session := session.setException "Incomplete chunked transfer encoding"
                _chunk := -1 }
    | .error e session => .error e { b with _session := session }
  else .ok true b

/-- The second part of `readFromDevice`: bytes of the chunk, or the end. -/
def readContent (decodeRFC2047 : List UInt8 → List UInt8) (length : ℕ) :
    EStateM MessageError HTTPChunkedStreamBuf (Option (List UInt8)) := do
  let b ← get
  if b._chunk > 0 then
    let (bytes, session) := b._session.read (min length b._chunk.toNat)
    if bytes ≠ [] then set { b with _session := session, _chunk := b._chunk - bytes.length }
    else set { b with _session := session.setException "Incomplete chunked transfer encoding" }
    return some bytes
  else if b._chunk = 0 then
    readTrailer decodeRFC2047
    modify fun b => { b with _chunk := -1 }
    return some []
  else return none

/-- `readFromDevice`: the bytes that are read, or `none` at the end of file. -/
def readFromDevice (decodeRFC2047 : List UInt8 → List UInt8) (length : ℕ) :
    EStateM MessageError HTTPChunkedStreamBuf (Option (List UInt8)) := do
  if ← nextChunk then readContent decodeRFC2047 length else return none

/-! ### The length of a chunk -/

/-- The line with a chunk length. -/
def lengthLine (n : ℕ) : List UInt8 := appendHex [] n ++ ascii "\r\n"

/-- A chunk. -/
def chunkText (buffer : List UInt8) : List UInt8 := lengthLine buffer.length ++ buffer ++ ascii "\r\n"

theorem readChunkLen_eq {s : HTTPSession} {ws digits t : List UInt8}
    (h : s.incoming = ws ++ digits ++ ascii "\r\n" ++ t) (hws : ∀ c ∈ ws, Foundation.Hex.isSpace c = true)
    (hne : digits ≠ []) (hdigits : ∀ c ∈ digits, isHexDigit c = true) (hlen : digits.length ≤ 8) :
    ∃ s', readChunkLen s = .ok (some digits) s' ∧ s'.incoming = t := by
  have hff : 0xFF ∉ ws ++ digits ++ ascii "\r\n" := by
    simp only [List.mem_append, not_or]
    refine ⟨⟨fun hmem => ?_, fun hmem => ?_⟩, by decide⟩
    · exact absurd (hws _ hmem) (by decide)
    · exact absurd (hdigits _ hmem) (by decide)
  have hfuel : ws.length + 1 ≤ s.incoming.length := by
    rw [h]
    simp only [List.length_append]
    have hpos := List.length_pos_iff.mpr hne
    omega
  obtain ⟨s', hreads, hin⟩ := HTTPSession.reads_incoming h hff
  obtain ⟨d, ds, rfl⟩ := List.exists_cons_of_ne_nil hne
  obtain ⟨ch, s₀, hbump, ha₀⟩ := bump_ahead (ε := MessageError) hreads (by simp)
  have hd := hdigits d List.mem_cons_self
  -- the spaces, the digits, and the rest of the line
  rw [List.append_assoc] at ha₀
  obtain ⟨s₁, hspaces, ha₁⟩ := ha₀.collect (ε := MessageError) (n := s.incoming.length) hws
    (Foundation.Hex.isSpace_of_isHexDigit hd) (by omega)
  have hdigits₁ : Ahead (some d) s₁ (d :: ds ++ chr '\r' :: [chr '\n']) s' := ha₁
  obtain ⟨s₂, hcollect, ha₂⟩ := hdigits₁.collect (ε := MessageError) (n := 8) hdigits (by decide) hlen
  have hline₂ : Ahead (some (chr '\r')) s₂ ([chr '\r'] ++ chr '\n' :: []) s' := ha₂
  obtain ⟨s₃, hline, ha₃⟩ := hline₂.collect (ε := MessageError) (p := fun c => c != chr '\n')
    (n := s.incoming.length) (List.forall_mem_singleton.mpr (by decide)) (by decide) (by simp; omega)
  refine ⟨s', ?_, hin⟩
  obtain rfl : s₃ = s' := by
    obtain ⟨_, _, hcons, -, hnil⟩ := ha₃
    obtain ⟨-, rfl⟩ := List.cons.inj hcons
    exact hnil.symm
  rw [readChunkLen, get_bind, bind_of_ok hbump, bind_of_ok hspaces]
  dsimp only
  rw [bind_of_ok hcollect]
  dsimp only
  rw [if_neg (by decide), bind_of_ok hline]
  rfl

theorem nextChunk_eq {b : HTTPChunkedStreamBuf} {ws t : List UInt8} {n : ℕ} (hn : n < 2 ^ 32)
    (h : b._session.incoming = ws ++ lengthLine n ++ t) (hws : ∀ c ∈ ws, Foundation.Hex.isSpace c = true)
    (hchunk : b._chunk = 0) :
    ∃ s', nextChunk b = .ok true { b with _session := s', _chunk := n } ∧ s'.incoming = t := by
  rw [lengthLine, ← List.append_assoc] at h
  obtain ⟨s', hlen, hin⟩ := readChunkLen_eq h hws (Foundation.Hex.intToStr_ne_nil n 0 false)
    (Foundation.Hex.isHexDigit_intToStr n 0 false)
    (Foundation.Hex.length_intToStr (n := 7) (hn.trans_le (by decide)) false)
  have hparse : tryParseHex (appendHex [] n) = some n :=
    Foundation.Hex.tryParseHex_intToStr hn 0 false
  refine ⟨s', ?_, hin⟩
  simp only [nextChunk, hchunk, if_true, hlen, hparse]

/-! ### The reader between two calls -/

/-- What follows in the stream when the chunks are still to come. -/
def chunksText (bufs : List (List UInt8)) (rest : List UInt8) : List UInt8 :=
  bufs.flatMap chunkText ++ ascii "0\r\n\r\n" ++ rest

/-- Buffers that a chunk can be made of. -/
def Writable (bufs : List (List UInt8)) : Prop := ∀ buf ∈ bufs, buf ≠ [] ∧ buf.length < 2 ^ 32

/-- Within a chunk: its bytes, a line end and the other chunks follow. -/
def Inside (rest content : List UInt8) (b : HTTPChunkedStreamBuf) : Prop :=
  ∃ payload bufs, payload ≠ [] ∧ Writable bufs ∧ b._chunk = payload.length ∧
    b._session.incoming = payload ++ ascii "\r\n" ++ chunksText bufs rest ∧
    content = payload ++ bufs.flatten

/-- Between two chunks: the line end of the last one may still have to be read. -/
def Between (rest content : List UInt8) (b : HTTPChunkedStreamBuf) : Prop :=
  ∃ ws bufs, (∀ c ∈ ws, Foundation.Hex.isSpace c = true) ∧ Writable bufs ∧ b._chunk = 0 ∧
    b._session.incoming = ws ++ chunksText bufs rest ∧ content = bufs.flatten

/-- Behind the last chunk. -/
def Ended (rest : List UInt8) (b : HTTPChunkedStreamBuf) : Prop :=
  b._chunk = -1 ∧ b._session.incoming = rest

section

variable {decodeRFC2047 : List UInt8 → List UInt8} {rest content : List UInt8} {b : HTTPChunkedStreamBuf}
  {n : ℕ}

theorem Inside.readContent_eq (h : Inside rest content b) (hn : 0 < n) :
    ∃ bytes content' b', readContent decodeRFC2047 n b = .ok (some bytes) b' ∧ bytes ≠ [] ∧
      content = bytes ++ content' ∧ (Inside rest content' b' ∨ Between rest content' b') := by
  obtain ⟨payload, bufs, hne, hbufs, hchunk, hin, rfl⟩ := h
  have hpos := List.length_pos_iff.mpr hne
  have hlen : 0 < min n b._chunk.toNat := by omega
  have hincoming : b._session.incoming ≠ [] := by simp [hin, hne]
  obtain ⟨bytes, s', hread, hbytes, hle, heq⟩ := HTTPSession.read_spec hlen hincoming
  -- the bytes are the first ones of the chunk
  obtain ⟨payload', rfl⟩ : bytes <+: payload := by
    have hbefore : bytes <+: b._session.incoming := ⟨_, heq.symm⟩
    have hpayload : payload <+: b._session.incoming := by
      rw [hin, List.append_assoc]
      exact List.prefix_append _ _
    exact List.prefix_of_prefix_length_le hbefore hpayload (by omega)
  refine ⟨bytes, payload' ++ bufs.flatten, { b with _session := s', _chunk := b._chunk - bytes.length },
    ?_, hbytes, List.append_assoc _ _ _, ?_⟩
  · rw [readContent, get_bind, if_pos (by omega)]
    simp only [hread]
    rw [if_pos hbytes]
    rfl
  · have hin' : s'.incoming = payload' ++ ascii "\r\n" ++ chunksText bufs rest := by
      rw [hin, List.append_assoc, List.append_assoc] at heq
      rw [← List.append_cancel_left heq, List.append_assoc]
    rw [List.length_append] at hchunk
    by_cases hlast : payload' = []
    · subst hlast
      have hspace : (ascii "\r\n").all Foundation.Hex.isSpace = true := by decide
      refine .inr ⟨ascii "\r\n", bufs, List.all_eq_true.mp hspace, hbufs, ?_, by simpa using hin', by simp⟩
      show b._chunk - bytes.length = 0
      rw [hchunk]
      simp
    · refine .inl ⟨payload', bufs, hlast, hbufs, ?_, hin', rfl⟩
      show b._chunk - bytes.length = payload'.length
      rw [hchunk]
      push_cast
      omega

theorem nextChunk_of_ne_zero (h : b._chunk ≠ 0) : nextChunk b = .ok true b := by
  simp [nextChunk, h]

theorem Between.nextChunk_eq (h : Between rest content b) (hne : content ≠ []) :
    ∃ b', nextChunk b = .ok true b' ∧ Inside rest content b' := by
  obtain ⟨ws, bufs, hws, hbufs, hchunk, hin, rfl⟩ := h
  cases bufs with
  | nil => exact absurd rfl hne
  | cons buf bufs =>
      obtain ⟨hbuf, hbufs⟩ := List.forall_mem_cons.mp hbufs
      have hsplit : b._session.incoming =
          ws ++ lengthLine buf.length ++ (buf ++ ascii "\r\n" ++ chunksText bufs rest) := by
        rw [hin]
        simp [chunksText, chunkText]
      obtain ⟨s', hnext, hin'⟩ := HTTPChunkedStreamBuf.nextChunk_eq hbuf.2 hsplit hws hchunk
      exact ⟨_, hnext, buf, bufs, hbuf.1, hbufs, rfl, hin', rfl⟩

theorem readTrailer_eq (decodeRFC2047 : List UInt8 → List UInt8) (h : b._session.incoming = ascii "\r\n" ++ rest) :
    ∃ s', readTrailer decodeRFC2047 b = .ok () { b with _session := s' } ∧ s'.incoming = rest := by
  obtain ⟨s₀, hpeek, hin₀⟩ := HTTPSession.peek_spec (c := chr '\r') h (by decide)
  have hcrlf : s₀.incoming = ascii "\r\n" ++ rest := hin₀
  obtain ⟨s', hreads, hin'⟩ := HTTPSession.reads_incoming hcrlf (by decide)
  obtain ⟨ch, s₁, hbump, ha⟩ := bump_ahead (ε := MessageError) hreads (by decide)
  have hline : Ahead ch s₁ ([chr '\r'] ++ chr '\n' :: []) s' := ha
  obtain ⟨s₂, hcollect, ha₂⟩ := hline.collect (ε := MessageError) (p := fun c => c != chr '\n')
    (n := b._session.incoming.length) (List.forall_mem_singleton.mpr (by decide)) (by decide)
    (by simp [h, ascii])
  obtain rfl : s₂ = s' := by
    obtain ⟨_, _, hcons, -, hnil⟩ := ha₂
    obtain ⟨-, rfl⟩ := List.cons.inj hcons
    exact hnil.symm
  refine ⟨s₂, ?_, hin'⟩
  rw [readTrailer]
  simp only [hpeek]
  rw [if_neg (by decide), bind_of_ok hbump, hcollect]

theorem Between.done (h : Between rest [] b) :
    ∃ b', readFromDevice decodeRFC2047 n b = .ok (some []) b' ∧ Ended rest b' := by
  obtain ⟨ws, bufs, hws, hbufs, hchunk, hin, hcontent⟩ := h
  have hnil : bufs = [] := by
    cases bufs with
    | nil => rfl
    | cons buf bufs =>
        have hbuf := (hbufs buf List.mem_cons_self).1
        rw [List.flatten_cons] at hcontent
        exact absurd (List.append_eq_nil_iff.mp hcontent.symm).1 hbuf
  subst hnil
  have hsplit : b._session.incoming = ws ++ lengthLine 0 ++ (ascii "\r\n" ++ rest) := by
    have hzero : ascii "0\r\n\r\n" = lengthLine 0 ++ ascii "\r\n" := by decide
    rw [hin, chunksText, hzero]
    simp
  obtain ⟨s₁, hnext, hin₁⟩ := HTTPChunkedStreamBuf.nextChunk_eq (by decide) hsplit hws hchunk
  obtain ⟨s', htrailer, hin'⟩ := readTrailer_eq (b := ⟨s₁, (0 : ℕ), b._pTrailer⟩) decodeRFC2047 hin₁
  refine ⟨⟨s', -1, b._pTrailer⟩, ?_, rfl, hin'⟩
  rw [readFromDevice, bind_of_ok hnext, if_pos rfl, readContent, get_bind, if_neg (by simp),
    if_pos (by simp), bind_of_ok htrailer]
  rfl

theorem Ended.eof (h : Ended rest b) : readFromDevice decodeRFC2047 n b = .ok none b := by
  have hne : b._chunk ≠ 0 := by
    rw [h.1]
    decide
  rw [readFromDevice, bind_of_ok (nextChunk_of_ne_zero hne), if_pos rfl, readContent, get_bind,
    if_neg (by rw [h.1]; decide), if_neg hne]
  rfl

/-- A reader returns the content of the chunks, whatever the lengths of the calls are. -/
theorem supplies_chunks (decodeRFC2047 : List UInt8 → List UInt8) (rest : List UInt8) :
    BufferedStreamBuf.Supplies (readFromDevice decodeRFC2047)
      (fun content b => Inside rest content b ∨ Between rest content b) (Ended rest) where
  some := by
    rintro content b n (hinside | hbetween) hne hn
    · have hchunk : b._chunk ≠ 0 := by
        obtain ⟨payload, -, hpayload, -, hchunk, -⟩ := hinside
        have hpos := List.length_pos_iff.mpr hpayload
        omega
      obtain ⟨bytes, content', b', hread, hrest⟩ := hinside.readContent_eq hn
      refine ⟨bytes, content', b', ?_, hrest⟩
      rw [readFromDevice, bind_of_ok (nextChunk_of_ne_zero hchunk), if_pos rfl]
      exact hread
    · obtain ⟨b₁, hnext, hinside⟩ := hbetween.nextChunk_eq hne
      obtain ⟨bytes, content', b', hread, hrest⟩ := hinside.readContent_eq hn
      refine ⟨bytes, content', b', ?_, hrest⟩
      rw [readFromDevice, bind_of_ok hnext, if_pos rfl]
      exact hread
  done := by
    rintro b n (hinside | hbetween) -
    · obtain ⟨payload, bufs, hpayload, -, -, -, hcontent⟩ := hinside
      exact absurd (List.append_eq_nil_iff.mp hcontent.symm).1 hpayload
    · obtain ⟨b', hread, hended⟩ := hbetween.done
      exact ⟨some [], b', hread, rfl, hended⟩
  eof := fun h => ⟨none, h.eof, rfl⟩

end

/-! ### Round trip -/

theorem foldl_writeToDevice (bufs : List (List UInt8)) (d : HTTPChunkedStreamBuf) :
    bufs.foldl (fun d buf => writeToDevice buf d) d =
      { d with _session := d._session.write (bufs.flatMap chunkText) } := by
  induction bufs generalizing d with
  | nil => simp [HTTPSession.write]
  | cons buf bufs ih =>
      rw [List.foldl_cons, ih]
      simp [writeToDevice, HTTPSession.write, chunkText, lengthLine, appendHex]

/-- The operations of an output stream hand what they write to the device in buffers. -/
theorem flushes_steps {b : BufferedStreamBuf HTTPChunkedStreamBuf} (hput : b.put = [])
    (hsize : b._bufsize = HTTPBufferAllocator.BUFFER_SIZE) (ops : List Op) :
    BufferedStreamBuf.Flushes writeToDevice b (written ops) (ops.foldl step b) := by
  induction ops using List.reverseRecOn with
  | nil => exact BufferedStreamBuf.flushes_nil (by simp [hput])
  | append_singleton ops op ih =>
      obtain ⟨-, -, -, -, hle, hsame⟩ := id ih
      rw [← hsame] at hle
      have hpos : 0 < (ops.foldl step b)._bufsize := by
        rw [hsame, hsize]
        decide
      rw [List.foldl_append, written, List.flatMap_append]
      refine ih.trans ?_
      cases op with
      | write bytes =>
          rw [List.flatMap_singleton]
          exact BufferedStreamBuf.flushes_sputn hpos hle bytes
      | flush => exact (BufferedStreamBuf.flushes_sync hle).1

theorem writeEnd_eq {d : HTTPChunkedStreamBuf} (h : ∀ t ∈ d._pTrailer, t._map = []) :
    writeEnd d = { d with _session := d._session.write (ascii "0\r\n\r\n") } := by
  rw [writeEnd]
  split
  · rename_i trailer htrailer
    rw [if_neg (not_not.mpr (h trailer htrailer))]
  · rfl

/-- A stream that is closed behind the operations has sent the chunks of some buffers and the end. -/
theorem close_steps {b : BufferedStreamBuf HTTPChunkedStreamBuf} (hput : b.put = [])
    (hsize : b._bufsize = HTTPBufferAllocator.BUFFER_SIZE) (htrailer : ∀ t ∈ b.device._pTrailer, t._map = [])
    (ops : List Op) :
    ∃ bufs, Writable bufs ∧ bufs.flatten = written ops ∧
      (close (ops.foldl step b)).device =
        { b.device with _session := b.device._session.write (chunksText bufs []) } := by
  have hsteps := flushes_steps hput hsize ops
  obtain ⟨-, -, -, -, hle, hsame⟩ := id hsteps
  rw [← hsame] at hle
  obtain ⟨hsync, hnil⟩ : BufferedStreamBuf.Flushes writeToDevice (ops.foldl step b) []
      (BufferedStreamBuf.sync writeToDevice (ops.foldl step b)) ∧ _ :=
    BufferedStreamBuf.flushes_sync hle
  obtain ⟨bufs, hbufs, hdevice, hflatten, -⟩ := hsteps.trans hsync
  refine ⟨bufs, ?_, ?_, ?_⟩
  · intro buf hbuf
    obtain ⟨hne, hfit⟩ := hbufs buf hbuf
    rw [hsize] at hfit
    exact ⟨hne, hfit.trans_lt (by decide)⟩
  · rw [hnil, List.append_nil] at hflatten
    simpa [hput] using hflatten
  · rw [foldl_writeToDevice] at hdevice
    rw [close]
    dsimp only
    have hend : writeEnd ⟨b.device._session.write (bufs.flatMap chunkText), b.device._chunk, b.device._pTrailer⟩ = _ :=
      writeEnd_eq htrailer
    rw [hdevice, hend, chunksText, List.append_nil]
    simp [HTTPSession.write]

/-- Everything that has been sent is the chunks of some buffers and the end. -/
theorem sent_eq (ops : List Op) :
    ∃ bufs, Writable bufs ∧ bufs.flatten = written ops ∧ sent ops = chunksText bufs [] := by
  obtain ⟨bufs, hbufs, hflatten, hdevice⟩ := close_steps (b := create) rfl rfl (by simp [create]) ops
  refine ⟨bufs, hbufs, hflatten, ?_⟩
  rw [sent, hdevice]
  exact List.nil_append _

/-- A new input stream, with the bytes as they arrive. -/
def openInput (pieces : List (List UInt8)) (trailer : Option MessageHeader) :
    BufferedStreamBuf HTTPChunkedStreamBuf where
  device := { _session := { _socket := pieces }, _pTrailer := trailer }
  _bufsize := HTTPBufferAllocator.BUFFER_SIZE

/-- **Main result.** Reading what an output stream has sent gives back what has been written, piece by
piece for any sizes, and then the end of the stream, behind the last chunk and its empty line; the same
holds for the calls of the device with any lengths. -/
theorem read_sent (decodeRFC2047 : List UInt8 → List UInt8) (trailer : Option MessageHeader)
    (ops : List Op) (rest : List UInt8) (pieces : List (List UInt8))
    (hpieces : pieces.flatten = sent ops ++ rest) :
    (∀ sizes : List ℕ, ∃ b',
        BufferedStreamBuf.readSizes (readFromDevice decodeRFC2047) sizes (openInput pieces trailer) =
            .ok (BufferedStreamBuf.slices sizes (written ops)) b' ∧
          ((written ops).length < sizes.sum →
            b'.get = [] ∧ b'.device._session.incoming = rest)) ∧
      ∀ lengths : List ℕ, (∀ n ∈ lengths, 0 < n) → ∃ out left b',
        BufferedStreamBuf.readLengths (readFromDevice decodeRFC2047) lengths
            (openInput pieces trailer).device = .ok out b' ∧
          written ops = out ++ left ∧
          ((written ops).length < lengths.length → left = [] ∧ b'._session.incoming = rest) := by
  obtain ⟨bufs, hbufs, hflatten, hsent⟩ := sent_eq ops
  have hread := supplies_chunks decodeRFC2047 rest
  have hstart : Between rest (written ops) (openInput pieces trailer).device := by
    refine ⟨[], bufs, by simp, hbufs, rfl, ?_, hflatten.symm⟩
    show [] ++ pieces.flatten = _
    rw [hpieces, hsent]
    simp [chunksText]
  constructor
  · intro sizes
    obtain ⟨b', hok, hend⟩ := BufferedStreamBuf.readSizes_eq hread (b := openInput pieces trailer)
      ⟨written ops, rfl, .inr hstart⟩ (by decide : 4 < HTTPBufferAllocator.BUFFER_SIZE) sizes
    refine ⟨b', hok, fun hlt => ?_⟩
    obtain ⟨hget, -, hin⟩ := hend hlt
    exact ⟨hget, hin⟩
  · intro lengths hlengths
    obtain ⟨out, left, b', hok, heq, hend⟩ := BufferedStreamBuf.readLengths_eq hread (.inr hstart) hlengths
    refine ⟨out, left, b', hok, heq, fun hlt => ?_⟩
    obtain ⟨hleft, -, hin⟩ := hend hlt
    exact ⟨hleft, hin⟩

/-- Two chunks, the second one with a byte 0xFF, that arrive in three pieces; the next response follows. -/
theorem read_sent_pieces :
    [ascii "1\r", ascii "\nA\r\n2\r\n" ++ [0xFF], [0x42] ++ ascii "\r\n0\r\n\r\nHTTP"].flatten =
        sent [.write [0x41], .flush, .write [0xFF, 0x42]] ++ ascii "HTTP" ∧
      ∃ b', BufferedStreamBuf.readSizes (readFromDevice id) [2, 2]
          (openInput
            [ascii "1\r", ascii "\nA\r\n2\r\n" ++ [0xFF], [0x42] ++ ascii "\r\n0\r\n\r\nHTTP"] none) =
        .ok [[0x41, 0xFF], [0x42]] b' ∧ b'.get = [] ∧ b'.device._session.incoming = ascii "HTTP" := by
  have hpieces : [ascii "1\r", ascii "\nA\r\n2\r\n" ++ [0xFF],
      [0x42] ++ ascii "\r\n0\r\n\r\nHTTP"].flatten =
        sent [.write [0x41], .flush, .write [0xFF, 0x42]] ++ ascii "HTTP" := by decide
  obtain ⟨b', hok, hend⟩ := (read_sent id none _ _ _ hpieces).1 [2, 2]
  exact ⟨hpieces, b', hok, hend (by decide)⟩

end HTTPChunkedStreamBuf

end Poco.Net
