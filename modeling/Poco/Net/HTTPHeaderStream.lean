import Poco.Foundation.BufferedStreamBuf
import Poco.Net.HTTPSession

/-! # `HTTPHeaderStream`

The streams through which the start line and the fields of an HTTP message go.  What is written is sent as
it is.  The reader takes a line at a time, in blocks that fit the buffer, and ends behind a block of two
bytes, which should be the empty line of the header.

That block may also be the end of a long line, because the length of the block is looked at and not that of
the line: the header ends with the first line whose length leaves 2 when it is divided by that of a block
(`EndsHeader`), as `reads_header` says for any header and any pieces in which it arrives. -/

namespace Poco.Net

open Poco.Lib

open Poco.Foundation (BufferedStreamBuf)

namespace HTTPHeaderStreamBuf

/-! ### Writing -/

/-- What is sent by an `HTTPHeaderOutputStream` to which the text is written. -/
def send (text : List UInt8) (session : HTTPSession) : HTTPSession :=
  let writeToDevice (buffer : List UInt8) (session : HTTPSession) := session.write buffer
  let b : BufferedStreamBuf HTTPSession := { device := session, _bufsize := HTTPBufferAllocator.BUFFER_SIZE }
  ((b.sputn writeToDevice text).sync writeToDevice).device

theorem foldl_write (bufs : List (List UInt8)) (session : HTTPSession) :
    bufs.foldl (fun d buf => d.write buf) session = session.write bufs.flatten := by
  induction bufs generalizing session with
  | nil => simp [HTTPSession.write]
  | cons buf bufs ih =>
      rw [List.foldl_cons, ih, List.flatten_cons]
      simp [HTTPSession.write]

theorem send_eq (text : List UInt8) (session : HTTPSession) : send text session = session.write text := by
  have hput : BufferedStreamBuf.Flushes (fun buffer session => HTTPSession.write session buffer)
      { device := session, _bufsize := HTTPBufferAllocator.BUFFER_SIZE } text _ :=
    BufferedStreamBuf.flushes_sputn (show 0 < HTTPBufferAllocator.BUFFER_SIZE by decide) (by simp) text
  obtain ⟨-, -, -, -, hle, hsize⟩ := id hput
  obtain ⟨hsync, hnil⟩ :
      BufferedStreamBuf.Flushes (fun buffer session => HTTPSession.write session buffer) _ [] _ ∧ _ :=
    BufferedStreamBuf.flushes_sync (hle.trans_eq hsize.symm)
  obtain ⟨bufs, -, hdevice, hflatten, -⟩ := hput.trans hsync
  rw [hnil, List.append_nil, List.append_nil, List.nil_append] at hflatten
  rw [send, hdevice, foldl_write, hflatten]

/-! ### Reading -/

/-- The length of a block of `readFromDevice`. -/
def blockSize : ℕ := HTTPBufferAllocator.BUFFER_SIZE - 4

/-- A line without its end; the byte 0xFF would be taken for the end of file. -/
def IsLine (line : List UInt8) : Prop := chr '\n' ∉ line ∧ 0xFF ∉ line

/-- The last block of the line, with its end, has two bytes. -/
def EndsHeader (line : List UInt8) : Prop := (line.length + 1) % blockSize = 2

instance (line : List UInt8) : Decidable (IsLine line) := inferInstanceAs (Decidable (_ ∧ _))

instance (line : List UInt8) : Decidable (EndsHeader line) := inferInstanceAs (Decidable (_ = _))

variable {b b' : HTTPHeaderStreamBuf} {line rest : List UInt8} {n : ℕ}

/-- The text of a list of lines. -/
def linesText (lines : List (List UInt8)) : List UInt8 := lines.flatMap (· ++ [chr '\n'])

theorem IsLine.all (h : IsLine line) : ∀ c ∈ line, (c != chr '\n') = true :=
  fun _ hc => bne_iff_ne.mpr fun heq => h.1 (heq ▸ hc)

/-- A line that fits the buffer is returned with its end. -/
theorem readFromDevice_line (hline : IsLine line) (hend : b._end = false)
    (h : b._session.incoming = line ++ chr '\n' :: rest) (hn : line.length < n) :
    ∃ s', readFromDevice n b = (line ++ [chr '\n'], { b with _session := s', _end := line.length == 1 }) ∧
      s'.incoming = rest := by
  have hff : 0xFF ∉ line ++ [chr '\n'] := by simpa using ⟨hline.2, by decide⟩
  rw [List.append_cons] at h
  obtain ⟨s', hreads, hin⟩ := HTTPSession.reads_incoming h hff
  obtain ⟨ch, s₀, hbump, ha⟩ := bump_ahead (ε := MessageError) hreads (by simp)
  obtain ⟨s₁, hcollect, ha₁⟩ := ha.collect (ε := MessageError) (n := n - 1) hline.all (by decide) (by omega)
  obtain rfl : s' = s₁ := ha₁.reads
  refine ⟨s', ?_, hin⟩
  rw [readFromDevice, hend, if_neg (by decide)]
  dsimp only
  rw [bind_of_ok hbump, hcollect]
  simp

theorem readFromDevice_block {block : List UInt8} (hblock : IsLine block) (hend : b._end = false)
    (h : b._session.incoming = block ++ rest) (hn : block.length = n) (hlen : 2 < n) :
    ∃ s', readFromDevice n b = (block, { b with _session := s' }) ∧ s'.incoming = rest := by
  have hne : block ≠ [] := by
    rintro rfl
    rw [List.length_nil] at hn
    omega
  obtain ⟨init, c, rfl⟩ : ∃ init c, block = init ++ [c] :=
    ⟨block.dropLast, block.getLast hne, (List.dropLast_append_getLast hne).symm⟩
  rw [List.length_append, List.length_singleton] at hn
  obtain ⟨s', hreads, hin⟩ := HTTPSession.reads_incoming h hblock.2
  obtain ⟨ch, s₀, hbump, ha⟩ := bump_ahead (ε := MessageError) hreads (by simp)
  have hinit : ∀ d ∈ init, (d != chr '\n') = true := fun d hd => hblock.all d (List.mem_append_left _ hd)
  obtain ⟨s₁, hcollect, ha₁⟩ := ha.collect_full (ε := MessageError) hinit
  obtain rfl : s' = s₁ := ha₁.reads
  have hinitLen : n - 1 = init.length := by omega
  have htwo : ((init ++ [c]).length == 2) = false := by
    rw [List.length_append, List.length_singleton, hn]
    exact beq_eq_false_iff_ne.mpr (by omega)
  refine ⟨s', ?_, hin⟩
  rw [readFromDevice, hend, if_neg (by decide)]
  dsimp only
  rw [bind_of_ok hbump, hinitLen, hcollect]
  dsimp only
  rw [htwo]
  rfl

theorem reads_get {bs left : List UInt8} (h : b.get = bs ++ left) : Reads b bs { b with get := left } := by
  induction bs generalizing b with
  | nil =>
      rw [List.nil_append] at h
      subst h
      rfl
  | cons c bs ih =>
      refine ⟨{ b with get := bs ++ left }, ?_, ih rfl⟩
      simp only [Source.sbumpc, h, List.cons_append]

theorem reads_block {block : List UInt8} (hget : b.get = []) (hne : block ≠ [])
    (h : readFromDevice blockSize b = (block, b')) (hget' : b'.get = []) : Reads b block b' := by
  obtain ⟨c, block, rfl⟩ := List.exists_cons_of_ne_nil hne
  have hstep : Source.sbumpc b = (some c, { b' with get := block }) := by
    simp only [Source.sbumpc, hget]
    rw [show HTTPBufferAllocator.BUFFER_SIZE - 4 = blockSize from rfl, h]
  refine ⟨_, hstep, ?_⟩
  have hrest : Reads { b' with get := block } block { b' with get := [] } := reads_get (by simp)
  obtain ⟨session, ended, get⟩ := b'
  obtain rfl : get = [] := hget'
  exact hrest

theorem reads_line {session : HTTPSession} (hline : IsLine line)
    (h : session.incoming = line ++ chr '\n' :: rest) :
    ∃ s', Reads ({ _session := session } : HTTPHeaderStreamBuf) (line ++ [chr '\n'])
        { _session := s', _end := decide (EndsHeader line) } ∧ s'.incoming = rest := by
  have hsize : blockSize = 4092 := rfl
  induction hlen : line.length using Nat.strong_induction_on generalizing line session with
  | _ len ih =>
      by_cases hshort : line.length < blockSize
      · obtain ⟨s', hread, hin⟩ := readFromDevice_line (b := { _session := session }) hline rfl h hshort
        have hends : (line.length == 1) = decide (EndsHeader line) := by
          rw [Bool.eq_iff_iff, beq_iff_eq, decide_eq_true_iff, EndsHeader, hsize]
          omega
        rw [hends] at hread
        exact ⟨s', reads_block rfl (by simp) hread rfl, hin⟩
      · have hblock : IsLine (line.take blockSize) :=
          ⟨fun hmem => hline.1 (List.mem_of_mem_take hmem), fun hmem => hline.2 (List.mem_of_mem_take hmem)⟩
        have hrest : IsLine (line.drop blockSize) :=
          ⟨fun hmem => hline.1 (List.mem_of_mem_drop hmem), fun hmem => hline.2 (List.mem_of_mem_drop hmem)⟩
        rw [← List.take_append_drop blockSize line, List.append_assoc] at h
        obtain ⟨s₁, hread, hin₁⟩ := readFromDevice_block (b := { _session := session }) hblock rfl h
          (List.length_take_of_le (not_lt.mp hshort)) (by decide)
        obtain ⟨s', hreads, hin'⟩ := ih _ (by rw [List.length_drop]; omega) hrest hin₁ rfl
        have hne : line.take blockSize ≠ [] := by
          rw [Ne, List.take_eq_nil_iff]
          rintro (hzero | rfl)
          · cases hzero
          · simp [hsize] at hshort
        have hends : EndsHeader (line.drop blockSize) ↔ EndsHeader line := by
          rw [EndsHeader, EndsHeader, List.length_drop, hsize]
          omega
        refine ⟨s', ?_, hin'⟩
        have hboth := (reads_block rfl hne hread rfl).append hreads
        rw [← List.append_assoc, List.take_append_drop] at hboth
        simpa only [hends] using hboth

theorem reads_lines {lines : List (List UInt8)} (hlines : ∀ line ∈ lines, IsLine line ∧ ¬EndsHeader line)
    {session : HTTPSession} (h : session.incoming = linesText lines ++ rest) :
    ∃ s', Reads ({ _session := session } : HTTPHeaderStreamBuf) (linesText lines) { _session := s' } ∧
      s'.incoming = rest := by
  induction lines generalizing session with
  | nil => exact ⟨session, rfl, h⟩
  | cons line lines ih =>
      obtain ⟨⟨hline, hends⟩, hlines⟩ := List.forall_mem_cons.mp hlines
      have hfirst : session.incoming = line ++ chr '\n' :: (linesText lines ++ rest) := by
        rw [h, linesText, List.flatMap_cons, List.append_assoc, List.append_assoc]
        rfl
      obtain ⟨s₁, hreads₁, hin₁⟩ := reads_line hline hfirst
      rw [decide_eq_false hends] at hreads₁
      obtain ⟨s', hreads, hin⟩ := ih hlines hin₁
      exact ⟨s', hreads₁.append hreads, hin⟩

/-- **Main result.** The stream returns the lines of a header up to the first one that leaves 2 when its
length, with the end of the line, is divided by that of a block, and then the end of file.  What follows
stays in the session. -/
theorem reads_header {lines : List (List UInt8)} {last : List UInt8} {session : HTTPSession}
    (hlines : ∀ line ∈ lines, IsLine line ∧ ¬EndsHeader line) (hlast : IsLine last) (hends : EndsHeader last)
    (h : session.incoming = linesText (lines ++ [last]) ++ rest) :
    ∃ b' : HTTPHeaderStreamBuf,
      Reads ({ _session := session } : HTTPHeaderStreamBuf) (linesText (lines ++ [last])) b' ∧
        Source.sbumpc b' = (none, b') ∧ b'._session.incoming = rest := by
  have htext : linesText (lines ++ [last]) = linesText lines ++ (last ++ [chr '\n']) := by
    rw [linesText, List.flatMap_append, List.flatMap_singleton]
    rfl
  rw [htext, List.append_assoc, List.append_assoc] at h
  obtain ⟨s₁, hreads₁, hin₁⟩ := reads_lines hlines h
  obtain ⟨s', hreads, hin⟩ := reads_line hlast hin₁
  rw [decide_eq_true hends] at hreads
  rw [htext]
  exact ⟨_, hreads₁.append hreads, rfl, hin⟩

/-- A header in two pieces, the second of which begins within a line; the body follows. -/
theorem reads_header_pieces :
    ∃ b' : HTTPHeaderStreamBuf,
      Reads ({ _session := { _socket := [ascii "GET / HTTP/1.1\r\nHo", ascii "st: a\r\n\r\nbody"] } } :
          HTTPHeaderStreamBuf) (linesText ([ascii "GET / HTTP/1.1\r", ascii "Host: a\r"] ++ [ascii "\r"])) b' ∧
        Source.sbumpc b' = (none, b') ∧ b'._session.incoming = ascii "body" :=
  reads_header (by decide) (by decide) (by decide) (by decide)

end HTTPHeaderStreamBuf

end Poco.Net
