import Poco.Lib.Streams
import Mathlib.Algebra.Ring.Nat

/-! # `BufferedStreamBuf`

The buffered stream buffer, for any device.  On the way out the put area is handed to the device when
it is full or the stream is synchronised: the device gets the bytes in buffers that are not empty and
not longer than the put area (`Flushes`).  On the way in the get area is filled from the device when it
is empty.

A device `Supplies` the bytes of a text if every call returns some of them until there are none.  Then
reading with any sequence of sizes returns the text piece by piece (`readSizes_eq`). -/

namespace Poco.Foundation

open Poco.Lib

/-- The members of `BasicBufferedStreamBuf`: the device behind it, what is in the put area and what is
left in the get area. -/
structure BufferedStreamBuf (δ : Type) where
  device : δ
  _bufsize : ℕ
  put : List UInt8 := []
  get : List UInt8 := []

namespace BufferedStreamBuf

variable {δ ε : Type}

/-! ### Writing -/

section Write

variable (write : List UInt8 → δ → δ)

/-- `flushBuffer`, for a device that takes all bytes. -/
def flushBuffer (b : BufferedStreamBuf δ) : BufferedStreamBuf δ :=
  { b with device := write b.put b.device, put := [] }

/-- `sputc`, which calls `overflow` when the put area is full. -/
def sputc (b : BufferedStreamBuf δ) (c : UInt8) : BufferedStreamBuf δ :=
  if b.put.length < b._bufsize then { b with put := b.put ++ [c] }
  else
    let b := flushBuffer write b
    { b with put := b.put ++ [c] }

/-- `sputn`. -/
def sputn (b : BufferedStreamBuf δ) (s : List UInt8) : BufferedStreamBuf δ := s.foldl (sputc write) b

/-- `sync`. -/
def sync (b : BufferedStreamBuf δ) : BufferedStreamBuf δ :=
  if b.put ≠ [] then flushBuffer write b else b

/-- From `b` to `b'` the bytes `s` have been written, some of them to the device. -/
def Flushes (b : BufferedStreamBuf δ) (s : List UInt8) (b' : BufferedStreamBuf δ) : Prop :=
  ∃ bufs : List (List UInt8), (∀ buf ∈ bufs, buf ≠ [] ∧ buf.length ≤ b._bufsize) ∧
    b'.device = bufs.foldl (fun d buf => write buf d) b.device ∧ bufs.flatten ++ b'.put = b.put ++ s ∧
    b'.put.length ≤ b._bufsize ∧ b'._bufsize = b._bufsize

variable {write} {b b' b'' : BufferedStreamBuf δ} {s s' : List UInt8}

theorem flushes_nil (h : b.put.length ≤ b._bufsize) : Flushes write b [] b :=
  ⟨[], by simp, rfl, by simp, h, rfl⟩

theorem Flushes.trans (h : Flushes write b s b') (h' : Flushes write b' s' b'') :
    Flushes write b (s ++ s') b'' := by
  obtain ⟨bufs, hbufs, hdevice, hput, -, hsize⟩ := h
  obtain ⟨bufs', hbufs', hdevice', hput', hlen', hsize'⟩ := h'
  rw [hsize] at hbufs' hlen' hsize'
  refine ⟨bufs ++ bufs', ?_, ?_, ?_, hlen', hsize'⟩
  · intro buf hbuf
    rcases List.mem_append.mp hbuf with hbuf | hbuf
    · exact hbufs buf hbuf
    · exact hbufs' buf hbuf
  · rw [hdevice', hdevice, List.foldl_append]
  · rw [List.flatten_append, List.append_assoc, hput', ← List.append_assoc, hput, List.append_assoc]

theorem flushes_flushBuffer (hne : b.put ≠ []) (h : b.put.length ≤ b._bufsize) :
    Flushes write b [] (flushBuffer write b) :=
  ⟨[b.put], by simpa using ⟨hne, h⟩, rfl, by simp [flushBuffer], by simp [flushBuffer], rfl⟩

theorem flushes_sputc (hsize : 0 < b._bufsize) (h : b.put.length ≤ b._bufsize) (c : UInt8) :
    Flushes write b [c] (sputc write b c) := by
  rw [sputc]
  split_ifs with hlt
  · exact ⟨[], by simp, rfl, by simp, by simp; omega, rfl⟩
  · have hne : b.put ≠ [] := by
      rintro hnil
      rw [hnil, List.length_nil] at hlt
      omega
    exact ⟨[b.put], by simpa using ⟨hne, h⟩, rfl, by simp [flushBuffer], by simpa [flushBuffer], rfl⟩

theorem flushes_sputn (hsize : 0 < b._bufsize) (h : b.put.length ≤ b._bufsize) (s : List UInt8) :
    Flushes write b s (sputn write b s) := by
  induction s generalizing b with
  | nil => exact flushes_nil h
  | cons c s ih =>
      have hc : Flushes write b [c] (sputc write b c) := flushes_sputc hsize h c
      obtain ⟨-, -, -, -, hput, hsize'⟩ := id hc
      rw [← hsize'] at hput hsize
      exact hc.trans (ih hsize hput)

theorem flushes_sync (h : b.put.length ≤ b._bufsize) :
    Flushes write b [] (sync write b) ∧ (sync write b).put = [] := by
  rw [sync]
  split_ifs with hne
  · exact ⟨flushes_flushBuffer hne h, rfl⟩
  · exact ⟨flushes_nil h, not_not.mp hne⟩

end Write

/-! ### Reading -/

section Read

variable (read : ℕ → EStateM ε δ (Option (List UInt8)))

/-- `underflow`: whether there are bytes in the get area. -/
def underflow : EStateM ε (BufferedStreamBuf δ) Bool := fun b =>
  if b.get ≠ [] then .ok true b
  else
    match read (b._bufsize - 4) b.device with
    | .ok bytes device =>
        if bytes.getD [] = [] then .ok false { b with device }
        else .ok true { b with device, get := bytes.getD [] }
    | .error e device => .error e { b with device }

/-- The loop of `xsgetn`; a round fills the get area or takes bytes from it. -/
def xsgetn : ℕ → ℕ → EStateM ε (BufferedStreamBuf δ) (List UInt8)
  | 0, _ => return []
  | fuel + 1, length =>
      if length = 0 then return []
      else do
        let b ← MonadState.get
        if b.get ≠ [] then
          set { b with get := b.get.drop length }
          let more ← xsgetn fuel (length - b.get.length)
          return b.get.take length ++ more
        else if ← underflow read then xsgetn fuel length
        else return []

/-- `sgetn`. -/
def sgetn (length : ℕ) : EStateM ε (BufferedStreamBuf δ) (List UInt8) :=
  xsgetn read (2 * length + 1) length

/-- One read after another. -/
def readSizes : List ℕ → EStateM ε (BufferedStreamBuf δ) (List (List UInt8))
  | [] => return []
  | n :: ns => do
      let bytes ← sgetn read n
      let more ← readSizes ns
      return bytes :: more

/-- What one call of the device after another returns. -/
def readLengths : List ℕ → EStateM ε δ (List UInt8)
  | [] => return []
  | n :: ns => do
      let bytes ← read n
      let more ← readLengths ns
      return bytes.getD [] ++ more

/-- The pieces of a text of the given sizes; behind its end they are empty. -/
def slices : List ℕ → List UInt8 → List (List UInt8)
  | [], _ => []
  | n :: ns, content => content.take n :: slices ns (content.drop n)

end Read

/-- The device returns the bytes of a text: `P` describes it with the text that is left, and `E` behind
the end. -/
structure Supplies (read : ℕ → EStateM ε δ (Option (List UInt8))) (P : List UInt8 → δ → Prop)
    (E : δ → Prop) : Prop where
  some : ∀ {content d n}, P content d → content ≠ [] → 0 < n →
    ∃ bytes content' d', read n d = .ok (some bytes) d' ∧ bytes ≠ [] ∧ content = bytes ++ content' ∧
      P content' d'
  done : ∀ {d n}, P [] d → 0 < n → ∃ bytes d', read n d = .ok bytes d' ∧ bytes.getD [] = [] ∧ E d'
  eof : ∀ {d n}, E d → ∃ bytes, read n d = .ok bytes d ∧ bytes.getD [] = []

section Spec

variable {read : ℕ → EStateM ε δ (Option (List UInt8))} {P : List UInt8 → δ → Prop} {E : δ → Prop}

theorem readLengths_ended (hread : Supplies read P E) {d : δ} (h : E d) (ns : List ℕ) :
    readLengths read ns d = .ok [] d := by
  induction ns with
  | nil => rfl
  | cons n ns ih =>
      obtain ⟨bytes, hok, hnil⟩ := hread.eof (n := n) h
      rw [readLengths, bind_of_ok hok, bind_of_ok ih, hnil]
      rfl

/-- Calls of the device with any lengths return a beginning of the text, and all of it when there are
enough of them. -/
theorem readLengths_eq (hread : Supplies read P E) {content : List UInt8} {d : δ} (h : P content d)
    {ns : List ℕ} (hns : ∀ n ∈ ns, 0 < n) :
    ∃ out content' d', readLengths read ns d = .ok out d' ∧ content = out ++ content' ∧
      (content.length < ns.length → content' = [] ∧ E d') := by
  induction ns generalizing content d with
  | nil => exact ⟨[], content, d, rfl, rfl, fun hlt => absurd hlt (by simp)⟩
  | cons n ns ih =>
      obtain ⟨hn, hns⟩ := List.forall_mem_cons.mp hns
      by_cases hcontent : content = []
      · subst hcontent
        obtain ⟨bytes, d', hok, hnil, hE⟩ := hread.done h hn
        rw [readLengths, bind_of_ok hok, bind_of_ok (readLengths_ended hread hE ns), hnil]
        exact ⟨[], [], d', rfl, rfl, fun _ => ⟨rfl, hE⟩⟩
      · obtain ⟨bytes, rest, d₁, hok, hbytes, rfl, hP⟩ := hread.some h hcontent hn
        obtain ⟨out, content', d', hok', rfl, hend⟩ := ih hP hns
        rw [readLengths, bind_of_ok hok, bind_of_ok hok']
        refine ⟨bytes ++ out, content', d', rfl, (List.append_assoc _ _ _).symm, fun hlt => hend ?_⟩
        have hpos := List.length_pos_iff.mpr hbytes
        rw [List.length_append, List.length_cons] at hlt
        omega

/-- The text that is left, in the get area and behind it. -/
def Left (P : List UInt8 → δ → Prop) (content : List UInt8) (b : BufferedStreamBuf δ) : Prop :=
  ∃ rest, content = b.get ++ rest ∧ P rest b.device

/-- Nothing is left, and the device knows it. -/
def Ended (E : δ → Prop) (b : BufferedStreamBuf δ) : Prop := b.get = [] ∧ E b.device

variable (hread : Supplies read P E) {b : BufferedStreamBuf δ} {content : List UInt8}

include hread

theorem underflow_left (h : Left P content b) (hsize : 4 < b._bufsize) (hcontent : content ≠ []) :
    ∃ b', underflow read b = .ok true b' ∧ b'.get ≠ [] ∧ Left P content b' ∧
      b'._bufsize = b._bufsize := by
  obtain ⟨rest, heq, hP⟩ := h
  by_cases hget : b.get = []
  · rw [hget, List.nil_append] at heq
    subst heq
    obtain ⟨bytes, content', d, hok, hne, heq, hP'⟩ := hread.some hP hcontent (by omega : 0 < b._bufsize - 4)
    refine ⟨{ b with device := d, get := bytes }, ?_, hne, ⟨content', heq, hP'⟩, rfl⟩
    simp [underflow, hget, hok, hne]
  · exact ⟨b, by simp [underflow, hget], hget, ⟨rest, heq, hP⟩, rfl⟩

theorem underflow_done (h : Left P [] b) (hsize : 4 < b._bufsize) :
    ∃ b', underflow read b = .ok false b' ∧ Ended E b' ∧ b'._bufsize = b._bufsize := by
  obtain ⟨rest, heq, hP⟩ := h
  obtain ⟨hget, rfl⟩ := List.append_eq_nil_iff.mp heq.symm
  obtain ⟨bytes, d, hok, hnil, hE⟩ := hread.done hP (by omega : 0 < b._bufsize - 4)
  refine ⟨{ b with device := d }, ?_, ⟨hget, hE⟩, rfl⟩
  simp [underflow, hget, hok, hnil]

theorem sgetn_ended (h : Ended E b) (n : ℕ) : sgetn read n b = .ok [] b := by
  have hunder : underflow read b = .ok false b := by
    obtain ⟨device, size, put, get⟩ := b
    obtain ⟨rfl, hE⟩ := h
    obtain ⟨bytes, hok, hnil⟩ := hread.eof (n := size - 4) hE
    simp [underflow, hok, hnil]
  rw [sgetn, xsgetn]
  split_ifs with hn
  · rfl
  · rw [get_bind, if_neg (not_not.mpr h.1), bind_of_ok hunder]
    rfl

theorem readSizes_ended (h : Ended E b) (ns : List ℕ) :
    readSizes read ns b = .ok (slices ns []) b := by
  induction ns with
  | nil => rfl
  | cons n ns ih =>
      rw [readSizes, bind_of_ok (sgetn_ended hread h n), bind_of_ok ih, slices, List.take_nil,
        List.drop_nil]
      rfl

omit hread in
theorem xsgetn_zero (fuel : ℕ) (b : BufferedStreamBuf δ) : xsgetn read fuel 0 b = .ok [] b := by
  cases fuel with
  | zero => rfl
  | succ fuel => rfl

theorem xsgetn_left {fuel n : ℕ} (h : Left P content b) (hsize : 4 < b._bufsize)
    (hfuel : 2 * n + (if b.get = [] then 1 else 0) ≤ fuel) :
    ∃ b', xsgetn read fuel n b = .ok (content.take n) b' ∧ b'._bufsize = b._bufsize ∧
      (n ≤ content.length → Left P (content.drop n) b') ∧ (content.length < n → Ended E b') := by
  induction fuel generalizing n b content with
  | zero =>
      obtain rfl : n = 0 := by omega
      exact ⟨b, rfl, rfl, fun _ => h, fun hlt => absurd hlt (by omega)⟩
  | succ fuel ih =>
      rw [xsgetn]
      by_cases hn : n = 0
      · subst hn
        exact ⟨b, rfl, rfl, fun _ => h, fun hlt => absurd hlt (by omega)⟩
      rw [if_neg hn, get_bind]
      by_cases hget : b.get = []
      · rw [if_pos hget] at hfuel
        rw [if_neg (not_not.mpr hget)]
        by_cases hcontent : content = []
        · subst hcontent
          obtain ⟨b', hunder, hended, hsize'⟩ := underflow_done hread h hsize
          rw [bind_of_ok hunder]
          refine ⟨b', by simp [pure, EStateM.pure], hsize', ?_, fun _ => hended⟩
          intro hle
          rw [List.length_nil] at hle
          omega
        · obtain ⟨b₁, hunder, hget₁, hleft₁, hsize₁⟩ := underflow_left hread h hsize hcontent
          obtain ⟨b', hok, hsize', hrest⟩ := ih hleft₁ (by omega) (by rw [if_neg hget₁]; omega : 2 * n + _ ≤ fuel)
          rw [bind_of_ok hunder]
          exact ⟨b', hok, hsize'.trans hsize₁, hrest⟩
      · rw [if_pos hget]
        rw [if_neg hget] at hfuel
        obtain ⟨rest, rfl, hP⟩ := h
        have hpos := List.length_pos_iff.mpr hget
        rw [set_bind]
        by_cases hle : n ≤ b.get.length
        · -- the get area is enough
          have hzero : n - b.get.length = 0 := by omega
          rw [hzero, bind_of_ok (xsgetn_zero fuel _)]
          refine ⟨{ b with get := b.get.drop n }, ?_, rfl, fun _ => ⟨rest, ?_, hP⟩, fun hlt => ?_⟩
          · rw [List.take_append_of_le_length hle, List.append_nil]
            rfl
          · rw [List.drop_append_of_le_length hle]
          · rw [List.length_append] at hlt
            omega
        · have hdrop : b.get.drop n = [] := List.drop_eq_nil_of_le (by omega)
          have hleft : Left P rest { b with get := [] } := ⟨rest, rfl, hP⟩
          obtain ⟨b', hok, hsize', hrest, hend⟩ := ih hleft hsize
            (by rw [if_pos rfl]; omega : 2 * (n - b.get.length) + _ ≤ fuel)
          rw [hdrop, bind_of_ok hok]
          refine ⟨b', ?_, hsize', fun hle' => ?_, fun hlt => hend ?_⟩
          · rw [List.take_append]
            rfl
          · rw [List.drop_append, hdrop, List.nil_append]
            rw [List.length_append] at hle'
            exact hrest (by omega)
          · rw [List.length_append] at hlt
            omega

theorem sgetn_left {n : ℕ} (h : Left P content b) (hsize : 4 < b._bufsize) :
    ∃ b', sgetn read n b = .ok (content.take n) b' ∧ b'._bufsize = b._bufsize ∧
      (n ≤ content.length → Left P (content.drop n) b') ∧ (content.length < n → Ended E b') :=
  xsgetn_left hread h hsize (by split_ifs <;> omega)

/-- **Main result.** Reading with any sequence of sizes returns the text piece by piece; behind its end
the device has ended. -/
theorem readSizes_eq (h : Left P content b) (hsize : 4 < b._bufsize) (ns : List ℕ) :
    ∃ b', readSizes read ns b = .ok (slices ns content) b' ∧
      (content.length < ns.sum → Ended E b') := by
  induction ns generalizing content b with
  | nil => exact ⟨b, rfl, fun hlt => absurd hlt (by simp)⟩
  | cons n ns ih =>
      obtain ⟨b₁, hok, hsize₁, hrest, hend⟩ := sgetn_left hread (n := n) h hsize
      rw [readSizes, bind_of_ok hok]
      by_cases hn : n ≤ content.length
      · obtain ⟨b', hok', hend'⟩ := ih (hrest hn) (by omega)
        rw [bind_of_ok hok']
        refine ⟨b', rfl, fun hlt => hend' ?_⟩
        rw [List.sum_cons] at hlt
        rw [List.length_drop]
        omega
      · have hended := hend (by omega)
        have hdrop : content.drop n = [] := List.drop_eq_nil_of_le (by omega)
        rw [bind_of_ok (readSizes_ended hread hended ns), slices, hdrop]
        exact ⟨b₁, rfl, fun _ => hended⟩

end Spec

end BufferedStreamBuf

end Poco.Foundation
