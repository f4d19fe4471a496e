import Poco.Foundation.BufferedStreamBuf

/-! # Output streams whose device may refuse bytes

`BufferedStreamBuf` hands a full put area to its device.  The device returns how many bytes it has taken;
when these are not all, `overflow` and `sync` fail, the put area stays as it is, and the stream becomes
bad: it ignores all that is written later.  Its destructor synchronises the buffer once more.

A device `Accepts` up to a limit if it takes the bytes in their order until it has that many.  Then it
gets the first bytes of what is written to the stream, up to the limit, and nothing else
(`Fills.close_eq`). -/

namespace Poco.Foundation.BufferedStreamBuf

/-- An output stream: its buffer, and whether it is bad. -/
structure OutputStream (δ : Type) where
  buf : BufferedStreamBuf δ
  bad : Bool := false

section Write

variable {δ : Type} (writeToDevice : List UInt8 → δ → ℕ × δ)

/-- `flushBuffer`: whether the device has taken all bytes. -/
def tryFlush (b : BufferedStreamBuf δ) : Bool × BufferedStreamBuf δ :=
  let (n, device) := writeToDevice b.put b.device
  if n = b.put.length then (true, { b with device, put := [] }) else (false, { b with device })

/-- `sputc`, which calls `overflow` when the put area is full. -/
def tryPut (c : UInt8) (b : BufferedStreamBuf δ) : Bool × BufferedStreamBuf δ :=
  if b.put.length < b._bufsize then (true, { b with put := b.put ++ [c] })
  else
    match tryFlush writeToDevice b with
    | (true, b) => (true, { b with put := b.put ++ [c] })
    | (false, b) => (false, b)

/-- `xsputn`, up to the first byte that fails. -/
def tryPuts : List UInt8 → BufferedStreamBuf δ → Bool × BufferedStreamBuf δ
  | [], b => (true, b)
  | c :: s, b =>
      match tryPut writeToDevice c b with
      | (true, b) => tryPuts s b
      | (false, b) => (false, b)

/-- `sync`. -/
def trySync (b : BufferedStreamBuf δ) : Bool × BufferedStreamBuf δ :=
  if b.put ≠ [] then tryFlush writeToDevice b else (true, b)

namespace OutputStream

/-- `write`. -/
def write (bytes : List UInt8) (o : OutputStream δ) : OutputStream δ :=
  if o.bad then o
  else
    let (good, buf) := tryPuts writeToDevice bytes o.buf
    ⟨buf, !good⟩

/-- `flush`. -/
def flush (o : OutputStream δ) : OutputStream δ :=
  if o.bad then o
  else
    let (good, buf) := trySync writeToDevice o.buf
    ⟨buf, !good⟩

/-- What the destructor leaves of the device. -/
def close (o : OutputStream δ) : δ := (trySync writeToDevice o.buf).2.device

end OutputStream

end Write

/-- The device takes bytes in their order, up to a limit; `T` says which it has taken. -/
structure Accepts {δ : Type} (writeToDevice : List UInt8 → δ → ℕ × δ) (limit : ℕ) (T : List UInt8 → δ → Prop) :
    Prop where
  le : ∀ {taken d}, T taken d → taken.length ≤ limit
  count : ∀ {taken d} (bytes : List UInt8), T taken d →
    (writeToDevice bytes d).1 = min bytes.length (limit - taken.length)
  takes : ∀ {taken d} (bytes : List UInt8), T taken d → T ((taken ++ bytes).take limit) (writeToDevice bytes d).2

/-- What the device and the put area of a stream hold of the bytes that have been written. -/
def Fills {δ : Type} (limit : ℕ) (T : List UInt8 → δ → Prop) (written : List UInt8) (o : OutputStream δ) :
    Prop :=
  if o.bad then T (written.take limit) o.buf.device ∧ limit < written.length
  else ∃ taken, T taken o.buf.device ∧ written = taken ++ o.buf.put

section Spec

variable {δ : Type} {writeToDevice : List UInt8 → δ → ℕ × δ} {limit : ℕ} {T : List UInt8 → δ → Prop}
  {b : BufferedStreamBuf δ} {taken written : List UInt8} {o : OutputStream δ}

theorem tryFlush_device (b : BufferedStreamBuf δ) :
    (tryFlush writeToDevice b).2.device = (writeToDevice b.put b.device).2 := by
  unfold tryFlush
  dsimp only
  split <;> rfl

theorem Fills.of_bad (hT : T (written.take limit) b.device) (hlt : limit < written.length) (bytes : List UInt8) :
    Fills limit T (written ++ bytes) ⟨b, true⟩ := by
  refine ⟨?_, ?_⟩
  · rwa [List.take_append_of_le_length (Nat.le_of_lt hlt)]
  · rw [List.length_append]
    exact Nat.lt_add_right _ hlt

variable (hwrite : Accepts writeToDevice limit T)

include hwrite

/-- A flush succeeds if the bytes are within the limit, and fails otherwise. -/
theorem tryFlush_spec (h : T taken b.device) :
    (∃ b', tryFlush writeToDevice b = (true, b') ∧ b'.put = [] ∧ T (taken ++ b.put) b'.device) ∨
      ∃ b', tryFlush writeToDevice b = (false, b') ∧ limit < (taken ++ b.put).length ∧
        T ((taken ++ b.put).take limit) b'.device := by
  have hle := hwrite.le h
  have hcount := hwrite.count b.put h
  have htakes := hwrite.takes b.put h
  by_cases hfit : (taken ++ b.put).length ≤ limit
  · left
    rw [List.take_of_length_le hfit] at htakes
    rw [List.length_append] at hfit
    have hall : (writeToDevice b.put b.device).1 = b.put.length := by omega
    refine ⟨{ b with device := (writeToDevice b.put b.device).2, put := [] }, ?_, rfl, htakes⟩
    simp only [tryFlush, hall, if_true]
  · right
    rw [not_le] at hfit
    have hshort : (writeToDevice b.put b.device).1 ≠ b.put.length := by
      rw [List.length_append] at hfit
      omega
    refine ⟨{ b with device := (writeToDevice b.put b.device).2 }, ?_, hfit, htakes⟩
    simp only [tryFlush, if_neg hshort]

/-- The bytes of one write, up to the first one that fails. -/
theorem tryPuts_spec (h : T taken b.device) (s : List UInt8) :
    Fills limit T (taken ++ b.put ++ s) ⟨(tryPuts writeToDevice s b).2, !(tryPuts writeToDevice s b).1⟩ := by
  induction s generalizing b taken with
  | nil =>
      rw [List.append_nil]
      exact ⟨taken, h, rfl⟩
  | cons c s ih =>
      rw [tryPuts, tryPut]
      by_cases hroom : b.put.length < b._bufsize
      · rw [if_pos hroom]
        have hrest := ih (b := { b with put := b.put ++ [c] }) h
        rw [← List.append_assoc taken, List.append_assoc _ [c]] at hrest
        exact hrest
      · rw [if_neg hroom]
        rcases tryFlush_spec hwrite h with ⟨b', hflush, hput, hT⟩ | ⟨b', hflush, hlt, hT⟩
        · rw [hflush]
          have hrest := ih (b := { b' with put := b'.put ++ [c] }) hT
          simp only [hput, List.nil_append] at hrest ⊢
          rw [List.append_assoc _ [c]] at hrest
          exact hrest
        · rw [hflush]
          exact Fills.of_bad hT hlt _

theorem Fills.write (h : Fills limit T written o) (bytes : List UInt8) :
    Fills limit T (written ++ bytes) (o.write writeToDevice bytes) := by
  obtain ⟨b, bad⟩ := o
  cases bad with
  | true => exact Fills.of_bad h.1 h.2 bytes
  | false =>
      obtain ⟨taken, hT, rfl⟩ := h
      exact tryPuts_spec hwrite hT bytes

theorem Fills.flush (h : Fills limit T written o) : Fills limit T written (o.flush writeToDevice) := by
  obtain ⟨b, bad⟩ := o
  cases bad with
  | true => exact h
  | false =>
      obtain ⟨taken, hT, rfl⟩ := h
      simp only [OutputStream.flush, trySync, Bool.false_eq_true, if_false]
      by_cases hput : b.put = []
      · rw [if_neg (not_not.mpr hput)]
        exact ⟨taken, hT, rfl⟩
      · rw [if_pos hput]
        rcases tryFlush_spec hwrite hT with ⟨b', hflush, hempty, hT'⟩ | ⟨b', hflush, hlt, hT'⟩
        · rw [hflush]
          refine ⟨taken ++ b.put, hT', ?_⟩
          rw [hempty, List.append_nil]
        · rw [hflush]
          exact ⟨hT', hlt⟩

theorem trySync_device (h : T taken b.device) : T ((taken ++ b.put).take limit) (trySync writeToDevice b).2.device := by
  rw [trySync]
  split_ifs with hput
  · rw [tryFlush_device]
    exact hwrite.takes b.put h
  · rwa [not_not.mp hput, List.append_nil, List.take_of_length_le (hwrite.le h)]

/-- **Main result.** When the stream is destroyed its device has what was written, up to the limit. -/
theorem Fills.close_eq (h : Fills limit T written o) : T (written.take limit) (o.close writeToDevice) := by
  obtain ⟨b, bad⟩ := o
  cases bad with
  | true =>
      have hsync := trySync_device hwrite h.1
      have hfull : limit ≤ (written.take limit).length := by
        rw [List.length_take, Nat.min_eq_left (Nat.le_of_lt h.2)]
      rwa [List.take_append_of_le_length hfull, List.take_take, Nat.min_self] at hsync
  | false =>
      obtain ⟨taken, hT, rfl⟩ := h
      exact trySync_device hwrite hT

end Spec

end Poco.Foundation.BufferedStreamBuf
