import Poco.Foundation.FIFOBuffer

/-! # `BasicFIFOBuffer` and the bounded queue it stands for

`Queue` is a bounded queue with the end-of-file and error flags of the buffer, and `Queue.exec`
the meaning of every operation on it.  `Matches f q` says that the buffer `f` stands for `q`:
the queue lies inside the buffer (`_begin + _used ≤ size()`) and its cells hold the items.

Every operation but `resize` takes matching states to matching states with the same answer.
`resize` does so exactly when the queue, *where it lies*, fits into the new size (`Fits`): the
code compares the new size with `_used` only and never moves the data to the start of the
buffer.  `bounded_queue_iff` is this statement for whole runs. -/

namespace Poco.Foundation
namespace BasicFIFOBuffer

open Poco.Lib

variable {T : Type}

/-! ### The bounded queue -/

/-- The operations of a buffer; `next` stands for the caller storing data through the
pointer that `next()` returns. -/
inductive Op (T : Type) where
  | write (data : List T)
  | writeBuffer (buffer : List T) (length : ℕ)
  | read (length : ℕ)
  | readBuffer (length : ℕ)
  | peek (length : ℕ)
  | peekBuffer (length : ℕ)
  | copy (data : List T)
  | next (data : List T)
  | advance (length : ℕ)
  | drain (length : ℕ)
  | setError (error : Bool)
  | setEOF (eof : Bool)
  | resize (alloc : ℕ → T) (newSize : ℕ) (preserveContent : Bool)

/-- A bounded queue.  `placed` are the elements the caller has stored behind the items
through `next()` and not yet made part of the queue. -/
structure Queue (T : Type) where
  items : List T
  size : ℕ
  eof : Bool
  error : Bool
  own : Bool
  placed : List T

namespace Queue

def readable (q : Queue T) : Bool := !q.items.isEmpty && !q.error

def writable (q : Queue T) : Bool := q.size != q.items.length && !q.error && !q.eof

/-- Append as much of `data` as fits. -/
def write (q : Queue T) (data : List T) : Queue T × Answer T :=
  if data = [] ∨ q.writable = false then ({ q with placed := [] }, .count 0)
  else
    let n := min data.length (q.size - q.items.length)
    ({ q with items := q.items ++ data.take n, placed := [] }, .count n)

/-- Append the `n` elements `data`, or throw. -/
def extend (q : Queue T) (n : ℕ) (data : List T) : Queue T × Answer T :=
  if n = 0 then ({ q with placed := [] }, .done)
  else if q.size - q.items.length < n then
    ({ q with placed := [] }, .error .cannotExtend)
  else if q.writable = false then ({ q with placed := [] }, .error .notWritable)
  else ({ q with items := q.items ++ data, placed := [] }, .done)

/-- The items a request for `length` items returns; `0` asks for none. -/
def front (q : Queue T) (length : ℕ) : List T :=
  if q.readable then q.items.take length else []

/-- The same where a length of `0` asks for all items. -/
def frontAll (q : Queue T) (length : ℕ) : List T :=
  if length = 0 then q.front q.items.length else q.front length

/-- Remove the items `l` that have been read. -/
def remove (q : Queue T) (l : List T) : Queue T × Answer T :=
  ({ q with items := q.items.drop l.length, placed := [] }, .data l)

/-- The meaning of an operation.  `stored n` are `n` elements from the storage behind the
items: what `advance` makes part of the queue where the caller has not stored anything. -/
def exec (stored : ℕ → List T) (q : Queue T) : Op T → Queue T × Answer T
  | .write data => q.write data
  | .writeBuffer buffer length =>
      q.write (if length = 0 then buffer else buffer.take length)
  | .read length => q.remove (q.front length)
  | .readBuffer length => q.remove (q.frontAll length)
  | .peek length => (q, .data (q.front length))
  | .peekBuffer length => (q, .data (q.frontAll length))
  | .copy data => q.extend data.length data
  | .next data => ({ q with placed := data.take (q.size - q.items.length) }, .done)
  | .advance n => q.extend n (q.placed.take n ++ (stored n).drop q.placed.length)
  | .drain length =>
      ({ q with items := if length = 0 then [] else q.items.drop length, placed := [] }, .done)
  | .setError true => ({ q with items := [], error := true, placed := [] }, .done)
  | .setError false => ({ q with error := false, placed := [] }, .done)
  | .setEOF eof => ({ q with eof := eof, placed := [] }, .done)
  | .resize _ newSize preserveContent =>
      if preserveContent = true ∧ newSize < q.items.length then
        ({ q with placed := [] }, .error .dataLoss)
      else if q.own = false then ({ q with placed := [] }, .error .notOwned)
      else
        ({ q with
            items := if preserveContent then q.items else []
            size := newSize
            placed := [] }, .done)

end Queue

/-! ### The buffer as a machine -/

/-- The effect and the answer of an operation; `none` when it leaves the memory block. -/
def exec (f : BasicFIFOBuffer T) : Op T → Option (BasicFIFOBuffer T × Answer T)
  | .write data => f.write data
  | .writeBuffer buffer length => f.writeBuffer buffer length
  | .read length => f.read length
  | .readBuffer length => f.readBuffer length
  | .peek length => (f.peek length).map fun l => (f, .data l)
  | .peekBuffer length => (f.peekBuffer length).map fun l => (f, .data l)
  | .copy data => f.copy data
  | .next data => (f.next data).map fun f' => (f', .done)
  | .advance length => f.advance length
  | .drain length => some (f.drain length, .done)
  | .setError error => some (f.setError error, .done)
  | .setEOF eof => some (f.setEOF eof, .done)
  | .resize alloc newSize preserveContent => some (f.resize alloc newSize preserveContent)

/-- The `n` elements behind the queue that `advance(n)` would add to it. -/
def behind (f : BasicFIFOBuffer T) (n : ℕ) : List T :=
  slice f._buffer._ptr (if f._begin + f._used + n ≤ f.size then f._begin + f._used else f._used) n

/-- The buffer stands for the queue. -/
structure Matches (f : BasicFIFOBuffer T) (q : Queue T) : Prop where
  inside : f._begin + f._used ≤ f.size
  capacity : f.size ≤ f._buffer._ptr.length
  items : q.items = slice f._buffer._ptr f._begin f._used
  size : q.size = f.size
  eof : q.eof = f._eof
  error : q.error = f._error
  own : q.own = f._buffer._ownMem
  placed : q.placed = [] ∨ f._begin = 0 ∧ f._used + q.placed.length ≤ f.size ∧
    slice f._buffer._ptr f._used q.placed.length = q.placed

/-- A resize that is not rejected leaves room for the queue where it lies. -/
def Fits (f : BasicFIFOBuffer T) : Op T → Prop
  | .resize _ newSize true =>
      f._begin + f._used ≤ newSize ∨ newSize < f._used ∨ f._buffer._ownMem = false
  | .resize _ newSize false => f._begin ≤ newSize ∨ f._buffer._ownMem = false
  | _ => True

/-! ### Moving the data to the start of the block -/

section step
variable {f : BasicFIFOBuffer T} {q : Queue T}

theorem Matches.used_le (h : Matches f q) : f._begin + f._used ≤ f._buffer._ptr.length :=
  Nat.le_trans h.inside h.capacity

theorem Matches.items_length (h : Matches f q) : q.items.length = f._used := by
  rw [h.items, slice_length h.used_le]

theorem Matches.available_eq (h : Matches f q) : f.available = q.size - q.items.length := by
  have := h.inside
  rw [available, sizeSub_of_le (by omega), h.size, h.items_length]

theorem Matches.readable_eq (h : Matches f q) : f.isReadable = q.readable := by
  have hl := h.items_length
  unfold isReadable isEmpty isValid Queue.readable
  rw [h.error, ← hl]
  cases q.items <;> simp

theorem Matches.writable_eq (h : Matches f q) : f.isWritable = q.writable := by
  unfold isWritable isFull isValid Queue.writable
  rw [h.error, h.eof, h.size, h.items_length]
  simp [bne]

theorem Matches.unplaced (h : Matches f q) : Matches f { q with placed := [] } :=
  ⟨h.inside, h.capacity, h.items, h.size, h.eof, h.error, h.own, Or.inl rfl⟩

/-- `begin()` moves the queue to the start of the block and nothing behind it. -/
theorem toBegin_spec (h : Matches f q) : ∃ ptr,
    f.toBegin = some { f with _buffer := { f._buffer with _ptr := ptr }, _begin := 0 } ∧
    ptr.length = f._buffer._ptr.length ∧ slice ptr 0 f._used = q.items ∧
    (f._begin = 0 → ptr = f._buffer._ptr) ∧
    ∀ i n, f._used ≤ i → slice ptr i n = slice f._buffer._ptr i n := by
  have hu := h.used_le
  by_cases hb : f._begin = 0
  · refine ⟨f._buffer._ptr, ?_, rfl, ?_, fun _ => rfl, fun _ _ _ => rfl⟩
    · simp only [toBegin, hb, ne_eq, not_true_eq_false, if_false]
      rw [← hb]
    · rw [h.items, hb]
  · have hlen := slice_length hu
    have hst : 0 + (slice f._buffer._ptr f._begin f._used).length ≤ f._buffer._ptr.length := by
      omega
    refine ⟨overwrite f._buffer._ptr 0 (slice f._buffer._ptr f._begin f._used), ?_,
      overwrite_length hst, ?_, fun h0 => absurd h0 hb, ?_⟩
    · simp only [toBegin, hb, ne_eq, not_false_eq_true, if_true, load_of_le hu,
        Option.bind_eq_bind, Option.bind_some, store_of_le hst]
      rfl
    · have := slice_overwrite_self hst
      rw [hlen] at this
      rw [this, h.items]
    · intro i n hi
      exact slice_overwrite_above (by omega) (by omega)

/-- Appending at `begin() + _used`: the queue stays, the data lies behind it. -/
theorem appendAtBegin_spec (h : Matches f q) (data : List T)
    (hd : f._used + data.length ≤ f.size) : ∃ ptr,
    f.appendAtBegin data =
      some { f with _buffer := { f._buffer with _ptr := ptr }, _begin := 0 } ∧
    ptr.length = f._buffer._ptr.length ∧ slice ptr 0 f._used = q.items ∧
    slice ptr f._used data.length = data := by
  obtain ⟨ptr, he, hlen, hs, -, -⟩ := toBegin_spec h
  have hcap := h.capacity
  have hst : f._used + data.length ≤ ptr.length := by omega
  refine ⟨overwrite ptr f._used data, ?_, (overwrite_length hst).trans hlen, ?_,
    slice_overwrite_self hst⟩
  · simp only [appendAtBegin, he, Option.bind_eq_bind, Option.bind_some, store_of_le hst]
    rfl
  · rw [slice_overwrite_below (by omega) (by omega), hs]

/-- The queue after its items have been extended by the cells behind it. -/
theorem Matches.extended (h : Matches f q) (ptr data : List T) (b : ℕ)
    (hd : b + f._used + data.length ≤ f.size) (hlen : ptr.length = f._buffer._ptr.length)
    (hitems : slice ptr b f._used = q.items) (hdata : slice ptr (b + f._used) data.length = data) :
    Matches { f with
        _buffer := { f._buffer with _ptr := ptr }
        _begin := b
        _used := f._used + data.length }
      { q with items := q.items ++ data, placed := [] } := by
  refine ⟨?_, ?_, ?_, h.size, h.eof, h.error, h.own, Or.inl rfl⟩
  · show b + (f._used + data.length) ≤ f.size
    omega
  · show f.size ≤ ptr.length
    rw [hlen]
    exact h.capacity
  · show q.items ++ data = slice ptr b (f._used + data.length)
    rw [slice_add, hitems, hdata]

/-! ### One lemma for each operation -/

/-- `begin()` as an operation: the buffer still stands for the queue. -/
theorem Matches.toBegin (h : Matches f q) : ∃ g, f.toBegin = some g ∧
    Matches g { q with placed := [] } ∧ g._begin = 0 ∧ g._used = f._used ∧ g.size = f.size ∧
    ∀ i n, f._used ≤ i → slice g._buffer._ptr i n = slice f._buffer._ptr i n := by
  obtain ⟨ptr, he, hlen, hs, -, hi⟩ := toBegin_spec h
  have hin := h.inside
  refine ⟨_, he, ⟨?_, ?_, hs.symm, h.size, h.eof, h.error, h.own, Or.inl rfl⟩, rfl, rfl, rfl, hi⟩
  · show 0 + f._used ≤ f.size
    omega
  · show f.size ≤ ptr.length
    rw [hlen]
    exact h.capacity

theorem Matches.makeRoom (h : Matches f q) (n : ℕ) : ∃ g, f.makeRoom n = some g ∧
    Matches g { q with placed := [] } ∧ g._used = f._used ∧ g.size = f.size ∧
    (g._begin = 0 ∨ g._begin + f._used + n ≤ f.size) ∧
    (n ≤ f.size - f._used →
      slice g._buffer._ptr (g._begin + f._used) n = f.behind n) := by
  have hin := h.inside
  rw [BasicFIFOBuffer.makeRoom, sizeSub_of_le hin]
  by_cases hc : f.size - (f._begin + f._used) < n
  · obtain ⟨g, he, hm, hb, hu, hs, hi⟩ := h.toBegin
    refine ⟨g, by rw [if_pos hc, he], hm, hu, hs, Or.inl hb, fun _ => ?_⟩
    rw [hb, behind, if_neg (by omega), Nat.zero_add]
    exact hi _ _ (Nat.le_refl _)
  · refine ⟨f, by rw [if_neg hc], h.unplaced, rfl, rfl, Or.inr (by omega), fun _ => ?_⟩
    rw [behind, if_pos (by omega)]

theorem Matches.write (h : Matches f q) (data : List T) : ∃ f',
    f.write data = some (f', (q.write data).2) ∧ Matches f' (q.write data).1 := by
  have hl := h.items_length
  have hsz := h.size
  by_cases hd : data = []
  · subst hd
    exact ⟨f, by simp [BasicFIFOBuffer.write, Queue.write], by simpa [Queue.write] using h.unplaced⟩
  by_cases hw : q.writable = false
  · refine ⟨f, ?_, ?_⟩
    · simp [BasicFIFOBuffer.write, Queue.write, hw, h.writable_eq]
    · simpa [Queue.write, hw] using h.unplaced
  have hd0 : ¬ data.length = 0 := fun h0 => hd (List.eq_nil_of_length_eq_zero h0)
  have hq : q.write data = ({ q with
      items := q.items ++ data.take (min data.length (q.size - q.items.length))
      placed := [] }, .count (min data.length (q.size - q.items.length))) := by
    simp only [Queue.write, hd, hw]
    simp
  obtain ⟨g, hg, hm, hu, hs, hroom, -⟩ := h.makeRoom data.length
  have hgin := hm.inside
  have havail : sizeSub (sizeSub g.size g._used) g._begin = f.size - f._used - g._begin := by
    rw [sizeSub_of_le (show g._used ≤ g.size by omega), sizeSub_of_le (by omega), hs, hu]
  have hlen : (if data.length > f.size - f._used - g._begin then f.size - f._used - g._begin
      else data.length) = min data.length (q.size - q.items.length) := by
    split_ifs <;> omega
  have hn : (data.take (min data.length (q.size - q.items.length))).length =
      min data.length (q.size - q.items.length) := by
    rw [List.length_take]
    omega
  have hfit : g._used + (data.take (min data.length (q.size - q.items.length))).length ≤ g.size := by
    omega
  obtain ⟨ptr, ha, hlp, hs0, hs1⟩ := appendAtBegin_spec hm _ hfit
  have hfin := hm.extended ptr _ 0 (by rw [Nat.zero_add]; exact hfit) hlp hs0
    (by rw [Nat.zero_add]; exact hs1)
  rw [hn] at hfin
  refine ⟨_, ?_, by rw [hq]; exact hfin⟩
  have hwf : f.isWritable = true := by
    rw [h.writable_eq]
    simpa using hw
  have hle : g._used + min data.length (q.size - q.items.length) ≤ g.size := by omega
  simp only [BasicFIFOBuffer.write, hd0, hwf, hg, hq, Option.bind_eq_bind, Option.bind_some, havail,
    hlen, ha]
  simp only [if_false, Bool.not_true, Bool.false_eq_true]
  exact if_pos hle

theorem Matches.peek (h : Matches f q) (length : ℕ) : f.peek length = some (q.front length) := by
  have hl := h.items_length
  have hin := h.used_le
  unfold BasicFIFOBuffer.peek Queue.front
  rw [h.readable_eq]
  by_cases h0 : length = 0
  · simp [h0]
  · by_cases hr : q.readable = true
    · simp only [h0, if_false, hr, Bool.not_true, Bool.false_eq_true, if_true]
      rw [h.items]
      split_ifs with hc
      · rw [load_of_le (by omega), List.take_of_length_le (by rw [slice_length hin]; omega)]
      · rw [load_of_le (by omega), slice_take _ _ (by omega)]
    · simp [h0, hr]

theorem Matches.peekBuffer (h : Matches f q) (length : ℕ) :
    f.peekBuffer length = some (q.frontAll length) := by
  have hl := h.items_length
  unfold BasicFIFOBuffer.peekBuffer
  rw [h.readable_eq]
  by_cases hr : q.readable = true
  · simp only [hr, Bool.not_true, Bool.false_eq_true, if_false]
    rw [h.peek]
    congr 1
    unfold Queue.frontAll Queue.front
    simp only [hr, if_true]
    split_ifs with h1 h2
    · rw [hl]
    · rw [← hl, List.take_length, List.take_of_length_le (by omega)]
    · omega
    · rfl
  · simp [hr, Queue.frontAll, Queue.front]

theorem Matches.removeRead (h : Matches f q) {length m : ℕ} (hm : m ≤ f._used)
    (hlen : f._used - m ≠ 0 → length = m) :
    Matches (f.removeRead length m) { q with items := q.items.drop m, placed := [] } := by
  have hin := h.inside
  have hitems := h.items
  unfold BasicFIFOBuffer.removeRead
  by_cases h0 : f._used - m = 0
  · simp only [h0, if_true]
    refine ⟨by show 0 + 0 ≤ f.size; omega, h.capacity, ?_, h.size, h.eof, h.error, h.own, Or.inl rfl⟩
    simp only [slice_zero]
    exact List.drop_eq_nil_of_le (by rw [h.items_length]; omega)
  · simp only [h0, if_false, hlen h0]
    refine ⟨by show f._begin + m + (f._used - m) ≤ f.size; omega, h.capacity, ?_, h.size, h.eof,
      h.error, h.own, Or.inl rfl⟩
    simp only [hitems]
    rw [slice_drop]

theorem Matches.read (h : Matches f q) (length : ℕ) : ∃ f',
    f.read length = some (f', (q.remove (q.front length)).2) ∧
      Matches f' (q.remove (q.front length)).1 := by
  have hl := h.items_length
  by_cases hc : length = 0 ∨ q.readable = false
  · have hfr : q.front length = [] := by
      unfold Queue.front
      rcases hc with hc | hc <;> simp [hc]
    refine ⟨f, ?_, ?_⟩
    · unfold BasicFIFOBuffer.read
      rw [h.readable_eq, hfr]
      rcases hc with hc | hc <;> simp [hc, Queue.remove]
    · rw [hfr]
      simpa [Queue.remove] using h.unplaced
  · push Not at hc
    have hr : q.readable = true := by simpa using hc.2
    have hfl : (q.front length).length = min length f._used := by
      simp [Queue.front, hr, hl]
    refine ⟨f.removeRead length (q.front length).length, ?_, ?_⟩
    · simp only [BasicFIFOBuffer.read, hc.1, h.readable_eq, hr, h.peek, if_false, Bool.not_true,
        Bool.false_eq_true, Option.bind_eq_bind, Option.bind_some, Queue.remove]
      exact if_pos (by rw [hfl]; omega)
    · exact h.removeRead (by omega) (by omega)

theorem Matches.readBuffer (h : Matches f q) (length : ℕ) : ∃ f',
    f.readBuffer length = some (f', (q.remove (q.frontAll length)).2) ∧
      Matches f' (q.remove (q.frontAll length)).1 := by
  have hl := h.items_length
  by_cases hr : q.readable = true
  · have hfl : (q.frontAll length).length = if length = 0 then f._used else min length f._used := by
      unfold Queue.frontAll Queue.front
      simp only [hr, if_true]
      split_ifs <;> simp [hl]
    refine ⟨f.removeRead length (q.frontAll length).length, ?_, ?_⟩
    · simp only [BasicFIFOBuffer.readBuffer, h.readable_eq, hr, h.peekBuffer, if_false, Bool.not_true,
        Bool.false_eq_true, Option.bind_eq_bind, Option.bind_some, Queue.remove]
      exact if_pos (by rw [hfl]; split_ifs <;> omega)
    · refine h.removeRead ?_ ?_
      · rw [hfl]
        split_ifs <;> omega
      · rw [hfl]
        split_ifs <;> omega
  · have hfr : q.frontAll length = [] := by simp [Queue.frontAll, Queue.front, hr]
    refine ⟨f, ?_, ?_⟩
    · simp [BasicFIFOBuffer.readBuffer, h.readable_eq, hr, hfr, Queue.remove]
    · rw [hfr]
      simpa [Queue.remove] using h.unplaced

/-- The three cases in which `copy` and `advance` leave the queue alone. -/
theorem Matches.extend_refused (h : Matches f q) {n : ℕ} (data : List T)
    (hc : n = 0 ∨ f.available < n ∨ q.writable = false) :
    Matches f (q.extend n data).1 ∧
      (q.extend n data).2 = if n = 0 then .done else if f.available < n then .error .cannotExtend
        else .error .notWritable := by
  rw [h.available_eq] at hc ⊢
  unfold Queue.extend
  split_ifs with h1 h2 h3
  · exact ⟨h.unplaced, rfl⟩
  · exact ⟨h.unplaced, rfl⟩
  · exact ⟨h.unplaced, rfl⟩
  · rcases hc with hc | hc | hc
    · exact absurd hc h1
    · exact absurd hc h2
    · exact absurd hc h3

theorem extend_accepted {n : ℕ} {data : List T} (h1 : n ≠ 0) (h2 : n ≤ q.size - q.items.length)
    (h3 : q.writable = true) :
    q.extend n data = ({ q with items := q.items ++ data, placed := [] }, .done) := by
  unfold Queue.extend
  rw [if_neg h1, if_neg (by omega), if_neg (by simp [h3])]

theorem Matches.copy (h : Matches f q) (data : List T) : ∃ f',
    f.copy data = some (f', (q.extend data.length data).2) ∧
      Matches f' (q.extend data.length data).1 := by
  have hin := h.inside
  by_cases hc : data.length = 0 ∨ f.available < data.length ∨ q.writable = false
  · obtain ⟨h1, h2⟩ := h.extend_refused data hc
    refine ⟨f, ?_, h1⟩
    rw [h2]
    unfold BasicFIFOBuffer.copy
    rw [h.writable_eq]
    split_ifs with c1 c2 c3
    · rfl
    · rfl
    · rfl
    · rcases hc with hc | hc | hc
      · exact absurd hc c1
      · exact absurd hc c2
      · simp [hc] at c3
  · push Not at hc
    obtain ⟨c1, c2, c3⟩ := hc
    have hw : q.writable = true := by simpa using c3
    have hav : f.available = f.size - f._used := sizeSub_of_le (by omega)
    obtain ⟨ptr, ha, hlp, hs0, hs1⟩ := appendAtBegin_spec h data (by omega)
    rw [extend_accepted c1 (by rw [← h.available_eq]; exact c2) hw]
    refine ⟨_, ?_, h.extended ptr data 0 (by omega) hlp hs0 (by rw [Nat.zero_add]; exact hs1)⟩
    simp only [BasicFIFOBuffer.copy, c1, h.writable_eq, hw, if_false, Bool.not_true,
      Bool.false_eq_true, if_neg (Nat.not_lt.mpr c2), gt_iff_lt, ha, Option.bind_eq_bind,
      Option.bind_some]
    rfl

theorem Matches.next (h : Matches f q) (data : List T) : ∃ f', f.next data = some f' ∧
    Matches f' { q with placed := data.take (q.size - q.items.length) } := by
  have hin := h.inside
  have hav : f.available = f.size - f._used := sizeSub_of_le (by omega)
  have hfit : f._used + (data.take f.available).length ≤ f.size := by
    rw [List.length_take]
    omega
  obtain ⟨ptr, ha, hlp, hs0, hs1⟩ := appendAtBegin_spec h _ hfit
  refine ⟨_, ha, ?_⟩
  rw [← h.available_eq]
  refine ⟨?_, ?_, hs0.symm, h.size, h.eof, h.error, h.own, Or.inr ⟨rfl, hfit, hs1⟩⟩
  · show 0 + f._used ≤ f.size
    omega
  · show f.size ≤ ptr.length
    rw [hlp]
    exact h.capacity

/-- What `advance` adds begins with what the caller has placed. -/
theorem Matches.behind_eq (h : Matches f q) {n : ℕ} (hn : n ≤ f.size - f._used) :
    (f.behind n).length = n ∧
      q.placed.take n ++ (f.behind n).drop q.placed.length = f.behind n := by
  have hin := h.inside
  have hcap := h.capacity
  have hlen : (f.behind n).length = n := by
    unfold behind
    split_ifs <;> exact slice_length (by omega)
  refine ⟨hlen, ?_⟩
  rcases h.placed with h0 | ⟨hb, hfit, hs⟩
  · simp [h0]
  · have hbeh : f.behind n = slice f._buffer._ptr f._used n := by
      unfold behind
      rw [if_pos (by omega), hb, Nat.zero_add]
    have htake : (f.behind n).take q.placed.length = q.placed.take n := by
      rw [hbeh, ← hs]
      simp only [slice, List.take_take, List.length_take, List.length_drop]
      congr 1
      omega
    rw [← htake, List.take_append_drop]

theorem Matches.advance (h : Matches f q) (n : ℕ) : ∃ f',
    f.advance n = some (f',
      (q.extend n (q.placed.take n ++ (f.behind n).drop q.placed.length)).2) ∧
      Matches f' (q.extend n (q.placed.take n ++ (f.behind n).drop q.placed.length)).1 := by
  have hin := h.inside
  by_cases hc : n = 0 ∨ f.available < n ∨ q.writable = false
  · obtain ⟨h1, h2⟩ :=
      h.extend_refused (q.placed.take n ++ (f.behind n).drop q.placed.length) hc
    refine ⟨f, ?_, h1⟩
    rw [h2]
    unfold BasicFIFOBuffer.advance
    rw [h.writable_eq]
    split_ifs with c1 c2 c3
    · rfl
    · rfl
    · rfl
    · rcases hc with hc | hc | hc
      · exact absurd hc c1
      · exact absurd hc c2
      · simp [hc] at c3
  · push Not at hc
    obtain ⟨c1, c2, c3⟩ := hc
    have hw : q.writable = true := by simpa using c3
    have hav : f.available = f.size - f._used := sizeSub_of_le (by omega)
    obtain ⟨hbl, hbe⟩ := h.behind_eq (n := n) (by omega)
    rw [extend_accepted c1 (by rw [← h.available_eq]; exact c2) hw, hbe]
    obtain ⟨g, hg, hm, hu, hs, hroom, hslice⟩ := h.makeRoom n
    have hgin := hm.inside
    have hfin := hm.extended g._buffer._ptr (f.behind n) g._begin
      (by rw [hbl]; omega) rfl hm.items.symm (by rw [hbl, hu]; exact hslice (by omega))
    rw [hbl] at hfin
    refine ⟨_, ?_, hfin⟩
    simp only [BasicFIFOBuffer.advance, c1, h.writable_eq, hw, if_false, Bool.not_true,
      Bool.false_eq_true, if_neg (Nat.not_lt.mpr c2), gt_iff_lt, hg, Option.bind_eq_bind,
      Option.bind_some]
    rfl

theorem Matches.drain (h : Matches f q) (length : ℕ) :
    Matches (f.drain length)
      { q with items := if length = 0 then [] else q.items.drop length, placed := [] } := by
  have hin := h.inside
  have hl := h.items_length
  have hitems := h.items
  unfold BasicFIFOBuffer.drain
  by_cases hc : length = 0 ∨ length ≥ f._used
  · have hnil : (if length = 0 then [] else q.items.drop length) = [] := by
      split_ifs with h0
      · rfl
      · exact List.drop_eq_nil_of_le (by omega)
    rw [if_pos hc, hnil]
    refine ⟨by show 0 + 0 ≤ f.size; omega, h.capacity, ?_, h.size, h.eof, h.error, h.own, Or.inl rfl⟩
    exact (slice_zero _ _).symm
  · rw [if_neg hc]
    push Not at hc
    rw [if_neg hc.1]
    refine ⟨by show f._begin + length + (f._used - length) ≤ f.size; omega, h.capacity, ?_, h.size,
      h.eof, h.error, h.own, Or.inl rfl⟩
    simp only [hitems]
    rw [slice_drop]

/-- `resize` does what the queue asks for as soon as the queue fits where it lies. -/
theorem Matches.resize (h : Matches f q) {alloc : ℕ → T} {newSize : ℕ} {preserveContent : Bool}
    (hfit : f.Fits (.resize alloc newSize preserveContent)) (stored : ℕ → List T) :
    (f.resize alloc newSize preserveContent).2 =
        (q.exec stored (.resize alloc newSize preserveContent)).2 ∧
      Matches (f.resize alloc newSize preserveContent).1
        (q.exec stored (.resize alloc newSize preserveContent)).1 := by
  have hl := h.items_length
  have hin := h.inside
  have hcap := h.capacity
  have hown := h.own
  unfold BasicFIFOBuffer.resize Buffer.resize
  simp only [Queue.exec, hl, Bool.and_eq_true, decide_eq_true_eq]
  by_cases hc : preserveContent = true ∧ newSize < f._used
  · rw [if_pos hc, if_pos hc]
    exact ⟨rfl, h.unplaced⟩
  rw [if_neg hc, if_neg hc]
  by_cases ho : f._buffer._ownMem = true
  · have hroom : f._begin + (if preserveContent then f._used else 0) ≤ newSize := by
      cases preserveContent with
      | true =>
          simp only [Fits, ho, Bool.true_eq_false, or_false] at hfit
          simp only [true_and] at hc
          simp only [if_true]
          omega
      | false =>
          simp only [Fits, ho, Bool.true_eq_false, or_false] at hfit
          simpa using hfit
    have hq : ¬ q.own = false := by
      rw [hown, ho]
      exact Bool.noConfusion
    rw [if_pos ho, if_neg hq]
    by_cases hg : newSize > f._buffer._ptr.length
    · rw [if_pos hg]
      refine ⟨rfl, hroom, ?_, ?_, rfl, h.eof, h.error, hown, Or.inl rfl⟩
      · show newSize ≤ List.length _
        have hbl : 0 + (f._buffer._ptr.take f._buffer._used).length ≤
            (newArray alloc newSize).length := by
          rw [newArray_length, List.length_take]
          omega
        split_ifs
        · rw [overwrite_length hbl, newArray_length]
        · rw [newArray_length]
      · cases preserveContent with
        | true =>
            have hsz : f._buffer._used = f.size := rfl
            simp only [if_true]
            rw [slice_overwrite_start (by rw [List.length_take]; omega),
              slice_of_take _ (by omega), h.items]
        | false => exact (slice_zero _ _).symm
    · rw [if_neg hg]
      refine ⟨rfl, hroom, ?_, ?_, rfl, h.eof, h.error, hown, Or.inl rfl⟩
      · show newSize ≤ f._buffer._ptr.length
        omega
      · cases preserveContent with
        | true => exact h.items
        | false => exact (slice_zero _ _).symm
  · have hq : q.own = false := by
      rw [hown]
      simpa using ho
    rw [if_neg ho, if_pos hq]
    exact ⟨rfl, h.unplaced⟩

theorem Matches.exec (h : Matches f q) {op : Op T} (hfit : f.Fits op) : ∃ f',
    f.exec op = some (f', (q.exec f.behind op).2) ∧ Matches f' (q.exec f.behind op).1 := by
  cases op with
  | write data => exact h.write data
  | writeBuffer buffer length =>
      have e : buffer.take (if length = 0 ∨ length > buffer.length then buffer.length else length) =
          if length = 0 then buffer else buffer.take length := by
        by_cases h0 : length = 0
        · simp [h0]
        · by_cases hl : length > buffer.length
          · simp [h0, hl, List.take_of_length_le (Nat.le_of_lt hl)]
          · simp [h0, hl]
      have := h.write (if length = 0 then buffer else buffer.take length)
      simpa only [BasicFIFOBuffer.exec, writeBuffer, e, Queue.exec] using this
  | read length => exact h.read length
  | readBuffer length => exact h.readBuffer length
  | peek length => exact ⟨f, by simp [BasicFIFOBuffer.exec, h.peek, Queue.exec], h⟩
  | peekBuffer length => exact ⟨f, by simp [BasicFIFOBuffer.exec, h.peekBuffer, Queue.exec], h⟩
  | copy data => exact h.copy data
  | next data =>
      obtain ⟨f', he, hm⟩ := h.next data
      exact ⟨f', by simp [BasicFIFOBuffer.exec, he, Queue.exec], hm⟩
  | advance n => exact h.advance n
  | drain length => exact ⟨_, rfl, h.drain length⟩
  | setError error =>
      have hin := h.inside
      cases error with
      | true =>
          refine ⟨_, rfl, ?_, h.capacity, (slice_zero _ _).symm, h.size, h.eof, rfl, h.own, Or.inl rfl⟩
          show f._begin + 0 ≤ f.size
          omega
      | false => exact ⟨_, rfl, hin, h.capacity, h.items, h.size, h.eof, rfl, h.own, Or.inl rfl⟩
  | setEOF eof => exact ⟨_, rfl, h.inside, h.capacity, h.items, h.size, rfl, h.error, h.own, Or.inl rfl⟩
  | resize alloc newSize preserveContent =>
      obtain ⟨h1, h2⟩ := h.resize hfit f.behind
      exact ⟨_, by rw [BasicFIFOBuffer.exec, ← h1], h2⟩

theorem resize_of_own {b : Buffer T} (h : b._ownMem = true) (alloc : ℕ → T) (newSize : ℕ)
    (preserveContent : Bool) :
    ∃ b', b.resize alloc newSize preserveContent = some b' ∧ b'.size = newSize := by
  unfold Buffer.resize
  rw [if_pos h]
  by_cases hg : newSize > b._ptr.length
  · rw [if_pos hg]
    exact ⟨_, rfl, rfl⟩
  · rw [if_neg hg]
    exact ⟨_, rfl, rfl⟩

/-- A resize that does not fit leaves the queue outside of the buffer. -/
theorem fits_of_inside {op : Op T} {f' : BasicFIFOBuffer T} {a : Answer T}
    (he : f.exec op = some (f', a)) (hin : f'._begin + f'._used ≤ f'.size) : f.Fits op := by
  cases op with
  | resize alloc newSize preserveContent =>
      by_contra hfit
      have hown : f._buffer._ownMem = true := by
        cases ho : f._buffer._ownMem with
        | true => rfl
        | false => cases preserveContent <;> simp [Fits, ho] at hfit
      have hcond : ¬ (preserveContent && decide (newSize < f._used)) = true := by
        intro hc
        simp only [Bool.and_eq_true, decide_eq_true_eq] at hc
        apply hfit
        rw [hc.1]
        exact Or.inr (Or.inl hc.2)
      obtain ⟨b', hb, hsize⟩ := resize_of_own hown alloc newSize preserveContent
      simp only [BasicFIFOBuffer.exec, BasicFIFOBuffer.resize, if_neg hcond, hb] at he
      obtain ⟨rfl, -⟩ := Prod.mk.inj (Option.some.inj he)
      simp only [BasicFIFOBuffer.size, hsize] at hin
      cases preserveContent with
      | true => exact hfit (Or.inl (by simpa using hin))
      | false => exact hfit (Or.inl (by simpa using hin))
  | _ => trivial

end step

/-! ### Runs -/

/-- The buffer behaves as the queue in every state of the run of `ops` from `f`: no access
leaves the memory block, every answer is the queue's, every state stands for the queue. -/
def Refines : BasicFIFOBuffer T → Queue T → List (Op T) → Prop
  | f, q, [] => Matches f q
  | f, q, op :: ops => Matches f q ∧ ∃ f', f.exec op = some (f', (q.exec f.behind op).2) ∧
      Refines f' (q.exec f.behind op).1 ops

/-- Every resize of the run of `ops` from `f` fits. -/
def AllFit : BasicFIFOBuffer T → List (Op T) → Prop
  | _, [] => True
  | f, op :: ops => f.Fits op ∧ ∀ f' a, f.exec op = some (f', a) → AllFit f' ops

theorem AllFit.cons {f : BasicFIFOBuffer T} (f' : BasicFIFOBuffer T) {op : Op T} {a : Answer T}
    {ops : List (Op T)} (hfit : f.Fits op) (he : f.exec op = some (f', a)) (h : AllFit f' ops) :
    AllFit f (op :: ops) := by
  refine ⟨hfit, fun f'' a' he' => ?_⟩
  rw [he] at he'
  obtain ⟨rfl, -⟩ := Prod.mk.inj (Option.some.inj he')
  exact h

/-- No call of the run of `ops` from `f` leaves the memory block. -/
def Inside : BasicFIFOBuffer T → List (Op T) → Prop
  | _, [] => True
  | f, op :: ops => ∃ r, f.exec op = some r ∧ Inside r.1 ops

theorem Refines.inside {f : BasicFIFOBuffer T} {q : Queue T} {ops : List (Op T)} (h : Refines f q ops) :
    Inside f ops := by
  induction ops generalizing f q with
  | nil => trivial
  | cons op ops ih =>
      obtain ⟨-, f', he, hrest⟩ := h
      exact ⟨_, he, ih hrest⟩

theorem Matches.refines_iff {f : BasicFIFOBuffer T} {q : Queue T} (h : Matches f q)
    (ops : List (Op T)) : Refines f q ops ↔ AllFit f ops := by
  induction ops generalizing f q with
  | nil => exact ⟨fun _ => trivial, fun _ => h⟩
  | cons op ops ih =>
      constructor
      · rintro ⟨-, f', he, hr⟩
        have hm' : Matches f' (q.exec f.behind op).1 := by
          cases ops with
          | nil => exact hr
          | cons _ _ => exact hr.1
        exact AllFit.cons f' (fits_of_inside he hm'.inside) he ((ih hm').mp hr)
      · rintro ⟨hfit, hrest⟩
        obtain ⟨f', he, hm'⟩ := h.exec hfit
        exact ⟨h, f', he, (ih hm').mpr (hrest f' _ he)⟩

/-- A buffer as the constructors build it, with the queue it stands for. -/
inductive Fresh : BasicFIFOBuffer T → Queue T → Prop
  | create (alloc : ℕ → T) (size : ℕ) :
      Fresh (create alloc size) ⟨[], size, false, false, true, []⟩
  | wrap (pBuffer : List T) :
      Fresh (wrap pBuffer) ⟨[], pBuffer.length, false, false, false, []⟩
  | copyOf (pBuffer : List T) :
      Fresh (copyOf pBuffer) ⟨pBuffer, pBuffer.length, false, false, true, []⟩

theorem Fresh.matches {f : BasicFIFOBuffer T} {q : Queue T} (h : Fresh f q) : Matches f q := by
  cases h with
  | create alloc size =>
      exact ⟨Nat.zero_le _, by simp [BasicFIFOBuffer.create, BasicFIFOBuffer.size, Buffer.size],
        (slice_zero _ _).symm, rfl, rfl, rfl, rfl, Or.inl rfl⟩
  | wrap pBuffer =>
      exact ⟨Nat.zero_le _, Nat.le_refl _, (slice_zero _ _).symm, rfl, rfl, rfl, rfl, Or.inl rfl⟩
  | copyOf pBuffer =>
      refine ⟨?_, Nat.le_refl _, ?_, rfl, rfl, rfl, rfl, Or.inl rfl⟩
      · show 0 + pBuffer.length ≤ pBuffer.length
        omega
      · simp [BasicFIFOBuffer.copyOf, slice]

/-- **The buffer is a bounded queue exactly in the runs whose resizes fit.** -/
theorem bounded_queue_iff {f : BasicFIFOBuffer T} {q : Queue T} (h : Fresh f q)
    (ops : List (Op T)) : Refines f q ops ↔ AllFit f ops :=
  h.matches.refines_iff ops

/-- A run whose resizes fit stays inside the memory block. -/
theorem Fresh.inside {f : BasicFIFOBuffer T} {q : Queue T} (h : Fresh f q) {ops : List (Op T)} (hfit : AllFit f ops) :
    Inside f ops :=
  (h.matches.refines_iff ops).mpr hfit |>.inside

/-- A shrink that fits: the queued element is still read afterwards. -/
theorem bounded_queue_small :
    Refines (create (fun _ => 0) 3) ⟨[], 3, false, false, true, []⟩
      [.write [7, 8], .read 1, .resize (fun _ => 0) 2 true, .read 1] := by
  apply (bounded_queue_iff (Fresh.create (fun _ => 0) 3) _).mpr
  refine AllFit.cons ⟨⟨[7, 8, 0], 3, true⟩, 0, 2, false, false⟩ trivial rfl ?_
  refine AllFit.cons ⟨⟨[7, 8, 0], 3, true⟩, 1, 1, false, false⟩ trivial rfl ?_
  refine AllFit.cons ⟨⟨[7, 8, 0], 2, true⟩, 1, 1, false, false⟩ (by simp [Fits]) rfl ?_
  exact AllFit.cons _ trivial rfl trivial

/-- Two elements written, one read, and a shrink to one cell: the queued element lies outside
of the buffer, and the next growth loses it. -/
theorem not_refines_shrink_after_read :
    ¬ Refines (create (fun _ => 0) 2) ⟨[], 2, false, false, true, []⟩
      [.write [7, 8], .read 1, .resize (fun _ => 0) 1 true] ∧
    (create (fun _ => 0) 2).exec (.write [7, 8]) =
      some (⟨⟨[7, 8], 2, true⟩, 0, 2, false, false⟩, .count 2) ∧
    (⟨⟨[7, 8], 2, true⟩, 0, 2, false, false⟩ : BasicFIFOBuffer ℕ).exec (.read 1) =
      some (⟨⟨[7, 8], 2, true⟩, 1, 1, false, false⟩, .data [7]) ∧
    (⟨⟨[7, 8], 2, true⟩, 1, 1, false, false⟩ : BasicFIFOBuffer ℕ).exec
        (.resize (fun _ => 0) 1 true) =
      some (⟨⟨[7, 8], 1, true⟩, 1, 1, false, false⟩, .done) ∧
    (⟨⟨[7, 8], 1, true⟩, 1, 1, false, false⟩ : BasicFIFOBuffer ℕ).exec
        (.resize (fun _ => 0) 3 true) =
      some (⟨⟨[7, 0, 0], 3, true⟩, 1, 1, false, false⟩, .done) ∧
    (⟨⟨[7, 0, 0], 3, true⟩, 1, 1, false, false⟩ : BasicFIFOBuffer ℕ).peek 1 = some [0] := by
  refine ⟨?_, rfl, rfl, rfl, rfl, rfl⟩
  rw [(Fresh.create (fun _ => 0) 2).matches.refines_iff]
  rintro ⟨-, h⟩
  obtain ⟨-, h⟩ := h ⟨⟨[7, 8], 2, true⟩, 0, 2, false, false⟩ _ rfl
  obtain ⟨h, -⟩ := h ⟨⟨[7, 8], 2, true⟩, 1, 1, false, false⟩ _ rfl
  simp [Fits] at h

end BasicFIFOBuffer
end Poco.Foundation
