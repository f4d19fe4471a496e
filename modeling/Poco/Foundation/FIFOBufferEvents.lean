import Poco.Foundation.FIFOBufferQueue

/-! # The notifications of `BasicFIFOBuffer`

With notifications enabled an operation that changes the buffer calls `notify` with the number of used
cells before it.  `notify` compares that number with the size of the buffer *after* the operation, so that
`resize` can miss that the buffer is no longer full, or report that it is.

The events of an operation are right (`Exact`) if they are the changes between empty and non-empty and
between full and non-full (`transitions`).  `Meets` says when a call is safe, `resize_exact_iff` that
nothing weaker does for `resize`, and `notifies_exactly` that a run of such calls notifies as it should.  With
resizes that fit, too, the run also stays inside the memory block (`notifies_inside`).
Observers do not touch the buffer. -/

namespace Poco.Foundation
namespace BasicFIFOBuffer

open Poco.Lib

variable {T : Type}

/-- An event with its argument. -/
inductive Event where
  | readable (arg : Bool)
  | writable (arg : Bool)
deriving DecidableEq, Repr

/-- `notify`. -/
def notify (f : BasicFIFOBuffer T) (usedBefore : ℕ) : List Event :=
  (if usedBefore = 0 ∧ f._used > 0 then [.readable true]
    else if usedBefore > 0 ∧ 0 = f._used then [.readable false] else []) ++
  (if usedBefore = f.size ∧ f._used < f.size then [.writable true]
    else if usedBefore < f.size ∧ f._used = f.size then [.writable false] else [])

/-- The events of an operation on `f` that leaves `f'` and answers `a`, with notifications enabled.  Where an
operation returns early it does not call `notify`, which would have nothing to report then; an exception
leaves it out. -/
def events (f : BasicFIFOBuffer T) (op : Op T) (f' : BasicFIFOBuffer T) (a : Answer T) : List Event :=
  match op, a with
  | .peek _, _ | .peekBuffer _, _ | .next _, _ => []
  | .setError true, _ => (if f.isReadable then [.readable false] else []) ++
      if f.isWritable then [.writable false] else []
  | .setError false, _ => if f._eof then [] else [.writable true]
  | .setEOF eof, _ => [.writable !eof]
  | _, .error _ => []
  | _, _ => f'.notify f._used

/-! ### What should be notified -/

/-- The change of a flag, as the argument of an event. -/
def change (before after : Bool) : Option Bool := if before = after then none else some after

/-- The changes of the buffer between empty and non-empty and between full and non-full. -/
def transitions (f f' : BasicFIFOBuffer T) : List Event :=
  ((change (!f.isEmpty) (!f'.isEmpty)).map Event.readable).toList ++
    ((change (!f.isFull) (!f'.isFull)).map Event.writable).toList

/-- The events of a call are the changes of the buffer. -/
def Exact (f : BasicFIFOBuffer T) (op : Op T) : Prop :=
  ∀ f' a, f.exec op = some (f', a) → f.events op f' a = f.transitions f'

/-- The calls that do not set the flags of the buffer. -/
def Plain : Op T → Prop
  | .setError _ | .setEOF _ => False
  | _ => True

/-- What `resize` must not do: with the content kept, make a full buffer larger, or a buffer that is not full
as small as its content; without it, take the size of the content for the size of the buffer or the
other way round, or make a buffer that was not full empty and full at once. -/
def ResizeMeets (f : BasicFIFOBuffer T) (newSize : ℕ) (preserveContent : Bool) : Prop :=
  f._buffer._ownMem = false ∨
    if preserveContent then newSize < f._used ∨ (f._used = f.size ↔ f._used = newSize)
    else if newSize = 0 then f._used = f.size else f._used = f.size ↔ f._used = newSize

/-- The condition on a call: `ResizeMeets` for `resize`; a `write` finds the queue inside the buffer, or enough
free cells. -/
def Meets (f : BasicFIFOBuffer T) : Op T → Prop
  | .resize _ newSize preserveContent => f.ResizeMeets newSize preserveContent
  | .write data => f._begin + f._used ≤ f.size ∨ f._used + data.length ≤ f.size
  | .writeBuffer buffer length => f._begin + f._used ≤ f.size ∨
      f._used + (buffer.take (if length = 0 ∨ length > buffer.length then buffer.length else length)).length ≤ f.size
  | _ => True

/-! ### Calls -/

/-- The size stays, and there is not more in the buffer than fits; an exception changes nothing. -/
structure Keeps (f f' : BasicFIFOBuffer T) (a : Answer T) : Prop where
  size : f'.size = f.size
  used : f'._used ≤ f.size
  error : ∀ e, a = .error e → f'._used = f._used

theorem Keeps.refl {f : BasicFIFOBuffer T} (h : f._used ≤ f.size) (a : Answer T) : Keeps f f a :=
  ⟨rfl, h, fun _ _ => rfl⟩

/-- The change between empty and non-empty is always seen. -/
theorem readable_eq (f f' : BasicFIFOBuffer T) :
    (if f._used = 0 ∧ f'._used > 0 then [Event.readable true]
      else if f._used > 0 ∧ 0 = f'._used then [.readable false] else []) =
      ((change (!f.isEmpty) (!f'.isEmpty)).map Event.readable).toList := by
  by_cases h : f._used = 0 <;> by_cases h' : f'._used = 0 <;>
    simp [change, isEmpty, h, h', Nat.pos_of_ne_zero, Ne.symm]

theorem writable_eq (f f' : BasicFIFOBuffer T) :
    ((change (!f.isFull) (!f'.isFull)).map Event.writable).toList =
      if f._used = f.size ∧ f'._used ≠ f'.size then [.writable true]
      else if f._used ≠ f.size ∧ f'._used = f'.size then [.writable false] else [] := by
  by_cases h : f._used = f.size <;> by_cases h' : f'._used = f'.size <;>
    simp [change, isFull, h, h', Ne.symm]

@[simp] theorem transitions_self (f : BasicFIFOBuffer T) : f.transitions f = [] := by
  simp [transitions, change]

theorem notify_eq_transitions {f f' : BasicFIFOBuffer T} (hused : f._used ≤ f.size) (hsize : f'.size = f.size)
    (hused' : f'._used ≤ f.size) : f'.notify f._used = f.transitions f' := by
  rw [notify, transitions, readable_eq, writable_eq, hsize]
  have hlt : f'._used < f.size ↔ f'._used ≠ f.size := by omega
  have hlt' : f._used < f.size ↔ f._used ≠ f.size := by omega
  simp only [hlt, hlt']

theorem transitions_eq_nil {f f' : BasicFIFOBuffer T} (hsize : f'.size = f.size) (hused : f'._used = f._used) :
    f.transitions f' = [] := by
  have hempty : f'.isEmpty = f.isEmpty := by rw [isEmpty, isEmpty, hused]
  have hfull : f'.isFull = f.isFull := by rw [isFull, isFull, hsize, hused]
  rw [transitions, hempty, hfull, ← transitions, transitions_self]

theorem toBegin_sizes {f g : BasicFIFOBuffer T} (h : f.toBegin = some g) :
    g.size = f.size ∧ g._used = f._used ∧ (g._begin = 0 ∨ g = f) := by
  rw [toBegin] at h
  split at h
  · obtain ⟨data, -, h⟩ := Option.bind_eq_some_iff.mp h
    obtain ⟨ptr, -, h⟩ := Option.bind_eq_some_iff.mp h
    obtain rfl := Option.some.inj h
    exact ⟨rfl, rfl, Or.inl rfl⟩
  · obtain rfl := Option.some.inj h
    exact ⟨rfl, rfl, Or.inr rfl⟩

theorem makeRoom_sizes {f g : BasicFIFOBuffer T} {n : ℕ} (h : f.makeRoom n = some g) :
    g.size = f.size ∧ g._used = f._used ∧ (g._begin = 0 ∨ g = f) := by
  rw [makeRoom] at h
  split at h
  · exact toBegin_sizes h
  · obtain rfl := Option.some.inj h
    exact ⟨rfl, rfl, Or.inr rfl⟩

theorem appendAtBegin_sizes {f g : BasicFIFOBuffer T} {data : List T} (h : f.appendAtBegin data = some g) :
    g.size = f.size ∧ g._used = f._used := by
  obtain ⟨g', hg', h⟩ := Option.bind_eq_some_iff.mp h
  obtain ⟨ptr, -, h⟩ := Option.bind_eq_some_iff.mp h
  obtain ⟨hsize, hused, -⟩ := toBegin_sizes hg'
  obtain rfl := Option.some.inj h
  exact ⟨hsize, hused⟩

theorem writeLength_le {f g : BasicFIFOBuffer T} (hused : f._used ≤ f.size) {length : ℕ}
    (hmeets : f._begin + f._used ≤ f.size ∨ f._used + length ≤ f.size) (hsize : g.size = f.size)
    (hgused : g._used = f._used) (hbegin : g._begin = 0 ∨ g = f) :
    f._used + (if length > sizeSub (sizeSub g.size g._used) g._begin then sizeSub (sizeSub g.size g._used) g._begin
      else length) ≤ f.size := by
  rw [hsize, hgused, sizeSub_of_le hused]
  rcases hmeets with hinside | hfits
  · have hle : g._begin ≤ f.size - f._used := by
      rcases hbegin with hzero | rfl
      · omega
      · omega
    rw [sizeSub_of_le hle]
    split <;> omega
  · split <;> omega

theorem read_keeps {f f' : BasicFIFOBuffer T} {a : Answer T} (hused : f._used ≤ f.size) {length : ℕ}
    (h : f.read length = some (f', a)) : Keeps f f' a := by
  rw [read] at h
  split at h
  · obtain ⟨rfl, rfl⟩ := Prod.mk.inj (Option.some.inj h)
    exact Keeps.refl hused _
  · split at h
    · obtain ⟨rfl, rfl⟩ := Prod.mk.inj (Option.some.inj h)
      exact Keeps.refl hused _
    · obtain ⟨data, -, h⟩ := Option.bind_eq_some_iff.mp h
      split at h
      · obtain ⟨rfl, rfl⟩ := Prod.mk.inj (Option.some.inj h)
        exact ⟨rfl, Nat.le_trans (Nat.sub_le _ _) hused, fun e he => by cases he⟩
      · obtain ⟨rfl, rfl⟩ := Prod.mk.inj (Option.some.inj h)
        exact Keeps.refl hused _

theorem readBuffer_keeps {f f' : BasicFIFOBuffer T} {a : Answer T} (hused : f._used ≤ f.size) {length : ℕ}
    (h : f.readBuffer length = some (f', a)) : Keeps f f' a := by
  rw [readBuffer] at h
  split at h
  · obtain ⟨rfl, rfl⟩ := Prod.mk.inj (Option.some.inj h)
    exact Keeps.refl hused _
  · obtain ⟨data, -, h⟩ := Option.bind_eq_some_iff.mp h
    split at h
    · obtain ⟨rfl, rfl⟩ := Prod.mk.inj (Option.some.inj h)
      exact ⟨rfl, Nat.le_trans (Nat.sub_le _ _) hused, fun e he => by cases he⟩
    · obtain ⟨rfl, rfl⟩ := Prod.mk.inj (Option.some.inj h)
      exact Keeps.refl hused _

theorem write_keeps {f f' : BasicFIFOBuffer T} {a : Answer T} (hused : f._used ≤ f.size) {data : List T}
    (hmeets : f._begin + f._used ≤ f.size ∨ f._used + data.length ≤ f.size)
    (h : f.write data = some (f', a)) : Keeps f f' a := by
  rw [write] at h
  split at h
  · obtain ⟨rfl, rfl⟩ := Prod.mk.inj (Option.some.inj h)
    exact Keeps.refl hused _
  · split at h
    · obtain ⟨rfl, rfl⟩ := Prod.mk.inj (Option.some.inj h)
      exact Keeps.refl hused _
    · obtain ⟨g, hg, h⟩ := Option.bind_eq_some_iff.mp h
      obtain ⟨hgsize, hgused, hbegin⟩ := makeRoom_sizes hg
      obtain ⟨g', hg', h⟩ := Option.bind_eq_some_iff.mp h
      obtain ⟨hsize, hused'⟩ := appendAtBegin_sizes hg'
      set len := if data.length > sizeSub (sizeSub g.size g._used) g._begin then
        sizeSub (sizeSub g.size g._used) g._begin else data.length
      have hlen : f._used + len ≤ f.size := writeLength_le hused hmeets hgsize hgused hbegin
      have hfits : g'._used + len ≤ f.size := by
        rw [hused', hgused]
        exact hlen
      have hsize' : g'.size = f.size := hsize.trans hgsize
      change (if g'._used + len ≤ g'.size then _ else _) = _ at h
      rw [hsize', if_pos hfits] at h
      obtain ⟨rfl, rfl⟩ := Prod.mk.inj (Option.some.inj h)
      exact ⟨hsize', hfits, fun e he => by cases he⟩

theorem drain_keeps {f : BasicFIFOBuffer T} (hused : f._used ≤ f.size) (length : ℕ) :
    Keeps f (f.drain length) .done := by
  rw [drain]
  split
  · exact ⟨rfl, Nat.zero_le _, fun e he => by cases he⟩
  · exact ⟨rfl, Nat.le_trans (Nat.sub_le _ _) hused, fun e he => by cases he⟩

theorem copy_keeps {f f' : BasicFIFOBuffer T} {a : Answer T} (hused : f._used ≤ f.size) {data : List T}
    (h : f.copy data = some (f', a)) : Keeps f f' a := by
  rw [copy] at h
  split_ifs at h with hnil hroom hwritable
  · obtain ⟨rfl, rfl⟩ := Prod.mk.inj (Option.some.inj h)
    exact Keeps.refl hused _
  · obtain ⟨rfl, rfl⟩ := Prod.mk.inj (Option.some.inj h)
    exact Keeps.refl hused _
  · obtain ⟨rfl, rfl⟩ := Prod.mk.inj (Option.some.inj h)
    exact Keeps.refl hused _
  · obtain ⟨g, hg, h⟩ := Option.bind_eq_some_iff.mp h
    obtain ⟨hsize, hgused⟩ := appendAtBegin_sizes hg
    obtain ⟨rfl, rfl⟩ := Prod.mk.inj (Option.some.inj h)
    refine ⟨hsize, ?_, fun e he => by cases he⟩
    rw [available, sizeSub_of_le hused] at hroom
    change g._used + data.length ≤ f.size
    omega

theorem advance_keeps {f f' : BasicFIFOBuffer T} {a : Answer T} (hused : f._used ≤ f.size) {length : ℕ}
    (h : f.advance length = some (f', a)) : Keeps f f' a := by
  rw [advance] at h
  split_ifs at h with hnil hroom hwritable
  · obtain ⟨rfl, rfl⟩ := Prod.mk.inj (Option.some.inj h)
    exact Keeps.refl hused _
  · obtain ⟨rfl, rfl⟩ := Prod.mk.inj (Option.some.inj h)
    exact Keeps.refl hused _
  · obtain ⟨rfl, rfl⟩ := Prod.mk.inj (Option.some.inj h)
    exact Keeps.refl hused _
  · obtain ⟨g, hg, h⟩ := Option.bind_eq_some_iff.mp h
    obtain ⟨hsize, hgused, -⟩ := makeRoom_sizes hg
    obtain ⟨rfl, rfl⟩ := Prod.mk.inj (Option.some.inj h)
    refine ⟨hsize, ?_, fun e he => by cases he⟩
    rw [available, sizeSub_of_le hused] at hroom
    change g._used + length ≤ f.size
    omega

/-- The calls that notify of what they changed, if they do not throw. -/
def Notifies : Op T → Prop
  | .peek _ | .peekBuffer _ | .next _ | .setError _ | .setEOF _ => False
  | _ => True

theorem Notifies.events_error {op : Op T} (h : Notifies op) (f f' : BasicFIFOBuffer T) (e : Error) :
    f.events op f' (.error e) = [] := by
  cases op with
  | peek | peekBuffer | next | setError | setEOF => exact h.elim
  | _ => rfl

theorem Notifies.events_eq {op : Op T} (h : Notifies op) (f f' : BasicFIFOBuffer T) {a : Answer T}
    (ha : ∀ e, a ≠ .error e) : f.events op f' a = f'.notify f._used := by
  cases a with
  | error e => exact absurd rfl (ha e)
  | _ =>
      cases op with
      | peek | peekBuffer | next | setError | setEOF => exact h.elim
      | _ => rfl

/-- A call that keeps the size notifies as it should, also if it throws. -/
theorem Keeps.events_eq {f f' : BasicFIFOBuffer T} {op : Op T} {a : Answer T} (h : Keeps f f' a)
    (hused : f._used ≤ f.size) (hop : Notifies op) : f.events op f' a = f.transitions f' := by
  have hexact := notify_eq_transitions hused h.size h.used
  by_cases herror : ∃ e, a = .error e
  · obtain ⟨e, rfl⟩ := herror
    have hsame := h.error e rfl
    have hread : ¬(f._used = 0 ∧ f._used > 0) ∧ ¬(f._used > 0 ∧ 0 = f._used) := by omega
    have hwrite : ¬(f._used = f.size ∧ f._used < f.size) ∧ ¬(f._used < f.size ∧ f._used = f.size) := by omega
    rw [hop.events_error, ← hexact, notify, hsame, h.size, if_neg hread.1, if_neg hread.2, if_neg hwrite.1,
      if_neg hwrite.2]
    rfl
  · rw [hop.events_eq f f' (not_exists.mp herror), hexact]

/-! ### `resize` -/

/-- What `resize` does: nothing, with an exception, or what it is asked for. -/
theorem resize_cases (f : BasicFIFOBuffer T) (alloc : ℕ → T) (newSize : ℕ) (preserveContent : Bool) :
    (f._buffer._ownMem = false ∨ preserveContent = true ∧ newSize < f._used) ∧
        (∃ e, f.resize alloc newSize preserveContent = (f, .error e)) ∨
      f._buffer._ownMem = true ∧ ¬(preserveContent = true ∧ newSize < f._used) ∧
        ∃ f', f.resize alloc newSize preserveContent = (f', .done) ∧ f'.size = newSize ∧
          f'._used = if preserveContent then f._used else 0 := by
  rw [BasicFIFOBuffer.resize]
  by_cases hloss : preserveContent = true ∧ newSize < f._used
  · rw [if_pos (by simpa using hloss)]
    exact Or.inl ⟨Or.inr hloss, _, rfl⟩
  · rw [if_neg (by simpa using hloss)]
    cases hown : f._buffer._ownMem with
    | false =>
        rw [Buffer.resize, if_neg (by simp [hown])]
        exact Or.inl ⟨Or.inl rfl, _, rfl⟩
    | true =>
        obtain ⟨b, hb, hsize⟩ := resize_of_own hown alloc newSize preserveContent
        rw [hb]
        exact Or.inr ⟨rfl, hloss, _, rfl, hsize, rfl⟩

/-- The events for the change between full and non-full when the size changes. -/
theorem writable_resize_iff {used size newSize used' : ℕ} (hused : used ≤ size) {preserveContent : Bool}
    (hloss : ¬(preserveContent = true ∧ newSize < used)) (hused' : used' = if preserveContent then used else 0) :
    ((if used = newSize ∧ used' < newSize then [Event.writable true]
        else if used < newSize ∧ used' = newSize then [.writable false] else []) =
      if used = size ∧ used' ≠ newSize then [.writable true]
        else if used ≠ size ∧ used' = newSize then [.writable false] else []) ↔
      if preserveContent then newSize < used ∨ (used = size ↔ used = newSize)
      else if newSize = 0 then used = size else used = size ↔ used = newSize := by
  cases preserveContent with
  | true =>
      have hle : used ≤ newSize := by
        by_contra hlt
        exact hloss ⟨rfl, not_le.mp hlt⟩
      simp only [if_true] at hused' ⊢
      subst hused'
      split_ifs <;> simp <;> omega
  | false =>
      simp only [Bool.false_eq_true, if_false] at hused' ⊢
      subst hused'
      split_ifs <;> simp <;> omega

/-- **The events of `resize` are right exactly if it meets the condition.** -/
theorem resize_exact_iff {f : BasicFIFOBuffer T} (hused : f._used ≤ f.size) (alloc : ℕ → T) (newSize : ℕ)
    (preserveContent : Bool) :
    Exact f (.resize alloc newSize preserveContent) ↔ f.ResizeMeets newSize preserveContent := by
  rcases resize_cases f alloc newSize preserveContent with ⟨hrefused, e, he⟩ | ⟨hown, hloss, f', hf', hsize, hused'⟩
  · have hmeets : f.ResizeMeets newSize preserveContent := by
      rcases hrefused with hown | ⟨rfl, hlt⟩
      · exact Or.inl hown
      · exact Or.inr (Or.inl hlt)
    refine ⟨fun _ => hmeets, fun _ g a hg => ?_⟩
    rw [exec, he] at hg
    obtain ⟨rfl, rfl⟩ := Prod.mk.inj (Option.some.inj hg)
    rw [transitions_self]
    rfl
  · have hexact : Exact f (.resize alloc newSize preserveContent) ↔ f'.notify f._used = f.transitions f' := by
      constructor
      · intro h
        exact h f' .done (by rw [exec, hf'])
      · intro h g a hg
        rw [exec, hf'] at hg
        obtain ⟨rfl, rfl⟩ := Prod.mk.inj (Option.some.inj hg)
        exact h
    rw [hexact, notify, transitions, readable_eq, writable_eq, List.append_cancel_left_eq, hsize,
      writable_resize_iff hused hloss hused', ResizeMeets, hown]
    simp

/-! ### Runs -/

/-- `resize` leaves no more in the buffer than fits, too. -/
theorem resize_used_le {f f' : BasicFIFOBuffer T} {a : Answer T} (hused : f._used ≤ f.size) {alloc : ℕ → T}
    {newSize : ℕ} {preserveContent : Bool} (h : f.resize alloc newSize preserveContent = (f', a)) :
    f'._used ≤ f'.size := by
  rcases resize_cases f alloc newSize preserveContent with ⟨-, e, he⟩ | ⟨-, hloss, g, hg, hsize, hgused⟩
  · rw [he] at h
    obtain ⟨rfl, rfl⟩ := Prod.mk.inj h
    exact hused
  · rw [hg] at h
    obtain ⟨rfl, rfl⟩ := Prod.mk.inj h
    rw [hsize, hgused]
    cases preserveContent with
    | true => exact not_lt.mp fun hlt => hloss ⟨rfl, hlt⟩
    | false => exact Nat.zero_le _

/-- The calls other than `resize`: the ones that do not notify have nothing to report. -/
theorem exec_keeps {f f' : BasicFIFOBuffer T} {op : Op T} {a : Answer T} (hused : f._used ≤ f.size)
    (hop : Plain op) (hresize : ∀ alloc n p, op ≠ .resize alloc n p) (hmeets : f.Meets op)
    (h : f.exec op = some (f', a)) : Keeps f f' a ∧ (Notifies op ∨ f'._used = f._used ∧ f.events op f' a = []) := by
  cases op with
  | resize alloc n p => exact absurd rfl (hresize alloc n p)
  | setError | setEOF => exact hop.elim
  | write data => exact ⟨write_keeps hused hmeets h, Or.inl trivial⟩
  | writeBuffer buffer length => exact ⟨write_keeps hused hmeets h, Or.inl trivial⟩
  | read length => exact ⟨read_keeps hused h, Or.inl trivial⟩
  | readBuffer length => exact ⟨readBuffer_keeps hused h, Or.inl trivial⟩
  | copy data => exact ⟨copy_keeps hused h, Or.inl trivial⟩
  | advance length => exact ⟨advance_keeps hused h, Or.inl trivial⟩
  | drain length =>
      obtain ⟨rfl, rfl⟩ := Prod.mk.inj (Option.some.inj h)
      exact ⟨drain_keeps hused length, Or.inl trivial⟩
  | peek length =>
      obtain ⟨data, -, h⟩ := Option.map_eq_some_iff.mp h
      obtain ⟨rfl, rfl⟩ := Prod.mk.inj h
      exact ⟨Keeps.refl hused _, Or.inr ⟨rfl, rfl⟩⟩
  | peekBuffer length =>
      obtain ⟨data, -, h⟩ := Option.map_eq_some_iff.mp h
      obtain ⟨rfl, rfl⟩ := Prod.mk.inj h
      exact ⟨Keeps.refl hused _, Or.inr ⟨rfl, rfl⟩⟩
  | next data =>
      obtain ⟨g, hg, h⟩ := Option.map_eq_some_iff.mp h
      obtain ⟨rfl, rfl⟩ := Prod.mk.inj h
      obtain ⟨hsize, hgused⟩ := appendAtBegin_sizes hg
      exact ⟨⟨hsize, hgused ▸ hused, fun _ _ => hgused⟩, Or.inr ⟨hgused, rfl⟩⟩

/-- A call that meets the condition notifies as it should, and the buffer stays in order. -/
theorem exact_of_meets {f : BasicFIFOBuffer T} {op : Op T} (hused : f._used ≤ f.size) (hop : Plain op)
    (hmeets : f.Meets op) :
    Exact f op ∧ ∀ f' a, f.exec op = some (f', a) → f'._used ≤ f'.size := by
  by_cases hresize : ∃ alloc n p, op = .resize alloc n p
  · obtain ⟨alloc, n, p, rfl⟩ := hresize
    exact ⟨(resize_exact_iff hused alloc n p).mpr hmeets,
      fun f' a h => resize_used_le hused (Option.some.inj h)⟩
  · have hother : ∀ alloc n p, op ≠ .resize alloc n p := fun alloc n p h => hresize ⟨alloc, n, p, h⟩
    refine ⟨fun f' a h => ?_, fun f' a h => ?_⟩
    · obtain ⟨hkeeps, hnotifies | ⟨hsame, hnone⟩⟩ := exec_keeps hused hop hother hmeets h
      · exact hkeeps.events_eq hused hnotifies
      · rw [hnone, transitions_eq_nil hkeeps.size hsame]
    · obtain ⟨hkeeps, -⟩ := exec_keeps hused hop hother hmeets h
      exact hkeeps.size ▸ hkeeps.used

/-- Every call of the run of `ops` from `f` meets the condition and leaves the flags alone. -/
def AllMeet : BasicFIFOBuffer T → List (Op T) → Prop
  | _, [] => True
  | f, op :: ops => (Plain op ∧ f.Meets op) ∧ ∀ f' a, f.exec op = some (f', a) → AllMeet f' ops

/-- Every call of the run of `ops` from `f` notifies of the changes of the buffer, and of nothing else.  Nothing is
said behind a call that leaves the memory block; in a run whose resizes fit there is none (`Fresh.inside`). -/
def AllExact : BasicFIFOBuffer T → List (Op T) → Prop
  | _, [] => True
  | f, op :: ops => Exact f op ∧ ∀ f' a, f.exec op = some (f', a) → AllExact f' ops

theorem AllMeet.exact {f : BasicFIFOBuffer T} (hused : f._used ≤ f.size) (ops : List (Op T))
    (h : AllMeet f ops) : AllExact f ops := by
  induction ops generalizing f with
  | nil => trivial
  | cons op ops ih =>
      obtain ⟨⟨hop, hmeets⟩, hrest⟩ := h
      obtain ⟨hexact, hnext⟩ := exact_of_meets hused hop hmeets
      exact ⟨hexact, fun f' a he => ih (hnext f' a he) (hrest f' a he)⟩

theorem Fresh.used_le {f : BasicFIFOBuffer T} {q : Queue T} (h : Fresh f q) : f._used ≤ f.size := by
  cases h with
  | create alloc size => exact Nat.zero_le _
  | wrap pBuffer => exact Nat.zero_le _
  | copyOf pBuffer => exact Nat.le_refl _

/-- **Main result.** In every run of calls that meet the condition each call fires exactly the events for the
changes of the buffer. -/
theorem notifies_exactly {f : BasicFIFOBuffer T} {q : Queue T} (h : Fresh f q) (ops : List (Op T))
    (hops : AllMeet f ops) : AllExact f ops :=
  AllMeet.exact h.used_le ops hops

/-- Where the resizes fit, no call leaves the memory block: every call has events, and they are exact. -/
theorem notifies_inside {f : BasicFIFOBuffer T} {q : Queue T} (h : Fresh f q) {ops : List (Op T)}
    (hops : AllMeet f ops) (hfit : AllFit f ops) : Inside f ops ∧ AllExact f ops :=
  ⟨h.inside hfit, AllMeet.exact h.used_le ops hops⟩

theorem AllMeet.cons {f : BasicFIFOBuffer T} (f' : BasicFIFOBuffer T) {op : Op T} {a : Answer T}
    {ops : List (Op T)} (hop : Plain op) (hmeets : f.Meets op) (he : f.exec op = some (f', a))
    (h : AllMeet f' ops) : AllMeet f (op :: ops) := by
  refine ⟨⟨hop, hmeets⟩, fun f'' a' he' => ?_⟩
  rw [he] at he'
  obtain ⟨rfl, -⟩ := Prod.mk.inj (Option.some.inj he')
  exact h

/-- A buffer that is filled, read and then made larger. -/
theorem notifies_exactly_small :
    AllExact (create (fun _ => 0) 2) [.write [7, 8], .read 1, .resize (fun _ => 0) 4 true] := by
  apply notifies_exactly (Fresh.create (fun _ => 0) 2) _
  refine AllMeet.cons ⟨⟨[7, 8], 2, true⟩, 0, 2, false, false⟩ trivial (Or.inl (by decide)) rfl ?_
  refine AllMeet.cons ⟨⟨[7, 8], 2, true⟩, 1, 1, false, false⟩ trivial trivial rfl ?_
  exact ⟨⟨trivial, Or.inr (Or.inr (by decide))⟩, fun _ _ _ => trivial⟩

/-- A full buffer is made larger: it is no longer full, and a producer that waits for the event is not told. -/
theorem not_exact_grow_full :
    ¬ AllExact (create (fun _ => 0) 2) [.write [7, 8], .resize (fun _ => 0) 4 true] ∧
    (create (fun _ => 0) 2).exec (.write [7, 8]) =
      some (⟨⟨[7, 8], 2, true⟩, 0, 2, false, false⟩, .count 2) ∧
    (⟨⟨[7, 8], 2, true⟩, 0, 2, false, false⟩ : BasicFIFOBuffer ℕ).exec (.resize (fun _ => 0) 4 true) =
      some (⟨⟨[7, 8, 0, 0], 4, true⟩, 0, 2, false, false⟩, .done) ∧
    (⟨⟨[7, 8], 2, true⟩, 0, 2, false, false⟩ : BasicFIFOBuffer ℕ).events (.resize (fun _ => 0) 4 true)
      ⟨⟨[7, 8, 0, 0], 4, true⟩, 0, 2, false, false⟩ .done = [] ∧
    (⟨⟨[7, 8], 2, true⟩, 0, 2, false, false⟩ : BasicFIFOBuffer ℕ).transitions
      ⟨⟨[7, 8, 0, 0], 4, true⟩, 0, 2, false, false⟩ = [.writable true] := by
  refine ⟨?_, rfl, rfl, rfl, rfl⟩
  rintro ⟨-, h⟩
  obtain ⟨h, -⟩ := h ⟨⟨[7, 8], 2, true⟩, 0, 2, false, false⟩ _ rfl
  exact absurd (h ⟨⟨[7, 8, 0, 0], 4, true⟩, 0, 2, false, false⟩ .done rfl) (by decide)

end BasicFIFOBuffer

end Poco.Foundation
