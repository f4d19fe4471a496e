import Poco.Lib.Memory
import Mathlib.Algebra.Group.Nat.Defs

/-! # `BasicFIFOBuffer`

`Buffer<T>` is a block of memory with a size that may be smaller than its capacity;
`BasicFIFOBuffer<T>` keeps a queue in the `_used` cells from `_begin` on.  The data is moved
to the start of the block lazily: `read` and `drain` only advance `_begin`, and `begin()`,
called by the operations that append, moves the data back.

Sizes are natural numbers; the differences the code takes in `std::size_t` wrap around
(`sizeSub`), which matters only in states where the queue does not lie inside the buffer.
An access outside the allocated block gives `none`.  Memory that has been allocated and not
written yet has an arbitrary content, given with the operation that allocates it.  The
`readable` and `writable` notifications have no influence on the queue and are left out. -/

namespace Poco.Foundation

open Poco.Lib

variable {T : Type}

/-- `a - b` in `std::size_t`. -/
def sizeSub (a b : ℕ) : ℕ := if b ≤ a then a - b else a + 2 ^ 64 - b

theorem sizeSub_of_le {a b : ℕ} (h : b ≤ a) : sizeSub a b = a - b := if_pos h

/-- The content of `new T[n]`. -/
def newArray (alloc : ℕ → T) (n : ℕ) : List T := (List.range n).map alloc

@[simp] theorem newArray_length (alloc : ℕ → T) (n : ℕ) : (newArray alloc n).length = n := by
  simp [newArray]

/-- `Buffer<T>`: the block `_ptr` (its length is `_capacity`), the size and the ownership. -/
structure Buffer (T : Type) where
  _ptr : List T
  _used : ℕ
  _ownMem : Bool
deriving DecidableEq, Repr

namespace Buffer

/-- `Buffer::size()`. -/
def size (b : Buffer T) : ℕ := b._used

/-- `Buffer::resize`; `none` is the `InvalidAccessException` of a buffer that does not own
its memory. -/
def resize (b : Buffer T) (alloc : ℕ → T) (newCapacity : ℕ) (preserveContent : Bool) :
    Option (Buffer T) :=
  if b._ownMem then
    if newCapacity > b._ptr.length then
      let ptr := newArray alloc newCapacity
      let ptr := if preserveContent then overwrite ptr 0 (b._ptr.take b._used) else ptr
      some { b with _ptr := ptr, _used := newCapacity }
    else some { b with _used := newCapacity }
  else none

end Buffer

/-- The members of `BasicFIFOBuffer<T>`. -/
structure BasicFIFOBuffer (T : Type) where
  _buffer : Buffer T
  _begin : ℕ
  _used : ℕ
  _eof : Bool
  _error : Bool
deriving DecidableEq, Repr

namespace BasicFIFOBuffer

/-- The exceptions thrown by the operations. -/
inductive Error where
  | dataLoss
  | notOwned
  | cannotExtend
  | notWritable
  | assertion
deriving DecidableEq, Repr

/-- What an operation gives back: a number of elements, the elements it copied out, nothing,
or an exception. -/
inductive Answer (T : Type) where
  | count (n : ℕ)
  | data (l : List T)
  | done
  | error (e : Error)
deriving DecidableEq, Repr

/-! ### Construction -/

/-- `BasicFIFOBuffer(size)`. -/
def create (alloc : ℕ → T) (size : ℕ) : BasicFIFOBuffer T :=
  ⟨⟨newArray alloc size, size, true⟩, 0, 0, false, false⟩

/-- `BasicFIFOBuffer(T* pBuffer, size)`: a wrapper around memory of the caller. -/
def wrap (pBuffer : List T) : BasicFIFOBuffer T :=
  ⟨⟨pBuffer, pBuffer.length, false⟩, 0, 0, false, false⟩

/-- `BasicFIFOBuffer(const T* pBuffer, size)`: a copy of the data, all of it queued. -/
def copyOf (pBuffer : List T) : BasicFIFOBuffer T :=
  ⟨⟨pBuffer, pBuffer.length, true⟩, 0, pBuffer.length, false, false⟩

/-! ### Queries -/

def size (f : BasicFIFOBuffer T) : ℕ := f._buffer.size
def used (f : BasicFIFOBuffer T) : ℕ := f._used
def available (f : BasicFIFOBuffer T) : ℕ := sizeSub f.size f._used
def isValid (f : BasicFIFOBuffer T) : Bool := !f._error
def isEmpty (f : BasicFIFOBuffer T) : Bool := f._used == 0
def isFull (f : BasicFIFOBuffer T) : Bool := f.size == f._used
def isReadable (f : BasicFIFOBuffer T) : Bool := !f.isEmpty && f.isValid
def isWritable (f : BasicFIFOBuffer T) : Bool := !f.isFull && f.isValid && !f._eof

/-! ### Operations -/

/-- `begin()`: move the data to the start of the block. -/
def toBegin (f : BasicFIFOBuffer T) : Option (BasicFIFOBuffer T) :=
  if f._begin ≠ 0 then do
    let data ← load f._buffer._ptr f._begin f._used
    let ptr ← store f._buffer._ptr 0 data
    pure { f with _buffer := { f._buffer with _ptr := ptr }, _begin := 0 }
  else some f

/-- `memcpy(begin() + _used, ...)` of `data`, without a change of `_used`. -/
def appendAtBegin (f : BasicFIFOBuffer T) (data : List T) : Option (BasicFIFOBuffer T) := do
  let f ← f.toBegin
  let ptr ← store f._buffer._ptr f._used data
  pure { f with _buffer := { f._buffer with _ptr := ptr } }

/-- The test of `write` and `advance`: with less than `length` cells left behind the queue,
move it to the start of the block. -/
def makeRoom (f : BasicFIFOBuffer T) (length : ℕ) : Option (BasicFIFOBuffer T) :=
  if sizeSub f.size (f._begin + f._used) < length then f.toBegin else some f

/-- `resize`. -/
def resize (f : BasicFIFOBuffer T) (alloc : ℕ → T) (newSize : ℕ) (preserveContent : Bool) :
    BasicFIFOBuffer T × Answer T :=
  if preserveContent && decide (newSize < f._used) then (f, .error .dataLoss)
  else
    match f._buffer.resize alloc newSize preserveContent with
    | none => (f, .error .notOwned)
    | some b => ({ f with _buffer := b, _used := if preserveContent then f._used else 0 }, .done)

/-- `peek(T*, length)`. -/
def peek (f : BasicFIFOBuffer T) (length : ℕ) : Option (List T) :=
  if length = 0 then some []
  else if !f.isReadable then some []
  else load f._buffer._ptr f._begin (if length > f._used then f._used else length)

/-- `peek(Buffer<T>&, length)`; a length of `0` stands for the whole content. -/
def peekBuffer (f : BasicFIFOBuffer T) (length : ℕ) : Option (List T) :=
  if !f.isReadable then some []
  else f.peek (if length = 0 ∨ length > f._used then f._used else length)

/-- The common end of the two `read` functions: remove what has been copied. -/
def removeRead (f : BasicFIFOBuffer T) (length readLen : ℕ) : BasicFIFOBuffer T :=
  { f with
    _used := f._used - readLen
    _begin := if f._used - readLen = 0 then 0 else f._begin + length }

/-- `read(T*, length)`. -/
def read (f : BasicFIFOBuffer T) (length : ℕ) : Option (BasicFIFOBuffer T × Answer T) :=
  if length = 0 then some (f, .data [])
  else if !f.isReadable then some (f, .data [])
  else do
    let data ← f.peek length
    if f._used ≥ data.length then pure (f.removeRead length data.length, .data data)
    else pure (f, .error .assertion)

/-- `read(Buffer<T>&, length)`. -/
def readBuffer (f : BasicFIFOBuffer T) (length : ℕ) : Option (BasicFIFOBuffer T × Answer T) :=
  if !f.isReadable then some (f, .data [])
  else do
    let data ← f.peekBuffer length
    if f._used ≥ data.length then pure (f.removeRead length data.length, .data data)
    else pure (f, .error .assertion)

/-- `write(const T*, length)` of the elements `data`. -/
def write (f : BasicFIFOBuffer T) (data : List T) : Option (BasicFIFOBuffer T × Answer T) :=
  if data.length = 0 then some (f, .count 0)
  else if !f.isWritable then some (f, .count 0)
  else do
    let f ← f.makeRoom data.length
    let avail := sizeSub (sizeSub f.size f._used) f._begin
    let len := if data.length > avail then avail else data.length
    let f ← f.appendAtBegin (data.take len)
    let f := { f with _used := f._used + len }
    if f._used ≤ f.size then pure (f, .count len) else pure (f, .error .assertion)

/-- `write(const Buffer<T>&, length)`; a length of `0` stands for the whole buffer. -/
def writeBuffer (f : BasicFIFOBuffer T) (buffer : List T) (length : ℕ) :
    Option (BasicFIFOBuffer T × Answer T) :=
  f.write (buffer.take (if length = 0 ∨ length > buffer.length then buffer.length else length))

/-- `drain`. -/
def drain (f : BasicFIFOBuffer T) (length : ℕ) : BasicFIFOBuffer T :=
  if length = 0 ∨ length ≥ f._used then { f with _begin := 0, _used := 0 }
  else { f with _begin := f._begin + length, _used := f._used - length }

/-- `copy`. -/
def copy (f : BasicFIFOBuffer T) (data : List T) : Option (BasicFIFOBuffer T × Answer T) :=
  if data.length = 0 then some (f, .done)
  else if data.length > f.available then some (f, .error .cannotExtend)
  else if !f.isWritable then some (f, .error .notWritable)
  else do
    let f ← f.appendAtBegin data
    pure ({ f with _used := f._used + data.length }, .done)

/-- The caller stores data through the pointer returned by `next()`, as far as it fits. -/
def next (f : BasicFIFOBuffer T) (data : List T) : Option (BasicFIFOBuffer T) :=
  f.appendAtBegin (data.take f.available)

/-- `advance`. -/
def advance (f : BasicFIFOBuffer T) (length : ℕ) : Option (BasicFIFOBuffer T × Answer T) :=
  if length = 0 then some (f, .done)
  else if length > f.available then some (f, .error .cannotExtend)
  else if !f.isWritable then some (f, .error .notWritable)
  else do
    let f ← f.makeRoom length
    pure ({ f with _used := f._used + length }, .done)

/-- `setError`. -/
def setError (f : BasicFIFOBuffer T) (error : Bool) : BasicFIFOBuffer T :=
  if error then { f with _error := true, _used := 0 } else { f with _error := false }

/-- `setEOF`. -/
def setEOF (f : BasicFIFOBuffer T) (eof : Bool) : BasicFIFOBuffer T := { f with _eof := eof }

end BasicFIFOBuffer

end Poco.Foundation
