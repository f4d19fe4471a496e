import Poco.Lib.Streams
import Poco.Foundation.BinaryIO

/-! # `std::istream`

The operations on an input stream that the parsers use: a character at a time, a line, or a block that
is read into memory.  A stream over bytes in memory (`MemoryStream`) can also be positioned. -/

namespace Poco.Foundation

open Poco.Lib

namespace IStream

variable {ε : Type}

/-- A stream from which `bytes` can be read. -/
def ofBytes (bytes : List UInt8) : IStream := ⟨bytes, true⟩

/-- `get()`; `none` at the end of file. -/
def get : EStateM ε IStream (Option UInt8)
  | ⟨c :: rest, true⟩ => .ok (some c) ⟨rest, true⟩
  | s => .ok none ⟨s.rest, false⟩

/-- `peek()`. -/
def peek : EStateM ε IStream (Option UInt8)
  | ⟨c :: rest, true⟩ => .ok (some c) ⟨c :: rest, true⟩
  | s => .ok none ⟨s.rest, false⟩

/-- `std::getline(istr, line)` for an empty `line`. -/
def getline : EStateM ε IStream (List UInt8) := fun s =>
  if s.good then
    if '\n'.toUInt8 ∈ s.rest then
      .ok (s.rest.takeWhile (· ≠ '\n'.toUInt8)) ⟨(s.rest.dropWhile (· ≠ '\n'.toUInt8)).tail, true⟩
    else .ok s.rest ⟨[], false⟩
  else .ok [] s

/-- `read` over an object in memory. -/
def readOver (old : List UInt8) : EStateM ε IStream (List UInt8) := fun s =>
  let (bytes, s) := s.read old
  .ok bytes s

@[simp] theorem get_cons (c : UInt8) (rest : List UInt8) :
    (get : EStateM ε IStream _) ⟨c :: rest, true⟩ = .ok (some c) ⟨rest, true⟩ := rfl

@[simp] theorem get_nil : (get : EStateM ε IStream _) ⟨[], true⟩ = .ok none ⟨[], false⟩ := rfl

theorem getline_append {line : List UInt8} (h : '\n'.toUInt8 ∉ line) (rest : List UInt8) :
    (getline : EStateM ε IStream _) ⟨line ++ '\n'.toUInt8 :: rest, true⟩ = .ok line ⟨rest, true⟩ := by
  have hline : ∀ c ∈ line, decide (c ≠ '\n'.toUInt8) = true := by
    intro c hc
    rw [decide_eq_true_eq]
    rintro rfl
    exact h hc
  have hmem : '\n'.toUInt8 ∈ line ++ '\n'.toUInt8 :: rest := by simp
  simp only [getline, if_true, if_pos hmem]
  rw [List.takeWhile_append_of_pos hline, List.dropWhile_append_of_pos hline,
    List.takeWhile_cons_of_neg (by simp), List.dropWhile_cons_of_neg (by simp), List.append_nil, List.tail_cons]

theorem readOver_append {old block : List UInt8} (h : block.length = old.length) (rest : List UInt8) :
    (readOver old : EStateM ε IStream _) ⟨block ++ rest, true⟩ = .ok block ⟨rest, true⟩ := by
  have hle : old.length ≤ (block ++ rest).length := by
    rw [List.length_append]
    omega
  simp only [readOver, IStream.read, if_true, if_pos hle]
  rw [← h, List.take_left, List.drop_left]

end IStream

/-! ### Streams with a position -/

/-- An input stream over bytes in memory: its position and two bits of its state. -/
structure MemoryStream where
  bytes : List UInt8
  pos : ℕ
  eofbit : Bool
  failbit : Bool

namespace MemoryStream

/-- A stream at a position. -/
def at_ (bytes : List UInt8) (pos : ℕ) : MemoryStream := ⟨bytes, pos, false, false⟩

/-- `good()`. -/
def good (s : MemoryStream) : Bool := !s.eofbit && !s.failbit

/-- `get()`; `none` at the end of file. -/
def get (s : MemoryStream) : Option UInt8 × MemoryStream :=
  if s.good then
    match s.bytes[s.pos]? with
    | some c => (some c, { s with pos := s.pos + 1 })
    | none => (none, { s with eofbit := true, failbit := true })
  else (none, { s with failbit := true })

/-- `read` of `n` bytes. -/
def read (n : ℕ) (s : MemoryStream) : List UInt8 × MemoryStream :=
  if s.good then
    let block := (s.bytes.drop s.pos).take n
    let short := decide (block.length < n)
    (block, { s with pos := s.pos + block.length, eofbit := short, failbit := short })
  else ([], { s with failbit := true })

/-- `seekg` to a position. -/
def seekg (pos : ℤ) (s : MemoryStream) : MemoryStream :=
  if s.failbit then { s with eofbit := false }
  else if 0 ≤ pos ∧ pos ≤ s.bytes.length then { s with pos := pos.toNat, eofbit := false }
  else { s with eofbit := false, failbit := true }

@[simp] theorem good_at (bytes : List UInt8) (pos : ℕ) : (at_ bytes pos).good = true := rfl

theorem get_at {bytes : List UInt8} {pos : ℕ} {c : UInt8} (h : bytes[pos]? = some c) :
    (at_ bytes pos).get = (some c, at_ bytes (pos + 1)) := by
  simp [get, at_, good, h]

theorem read_at {bytes : List UInt8} {pos n : ℕ} (h : pos + n ≤ bytes.length) :
    (at_ bytes pos).read n = ((bytes.drop pos).take n, at_ bytes (pos + n)) := by
  have hlen : ((bytes.drop pos).take n).length = n := by
    rw [List.length_take, List.length_drop]
    omega
  simp only [read, good_at, if_true]
  simp [at_, hlen]

theorem seekg_at {bytes : List UInt8} {target : ℕ} (h : target ≤ bytes.length) (pos : ℕ) :
    (at_ bytes pos).seekg target = at_ bytes target := by
  have hrange : (0 : ℤ) ≤ target ∧ (target : ℤ) ≤ bytes.length := by omega
  simp [seekg, at_, hrange]

end MemoryStream

end Poco.Foundation
