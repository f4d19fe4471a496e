import Mathlib.Data.List.Basic
import Mathlib.Data.Nat.Basic

/-! # A block of memory

A block of memory is the list of its cells.  `slice mem off n` is the content of `n` cells
from offset `off` on and `overwrite mem off data` the block after `data` has been written
there.  `load` and `store` are the checked versions (`memcpy` from and to the block): they
fail when an access leaves the block. -/

namespace Poco.Lib

variable {T : Type}

/-- The content of `n` cells from `off` on. -/
def slice (mem : List T) (off n : ℕ) : List T := (mem.drop off).take n

/-- The block after writing `data` at `off`. -/
def overwrite (mem : List T) (off : ℕ) (data : List T) : List T :=
  mem.take off ++ data ++ mem.drop (off + data.length)

/-- Read `n` cells at `off`. -/
def load (mem : List T) (off n : ℕ) : Option (List T) :=
  if off + n ≤ mem.length then some (slice mem off n) else none

/-- Write `data` at `off`. -/
def store (mem : List T) (off : ℕ) (data : List T) : Option (List T) :=
  if off + data.length ≤ mem.length then some (overwrite mem off data) else none

theorem load_of_le {mem : List T} {off n : ℕ} (h : off + n ≤ mem.length) :
    load mem off n = some (slice mem off n) := if_pos h

theorem store_of_le {mem : List T} {off : ℕ} {data : List T} (h : off + data.length ≤ mem.length) :
    store mem off data = some (overwrite mem off data) := if_pos h

theorem slice_length {mem : List T} {off n : ℕ} (h : off + n ≤ mem.length) :
    (slice mem off n).length = n := by
  simp only [slice, List.length_take, List.length_drop]
  omega

@[simp] theorem slice_zero (mem : List T) (off : ℕ) : slice mem off 0 = [] := by simp [slice]

theorem slice_add (mem : List T) (off m n : ℕ) :
    slice mem off (m + n) = slice mem off m ++ slice mem (off + m) n := by
  simp only [slice, List.take_add, List.drop_drop]

theorem slice_take (mem : List T) (off : ℕ) {m n : ℕ} (h : m ≤ n) :
    (slice mem off n).take m = slice mem off m := by
  simp only [slice, List.take_take]
  rw [Nat.min_eq_left h]

theorem slice_drop (mem : List T) (off m n : ℕ) :
    (slice mem off n).drop m = slice mem (off + m) (n - m) := by
  simp only [slice, List.drop_take, List.drop_drop]

theorem overwrite_length {mem : List T} {off : ℕ} {data : List T}
    (h : off + data.length ≤ mem.length) : (overwrite mem off data).length = mem.length := by
  simp only [overwrite, List.length_append, List.length_take, List.length_drop]
  omega

theorem slice_overwrite_self {mem : List T} {off : ℕ} {data : List T}
    (h : off + data.length ≤ mem.length) : slice (overwrite mem off data) off data.length = data := by
  have hoff : (mem.take off).length = off := by rw [List.length_take]; omega
  rw [slice, overwrite, List.append_assoc, List.drop_append, hoff, Nat.sub_self, List.drop_zero,
    List.drop_eq_nil_of_le (Nat.le_of_eq hoff), List.nil_append, List.take_left]

theorem slice_overwrite_below {mem : List T} {off i n : ℕ} {data : List T} (h : i + n ≤ off)
    (hoff : off ≤ mem.length) : slice (overwrite mem off data) i n = slice mem i n := by
  have hlen : (mem.take off).length = off := by rw [List.length_take]; omega
  rw [slice, overwrite, List.append_assoc, List.drop_append_of_le_length (by omega),
    List.take_append_of_le_length (by rw [List.length_drop]; omega), List.drop_take,
    List.take_take, Nat.min_eq_left (by omega), slice]

theorem slice_overwrite_above {mem : List T} {off i n : ℕ} {data : List T}
    (h : off + data.length ≤ i) (hoff : off ≤ mem.length) :
    slice (overwrite mem off data) i n = slice mem i n := by
  have hlen : (mem.take off ++ data).length = off + data.length := by
    rw [List.length_append, List.length_take]
    omega
  rw [slice, overwrite, List.drop_append, hlen, List.drop_eq_nil_of_le (by omega),
    List.nil_append, List.drop_drop, slice]
  congr 2
  omega

/-- Reading inside data written at the start of the block. -/
theorem slice_overwrite_start {mem data : List T} {i n : ℕ} (h : i + n ≤ data.length) :
    slice (overwrite mem 0 data) i n = slice data i n := by
  rw [slice, overwrite, List.take_zero, List.nil_append, List.drop_append_of_le_length (by omega),
    List.take_append_of_le_length (by rw [List.length_drop]; omega), slice]

theorem take_overwrite {mem : List T} {off : ℕ} {data : List T} (h : off ≤ mem.length) :
    (overwrite mem off data).take (off + data.length) = mem.take off ++ data := by
  have hlen : (mem.take off ++ data).length = off + data.length := by
    rw [List.length_append, List.length_take, Nat.min_eq_left h]
  rw [overwrite, ← hlen, List.take_left]

theorem overwrite_zero (mem data : List T) : overwrite mem 0 data = data ++ mem.drop data.length := by
  rw [overwrite, List.take_zero, List.nil_append, Nat.zero_add]

theorem overwrite_overwrite (mem data : List T) (r n : ℕ) :
    overwrite (overwrite mem 0 (data.take r)) r ((data.drop r).take n) =
      overwrite mem 0 (data.take (r + n)) := by
  rw [overwrite_zero, overwrite_zero]
  by_cases hr : r ≤ data.length
  · have hlen : (data.take r).length = r := by
      rw [List.length_take]
      omega
    have hbehind : ∀ k, (data.take r ++ mem.drop r).drop (r + k) = mem.drop (r + k) := by
      intro k
      have hend : (data.take r).drop (r + k) = [] := List.drop_eq_nil_of_le (by omega)
      rw [List.drop_append, hlen, hend, List.nil_append, List.drop_drop]
      congr 1
      omega
    rw [overwrite, hlen, List.take_left' hlen, hbehind, List.take_add, List.length_append, hlen]
  · have hnil : data.drop r = [] := List.drop_eq_nil_of_le (by omega)
    have hall : data.take r = data := List.take_of_length_le (by omega)
    have hall' : data.take (r + n) = data := List.take_of_length_le (by omega)
    rw [hnil, hall, hall', List.take_nil, overwrite, List.append_nil, List.length_nil, Nat.add_zero,
      List.take_append_drop]

theorem slice_of_take (mem : List T) {i n k : ℕ} (h : i + n ≤ k) :
    slice (mem.take k) i n = slice mem i n := by
  rw [slice, List.drop_take, List.take_take, Nat.min_eq_left (by omega), slice]

end Poco.Lib
