import Poco.Lib.Memory
import Mathlib.Algebra.Order.BigOperators.Group.List
import Mathlib.Data.Int.Notation
import Mathlib.Tactic.Linarith

/-! # A stream that leaves out the ends

`PartialStreamBuf` writes all bytes of an output but the first `s` and the last `e` ones.  It does not
know which write is the last one, and so keeps the last `e` bytes in a cache: a write that is longer
than `e` bytes sends out the cache and fills it anew, a shorter one makes room in it.  The stream
buffer above it hands on `STREAM_BUFFER_SIZE` bytes at a time, or fewer.

The short write does not count the bytes that it adds to the cache.  So the counter `_bytesWritten`
and the fill of the cache together grow by the long writes only, and this tells what is lost.

The underlying stream takes all that it is given.  `mem` is what stands in the memory of the cache
before anything is put there. -/

namespace Poco.Zip

open Poco.Lib

/-- The members of a `PartialStreamBuf` for output, and what the underlying stream has been given. -/
structure PartialStreamBuf where
  _ignoreStart : ℕ
  _buffer : List UInt8
  _bufferOffset : ℕ := 0
  _bytesWritten : ℕ := 0
  _pOstr : List UInt8 := []
deriving DecidableEq, Repr

namespace PartialStreamBuf

/-- `STREAM_BUFFER_SIZE`. -/
def STREAM_BUFFER_SIZE : ℕ := 1024

/-- `static_cast<Poco::Int32>`. -/
def toInt32 (x : ℤ) : ℤ := x.bmod (2 ^ 32)

/-- The constructor for output. -/
def create (start : ℕ) (mem : List UInt8) : PartialStreamBuf where
  _ignoreStart := start
  _buffer := mem

/-- An access that leaves a block of memory. -/
def checked {α : Type} : Option α → Except String α
  | none => .error "memory"
  | some a => .ok a

/-- What `memcpy` takes from `n` bytes at `buffer + cnt`. -/
def fetch (buffer : List UInt8) (cnt : ℤ) (n : ℕ) : Except String (List UInt8) :=
  if cnt < 0 then .error "memory" else checked (load buffer cnt.toNat n)

/-- What the write in which skipping ends sends out. -/
def sendStart (start : ℕ) (buffer : List UInt8) (cnt : ℤ) : Except String (List UInt8) :=
  if cnt > 0 then fetch buffer start cnt.toNat else .ok []

/-- The rest of that write, which is copied to the cache. -/
def restStart (buffer : List UInt8) (cnt : ℤ) (n : ℕ) : Except String (List UInt8) :=
  if cnt < buffer.length then fetch buffer cnt n else .error "cnt < length"

/-- The write in which skipping ends. -/
def writeStart (b : PartialStreamBuf) (buffer : List UInt8) : Except String PartialStreamBuf := do
  let cnt : ℤ := buffer.length - b._ignoreStart - b._buffer.length
  let out ← sendStart b._ignoreStart buffer cnt
  let cnt := cnt + b._ignoreStart
  let offset := ((buffer.length - cnt) % 2 ^ 32).toNat
  let bytes ← restStart buffer cnt offset
  let mem ← checked (store b._buffer 0 bytes)
  return { b with
    _ignoreStart := 0
    _buffer := mem
    _bufferOffset := offset
    _bytesWritten := b._bytesWritten + out.length
    _pOstr := b._pOstr ++ out }

/-- The part of the cache that a write of `length` bytes sends out. -/
def sendCache (b : PartialStreamBuf) (length : ℕ) : Except String PartialStreamBuf :=
  let cache := toInt32 (b._bufferOffset + length - b._buffer.length)
  if cache > 0 then do
    let cache := if cache.toNat > b._bufferOffset then b._bufferOffset else cache.toNat
    let out ← checked (load b._buffer 0 cache)
    let offset := b._bufferOffset - cache
    let bytes ← checked (load b._buffer cache offset)
    let mem ← checked (store b._buffer 0 bytes)
    return { b with
      _buffer := mem
      _bufferOffset := offset
      _bytesWritten := b._bytesWritten + cache
      _pOstr := b._pOstr ++ out }
  else return b

/-- How a write fills the cache. -/
def fillCache (b : PartialStreamBuf) (buffer : List UInt8) : Except String PartialStreamBuf :=
  let pos := toInt32 (buffer.length - toInt32 b._buffer.length + b._bufferOffset)
  if pos ≤ 0 then do
    -- all of the message goes to the cache, whose fill is left as it is
    let mem ← checked (store b._buffer b._bufferOffset buffer)
    return { b with _buffer := mem }
  else do
    if b._bufferOffset ≠ 0 then throw "_bufferOffset == 0"
    let bytes ← checked (load buffer pos.toNat b._buffer.length)
    let mem ← checked (store b._buffer 0 bytes)
    let front :=
      if b._buffer.length ≤ buffer.length then load buffer 0 (buffer.length - b._buffer.length) else none
    let out ← checked front
    return { b with
      _buffer := mem
      _bufferOffset := b._buffer.length % 2 ^ 32
      _bytesWritten := b._bytesWritten + out.length
      _pOstr := b._pOstr ++ out }

/-- `writeToDevice`, with what it returns. -/
def writeToDevice (b : PartialStreamBuf) (buffer : List UInt8) : Except String (ℤ × PartialStreamBuf) :=
  if buffer = [] then return (-1, b)
  else if b._ignoreStart > 0 then
    if b._ignoreStart > buffer.length then
      return (buffer.length, { b with _ignoreStart := b._ignoreStart - buffer.length })
    else return (buffer.length, ← b.writeStart buffer)
  else if b._buffer.length > 0 then
    return (buffer.length, ← (← b.sendCache buffer.length).fillCache buffer)
  else
    return (buffer.length,
      { b with _bytesWritten := b._bytesWritten + buffer.length, _pOstr := b._pOstr ++ buffer })

/-- One write after another. -/
def writeAll (b : PartialStreamBuf) (writes : List (List UInt8)) : Except String PartialStreamBuf :=
  writes.foldlM (fun b buffer => Prod.snd <$> b.writeToDevice buffer) b

/-! ### What is promised -/

/-- Every output that is written in pieces of these lengths goes out without its first `s` and its last
`e` bytes, whatever the memory of the cache holds. -/
def Strips (s e : ℕ) (lengths : List ℕ) : Prop :=
  ∀ writes : List (List UInt8), writes.map List.length = lengths → ∀ mem : List UInt8, mem.length = e →
    ∃ b, writeAll (create s mem) writes = .ok b ∧
      b._pOstr = (writes.flatten.drop s).take (lengths.sum - s - e) ∧ b._bytesWritten = lengths.sum - s - e

/-- Every write but the last one is longer than the cache. -/
def LongWrites (e : ℕ) (lengths : List ℕ) : Prop := ∀ n ∈ lengths.dropLast, e < n

/-- The writes for which the promise is kept. -/
def Fitting (s e : ℕ) (lengths : List ℕ) : Prop :=
  if s = 0 then
    LongWrites e lengths ∨ lengths.sum = e ∧ ∀ n ∈ lengths, toInt32 ((n : ℤ) - e) ≤ 0
  else
    0 < e ∧ ∃ pre n post, lengths = pre ++ n :: post ∧ pre.sum < s ∧ s + e ≤ pre.sum + n ∧ LongWrites e post

/-! ### One write -/

theorem toInt32_eq {x : ℤ} (h : -2 ^ 31 ≤ x) (h' : x < 2 ^ 31) : toInt32 x = x := by
  apply Int.bmod_eq_of_le
  · omega
  · omega

@[simp] theorem checked_some {α : Type} (a : α) : checked (some a) = pure a := rfl

theorem store_nil (mem : List UInt8) : store mem 0 [] = some mem := by
  rw [store_of_le (by simp), overwrite_zero]
  simp

theorem store_zero {mem data : List UInt8} (h : data.length = mem.length) : store mem 0 data = some data := by
  rw [store_of_le (by omega), overwrite_zero, List.drop_eq_nil_of_le (by omega), List.append_nil]

/-- Skipping is over, and the cache has room for what it is filled with. -/
structure Ready (e : ℕ) (b : PartialStreamBuf) : Prop where
  skipped : b._ignoreStart = 0
  size : b._buffer.length = e
  fill : b._bufferOffset ≤ e

section

variable {e : ℕ} {b : PartialStreamBuf} {buffer : List UInt8}

theorem sendCache_long (h : Ready e b) (hlen : buffer.length < 2 ^ 31) (hlong : e < buffer.length) :
    b.sendCache buffer.length = pure { b with
      _bufferOffset := 0
      _bytesWritten := b._bytesWritten + b._bufferOffset
      _pOstr := b._pOstr ++ b._buffer.take b._bufferOffset } := by
  have hfill := h.fill
  have hcache : toInt32 (b._bufferOffset + buffer.length - b._buffer.length) =
      b._bufferOffset + buffer.length - e := by
    rw [h.size]
    exact toInt32_eq (by omega) (by omega)
  have hmin : (if (b._bufferOffset + buffer.length - e : ℤ).toNat > b._bufferOffset then b._bufferOffset
      else (b._bufferOffset + buffer.length - e : ℤ).toNat) = b._bufferOffset := if_pos (by omega)
  have hload : load b._buffer 0 b._bufferOffset = some (b._buffer.take b._bufferOffset) :=
    load_of_le (by rw [h.size]; omega)
  have hrest : load b._buffer b._bufferOffset 0 = some [] := by
    rw [load_of_le (by rw [h.size]; omega), slice_zero]
  rw [sendCache, hcache]
  dsimp only
  rw [if_pos (by omega), hmin, hload, Nat.sub_self, hrest]
  simp only [checked_some, pure_bind, store_nil]

/-- A short write makes room for itself in the cache, and no more than that. -/
theorem sendCache_short (h : Ready e b) (he : e < 2 ^ 31) (hshort : buffer.length ≤ e) :
    ∃ mem, mem.length = e ∧ b.sendCache buffer.length = pure { b with
      _buffer := mem
      _bufferOffset := min b._bufferOffset (e - buffer.length)
      _bytesWritten := b._bytesWritten + (b._bufferOffset - min b._bufferOffset (e - buffer.length))
      _pOstr := b._pOstr ++ b._buffer.take (b._bufferOffset - min b._bufferOffset (e - buffer.length)) } := by
  have hfill := h.fill
  have hcache : toInt32 (b._bufferOffset + buffer.length - b._buffer.length) =
      b._bufferOffset + buffer.length - e := by
    rw [h.size]
    exact toInt32_eq (by omega) (by omega)
  generalize hroom : e - buffer.length = room
  by_cases hfits : b._bufferOffset ≤ room
  · refine ⟨b._buffer, h.size, ?_⟩
    rw [sendCache, hcache, Nat.min_eq_left hfits]
    dsimp only
    rw [if_neg (by omega), Nat.sub_self, List.take_zero, List.append_nil, Nat.add_zero]
  · rw [Nat.min_eq_right (by omega)]
    generalize hsent : b._bufferOffset - room = sent
    have hcut : (if (b._bufferOffset + buffer.length - e : ℤ).toNat > b._bufferOffset then b._bufferOffset
        else (b._bufferOffset + buffer.length - e : ℤ).toNat) = sent := by
      rw [if_neg (by omega)]
      omega
    have hleft : b._bufferOffset - sent = room := by omega
    have hload : load b._buffer 0 sent = some (b._buffer.take sent) := load_of_le (by rw [h.size]; omega)
    have hle : sent + room ≤ b._buffer.length := by
      rw [h.size]
      omega
    have hlength : 0 + (slice b._buffer sent room).length ≤ b._buffer.length := by
      rw [slice_length hle]
      omega
    refine ⟨overwrite b._buffer 0 (slice b._buffer sent room), ?_, ?_⟩
    · rw [overwrite_length hlength, h.size]
    · rw [sendCache, hcache]
      dsimp only
      rw [if_pos (by omega), hcut, hload, hleft, load_of_le hle]
      simp only [checked_some, pure_bind, store_of_le hlength]

theorem fillCache_long (hsize : b._buffer.length = e) (hempty : b._bufferOffset = 0)
    (hlen : buffer.length < 2 ^ 31) (hlong : e < buffer.length) :
    b.fillCache buffer = pure { b with
      _buffer := buffer.drop (buffer.length - e)
      _bufferOffset := e
      _bytesWritten := b._bytesWritten + (buffer.length - e)
      _pOstr := b._pOstr ++ buffer.take (buffer.length - e) } := by
  have hpos : toInt32 (buffer.length - toInt32 b._buffer.length + b._bufferOffset) = buffer.length - e := by
    have hcast : toInt32 (e : ℤ) = e := toInt32_eq (by omega) (by omega)
    rw [hsize, hempty, hcast, toInt32_eq (by omega) (by omega)]
    simp
  have hend : load buffer (buffer.length - e : ℤ).toNat b._buffer.length =
      some (buffer.drop (buffer.length - e)) := by
    have hnat : (buffer.length - e : ℤ).toNat = buffer.length - e := by omega
    rw [hsize, hnat, load_of_le (by omega), slice, List.take_of_length_le]
    rw [List.length_drop]
    omega
  have hstore : store b._buffer 0 (buffer.drop (buffer.length - e)) = some (buffer.drop (buffer.length - e)) := by
    apply store_zero
    rw [List.length_drop, hsize]
    omega
  have hfront : load buffer 0 (buffer.length - e) = some (buffer.take (buffer.length - e)) :=
    load_of_le (by omega)
  rw [fillCache, hpos]
  dsimp only
  rw [if_neg (by omega), hend]
  simp only [checked_some, pure_bind, hstore, hsize]
  rw [if_neg (by simpa using hempty), if_pos (by omega), hfront]
  simp only [checked_some, pure_bind, List.length_take]
  rw [Nat.min_eq_left (by omega), Nat.mod_eq_of_lt (by omega)]

/-- A short write is put behind what the cache has, and is not counted. -/
theorem fillCache_short (hsize : b._buffer.length = e) (he : e < 2 ^ 31)
    (hroom : b._bufferOffset + buffer.length ≤ e) :
    b.fillCache buffer = pure { b with _buffer := overwrite b._buffer b._bufferOffset buffer } := by
  have hpos : toInt32 (buffer.length - toInt32 b._buffer.length + b._bufferOffset) =
      buffer.length - e + b._bufferOffset := by
    have hcast : toInt32 (e : ℤ) = e := toInt32_eq (by omega) (by omega)
    rw [hsize, hcast, toInt32_eq (by omega) (by omega)]
  rw [fillCache, hpos]
  dsimp only
  rw [if_pos (by omega), store_of_le (by omega)]
  rfl

theorem writeToDevice_eq (h : Ready e b) (he : 0 < e) (hne : buffer ≠ []) :
    b.writeToDevice buffer = do
      let b ← b.sendCache buffer.length
      let b ← b.fillCache buffer
      return (buffer.length, b) := by
  rw [writeToDevice, if_neg hne, if_neg (by simp [h.skipped]), if_pos (by rw [h.size]; exact he)]

theorem write_long (h : Ready e b) (he : 0 < e) (hlen : buffer.length < 2 ^ 31) (hlong : e < buffer.length) :
    b.writeToDevice buffer = .ok (buffer.length, { b with
      _buffer := buffer.drop (buffer.length - e)
      _bufferOffset := e
      _bytesWritten := b._bytesWritten + b._bufferOffset + (buffer.length - e)
      _pOstr := b._pOstr ++ b._buffer.take b._bufferOffset ++ buffer.take (buffer.length - e) }) := by
  have hne : buffer ≠ [] := by
    rintro rfl
    simp at hlong
  rw [writeToDevice_eq h he hne, sendCache_long h hlen hlong, pure_bind]
  have hfilled := fillCache_long
    (b := { b with
      _bufferOffset := 0
      _bytesWritten := b._bytesWritten + b._bufferOffset
      _pOstr := b._pOstr ++ b._buffer.take b._bufferOffset }) h.size rfl hlen hlong
  rw [hfilled]
  rfl

theorem write_short (h : Ready e b) (he : 0 < e) (he' : e < 2 ^ 31) (hne : buffer ≠ []) (hshort : buffer.length ≤ e) :
    ∃ mem, mem.length = e ∧ b.writeToDevice buffer = .ok (buffer.length, { b with
      _buffer := mem
      _bufferOffset := min b._bufferOffset (e - buffer.length)
      _bytesWritten := b._bytesWritten + (b._bufferOffset - min b._bufferOffset (e - buffer.length))
      _pOstr := b._pOstr ++ b._buffer.take (b._bufferOffset - min b._bufferOffset (e - buffer.length)) }) := by
  obtain ⟨mem, hmem, hsend⟩ := sendCache_short h he' hshort
  have hroom : min b._bufferOffset (e - buffer.length) + buffer.length ≤ e := by omega
  refine ⟨overwrite mem (min b._bufferOffset (e - buffer.length)) buffer, ?_, ?_⟩
  · rw [overwrite_length (by omega), hmem]
  · rw [writeToDevice_eq h he hne, hsend, pure_bind, fillCache_short hmem he' hroom, pure_bind]
    rfl

/-! ### What is counted -/

/-- The fill of the cache after a write. -/
def fillAfter (e fill n : ℕ) : ℕ := if e < n then e else min fill (e - n)

/-- The counter and the fill together grow by the long writes. -/
theorem write_counts (h : Ready e b) (he : 0 < e) (he' : e < 2 ^ 31) (hne : buffer ≠ [])
    (hlen : buffer.length < 2 ^ 31) :
    ∃ b', b.writeToDevice buffer = .ok (buffer.length, b') ∧ Ready e b' ∧
      b'._bufferOffset = fillAfter e b._bufferOffset buffer.length ∧
      b'._bytesWritten + b'._bufferOffset =
        b._bytesWritten + b._bufferOffset + (if e < buffer.length then buffer.length else 0) ∧
      b._pOstr <+: b'._pOstr := by
  have hfill := h.fill
  by_cases hlong : e < buffer.length
  · refine ⟨_, write_long h he hlen hlong, ⟨h.skipped, ?_, Nat.le_refl e⟩, ?_, ?_, ?_⟩
    · rw [List.length_drop]
      omega
    · rw [fillAfter, if_pos hlong]
    · rw [if_pos hlong]
      dsimp only
      omega
    · rw [List.append_assoc]
      exact List.prefix_append _ _
  · obtain ⟨mem, hmem, hwrite⟩ := write_short h he he' hne (by omega)
    refine ⟨_, hwrite, ⟨h.skipped, hmem, ?_⟩, ?_, ?_, List.prefix_append _ _⟩
    · dsimp only
      omega
    · rw [fillAfter, if_neg hlong]
    · rw [if_neg hlong]
      dsimp only
      omega

end

/-- The fill of the cache after writes of these lengths. -/
def fillAll (e fill : ℕ) (lengths : List ℕ) : ℕ := lengths.foldl (fillAfter e) fill

/-- The bytes in long writes. -/
def longBytes (e : ℕ) (lengths : List ℕ) : ℕ := (lengths.filter (e < ·)).sum

theorem writeAll_cons (b : PartialStreamBuf) (buffer : List UInt8) (writes : List (List UInt8)) :
    writeAll b (buffer :: writes) = b.writeToDevice buffer >>= fun r => writeAll r.2 writes := by
  rw [writeAll, List.foldlM_cons]
  cases b.writeToDevice buffer <;> rfl

theorem writeAll_counts {e : ℕ} (he : 0 < e) (he' : e < 2 ^ 31) {b : PartialStreamBuf} (h : Ready e b)
    {writes : List (List UInt8)} (hwrites : ∀ w ∈ writes, w ≠ [] ∧ w.length < 2 ^ 31) :
    ∃ b', writeAll b writes = .ok b' ∧ Ready e b' ∧
      b'._bufferOffset = fillAll e b._bufferOffset (writes.map List.length) ∧
      b'._bytesWritten + b'._bufferOffset =
        b._bytesWritten + b._bufferOffset + longBytes e (writes.map List.length) ∧
      b._pOstr <+: b'._pOstr := by
  induction writes generalizing b with
  | nil => exact ⟨b, rfl, h, rfl, rfl, List.prefix_rfl⟩
  | cons w writes ih =>
      obtain ⟨hne, hlen⟩ := hwrites w List.mem_cons_self
      obtain ⟨b₁, hwrite, h₁, hfill, hcount, hout⟩ := write_counts h he he' hne hlen
      obtain ⟨b₂, hrest, h₂, hfill₂, hcount₂, hout₂⟩ := ih h₁ fun w' hw' => hwrites w' (List.mem_cons_of_mem _ hw')
      refine ⟨b₂, ?_, h₂, ?_, ?_, hout.trans hout₂⟩
      · rw [writeAll_cons, hwrite]
        exact hrest
      · rw [hfill₂, hfill]
        rfl
      · rw [hcount₂, hcount, List.map_cons, longBytes, longBytes, List.filter_cons]
        by_cases hlong : e < w.length
        · simp [hlong, Nat.add_assoc]
        · simp [hlong]

/-! ### What is lost -/

section

variable {e : ℕ}

theorem longBytes_cons (n : ℕ) (lengths : List ℕ) :
    longBytes e (n :: lengths) = (if e < n then n else 0) + longBytes e lengths := by
  rw [longBytes, longBytes, List.filter_cons]
  by_cases hlong : e < n
  · simp [hlong]
  · simp [hlong]

theorem fillAll_cons (fill n : ℕ) (lengths : List ℕ) :
    fillAll e fill (n :: lengths) = fillAll e (fillAfter e fill n) lengths := rfl

theorem longWrites_cons {n : ℕ} {lengths : List ℕ} :
    LongWrites e (n :: lengths) ↔ lengths = [] ∨ e < n ∧ LongWrites e lengths := by
  cases lengths with
  | nil => simp [LongWrites]
  | cons m lengths => simp [LongWrites]

theorem fill_le (lengths : List ℕ) {fill : ℕ} (hfill : fill ≤ e) :
    fill + longBytes e lengths ≤ fillAll e fill lengths + lengths.sum := by
  induction lengths generalizing fill with
  | nil => exact Nat.le_refl _
  | cons n lengths ih =>
      rw [longBytes_cons, fillAll_cons, List.sum_cons]
      by_cases hlong : e < n
      · have hrest := ih (Nat.le_refl e)
        rw [fillAfter, if_pos hlong, if_pos hlong]
        omega
      · have hrest := ih (Nat.le_trans (Nat.min_le_left fill (e - n)) hfill)
        rw [fillAfter, if_neg hlong, if_neg hlong]
        omega

/-- Nothing is lost exactly if the cache was full and all writes but the last one are long. -/
theorem fill_eq_iff {lengths : List ℕ} (hpos : ∀ n ∈ lengths, 0 < n) {fill : ℕ} (hfill : fill ≤ e) :
    fill + longBytes e lengths = fillAll e fill lengths + lengths.sum ↔
      lengths = [] ∨ fill = e ∧ LongWrites e lengths := by
  induction lengths generalizing fill with
  | nil => simp [longBytes, fillAll]
  | cons n lengths ih =>
      have hn := hpos n List.mem_cons_self
      have hposrest : ∀ m ∈ lengths, 0 < m := fun m hm => hpos m (List.mem_cons_of_mem _ hm)
      rw [longBytes_cons, fillAll_cons, List.sum_cons, longWrites_cons]
      by_cases hlong : e < n
      · have hrest := ih hposrest (Nat.le_refl e)
        have hle := fill_le lengths (Nat.le_refl e)
        rw [fillAfter, if_pos hlong, if_pos hlong]
        simp only [reduceCtorEq, false_or, hlong, true_and] at hrest ⊢
        rw [← hrest]
        omega
      · have hrest := ih hposrest (Nat.le_trans (Nat.min_le_left fill (e - n)) hfill)
        have hle := fill_le lengths (Nat.le_trans (Nat.min_le_left fill (e - n)) hfill)
        rw [fillAfter, if_neg hlong, if_neg hlong]
        simp only [reduceCtorEq, false_or, hlong, false_and, or_false]
        constructor
        · intro heq
          have hfull : fill = e := by omega
          refine ⟨hfull, ?_⟩
          rcases hrest.mp (by omega) with hnil | ⟨hfull', -⟩
          · exact hnil
          · omega
        · rintro ⟨rfl, rfl⟩
          simp only [longBytes, fillAll, List.filter_nil, List.sum_nil, List.foldl_nil]
          omega

theorem fillAll_of_short {lengths : List ℕ} (hshort : ∀ n ∈ lengths, n ≤ e) :
    longBytes e lengths = 0 ∧ fillAll e 0 lengths = 0 := by
  induction lengths with
  | nil => exact ⟨rfl, rfl⟩
  | cons n lengths ih =>
      have hn := hshort n List.mem_cons_self
      obtain ⟨hlong, hfill⟩ := ih fun m hm => hshort m (List.mem_cons_of_mem _ hm)
      rw [longBytes_cons, fillAll_cons, fillAfter, if_neg (by omega), if_neg (by omega), Nat.zero_min]
      exact ⟨by omega, hfill⟩

theorem empty_fill_le {lengths : List ℕ} (hlong : ∃ n ∈ lengths, e < n) :
    e + longBytes e lengths ≤ fillAll e 0 lengths + lengths.sum := by
  induction lengths with
  | nil => simp at hlong
  | cons n lengths ih =>
      rw [longBytes_cons, fillAll_cons, List.sum_cons, fillAfter]
      by_cases hn : e < n
      · have hrest := fill_le lengths (Nat.le_refl e)
        rw [if_pos hn, if_pos hn]
        omega
      · obtain ⟨m, hm, hlongm⟩ := hlong
        have hmem : m ∈ lengths := (List.mem_cons.mp hm).resolve_left (by omega)
        have hrest := ih ⟨m, hmem, hlongm⟩
        rw [if_neg hn, if_neg hn, Nat.zero_min]
        omega

/-- From an empty cache, nothing is lost if all writes but the last one are long, or if nothing is to be
sent out. -/
theorem empty_fill_eq_iff {lengths : List ℕ} (hpos : ∀ n ∈ lengths, 0 < n) (he : 0 < e) (hle : e ≤ lengths.sum) :
    e + longBytes e lengths = fillAll e 0 lengths + lengths.sum ↔ LongWrites e lengths ∨ lengths.sum = e := by
  cases lengths with
  | nil =>
      rw [List.sum_nil] at hle
      omega
  | cons n lengths =>
      have hn := hpos n List.mem_cons_self
      have hposrest : ∀ m ∈ lengths, 0 < m := fun m hm => hpos m (List.mem_cons_of_mem _ hm)
      rw [List.sum_cons] at hle
      rw [longBytes_cons, fillAll_cons, List.sum_cons, longWrites_cons, fillAfter]
      by_cases hlong : e < n
      · have hrest := fill_eq_iff hposrest (Nat.le_refl e)
        rw [if_pos hlong, if_pos hlong]
        simp only [hlong, true_and] at hrest ⊢
        rw [← hrest]
        omega
      · rw [if_neg hlong, if_neg hlong, Nat.zero_min]
        by_cases hany : ∃ m ∈ lengths, e < m
        · have hlost := empty_fill_le hany
          obtain ⟨m, hm, hlongm⟩ := hany
          have hsum := List.single_le_sum (by simp) m hm
          constructor
          · intro heq
            omega
          · rintro ((rfl | ⟨h, -⟩) | h)
            · simp at hm
            · omega
            · omega
        · simp only [not_exists, not_and, Nat.not_lt] at hany
          obtain ⟨hzero, hempty⟩ := fillAll_of_short hany
          rw [hzero, hempty]
          constructor
          · intro heq
            exact Or.inr (by omega)
          · rintro ((rfl | ⟨h, -⟩) | h)
            · rw [List.sum_nil] at hle ⊢
              omega
            · omega
            · omega

end

/-! ### Long writes strip the ends -/

section

variable {e : ℕ}

/-- The cache is full, and stands behind what has been sent out. -/
structure Holds (e : ℕ) (seen : List UInt8) (b : PartialStreamBuf) : Prop extends Ready e b where
  full : b._bufferOffset = e
  seen : b._pOstr ++ b._buffer = seen
  counted : b._bytesWritten = b._pOstr.length

theorem Holds.write_long {seen : List UInt8} {b : PartialStreamBuf} (h : Holds e seen b) (he : 0 < e)
    {buffer : List UInt8} (hlen : buffer.length < 2 ^ 31) (hlong : e < buffer.length) :
    ∃ b', b.writeToDevice buffer = .ok (buffer.length, b') ∧ Holds e (seen ++ buffer) b' := by
  refine ⟨_, PartialStreamBuf.write_long h.toReady he hlen hlong, ⟨⟨h.skipped, ?_, Nat.le_refl e⟩, rfl, ?_, ?_⟩⟩
  · rw [List.length_drop]
    omega
  · rw [← h.seen, h.full, ← h.size]
    simp
  · have hsize := h.size
    simp only [List.length_append, List.length_take, h.counted, h.full]
    omega

theorem Holds.sent {seen : List UInt8} {b : PartialStreamBuf} (h : Holds e seen b) :
    b._pOstr = seen.take (seen.length - e) ∧ b._bytesWritten = seen.length - e := by
  have hlen : seen.length - e = b._pOstr.length := by
    rw [← h.seen, List.length_append, h.size]
    omega
  rw [hlen, ← h.seen, List.take_left]
  exact ⟨rfl, h.counted⟩

theorem Holds.write_last {seen : List UInt8} {b : PartialStreamBuf} (h : Holds e seen b) (he : 0 < e)
    (he' : e < 2 ^ 31) {buffer : List UInt8} (hne : buffer ≠ []) (hlen : buffer.length < 2 ^ 31) :
    ∃ b', b.writeToDevice buffer = .ok (buffer.length, b') ∧
      b'._pOstr = (seen ++ buffer).take ((seen ++ buffer).length - e) ∧
      b'._bytesWritten = (seen ++ buffer).length - e := by
  by_cases hlong : e < buffer.length
  · obtain ⟨b', hwrite, h'⟩ := h.write_long he hlen hlong
    exact ⟨b', hwrite, h'.sent⟩
  · obtain ⟨mem, -, hwrite⟩ := write_short h.toReady he he' hne (by omega)
    have hsize := h.size
    have hsent : b._bufferOffset - min b._bufferOffset (e - buffer.length) = buffer.length := by
      rw [h.full]
      omega
    have hcount : (seen ++ buffer).length - e = b._pOstr.length + buffer.length := by
      rw [← h.seen]
      simp only [List.length_append]
      omega
    refine ⟨_, hwrite, ?_, ?_⟩
    · rw [hsent, hcount, ← h.seen, List.append_assoc, List.take_length_add_append,
        List.take_append_of_le_length (by omega)]
    · rw [hsent, hcount, h.counted]

theorem Holds.writeAll {seen : List UInt8} {b : PartialStreamBuf} (h : Holds e seen b) (he : 0 < e)
    (he' : e < 2 ^ 31) {writes : List (List UInt8)} (hwrites : ∀ w ∈ writes, w ≠ [] ∧ w.length < 2 ^ 31)
    (hlong : LongWrites e (writes.map List.length)) :
    ∃ b', writeAll b writes = .ok b' ∧
      b'._pOstr = (seen ++ writes.flatten).take ((seen ++ writes.flatten).length - e) ∧
      b'._bytesWritten = (seen ++ writes.flatten).length - e := by
  induction writes generalizing seen b with
  | nil =>
      rw [List.flatten_nil, List.append_nil]
      exact ⟨b, rfl, h.sent⟩
  | cons w writes ih =>
      obtain ⟨hne, hlen⟩ := hwrites w List.mem_cons_self
      rw [List.map_cons, longWrites_cons, List.map_eq_nil_iff] at hlong
      rw [List.flatten_cons, ← List.append_assoc]
      rcases hlong with rfl | ⟨hw, hlong⟩
      · obtain ⟨b', hwrite, hsent⟩ := h.write_last he he' hne hlen
        rw [List.flatten_nil, List.append_nil]
        refine ⟨b', ?_, hsent⟩
        rw [writeAll_cons, hwrite]
        rfl
      · obtain ⟨b₁, hwrite, h₁⟩ := h.write_long he hlen hw
        obtain ⟨b₂, hrest, hsent⟩ := ih h₁ (fun w' hw' => hwrites w' (List.mem_cons_of_mem _ hw')) hlong
        refine ⟨b₂, ?_, hsent⟩
        rw [writeAll_cons, hwrite]
        exact hrest

end

/-! ### The beginning -/

theorem writeAll_skipped {s : ℕ} {mem : List UInt8} {pre : List (List UInt8)} (hne : ∀ w ∈ pre, w ≠ [])
    (hlt : (pre.map List.length).sum < s) (writes : List (List UInt8)) :
    writeAll (create s mem) (pre ++ writes) = writeAll (create (s - (pre.map List.length).sum) mem) writes := by
  induction pre generalizing s with
  | nil => rfl
  | cons w pre ih =>
      rw [List.map_cons, List.sum_cons] at hlt ⊢
      have hskip : (create s mem).writeToDevice w = .ok (w.length, create (s - w.length) mem) := by
        have hpos : (create s mem)._ignoreStart > 0 := by
          change s > 0
          omega
        have hlong : (create s mem)._ignoreStart > w.length := by
          change s > w.length
          omega
        rw [writeToDevice, if_neg (hne w List.mem_cons_self), if_pos hpos, if_pos hlong]
        rfl
      rw [List.cons_append, writeAll_cons, hskip]
      refine Eq.trans (ih (fun w' hw' => hne w' (List.mem_cons_of_mem _ hw')) (by omega)) ?_
      rw [Nat.sub_sub]

/-- The write in which skipping ends, if it has enough bytes for the cache. -/
theorem writeToDevice_start {s : ℕ} {mem buffer : List UInt8} (hs : 0 < s) (hle : s ≤ buffer.length)
    (he : 0 < mem.length) (hfits : mem.length ≤ buffer.length) (hlen : buffer.length < 2 ^ 31) :
    (create s mem).writeToDevice buffer = .ok (buffer.length,
      { _ignoreStart := 0
        _buffer := buffer.drop (buffer.length - mem.length)
        _bufferOffset := mem.length
        _bytesWritten := buffer.length - s - mem.length
        _pOstr := (buffer.drop s).take (buffer.length - s - mem.length) }) := by
  have hne : buffer ≠ [] := by
    rintro rfl
    simp only [List.length_nil] at hle
    omega
  have hout : sendStart s buffer ((buffer.length : ℤ) - s - mem.length) =
      pure ((buffer.drop s).take (buffer.length - s - mem.length)) := by
    rw [sendStart]
    split_ifs with hpos
    · have hnat : ((buffer.length : ℤ) - s - mem.length).toNat = buffer.length - s - mem.length := by omega
      rw [fetch, if_neg (by omega), hnat, Int.toNat_natCast, load_of_le (by omega)]
      rfl
    · have hzero : buffer.length - s - mem.length = 0 := by omega
      rw [hzero, List.take_zero]
      rfl
  have hoffset : (((buffer.length : ℤ) - (buffer.length - s - mem.length + s)) % 2 ^ 32).toNat = mem.length := by
    omega
  have hbytes : restStart buffer ((buffer.length : ℤ) - s - mem.length + s) mem.length =
      pure (buffer.drop (buffer.length - mem.length)) := by
    have hnat : ((buffer.length : ℤ) - s - mem.length + s).toNat = buffer.length - mem.length := by omega
    rw [restStart, if_pos (by omega), fetch, if_neg (by omega), hnat, load_of_le (by omega), slice,
      List.take_of_length_le]
    · rfl
    · rw [List.length_drop]
      omega
  have hstore : store mem 0 (buffer.drop (buffer.length - mem.length)) =
      some (buffer.drop (buffer.length - mem.length)) := by
    apply store_zero
    rw [List.length_drop]
    omega
  have hstart : (create s mem).writeStart buffer = pure
      { _ignoreStart := 0
        _buffer := buffer.drop (buffer.length - mem.length)
        _bufferOffset := mem.length
        _bytesWritten := buffer.length - s - mem.length
        _pOstr := (buffer.drop s).take (buffer.length - s - mem.length) } := by
    have hlength : ((buffer.drop s).take (buffer.length - s - mem.length)).length =
        buffer.length - s - mem.length := by
      rw [List.length_take, List.length_drop]
      omega
    rw [writeStart]
    dsimp only [create]
    rw [hout, pure_bind, hoffset, hbytes, pure_bind, hstore, checked_some, pure_bind, hlength, Nat.zero_add,
      List.nil_append]
  have hskip : ¬(create s mem)._ignoreStart > buffer.length := by
    change ¬s > buffer.length
    omega
  have hpos : (create s mem)._ignoreStart > 0 := hs
  rw [writeToDevice, if_neg hne, if_pos hpos, if_neg hskip, hstart]
  rfl

/-- Without a cache, or with one that is longer than the write, skipping fails. -/
theorem writeToDevice_start_fails {s : ℕ} {mem buffer : List UInt8} (hs : 0 < s) (hle : s ≤ buffer.length)
    (hfits : mem.length = 0 ∨ buffer.length < mem.length) :
    ∃ msg, (create s mem).writeToDevice buffer = .error msg := by
  have hne : buffer ≠ [] := by
    rintro rfl
    simp only [List.length_nil] at hle
    omega
  have hskip : ¬(create s mem)._ignoreStart > buffer.length := by
    change ¬s > buffer.length
    omega
  have hpos : (create s mem)._ignoreStart > 0 := hs
  have hbytes (n : ℕ) : ∃ msg, restStart buffer ((buffer.length : ℤ) - s - mem.length + s) n = .error msg := by
    rcases hfits with hzero | hlong
    · exact ⟨_, if_neg (by omega)⟩
    · exact ⟨_, by rw [restStart, if_pos (by omega), fetch, if_pos (by omega)]⟩
  obtain ⟨msg, hmsg⟩ := hbytes (((buffer.length : ℤ) - (buffer.length - s - mem.length + s)) % 2 ^ 32).toNat
  rw [writeToDevice, if_neg hne, if_pos hpos, if_neg hskip, writeStart]
  dsimp only [create]
  rw [hmsg]
  cases sendStart s buffer ((buffer.length : ℤ) - s - mem.length) with
  | error msg => exact ⟨msg, rfl⟩
  | ok out => exact ⟨msg, rfl⟩

/-! ### Without skipping -/

theorem ready_create {e : ℕ} {mem : List UInt8} (h : mem.length = e) : Ready e (create 0 mem) where
  skipped := rfl
  size := h
  fill := Nat.zero_le e

theorem writeAll_direct {b : PartialStreamBuf} (hskip : b._ignoreStart = 0) (hcache : b._buffer.length = 0)
    {writes : List (List UInt8)} (hne : ∀ w ∈ writes, w ≠ []) :
    ∃ b', writeAll b writes = .ok b' ∧ b'._pOstr = b._pOstr ++ writes.flatten ∧
      b'._bytesWritten = b._bytesWritten + writes.flatten.length := by
  induction writes generalizing b with
  | nil => exact ⟨b, rfl, by simp, rfl⟩
  | cons w writes ih =>
      have hwrite : b.writeToDevice w = .ok (w.length,
          { b with _bytesWritten := b._bytesWritten + w.length, _pOstr := b._pOstr ++ w }) := by
        rw [writeToDevice, if_neg (hne w List.mem_cons_self), if_neg (by omega), if_neg (by omega)]
        rfl
      obtain ⟨b', hrest, hout, hcount⟩ := ih
        (b := { b with _bytesWritten := b._bytesWritten + w.length, _pOstr := b._pOstr ++ w }) hskip hcache
        fun w' hw' => hne w' (List.mem_cons_of_mem _ hw')
      refine ⟨b', ?_, ?_, ?_⟩
      · rw [writeAll_cons, hwrite]
        exact hrest
      · rw [hout, List.flatten_cons, List.append_assoc]
      · rw [hcount, List.flatten_cons, List.length_append, Nat.add_assoc]

section

variable {e : ℕ} {b : PartialStreamBuf}

theorem sendCache_empty (hempty : b._bufferOffset = 0) (n : ℕ) : b.sendCache n = pure b := by
  rw [sendCache]
  dsimp only
  by_cases hpos : toInt32 (b._bufferOffset + n - b._buffer.length) > 0
  · have hzero : (if (toInt32 (b._bufferOffset + n - b._buffer.length)).toNat > b._bufferOffset then b._bufferOffset
        else (toInt32 (b._bufferOffset + n - b._buffer.length)).toNat) = 0 := by
      rw [if_pos (by omega), hempty]
    have hload : load b._buffer 0 0 = some [] := by
      rw [load_of_le (Nat.zero_le _), slice_zero]
    rw [if_pos hpos, hzero, hload, hempty, Nat.sub_zero, hload]
    simp only [checked_some, pure_bind, store_nil, List.append_nil, Nat.add_zero]
    rw [← hempty]
  · rw [if_neg hpos]

theorem fillCache_pos (hsize : b._buffer.length = e) (hempty : b._bufferOffset = 0) (n : ℕ) :
    toInt32 (n - toInt32 b._buffer.length + b._bufferOffset) = toInt32 (n - e) := by
  rw [hsize, hempty, toInt32, toInt32, toInt32]
  simp

/-- An empty cache keeps a short write that is not taken for a long one, and stays empty. -/
theorem write_kept (h : Ready e b) (hempty : b._bufferOffset = 0) (he : 0 < e) {buffer : List UInt8}
    (hne : buffer ≠ []) (hshort : buffer.length ≤ e) (hneg : toInt32 (buffer.length - e) ≤ 0) :
    b.writeToDevice buffer = .ok (buffer.length, { b with _buffer := overwrite b._buffer 0 buffer }) := by
  have hfill : b.fillCache buffer = pure { b with _buffer := overwrite b._buffer 0 buffer } := by
    have hstore : store b._buffer 0 buffer = some (overwrite b._buffer 0 buffer) :=
      store_of_le (by rw [h.size]; omega)
    rw [fillCache, fillCache_pos h.size hempty]
    dsimp only
    rw [if_pos hneg, hempty, hstore, checked_some, pure_bind, ← hempty]
  rw [writeToDevice_eq h he hne, sendCache_empty hempty, pure_bind, hfill]
  rfl

/-- A short write that is taken for a long one leaves the memory. -/
theorem write_fails (h : Ready e b) (hempty : b._bufferOffset = 0) (he : 0 < e) {buffer : List UInt8}
    (hne : buffer ≠ []) (hshort : buffer.length < e) (hpos : 0 < toInt32 (buffer.length - e)) :
    ∃ msg, b.writeToDevice buffer = .error msg := by
  have hfill : b.fillCache buffer = .error "memory" := by
    have hload (n : ℕ) : load buffer n b._buffer.length = none := if_neg (by rw [h.size]; omega)
    rw [fillCache, fillCache_pos h.size hempty]
    dsimp only
    rw [if_neg (by omega), if_neg (by simpa using hempty), hload]
    rfl
  refine ⟨"memory", ?_⟩
  rw [writeToDevice_eq h he hne, sendCache_empty hempty, pure_bind, hfill]
  rfl

theorem writeAll_kept (he : 0 < e) {writes : List (List UInt8)} (h : Ready e b) (hempty : b._bufferOffset = 0)
    (hwrites : ∀ w ∈ writes, w ≠ [] ∧ w.length ≤ e ∧ toInt32 (w.length - e) ≤ 0) :
    ∃ b', writeAll b writes = .ok b' ∧ b'._pOstr = b._pOstr ∧ b'._bytesWritten = b._bytesWritten := by
  induction writes generalizing b with
  | nil => exact ⟨b, rfl, rfl, rfl⟩
  | cons w writes ih =>
      obtain ⟨hne, hshort, hneg⟩ := hwrites w List.mem_cons_self
      have hkept : Ready e { b with _buffer := overwrite b._buffer 0 w } := by
        refine ⟨h.skipped, ?_, h.fill⟩
        rw [overwrite_length (by rw [h.size]; omega), h.size]
      obtain ⟨b', hrest, hout, hcount⟩ := ih hkept hempty fun w' hw' => hwrites w' (List.mem_cons_of_mem _ hw')
      refine ⟨b', ?_, hout, hcount⟩
      rw [writeAll_cons, write_kept h hempty he hne hshort hneg]
      exact hrest

/-- If short writes go through, none is taken for a long one. -/
theorem kept_of_writeAll (he : 0 < e) {writes : List (List UInt8)} (h : Ready e b) (hempty : b._bufferOffset = 0)
    (hwrites : ∀ w ∈ writes, w ≠ [] ∧ w.length < e) {b' : PartialStreamBuf} (hall : writeAll b writes = .ok b') :
    ∀ w ∈ writes, toInt32 (w.length - e) ≤ 0 := by
  induction writes generalizing b with
  | nil => simp
  | cons w writes ih =>
      obtain ⟨hne, hshort⟩ := hwrites w List.mem_cons_self
      by_cases hpos : 0 < toInt32 (w.length - e)
      · obtain ⟨msg, hfails⟩ := write_fails h hempty he hne hshort hpos
        rw [writeAll_cons, hfails] at hall
        cases hall
      · rw [writeAll_cons, write_kept h hempty he hne (Nat.le_of_lt hshort) (by omega)] at hall
        have hkept : Ready e { b with _buffer := overwrite b._buffer 0 w } := by
          refine ⟨h.skipped, ?_, h.fill⟩
          rw [overwrite_length (by rw [h.size]; omega), h.size]
        have hrest := ih hkept hempty (fun w' hw' => hwrites w' (List.mem_cons_of_mem _ hw')) hall
        rw [List.forall_mem_cons]
        exact ⟨by omega, hrest⟩

end

/-! ### The promise is kept -/

/-- Every write has bytes, and no more than the stream buffer can hand on. -/
def Handed (lengths : List ℕ) : Prop := ∀ n ∈ lengths, 0 < n ∧ n < 2 ^ 31

theorem handed_of_buffered {lengths : List ℕ} (h : ∀ n ∈ lengths, 0 < n ∧ n ≤ STREAM_BUFFER_SIZE) :
    Handed lengths := by
  intro n hn
  obtain ⟨hpos, hle⟩ := h n hn
  rw [STREAM_BUFFER_SIZE] at hle
  exact ⟨hpos, by omega⟩

theorem Handed.writes {lengths : List ℕ} (h : Handed lengths) {writes : List (List UInt8)}
    (hlengths : writes.map List.length = lengths) : ∀ w ∈ writes, w ≠ [] ∧ w.length < 2 ^ 31 := by
  intro w hw
  obtain ⟨hpos, hlen⟩ := h w.length (hlengths ▸ List.mem_map_of_mem hw)
  exact ⟨List.length_pos_iff.mp hpos, hlen⟩

/-- Nothing is sent out, and nothing is to be sent out. -/
theorem strips_of_sum {e : ℕ} {lengths : List ℕ} (hwrites : Handed lengths) (hsum : lengths.sum = e)
    (hneg : ∀ n ∈ lengths, toInt32 ((n : ℤ) - e) ≤ 0) : Strips 0 e lengths := by
  intro writes hlengths mem hmem
  have hw := hwrites.writes hlengths
  rw [hsum, Nat.sub_zero, Nat.sub_self, List.take_zero]
  rcases Nat.eq_zero_or_pos e with rfl | he
  · have hflat : writes.flatten.length = 0 := by rw [List.length_flatten, hlengths, hsum]
    obtain ⟨b, hall, hout, hcount⟩ := writeAll_direct (b := create 0 mem) rfl hmem fun w hmem => (hw w hmem).1
    refine ⟨b, hall, ?_, ?_⟩
    · rw [hout, List.length_eq_zero_iff.mp hflat]
      rfl
    · rw [hcount, hflat]
      rfl
  · apply writeAll_kept he (ready_create hmem) rfl
    intro w hmem
    have hlen : w.length ∈ lengths := hlengths ▸ List.mem_map_of_mem hmem
    refine ⟨(hw w hmem).1, ?_, hneg _ hlen⟩
    rw [← hsum]
    exact List.single_le_sum (by simp) _ hlen

/-- All writes but the last one are long, and nothing is skipped. -/
theorem strips_of_longWrites {e : ℕ} {lengths : List ℕ} (hwrites : Handed lengths) (hle : e ≤ lengths.sum)
    (hlong : LongWrites e lengths) : Strips 0 e lengths := by
  intro writes hlengths mem hmem
  have hw := hwrites.writes hlengths
  have hflat : writes.flatten.length = lengths.sum := by rw [List.length_flatten, hlengths]
  rcases Nat.eq_zero_or_pos e with rfl | he
  · obtain ⟨b, hall, hout, hcount⟩ := writeAll_direct (b := create 0 mem) rfl hmem fun w hmem => (hw w hmem).1
    refine ⟨b, hall, ?_, ?_⟩
    · rw [hout, ← hflat]
      simp [create]
    · rw [hcount, hflat]
      simp [create]
  · subst hlengths
    cases writes with
    | nil => simp at hle; omega
    | cons w writes =>
        rw [List.map_cons, longWrites_cons, List.map_eq_nil_iff] at hlong
        obtain ⟨hne, hlen⟩ := hw w List.mem_cons_self
        by_cases hwlong : e < w.length
        · have hfirst : ∃ b', (create 0 mem).writeToDevice w = .ok (w.length, b') ∧ Holds e w b' := by
            refine ⟨_, write_long (ready_create hmem) he hlen hwlong, ⟨⟨rfl, ?_, Nat.le_refl e⟩, rfl, ?_, ?_⟩⟩
            · rw [List.length_drop]
              omega
            · simp [create]
            · simp only [create, List.take_zero, List.nil_append, List.length_take]
              omega
          obtain ⟨b₁, hwrite, h₁⟩ := hfirst
          have hrest : LongWrites e (writes.map List.length) := by
            rcases hlong with rfl | ⟨-, hlong⟩
            · simp [LongWrites]
            · exact hlong
          obtain ⟨b₂, hall, hout, hcount⟩ := h₁.writeAll he (by omega)
            (fun w' hw' => hw w' (List.mem_cons_of_mem _ hw')) hrest
          rw [← List.flatten_cons, hflat] at hout hcount
          refine ⟨b₂, ?_, ?_, ?_⟩
          · rw [writeAll_cons, hwrite]
            exact hall
          · rw [hout, List.drop_zero, Nat.sub_zero]
          · rw [hcount, Nat.sub_zero]
        · -- the only write is as long as the cache
          obtain rfl : writes = [] := hlong.resolve_right fun h => hwlong h.1
          have hsum : ([w].map List.length).sum = w.length := by simp
          rw [hsum] at hle
          have hsame : w.length = e := by omega
          apply strips_of_sum hwrites (hsum.trans hsame) _ [w] rfl mem hmem
          intro n hn
          rw [List.map_singleton, List.mem_singleton] at hn
          rw [hn, hsame, Int.sub_self]
          decide

/-- The write in which skipping ends fills the cache, and is followed by long writes. -/
theorem strips_of_start {s e n : ℕ} {pre post : List ℕ} (hwrites : Handed (pre ++ n :: post)) (he : 0 < e)
    (hpre : pre.sum < s) (hfits : s + e ≤ pre.sum + n) (hlong : LongWrites e post) :
    Strips s e (pre ++ n :: post) := by
  intro writes hlengths mem hmem
  have hw := hwrites.writes hlengths
  have hflat : writes.flatten.length = (pre ++ n :: post).sum := by rw [List.length_flatten, hlengths]
  obtain ⟨wpre, wrest, rfl, rfl, hrest⟩ := List.map_eq_append_iff.mp hlengths
  obtain ⟨w, wpost, rfl, rfl, rfl⟩ := List.map_eq_cons_iff.mp hrest
  obtain ⟨-, hlen⟩ := hw w (by simp)
  generalize hs' : s - (wpre.map List.length).sum = s'
  have hskipped : writeAll (create s mem) (wpre ++ w :: wpost) = writeAll (create s' mem) (w :: wpost) := by
    rw [writeAll_skipped (fun w' hw' => (hw w' (by simp [hw'])).1) hpre, hs']
  have hfirst : ∃ b', (create s' mem).writeToDevice w = .ok (w.length, b') ∧ Holds e (w.drop s') b' := by
    refine ⟨_, writeToDevice_start (by omega) (by omega) (by omega) (by omega) hlen,
      ⟨⟨rfl, ?_, Nat.le_of_eq hmem⟩, hmem, ?_, ?_⟩⟩
    · rw [List.length_drop]
      omega
    · have hend : w.drop (w.length - mem.length) = (w.drop s').drop (w.length - s' - mem.length) := by
        rw [List.drop_drop]
        congr 1
        omega
      dsimp only
      rw [hend, List.take_append_drop]
    · simp only [List.length_take, List.length_drop]
      omega
  obtain ⟨b₁, hwrite, h₁⟩ := hfirst
  obtain ⟨b₂, hall, hout, hcount⟩ := h₁.writeAll he (by omega) (fun w' hw' => hw w' (by simp [hw'])) hlong
  have hdrop : (wpre ++ w :: wpost).flatten.drop s = w.drop s' ++ wpost.flatten := by
    have hsplit : s = wpre.flatten.length + s' := by
      rw [List.length_flatten]
      omega
    rw [List.flatten_append, List.flatten_cons, hsplit, List.drop_length_add_append,
      List.drop_append_of_le_length (by omega)]
  have hcut : (w.drop s' ++ wpost.flatten).length =
      (wpre.map List.length ++ w.length :: wpost.map List.length).sum - s := by
    rw [← hdrop, List.length_drop, hflat]
  refine ⟨b₂, ?_, ?_, ?_⟩
  · rw [hskipped, writeAll_cons, hwrite]
    exact hall
  · rw [hout, hdrop, hcut]
  · rw [hcount, hcut]

/-! ### The promise is broken -/

/-- An output of zeros. -/
def zeros (lengths : List ℕ) : List (List UInt8) := lengths.map fun n => List.replicate n 0

theorem lengths_zeros (lengths : List ℕ) : (zeros lengths).map List.length = lengths := by
  simp [zeros, Function.comp_def]

theorem eq_zero_of_mem_zeros {lengths : List ℕ} : ∀ c ∈ (zeros lengths).flatten, c = 0 := by
  intro c hc
  simp only [zeros, List.mem_flatten, List.mem_map] at hc
  obtain ⟨_, ⟨n, -, rfl⟩, hc⟩ := hc
  exact List.eq_of_mem_replicate hc

theorem longWrites_of_counts {e : ℕ} (he : 0 < e) (he' : e < 2 ^ 31) {b b' : PartialStreamBuf} (h : Ready e b)
    (hfull : b._bufferOffset = e) {writes : List (List UInt8)}
    (hwrites : ∀ w ∈ writes, w ≠ [] ∧ w.length < 2 ^ 31) (hall : writeAll b writes = .ok b')
    (hcount : b'._bytesWritten = b._bytesWritten + (writes.map List.length).sum) :
    LongWrites e (writes.map List.length) := by
  obtain ⟨b'', hall', -, hfill, hsum, -⟩ := writeAll_counts he he' h hwrites
  obtain rfl : b' = b'' := Except.ok.inj (hall.symm.trans hall')
  have hpos : ∀ n ∈ writes.map List.length, 0 < n := by
    intro n hn
    obtain ⟨w, hw, rfl⟩ := List.mem_map.mp hn
    exact List.length_pos_iff.mpr (hwrites w hw).1
  rw [hfull] at hfill hsum
  have hiff := fill_eq_iff hpos (Nat.le_refl e)
  rw [hfill] at hsum
  rcases hiff.mp (by omega) with hnil | ⟨-, hlong⟩
  · rw [hnil]
    simp [LongWrites]
  · exact hlong

theorem fitting_of_strips_zero {e : ℕ} {lengths : List ℕ} (hwrites : Handed lengths) (hle : e ≤ lengths.sum)
    (h : Strips 0 e lengths) :
    LongWrites e lengths ∨ lengths.sum = e ∧ ∀ n ∈ lengths, toInt32 ((n : ℤ) - e) ≤ 0 := by
  obtain ⟨b, hall, -, hcount⟩ := h (zeros lengths) (lengths_zeros lengths) (List.replicate e 0) (by simp)
  have hready : Ready e (create 0 (List.replicate e 0)) := ready_create (by simp)
  have hw := hwrites.writes (lengths_zeros lengths)
  rcases Nat.eq_zero_or_pos e with rfl | he
  · left
    intro n hn
    exact (hwrites n (List.dropLast_subset lengths hn)).1
  · by_cases he' : e < 2 ^ 31
    · obtain ⟨b', hall', -, hfill, hsum, -⟩ := writeAll_counts he he' hready hw
      obtain rfl : b = b' := Except.ok.inj (hall.symm.trans hall')
      rw [lengths_zeros] at hfill hsum
      have hiff := empty_fill_eq_iff (fun n hn => (hwrites n hn).1) he hle
      change b._bufferOffset = fillAll e 0 lengths at hfill
      change b._bytesWritten + b._bufferOffset = 0 + 0 + longBytes e lengths at hsum
      rcases hiff.mp (by omega) with hlong | hsame
      · exact Or.inl hlong
      · refine Or.inr ⟨hsame, ?_⟩
        intro n hn
        have hsingle := List.single_le_sum (by simp) n hn
        rw [toInt32_eq (by omega) (by omega)]
        omega
    · right
      have hshort : ∀ w ∈ zeros lengths, w ≠ [] ∧ w.length < e := by
        intro w hmem
        obtain ⟨hne, hlen⟩ := hw w hmem
        exact ⟨hne, by omega⟩
      have hneg := kept_of_writeAll he hready rfl hshort hall
      obtain ⟨b', hall', -, hkept⟩ := writeAll_kept he hready rfl fun w hmem =>
        ⟨(hshort w hmem).1, Nat.le_of_lt (hshort w hmem).2, hneg w hmem⟩
      obtain rfl : b = b' := Except.ok.inj (hall.symm.trans hall')
      change b._bytesWritten = 0 at hkept
      refine ⟨by omega, ?_⟩
      intro n hn
      rw [← lengths_zeros lengths] at hn
      obtain ⟨w, hmem, rfl⟩ := List.mem_map.mp hn
      exact hneg w hmem

/-- A write whose cached part begins with a mark. -/
def marked (n e : ℕ) : List UInt8 := List.replicate (n - e) 0 ++ 1 :: List.replicate (e - 1) 0

theorem length_marked {n e : ℕ} (he : 0 < e) (hle : e ≤ n) : (marked n e).length = n := by
  simp only [marked, List.length_append, List.length_cons, List.length_replicate]
  omega

theorem drop_marked (n e : ℕ) : (marked n e).drop (n - e) = 1 :: List.replicate (e - 1) 0 :=
  List.drop_left' (List.length_replicate)

theorem eq_zero_of_mem_drop_marked {n e s : ℕ} (h : n - e < s) : ∀ c ∈ (marked n e).drop s, c = 0 := by
  intro c hc
  obtain ⟨k, rfl⟩ : ∃ k, s = n - e + (k + 1) := ⟨s - (n - e) - 1, by omega⟩
  rw [← List.drop_drop, drop_marked, List.drop_succ_cons] at hc
  exact List.eq_of_mem_replicate (List.mem_of_mem_drop hc)

/-- The first byte of a full cache is sent out by the next write. -/
theorem sends_first {e : ℕ} (he : 0 < e) (he' : e < 2 ^ 31) {b b' : PartialStreamBuf} (h : Ready e b)
    (hfull : b._bufferOffset = e) {c : UInt8} {cache : List UInt8} (hcache : b._buffer = c :: cache)
    {w : List UInt8} {writes : List (List UInt8)} (hwrites : ∀ w' ∈ w :: writes, w' ≠ [] ∧ w'.length < 2 ^ 31)
    (hall : writeAll b (w :: writes) = .ok b') : c ∈ b'._pOstr := by
  obtain ⟨hne, hlen⟩ := hwrites w List.mem_cons_self
  have hpos := List.length_pos_iff.mpr hne
  obtain ⟨b₁, hwrite, h₁, -⟩ := write_counts h he he' hne hlen
  rw [writeAll_cons, hwrite] at hall
  obtain ⟨b₂, hrest, -, -, -, hout⟩ := writeAll_counts he he' h₁ fun w' hw' => hwrites w' (List.mem_cons_of_mem _ hw')
  obtain rfl : b' = b₂ := Except.ok.inj (hall.symm.trans hrest)
  apply hout.subset
  have htake {k : ℕ} (hk : 0 < k) : c ∈ b._buffer.take k := by
    rw [hcache]
    obtain ⟨k, rfl⟩ := Nat.exists_eq_succ_of_ne_zero hk.ne'
    simp
  by_cases hlong : e < w.length
  · obtain ⟨-, rfl⟩ := Prod.mk.inj (Except.ok.inj ((write_long h he hlen hlong).symm.trans hwrite))
    have hmem := htake (hfull ▸ he : 0 < b._bufferOffset)
    simp [hmem]
  · obtain ⟨mem, -, hshort⟩ := write_short h he he' hne (by omega)
    obtain ⟨-, rfl⟩ := Prod.mk.inj (Except.ok.inj (hshort.symm.trans hwrite))
    exact List.mem_append_right _ (htake (by omega))

theorem start_ready {s e : ℕ} {mem buffer : List UInt8} (hs : 0 < s) (hle : s ≤ buffer.length) (hmem : mem.length = e)
    (he : 0 < e) (hfits : e ≤ buffer.length) (hlen : buffer.length < 2 ^ 31) :
    ∃ b, (create s mem).writeToDevice buffer = .ok (buffer.length, b) ∧ Ready e b ∧ b._bufferOffset = e ∧
      b._buffer = buffer.drop (buffer.length - e) ∧ b._bytesWritten = buffer.length - s - e := by
  subst hmem
  refine ⟨_, writeToDevice_start hs hle he hfits hlen, ⟨rfl, ?_, Nat.le_refl _⟩, rfl, rfl, rfl⟩
  rw [List.length_drop]
  omega

/-- Behind the writes that are skipped, those of an output of zeros but for one write. -/
theorem writeAll_zeros {s n : ℕ} {pre post : List ℕ} (hwrites : Handed (pre ++ n :: post)) (hpre : pre.sum < s)
    {w : List UInt8} (hw : w.length = n) (mem : List UInt8) :
    (zeros pre ++ w :: zeros post).map List.length = pre ++ n :: post ∧
      writeAll (create s mem) (zeros pre ++ w :: zeros post) =
        writeAll (create (s - pre.sum) mem) (w :: zeros post) := by
  have hmap : (zeros pre ++ w :: zeros post).map List.length = pre ++ n :: post := by
    rw [List.map_append, List.map_cons, lengths_zeros, lengths_zeros, hw]
  have hnonempty := hwrites.writes hmap
  refine ⟨hmap, ?_⟩
  rw [writeAll_skipped (fun w' hw' => (hnonempty w' (by simp [hw'])).1) (by rwa [lengths_zeros]), lengths_zeros]

theorem fitting_of_strips_start {s e n : ℕ} {pre post : List ℕ} (hwrites : Handed (pre ++ n :: post))
    (hpre : pre.sum < s) (hreach : s ≤ pre.sum + n) (hle : s + e ≤ (pre ++ n :: post).sum)
    (h : Strips s e (pre ++ n :: post)) : 0 < e ∧ s + e ≤ pre.sum + n ∧ LongWrites e post := by
  have hn := (hwrites n (by simp)).2
  have hpost : ∀ w ∈ zeros post, w ≠ [] ∧ w.length < 2 ^ 31 :=
    Handed.writes (fun m hm => hwrites m (by simp [hm])) (lengths_zeros post)
  have hzero : (List.replicate n (0 : UInt8)).length = n := List.length_replicate
  have hmem : (List.replicate e (0 : UInt8)).length = e := List.length_replicate
  obtain ⟨hmap, hskipped⟩ := writeAll_zeros hwrites hpre hzero (List.replicate e 0)
  obtain ⟨b, hall, -, hcount⟩ := h _ hmap (List.replicate e 0) hmem
  rw [hskipped, writeAll_cons] at hall
  -- the cache must be there, and may not be longer than the write
  have hcache : 0 < e ∧ e ≤ n := by
    by_contra hno
    have hfits : (List.replicate e (0 : UInt8)).length = 0 ∨
        (List.replicate n (0 : UInt8)).length < (List.replicate e (0 : UInt8)).length := by
      rw [hmem, hzero]
      omega
    obtain ⟨msg, hfails⟩ := writeToDevice_start_fails (Nat.sub_pos_of_lt hpre) (by rw [hzero]; omega) hfits
    rw [hfails] at hall
    cases hall
  obtain ⟨he, hen⟩ := hcache
  have hsum : (pre ++ n :: post).sum = pre.sum + n + post.sum := by
    rw [List.sum_append, List.sum_cons, Nat.add_assoc]
  by_cases hfits : s + e ≤ pre.sum + n
  · refine ⟨he, hfits, ?_⟩
    obtain ⟨b₁, hstart, h₁, hfull, -, hcount₁⟩ := start_ready (Nat.sub_pos_of_lt hpre) (by rw [hzero]; omega) hmem he
      (by rw [hzero]; exact hen) (by rw [hzero]; exact hn)
    rw [hstart] at hall
    have hlong := longWrites_of_counts he (by omega) h₁ hfull hpost hall (by
      rw [hcount, hcount₁, lengths_zeros, hzero, hsum]
      omega)
    rwa [lengths_zeros] at hlong
  · exfalso
    have hmarked := length_marked he hen
    obtain ⟨hmap', hskipped'⟩ := writeAll_zeros hwrites hpre hmarked (List.replicate e 0)
    obtain ⟨b', hall', hout', -⟩ := h _ hmap' (List.replicate e 0) hmem
    rw [hskipped', writeAll_cons] at hall'
    obtain ⟨b₁, hstart, h₁, hfull, hbuffer, -⟩ := start_ready (Nat.sub_pos_of_lt hpre) (by rw [hmarked]; omega) hmem he
      (by rw [hmarked]; exact hen) (by rw [hmarked]; exact hn)
    rw [hstart] at hall'
    rw [hmarked, drop_marked] at hbuffer
    cases post with
    | nil =>
        rw [hsum, List.sum_nil] at hle
        omega
    | cons m post =>
        -- a byte that should have been skipped is sent out first
        have hfirst := sends_first he (by omega) h₁ hfull hbuffer hpost hall'
        rw [hout'] at hfirst
        have hmemdrop := List.mem_of_mem_take hfirst
        have hsplit : s = (zeros pre).flatten.length + (s - pre.sum) := by
          rw [List.length_flatten, lengths_zeros]
          omega
        rw [List.flatten_append, List.flatten_cons, hsplit, List.drop_length_add_append,
          List.drop_append_of_le_length (by rw [hmarked]; omega), List.mem_append] at hmemdrop
        rcases hmemdrop with hone | hone
        · have := eq_zero_of_mem_drop_marked (by omega) 1 hone
          contradiction
        · have := eq_zero_of_mem_zeros 1 hone
          contradiction

theorem exists_start {s : ℕ} (hs : 0 < s) {lengths : List ℕ} (hle : s ≤ lengths.sum) :
    ∃ pre n post, lengths = pre ++ n :: post ∧ pre.sum < s ∧ s ≤ pre.sum + n := by
  induction lengths generalizing s with
  | nil =>
      rw [List.sum_nil] at hle
      omega
  | cons n lengths ih =>
      rw [List.sum_cons] at hle
      by_cases hn : s ≤ n
      · exact ⟨[], n, lengths, rfl, hs, by simpa using hn⟩
      · obtain ⟨pre, m, post, rfl, hpre, hreach⟩ := ih (s := s - n) (by omega) (by omega)
        refine ⟨n :: pre, m, post, rfl, ?_, ?_⟩
        · rw [List.sum_cons]
          omega
        · rw [List.sum_cons]
          omega

/-- The ends are left out of every output exactly if the writes fit. -/
theorem strips_iff {s e : ℕ} {lengths : List ℕ} (hwrites : Handed lengths) (hle : s + e ≤ lengths.sum) :
    Strips s e lengths ↔ Fitting s e lengths := by
  rw [Fitting]
  constructor
  · intro h
    split_ifs with hs
    · subst hs
      exact fitting_of_strips_zero hwrites (by omega) h
    · obtain ⟨pre, n, post, rfl, hpre, hreach⟩ := exists_start (Nat.pos_of_ne_zero hs) (by omega : s ≤ lengths.sum)
      obtain ⟨he, hfits, hlong⟩ := fitting_of_strips_start hwrites hpre hreach hle h
      exact ⟨he, pre, n, post, rfl, hpre, hfits, hlong⟩
  · intro h
    split_ifs at h with hs
    · subst hs
      rcases h with hlong | ⟨hsum, hneg⟩
      · exact strips_of_longWrites hwrites (by omega) hlong
      · exact strips_of_sum hwrites hsum hneg
    · obtain ⟨he, pre, n, post, rfl, hpre, hfits, hlong⟩ := h
      exact strips_of_start hwrites he hpre hfits hlong

theorem strips_iff_hello : Strips 3 1 [5] ↔ Fitting 3 1 [5] :=
  strips_iff (handed_of_buffered (by decide)) (by decide)

/-- Three bytes in three writes, the last of which is to be left out: nothing goes out. -/
theorem not_strips_bytes :
    ¬Strips 0 1 [1, 1, 1] ∧
      writeAll (create 0 [0]) [[0x61], [0x62], [0x63]] =
        .ok { _ignoreStart := 0, _buffer := [0x63], _bytesWritten := 0, _pOstr := [] } := by
  have hall : writeAll (create 0 [0]) [[0x61], [0x62], [0x63]] =
      .ok { _ignoreStart := 0, _buffer := [0x63], _bytesWritten := 0, _pOstr := [] } := by decide
  refine ⟨?_, hall⟩
  intro h
  obtain ⟨b, hall', -, hcount⟩ := h [[0x61], [0x62], [0x63]] rfl [0] rfl
  obtain rfl := Except.ok.inj (hall'.symm.trans hall)
  cases hcount

end PartialStreamBuf

end Poco.Zip
