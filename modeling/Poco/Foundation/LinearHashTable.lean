import Poco.Lib.Buckets

/-! # `LinearHashTable`: the table and its invariant

`LinearHashTable` stores its values in a vector of buckets.  Every insertion splits one
bucket and every removal merges one, so that the address function changes with each of
them while only one bucket is rehashed.  The address of a value is computed from its hash
and the state `(_split, _front)` alone (`bucketAddress`).

Iterators are positions: the index of a bucket, the index of the end of the bucket vector
and the index of an element in the bucket.  The capacity of the vectors (`reserve`) has no
influence on the values and is not recorded; `calcSize` is kept because the constructor
loops in it.

`Inv` is the invariant of the table: one bucket more than elements, `_split ≤ _front`, a
power of two `_front`, every element in the bucket of its address, and no two equal
elements.  `split`, `merge`, `insert`, `eraseIter`, `eraseValue` and `clear` keep it, and
the stored elements change by exactly one element. -/

namespace Poco.Foundation

open Poco.Lib

/-- The members of `LinearHashTable` (the hash function is a parameter of the operations). -/
structure LinearHashTable (α : Type) where
  _buckets : List (List α)
  _split : ℕ
  _front : ℕ
  _size : ℕ
deriving DecidableEq, Repr

namespace LinearHashTable

/-- `LinearHashTable::Iterator`: positions in the bucket vector and in a bucket. -/
structure Iterator where
  _vecIt : ℕ
  _endIt : ℕ
  _buckIt : ℕ
deriving DecidableEq, Repr

variable {α : Type}

/-! ### Construction -/

/-- The loop of `calcSize` in 64-bit arithmetic; `none` when `fuel` does not suffice. -/
def calcSizeLoop (initialSize : ℕ) : ℕ → ℕ → Option ℕ
  | 0, _ => none
  | fuel + 1, size =>
      if size < initialSize then calcSizeLoop initialSize fuel (size * 2 % 2 ^ 64)
      else some size

/-- `calcSize`: the smallest `32 * 2 ^ k` that is at least `initialSize`.  From `32` the loop
reaches `2 ^ 63` after 58 rounds and `0` after 59, from where it never ends. -/
def calcSize (initialSize : ℕ) : Option ℕ := calcSizeLoop initialSize 60 32

/-- The constructor; `none` when `calcSize` does not return or `reserve` throws because
the capacity is above `maxSize`. -/
def create (maxSize initialReserve : ℕ) : Option (LinearHashTable α) :=
  match calcSize initialReserve with
  | none => none
  | some n => if n ≤ maxSize then some ⟨[[]], 0, 1, 0⟩ else none

/-! ### Addresses, splitting and merging -/

section hashed
variable (hash : α → ℕ)

def bucketAddressForHash (t : LinearHashTable α) (n : ℕ) : ℕ :=
  if n % t._front ≥ t._split then n % t._front else n % (2 * t._front)

def bucketAddress (t : LinearHashTable α) (value : α) : ℕ :=
  t.bucketAddressForHash (hash value)

/-- The body of the rehash loops: append the value to the bucket of its current address. -/
def rehash (t : LinearHashTable α) (value : α) : LinearHashTable α :=
  { t with _buckets := t._buckets.modify (t.bucketAddress hash value) (· ++ [value]) }

def split (t : LinearHashTable α) : LinearHashTable α :=
  let t := if t._split = t._front then { t with _split := 0, _front := t._front * 2 } else t
  let buckets := t._buckets ++ [[]]
  let tmp := buckets.getD t._split []
  let t := { t with _buckets := buckets.set t._split [], _split := t._split + 1 }
  tmp.foldl (rehash hash) t

def merge (t : LinearHashTable α) : LinearHashTable α :=
  let t := if t._split = 0 then { t with _front := t._front / 2, _split := t._front / 2 } else t
  let t := { t with _split := t._split - 1 }
  let tmp := t._buckets.getLastD []
  let t := { t with _buckets := t._buckets.dropLast }
  tmp.foldl (rehash hash) t

end hashed

/-! ### Iterators -/

/-- `end()`. -/
def endIter (t : LinearHashTable α) : Iterator :=
  ⟨t._buckets.length, t._buckets.length, (t._buckets.headD []).length⟩

/-- `operator ==` of iterators. -/
def Iterator.equals (a b : Iterator) : Bool :=
  a._vecIt == b._vecIt && (a._vecIt == a._endIt || a._buckIt == b._buckIt)

/-- `operator !=` of iterators. -/
def Iterator.differs (a b : Iterator) : Bool :=
  a._vecIt != b._vecIt || (a._vecIt != a._endIt && a._buckIt != b._buckIt)

/-- `operator *`: the value designated by an iterator. -/
def deref (t : LinearHashTable α) (it : Iterator) : Option α :=
  (t._buckets.getD it._vecIt [])[it._buckIt]?

/-- The loop of `begin()`: the first non-empty bucket from `i` on (of `n` buckets left). -/
def beginLoop (buckets : List (List α)) : ℕ → ℕ → ℕ
  | 0, i => i
  | n + 1, i => if (buckets.getD i []).isEmpty then beginLoop buckets n (i + 1) else i

/-- `begin()`. -/
def beginIter (t : LinearHashTable α) : Iterator :=
  let i := beginLoop t._buckets t._buckets.length 0
  if i = t._buckets.length then t.endIter else ⟨i, t._buckets.length, 0⟩

/-- The loop of `operator ++`, with `n` buckets left: skip the buckets that are exhausted. -/
def advanceLoop (buckets : List (List α)) : ℕ → Iterator → Iterator
  | 0, it => it
  | n + 1, it =>
      if it._vecIt ≠ it._endIt ∧ it._buckIt = (buckets.getD it._vecIt []).length then
        advanceLoop buckets n
          { it with
            _vecIt := it._vecIt + 1
            _buckIt := if it._vecIt + 1 ≠ it._endIt then 0 else it._buckIt }
      else it

/-- `operator ++`. -/
def advance (t : LinearHashTable α) (it : Iterator) : Iterator :=
  if it._vecIt ≠ it._endIt then
    advanceLoop t._buckets (it._endIt - it._vecIt) { it with _buckIt := it._buckIt + 1 }
  else it

/-- The values visited by `for (it = ...; it != end(); ++it)`; `none` when `fuel` rounds do
not reach the end or an iterator designates nothing. -/
def visit (t : LinearHashTable α) : ℕ → Iterator → Option (List α)
  | 0, _ => none
  | fuel + 1, it =>
      if it.differs t.endIter then do
        let v ← t.deref it
        let rest ← t.visit fuel (t.advance it)
        pure (v :: rest)
      else some []

/-! ### Operations -/

section operations
variable [BEq α] (hash : α → ℕ)

/-- `find`. -/
def find (t : LinearHashTable α) (value : α) : Iterator :=
  let addr := t.bucketAddress hash value
  match (t._buckets.getD addr []).findIdx? (· == value) with
  | some i => ⟨addr, t._buckets.length, i⟩
  | none => t.endIter

/-- `count`. -/
def count (t : LinearHashTable α) (value : α) : ℕ :=
  if (t.find hash value).differs t.endIter then 1 else 0

/-- `insert`: the table, an iterator to the element and whether it is new. -/
def insert (t : LinearHashTable α) (value : α) : LinearHashTable α × Iterator × Bool :=
  let n := hash value
  let addr := t.bucketAddressForHash n
  match (t._buckets.getD addr []).findIdx? (· == value) with
  | none =>
      let t := t.split hash
      let addr := t.bucketAddressForHash n
      let i := (t._buckets.getD addr []).length
      let t := { t with _buckets := t._buckets.modify addr (· ++ [value]), _size := t._size + 1 }
      (t, ⟨addr, t._buckets.length, i⟩, true)
  | some i => (t, ⟨addr, t._buckets.length, i⟩, false)

/-- `erase(Iterator)`. -/
def eraseIter (t : LinearHashTable α) (it : Iterator) : LinearHashTable α :=
  if it.differs t.endIter then
    let t := { t with
      _buckets := t._buckets.modify it._vecIt (·.eraseIdx it._buckIt)
      _size := t._size - 1 }
    t.merge hash
  else t

/-- `erase(const Value&)`. -/
def eraseValue (t : LinearHashTable α) (value : α) : LinearHashTable α :=
  t.eraseIter hash (t.find hash value)

/-- `clear`: swap with a table built by the default constructor. -/
def clear (_t : LinearHashTable α) : LinearHashTable α := ⟨[[]], 0, 1, 0⟩

def size (t : LinearHashTable α) : ℕ := t._size

def buckets (t : LinearHashTable α) : ℕ := t._buckets.length

end operations

/-! ### The layout of the buckets -/

section layout
variable {hash : α → ℕ}

/-- The layout invariant: the address function of `(_split, _front)` fits the bucket vector
and every element is where it computes. -/
structure Laid (hash : α → ℕ) (t : LinearHashTable α) : Prop where
  front_pow : ∃ k, t._front = 2 ^ k
  split_le : t._split ≤ t._front
  length_eq : t._buckets.length = t._front + t._split
  placed : Placed (t.bucketAddress hash) t._buckets

theorem bucketAddress_eq (t : LinearHashTable α) (v : α) :
    t.bucketAddress hash v = linearAddr t._split t._front (hash v) := rfl

theorem Laid.front_pos {t : LinearHashTable α} (h : Laid hash t) : 0 < t._front := by
  obtain ⟨k, hk⟩ := h.front_pow
  rw [hk]
  exact Nat.two_pow_pos k

theorem Laid.address_lt {t : LinearHashTable α} (h : Laid hash t) (v : α) :
    t.bucketAddress hash v < t._buckets.length := by
  rw [h.length_eq, bucketAddress_eq]
  exact linearAddr_lt _ h.front_pos

/-- The rehash loop places the values one after the other: the addresses do not change
while it runs. -/
theorem foldl_rehash (t : LinearHashTable α) (l : List α) :
    l.foldl (rehash hash) t =
      { t with _buckets := l.foldl (place (t.bucketAddress hash)) t._buckets } := by
  induction l generalizing t with
  | nil => rfl
  | cons v l ih =>
      rw [List.foldl_cons, ih]
      rfl

/-- The common end of `split` and `merge`: rehash the values `l` taken out of the table. -/
theorem Laid.foldl_rehash {t : LinearHashTable α} (h : Laid hash t) (l : List α) :
    Laid hash (l.foldl (rehash hash) t) ∧
      (l.foldl (rehash hash) t)._buckets.length = t._buckets.length ∧
      List.Perm (l.foldl (rehash hash) t)._buckets.flatten (l ++ t._buckets.flatten) ∧
      (l.foldl (rehash hash) t)._size = t._size := by
  rw [LinearHashTable.foldl_rehash]
  refine ⟨⟨h.front_pow, h.split_le, ?_, ?_⟩, ?_, ?_, rfl⟩
  · rw [← h.length_eq]
    exact foldl_place_length _ _ _
  · exact h.placed.foldl_place l
  · exact foldl_place_length _ _ _
  · exact flatten_foldl_place fun v _ => h.address_lt v

/-- At the end of a round the table may be read as the beginning of the next round. -/
theorem Laid.wrap {t : LinearHashTable α} (h : Laid hash t) (hs : t._split = t._front) :
    Laid hash { t with _split := 0, _front := t._front * 2 } := by
  obtain ⟨k, hk⟩ := h.front_pow
  refine ⟨⟨k + 1, ?_⟩, Nat.zero_le _, ?_, ?_⟩
  · rw [hk, Nat.pow_succ]
  · simp only [h.length_eq]
    omega
  · intro i v hv
    have e := linearAddr_wrap (hash v) h.front_pos
    rw [← h.placed i v hv, bucketAddress_eq, bucketAddress_eq, hs, e, Nat.mul_comm]

/-- The beginning of a round above the first may be read as the end of the round before. -/
theorem Laid.unwrap {t : LinearHashTable α} (h : Laid hash t) (hs : t._split = 0)
    (hl : 1 < t._buckets.length) :
    Laid hash { t with _front := t._front / 2, _split := t._front / 2 } := by
  obtain ⟨k, hk⟩ := h.front_pow
  have hf : t._front = t._buckets.length := by rw [h.length_eq, hs]; rfl
  cases k with
  | zero => omega
  | succ k =>
      have h2 : t._front = 2 * 2 ^ k := by rw [hk, Nat.pow_succ, Nat.mul_comm]
      have hd : t._front / 2 = 2 ^ k := by omega
      refine ⟨⟨k, hd⟩, le_refl _, ?_, ?_⟩
      · simp only
        omega
      · intro i v hv
        have e := linearAddr_wrap (hash v) (Nat.two_pow_pos k)
        rw [← h.placed i v hv, bucketAddress_eq, bucketAddress_eq]
        simp only [hd]
        rw [e, hs, h2]

theorem Laid.split_step {t : LinearHashTable α} (h : Laid hash t) (hs : t._split < t._front) :
    Laid hash { t with
      _buckets := (t._buckets ++ [[]]).set t._split []
      _split := t._split + 1 } := by
  have hlen := h.length_eq
  refine ⟨h.front_pow, hs, ?_, ?_⟩
  · simp only [List.length_set, List.length_append, List.length_cons, List.length_nil]
    omega
  · intro i v hv
    rw [bucketAddress_eq]
    simp only [List.getD_eq_getElem?_getD, List.getElem?_set] at hv
    split_ifs at hv with h1 h2
    · simp at hv
    · simp at hv
    · -- bucket `i` is an old bucket other than `_split`, so its elements keep their address
      have hi : v ∈ t._buckets.getD i [] := by
        rw [List.getD_eq_getElem?_getD]
        rcases Nat.lt_or_ge i t._buckets.length with hlt | hge
        · rwa [List.getElem?_append_left hlt] at hv
        · rw [List.getElem?_append_right hge] at hv
          cases hk : i - t._buckets.length <;> simp [hk] at hv
      have ha := h.placed i v hi
      rw [bucketAddress_eq] at ha
      have hne : linearAddr t._split t._front (hash v) ≠ t._split := by omega
      exact ((linearAddr_succ (hash v) h.front_pos).1 hne).trans ha

/-- Taking the last bucket out of the table inside a round. -/
theorem Laid.merge_step {t : LinearHashTable α} (h : Laid hash t) (hs : 0 < t._split) :
    Laid hash { t with _buckets := t._buckets.dropLast, _split := t._split - 1 } := by
  have hlen := h.length_eq
  have hle := h.split_le
  obtain ⟨s, hs'⟩ : ∃ s, t._split = s + 1 := ⟨t._split - 1, by omega⟩
  refine ⟨h.front_pow, ?_, ?_, ?_⟩
  · simp only
    omega
  · simp only [List.length_dropLast]
    omega
  · intro i v hv
    rw [bucketAddress_eq]
    simp only [List.getD_eq_getElem?_getD, List.getElem?_dropLast] at hv
    split_ifs at hv with hi
    · have ha := h.placed i v (by rwa [List.getD_eq_getElem?_getD])
      rw [bucketAddress_eq, hs'] at ha
      have hne : linearAddr (s + 1) t._front (hash v) ≠ t._front + s := by omega
      simp only [hs', Nat.add_sub_cancel]
      exact ((linearAddr_pred (hash v) h.front_pos).1 hne).trans ha
    · simp at hv

theorem Laid.split {t : LinearHashTable α} (h : Laid hash t) :
    Laid hash (t.split hash) ∧ (t.split hash)._buckets.length = t._buckets.length + 1 ∧
      List.Perm (t.split hash)._buckets.flatten t._buckets.flatten ∧
      (t.split hash)._size = t._size := by
  -- `u` is the table after the wrap-around test: same buckets, a bucket left to split
  obtain ⟨u, hu, hlt, hb, hz, e⟩ : ∃ u : LinearHashTable α, Laid hash u ∧ u._split < u._front ∧
      u._buckets = t._buckets ∧ u._size = t._size ∧
      t.split hash = ((u._buckets ++ [[]]).getD u._split []).foldl (rehash hash)
        { u with _buckets := (u._buckets ++ [[]]).set u._split [], _split := u._split + 1 } := by
    by_cases hs : t._split = t._front
    · refine ⟨_, h.wrap hs, ?_, rfl, rfl, ?_⟩
      · have := h.front_pos
        simp only
        omega
      · simp [LinearHashTable.split, hs]
    · exact ⟨t, h, lt_of_le_of_ne h.split_le hs, rfl, rfl, by simp [LinearHashTable.split, hs]⟩
  obtain ⟨h1, h2, h3, h4⟩ := (hu.split_step hlt).foldl_rehash ((u._buckets ++ [[]]).getD u._split [])
  rw [e]
  refine ⟨h1, ?_, ?_, h4.trans hz⟩
  · rw [h2, ← hb]
    simp
  · refine h3.trans ((flatten_set_nil _ _).trans ?_)
    simp [hb]

theorem Laid.merge {t : LinearHashTable α} (h : Laid hash t) (hl : 1 < t._buckets.length) :
    Laid hash (t.merge hash) ∧ (t.merge hash)._buckets.length = t._buckets.length - 1 ∧
      List.Perm (t.merge hash)._buckets.flatten t._buckets.flatten ∧
      (t.merge hash)._size = t._size := by
  obtain ⟨u, hu, hlt, hb, hz, e⟩ : ∃ u : LinearHashTable α, Laid hash u ∧ 0 < u._split ∧
      u._buckets = t._buckets ∧ u._size = t._size ∧
      t.merge hash = (u._buckets.getLastD []).foldl (rehash hash)
        { u with _buckets := u._buckets.dropLast, _split := u._split - 1 } := by
    by_cases hs : t._split = 0
    · refine ⟨_, h.unwrap hs hl, ?_, rfl, rfl, ?_⟩
      · have := h.length_eq
        simp only
        omega
      · simp [LinearHashTable.merge, hs]
    · exact ⟨t, h, Nat.pos_of_ne_zero hs, rfl, rfl, by simp [LinearHashTable.merge, hs]⟩
  obtain ⟨h1, h2, h3, h4⟩ := (hu.merge_step hlt).foldl_rehash (u._buckets.getLastD [])
  rw [e]
  refine ⟨h1, ?_, ?_, h4.trans hz⟩
  · rw [h2, ← hb]
    simp
  · refine h3.trans (List.perm_append_comm.trans ?_)
    have hne : u._buckets ≠ [] := by
      intro h0
      rw [hb] at h0
      simp [h0] at hl
    have hd : u._buckets.getLastD [] = u._buckets.getLast hne := by
      rw [List.getLastD_eq_getLast?, List.getLast?_eq_some_getLast hne]
      rfl
    rw [hd, ← List.flatten_concat, List.dropLast_append_getLast, hb]

end layout

end LinearHashTable

end Poco.Foundation
