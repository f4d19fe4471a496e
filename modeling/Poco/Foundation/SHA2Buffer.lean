import Mathlib.Tactic.Linarith
import Poco.Foundation.SHA2Engine

/-! # The buffer of `SHA2Engine`

What an engine has seen is told by the text `m` of all updates and by the number `n` that has been
counted.  The state is the one behind the whole blocks of `m`, the buffer begins with the rest of
`m`, and `total` is `n` (`Holds`).  `update` keeps that (`Holds.update`): the text grows by the
data, and the counted number by the length of the data modulo `2 ^ w`.  `digest` then hashes the
text with its padding, in which the length is the counted one (`digest_eq`). -/

namespace Poco.Foundation

namespace SHA2Engine

open Poco.Lib

variable {w : ℕ}

/-- The words and the buffer of an engine that has seen `m` and counted `n`. -/
structure Holds (size : ℕ) (process : List (BitVec w) → List UInt8 → List (BitVec w))
    (initial : List (BitVec w)) (m : List UInt8) (n : ℕ) (words : Words w) (buffer : List UInt8) :
    Prop where
  total : count words.total.1 words.total.2 = n % 2 ^ (2 * w)
  modEq : n ≡ m.length [MOD size]
  state : words.state = (chain process size initial m).1
  rest : buffer.take (m.length % size) = (chain process size initial m).2
  room : size ≤ buffer.length

section

variable {size k : ℕ} {process : List (BitVec w) → List UInt8 → List (BitVec w)}
  {initial : List (BitVec w)} {m : List UInt8} {n : ℕ} {words : Words w} {buffer : List UInt8}

theorem holds_nil (hpos : 0 < size) (hroom : size ≤ buffer.length) :
    Holds size process initial [] 0 ⟨(0, 0), initial⟩ buffer where
  total := by simp [count]
  modEq := rfl
  state := by rw [chain_of_lt hpos]
  rest := by
    rw [chain_of_lt hpos]
    simp
  room := hroom

/-- A block of bytes is a power of two long, and a word can hold its length. -/
structure Sizes (w size k : ℕ) : Prop where
  pow : size = 2 ^ k
  lt : k < w

theorem Sizes.pos (h : Sizes w size k) : 0 < size := by
  rw [h.pow]
  exact Nat.two_pow_pos k

theorem Sizes.dvd (h : Sizes w size k) : size ∣ 2 ^ w := by
  rw [h.pow]
  exact Nat.pow_dvd_pow 2 h.lt.le

theorem low_mod (h : Sizes w size k) (lo : BitVec w) :
    (lo &&& BitVec.ofNat w (size - 1)).toNat = lo.toNat % size := by
  have hlt : 2 ^ k - 1 < 2 ^ w := by
    have hpos := Nat.two_pow_pos k
    have hpow := Nat.pow_lt_pow_right Nat.one_lt_two h.lt
    omega
  rw [BitVec.toNat_and, BitVec.toNat_ofNat, h.pow, Nat.mod_eq_of_lt hlt, Nat.and_two_pow_sub_one_eq_mod]

theorem Holds.left (hs : Sizes w size k) (h : Holds size process initial m n words buffer) :
    (words.total.1 &&& BitVec.ofNat w (size - 1)).toNat = m.length % size := by
  have hdvd : size ∣ 2 ^ (2 * w) := hs.dvd.trans (Nat.pow_dvd_pow 2 (by omega))
  have hcount : words.total.1.toNat % size = count words.total.1 words.total.2 % size := by
    obtain ⟨c, hc⟩ := hs.dvd
    rw [count, hc, Nat.mul_assoc, Nat.add_mul_mod_self_left]
  rw [low_mod hs, hcount, h.total, Nat.mod_mod_of_dvd _ hdvd]
  exact h.modEq

/-- What is in the buffer and what is copied behind it. -/
theorem Holds.take_overwrite (h : Holds size process initial m n words buffer) (data : List UInt8)
    (hpos : 0 < size) :
    (overwrite buffer (m.length % size) data).take (m.length % size + data.length) =
      (chain process size initial m).2 ++ data := by
  have hlt : m.length % size < size := Nat.mod_lt _ hpos
  rw [Lib.take_overwrite (by have := h.room; omega), h.rest]

theorem take_overwrite_zero (buffer data : List UInt8) : (overwrite buffer 0 data).take data.length = data := by
  rw [overwrite_zero, List.take_left]

theorem rest_fits (hpos : 0 < size) (hroom : size ≤ buffer.length) (s : List (BitVec w))
    (text : List UInt8) : size ≤ (overwrite buffer 0 (chain process size s text).2).length := by
  have hlt : (chain process size s text).2.length < size := length_rest_lt hpos s text
  rw [overwrite_length (by omega)]
  exact hroom

theorem Holds.updateWords_eq (hs : Sizes w size k) (h : Holds size process initial m n words buffer)
    (data : List UInt8) :
    (updateWords size process words buffer data).1.state =
        (chain process size initial (m ++ data)).1 ∧
      (updateWords size process words buffer data).2.take ((m ++ data).length % size) =
        (chain process size initial (m ++ data)).2 ∧
      size ≤ (updateWords size process words buffer data).2.length := by
  have hpos := hs.pos
  have hroom := h.room
  have hlt : m.length % size < size := Nat.mod_lt _ hpos
  have hrest : (chain process size initial m).2.length = m.length % size := length_rest hpos initial m
  have hlast : (chain process size initial (m ++ data)).2.length = (m ++ data).length % size :=
    length_rest hpos initial (m ++ data)
  rw [← hlast, chain_append hpos, updateWords]
  dsimp only
  rw [h.left hs, h.state]
  by_cases hfill : m.length % size ≠ 0 ∧ size - m.length % size ≤ data.length
  · -- the data fill the buffer up, and the rest of them follows
    have htake : (data.take (size - m.length % size)).length = size - m.length % size := by
      rw [List.length_take]
      omega
    have hblock : (overwrite buffer (m.length % size) (data.take (size - m.length % size))).take size =
        (chain process size initial m).2 ++ data.take (size - m.length % size) := by
      rw [← h.take_overwrite _ hpos, htake, Nat.add_sub_cancel' hlt.le]
    have hlength : ((chain process size initial m).2 ++ data.take (size - m.length % size)).length =
        size := by
      rw [List.length_append, hrest, htake]
      omega
    have hsplit : (chain process size initial m).2 ++ data =
        (chain process size initial m).2 ++ data.take (size - m.length % size) ++
          data.drop (size - m.length % size) := by
      rw [List.append_assoc, List.take_append_drop]
    have hover : size ≤ (overwrite buffer (m.length % size)
        (data.take (size - m.length % size))).length := by
      rw [overwrite_length (by omega)]
      exact hroom
    rw [if_pos hfill, hblock, hsplit, chain_block hpos hlength]
    generalize overwrite buffer (m.length % size) (data.take (size - m.length % size)) = buffer' at *
    exact ⟨rfl, take_overwrite_zero _ _, rest_fits hpos hover _ _⟩
  · rw [if_neg hfill]
    by_cases hempty : m.length % size = 0
    · have hnil : (chain process size initial m).2 = [] := List.length_eq_zero_iff.mp (by omega)
      rw [hempty, hnil, List.nil_append]
      exact ⟨rfl, take_overwrite_zero _ _, rest_fits hpos hroom _ _⟩
    · -- the data do not fill the buffer
      have hshort : ((chain process size initial m).2 ++ data).length < size := by
        rw [List.length_append, hrest]
        omega
      rw [chain_of_lt hshort, chain_of_lt (show data.length < size by omega)]
      refine ⟨rfl, ?_, ?_⟩
      · rw [List.length_append, hrest]
        exact h.take_overwrite data hpos
      · rw [overwrite_length (by dsimp only; omega)]
        exact hroom

theorem Holds.update (hs : Sizes w size k) (h : Holds size process initial m n words buffer)
    (data : List UInt8) :
    Holds size process initial (m ++ data) (n + data.length % 2 ^ w)
      (updateWords size process words buffer data).1 (updateWords size process words buffer data).2 := by
  obtain ⟨hstate, hrest, hroom⟩ := h.updateWords_eq hs data
  have htotal : (updateWords size process words buffer data).1.total =
      (words.total.1 + BitVec.ofNat w data.length,
        if words.total.1 + BitVec.ofNat w data.length < BitVec.ofNat w data.length then
          words.total.2 + 1
        else words.total.2) := by
    rw [updateWords]
    dsimp only
    split_ifs <;> rfl
  refine ⟨?_, ?_, hstate, hrest, hroom⟩
  · have hadd := count_add words.total.1 words.total.2 (BitVec.ofNat w data.length) 0#w
    have hcount : count (BitVec.ofNat w data.length) 0#w = data.length % 2 ^ w := by
      rw [count, BitVec.toNat_ofNat, BitVec.toNat_ofNat, Nat.zero_mod, Nat.mul_zero, Nat.add_zero]
    rw [BitVec.add_zero] at hadd
    rw [htotal, hadd, h.total, hcount, Nat.mod_add_mod]
  · rw [List.length_append]
    exact h.modEq.add ((Nat.mod_modEq data.length (2 ^ w)).of_dvd hs.dvd)

end

/-! ### Padding -/

/-- The text that is hashed for `m` if `n` bytes have been counted: a block has `size` bytes, and the
length `len`. -/
def padded (size len : ℕ) (m : List UInt8) (n : ℕ) : List UInt8 :=
  m ++ 0x80 :: List.replicate ((2 * size - len - 1 - m.length % size) % size) 0 ++ bigEndian len (8 * n)

theorem byteOf_eq (n : BitVec w) (s : ℕ) : byteOf n s = UInt8.ofNat (n.toNat / 2 ^ s) := by
  rw [byteOf, ← UInt8.toNat_inj, UInt8.toNat_ofBitVec, BitVec.toNat_setWidth, BitVec.toNat_ushiftRight,
    UInt8.toNat_ofNat', Nat.shiftRight_eq_div_pow]

theorem PUT_UINT32_eq (n : BitVec 32) : PUT_UINT32 n = bigEndian 4 n.toNat := by
  simp only [PUT_UINT32, byteOf_eq, bigEndian, Nat.div_div_eq_div_mul]
  simp

theorem PUT_UINT64_eq (n : BitVec 64) : PUT_UINT64 n = bigEndian 8 n.toNat := by
  simp only [PUT_UINT64, byteOf_eq, bigEndian, Nat.div_div_eq_div_mul]
  simp

theorem bigEndian_bitCount {k n : ℕ} (hw : w = 8 * k) (hk : 0 < k) {total : BitVec w × BitVec w}
    (h : count total.1 total.2 = n % 2 ^ (2 * w)) :
    bigEndian k (bitCount total).1.toNat ++ bigEndian k (bitCount total).2.toNat =
      bigEndian (k + k) (8 * n) := by
  have hpow : 2 ^ w = 256 ^ k := by
    rw [hw, Nat.pow_mul]
  have hbits : count (bitCount total).2 (bitCount total).1 = 8 * n % 256 ^ (k + k) := by
    have hshift := count_shift (show 3 ≤ w by omega) total.1 total.2
    rw [h, Nat.mul_mod_mod, Nat.two_mul, Nat.pow_add, hpow, ← Nat.pow_add] at hshift
    exact hshift
  have hlow := (bitCount total).2.isLt
  rw [hpow] at hlow
  rw [← bigEndian_mod (k + k) (8 * n), ← hbits, bigEndian_append, count, hpow]
  congr 1
  · rw [Nat.add_mul_div_left _ _ (by positivity), Nat.div_eq_of_lt hlow, Nat.zero_add]
  · rw [← bigEndian_mod k (_ + _), Nat.add_mul_mod_self_left, Nat.mod_eq_of_lt hlow]

theorem take_padding {padn : ℕ} (hpos : 0 < padn) (hle : padn ≤ 128) :
    padding.take padn = 0x80 :: List.replicate (padn - 1) 0 := by
  obtain ⟨p, rfl⟩ : ∃ p, padn = p + 1 := ⟨padn - 1, by omega⟩
  rw [padding, List.take_succ_cons, List.take_replicate, Nat.add_sub_cancel, Nat.min_eq_left (by omega)]

/-- `padn` in `digest`. -/
def padLength (size len last : ℕ) : ℕ :=
  if last < size - len then size - len - last else 2 * size - len - last

theorem padded_eq {size len : ℕ} (hsize : size ≤ 128) (hlen : len < size) {m : List UInt8} {n : ℕ} :
    padded size len m n =
      m ++ padding.take (padLength size len (m.length % size)) ++ bigEndian len (8 * n) := by
  have hlt : m.length % size < size := Nat.mod_lt _ (by omega)
  have hzeros : (2 * size - len - 1 - m.length % size) % size = padLength size len (m.length % size) - 1 := by
    unfold padLength
    split_ifs with h
    · rw [Nat.mod_eq_sub_mod (by omega), Nat.mod_eq_of_lt (by omega)]
      omega
    · rw [Nat.mod_eq_of_lt (by omega)]
      omega
  have hpos : 0 < padLength size len (m.length % size) := by
    unfold padLength
    split_ifs <;> omega
  have hle : padLength size len (m.length % size) ≤ 128 := by
    unfold padLength
    split_ifs <;> omega
  rw [padded, hzeros, take_padding hpos hle]

/-! ### The engine -/

/-- The word size of an algorithm. -/
def wordSize (algorithm : ALGORITHM) : ℕ := if algorithm.value > ALGORITHM.SHA_256.value then 64 else 32

/-- The engine has seen `m` and counted `n`. -/
def Seen (algorithm : ALGORITHM) (m : List UInt8) (n : ℕ) (e : Engine) : Prop :=
  e._algorithm = algorithm ∧
    if algorithm.value > ALGORITHM.SHA_256.value then
      Holds 128 _sha512_process (initial64 algorithm) m n e._context.words64 e._context.buffer
    else
      Holds 64 _sha256_process (initial32 algorithm) m n e._context.words32 e._context.buffer

theorem sizes32 : Sizes 32 64 6 := ⟨rfl, by decide⟩

theorem sizes64 : Sizes 64 128 7 := ⟨rfl, by decide⟩

theorem seen_reset (algorithm : ALGORITHM) : Seen algorithm [] 0 (reset algorithm) := by
  have hlen : (reset algorithm)._context.buffer.length = 128 := List.length_replicate
  refine ⟨rfl, ?_⟩
  split
  · exact holds_nil sizes64.pos (by omega)
  · exact holds_nil sizes32.pos (by omega)

theorem Seen.updateImpl {algorithm : ALGORITHM} {m : List UInt8} {n : ℕ} {e : Engine}
    (h : Seen algorithm m n e) (data : List UInt8) :
    Seen algorithm (m ++ data) (n + data.length % 2 ^ wordSize algorithm) (updateImpl e data) := by
  obtain ⟨rfl, h⟩ := h
  unfold SHA2Engine.updateImpl
  by_cases hempty : data.length = 0
  · obtain rfl := List.length_eq_zero_iff.mp hempty
    rw [if_pos hempty, List.append_nil, hempty, Nat.zero_mod, Nat.add_zero]
    exact ⟨rfl, h⟩
  · rw [if_neg hempty]
    unfold wordSize
    split_ifs at h ⊢ with hsize
    · refine ⟨rfl, ?_⟩
      rw [if_pos hsize]
      exact h.update sizes64 data
    · refine ⟨rfl, ?_⟩
      rw [if_neg hsize]
      exact h.update sizes32 data

/-- The number that is counted for some pieces of text. -/
def counted (algorithm : ALGORITHM) (chunks : List (List UInt8)) : ℕ :=
  (chunks.map fun c => c.length % 2 ^ wordSize algorithm).sum

theorem Seen.foldl {algorithm : ALGORITHM} {m : List UInt8} {n : ℕ} {e : Engine}
    (h : Seen algorithm m n e) (chunks : List (List UInt8)) :
    Seen algorithm (m ++ chunks.flatten) (n + counted algorithm chunks)
      (chunks.foldl SHA2Engine.updateImpl e) := by
  induction chunks generalizing m n e with
  | nil =>
      rw [List.flatten_nil, List.append_nil]
      exact h
  | cons c chunks ih =>
      have hnext := ih (h.updateImpl c)
      rw [List.append_assoc, Nat.add_assoc] at hnext
      exact hnext

/-! ### The digest -/

section

variable {algorithm : ALGORITHM} {m : List UInt8} {n : ℕ} {e : Engine}

/-- What `digest` feeds to the engine for words of 64 bits. -/
theorem Seen.state64 (hsize : algorithm.value > ALGORITHM.SHA_256.value) (h : Seen algorithm m n e) :
    (SHA2Engine.updateImpl
        (SHA2Engine.updateImpl e (padding.take (padLength 128 16 (m.length % 128))))
        (PUT_UINT64 (bitCount e._context.words64.total).1 ++
          PUT_UINT64 (bitCount e._context.words64.total).2))._context.words64.state =
      (chain _sha512_process 128 (initial64 algorithm) (padded 128 16 m n)).1 := by
  have hholds := h.2
  rw [if_pos hsize] at hholds
  have hseen := ((h.updateImpl (padding.take (padLength 128 16 (m.length % 128)))).updateImpl
    (PUT_UINT64 (bitCount e._context.words64.total).1 ++
      PUT_UINT64 (bitCount e._context.words64.total).2)).2
  rw [if_pos hsize, PUT_UINT64_eq, PUT_UINT64_eq, bigEndian_bitCount rfl (by decide) hholds.total,
    ← padded_eq (by decide) (by decide)] at hseen
  rw [PUT_UINT64_eq, PUT_UINT64_eq, bigEndian_bitCount rfl (by decide) hholds.total]
  exact hseen.state

/-- What `digest` feeds to the engine for words of 32 bits. -/
theorem Seen.state32 (hsize : ¬algorithm.value > ALGORITHM.SHA_256.value) (h : Seen algorithm m n e) :
    (SHA2Engine.updateImpl
        (SHA2Engine.updateImpl e (padding.take (padLength 64 8 (m.length % 64))))
        (PUT_UINT32 (bitCount e._context.words32.total).1 ++
          PUT_UINT32 (bitCount e._context.words32.total).2))._context.words32.state =
      (chain _sha256_process 64 (initial32 algorithm) (padded 64 8 m n)).1 := by
  have hholds := h.2
  rw [if_neg hsize] at hholds
  have hseen := ((h.updateImpl (padding.take (padLength 64 8 (m.length % 64)))).updateImpl
    (PUT_UINT32 (bitCount e._context.words32.total).1 ++
      PUT_UINT32 (bitCount e._context.words32.total).2)).2
  rw [if_neg hsize, PUT_UINT32_eq, PUT_UINT32_eq, bigEndian_bitCount rfl (by decide) hholds.total,
    ← padded_eq (by decide) (by decide)] at hseen
  rw [PUT_UINT32_eq, PUT_UINT32_eq, bigEndian_bitCount rfl (by decide) hholds.total]
  exact hseen.state

theorem updateImpl_algorithm (e : Engine) (data : List UInt8) :
    (updateImpl e data)._algorithm = e._algorithm := by
  unfold updateImpl
  split_ifs <;> rfl

/-- The bytes of all eight words, of which `digest` returns the first ones. -/
def wordBytes (put : BitVec w → List UInt8) (state : List (BitVec w)) : List UInt8 :=
  [0, 1, 2, 3, 4, 5, 6, 7].flatMap fun i => put (state.getD i 0)

theorem wordBytes_append (front back : List ℕ) (h : [0, 1, 2, 3, 4, 5, 6, 7] = front ++ back)
    (put : BitVec w → List UInt8) (state : List (BitVec w)) :
    wordBytes put state =
      (front.flatMap fun i => put (state.getD i 0)) ++ back.flatMap fun i => put (state.getD i 0) := by
  rw [wordBytes, h, List.flatMap_append]

/-- `digest` for words of 64 bits: SHA-384 leaves the last two words out. -/
theorem Seen.digest64 (hsize : algorithm.value > ALGORITHM.SHA_256.value) (h : Seen algorithm m n e) :
    digest e =
      ((wordBytes PUT_UINT64
          (chain _sha512_process 128 (initial64 algorithm) (padded 128 16 m n)).1).take
        (digestLength algorithm), reset algorithm) := by
  have hstate := h.state64 hsize
  have hholds := h.2
  rw [if_pos hsize] at hholds
  have hleft : (e._context.words64.total.1 &&& 0x7F).toNat = m.length % 128 := hholds.left sizes64
  obtain ⟨rfl, -⟩ := h
  set e' := SHA2Engine.updateImpl
    (SHA2Engine.updateImpl e (padding.take (padLength 128 16 (m.length % 128))))
    (PUT_UINT64 (bitCount e._context.words64.total).1 ++
      PUT_UINT64 (bitCount e._context.words64.total).2) with he'
  have halg : e'._algorithm = e._algorithm := by rw [he', updateImpl_algorithm, updateImpl_algorithm]
  have hdigest : digest e =
      (([0, 1, 2, 3, 4, 5].flatMap (fun i => PUT_UINT64 (e'._context.words64.state.getD i 0)) ++
        if e'._algorithm.value > ALGORITHM.SHA_384.value then
          [6, 7].flatMap fun i => PUT_UINT64 (e'._context.words64.state.getD i 0)
        else List.replicate 16 0).take (digestLength e._algorithm), reset e._algorithm) := by
    have hpad : ∀ k, (if k < 112 then 112 - k else 240 - k) = padLength 128 16 k := fun _ => rfl
    rw [he', digest, if_pos hsize]
    dsimp only
    rw [hleft, hpad]
  rw [hdigest, hstate, halg]
  generalize (chain _sha512_process 128 (initial64 e._algorithm) (padded 128 16 m n)).1 = state
  have hlen : ([0, 1, 2, 3, 4, 5].flatMap fun i => PUT_UINT64 (state.getD i 0)).length = 48 := by
    simp only [PUT_UINT64_eq, List.length_flatMap, length_bigEndian]
    rfl
  rw [wordBytes_append [0, 1, 2, 3, 4, 5] [6, 7] rfl]
  split_ifs with hlong
  · rfl
  · have hshort : digestLength e._algorithm = 48 := by
      revert hsize hlong
      cases e._algorithm <;> decide
    rw [hshort, List.take_left' hlen, List.take_left' hlen]

/-- `digest` for words of 32 bits: SHA-224 leaves the last word out. -/
theorem Seen.digest32 (hsize : ¬algorithm.value > ALGORITHM.SHA_256.value) (h : Seen algorithm m n e) :
    digest e =
      ((wordBytes PUT_UINT32
          (chain _sha256_process 64 (initial32 algorithm) (padded 64 8 m n)).1).take
        (digestLength algorithm), reset algorithm) := by
  have hstate := h.state32 hsize
  have hholds := h.2
  rw [if_neg hsize] at hholds
  have hleft : (e._context.words32.total.1 &&& 0x3F).toNat = m.length % 64 := hholds.left sizes32
  obtain ⟨rfl, -⟩ := h
  set e' := SHA2Engine.updateImpl
    (SHA2Engine.updateImpl e (padding.take (padLength 64 8 (m.length % 64))))
    (PUT_UINT32 (bitCount e._context.words32.total).1 ++
      PUT_UINT32 (bitCount e._context.words32.total).2) with he'
  have halg : e'._algorithm = e._algorithm := by rw [he', updateImpl_algorithm, updateImpl_algorithm]
  have hdigest : digest e =
      (([0, 1, 2, 3, 4, 5, 6].flatMap (fun i => PUT_UINT32 (e'._context.words32.state.getD i 0)) ++
        (if e'._algorithm.value > ALGORITHM.SHA_224.value then
          PUT_UINT32 (e'._context.words32.state.getD 7 0)
        else List.replicate 4 0) ++ List.replicate 32 0).take (digestLength e._algorithm),
        reset e._algorithm) := by
    have hpad : ∀ k, (if k < 56 then 56 - k else 120 - k) = padLength 64 8 k := fun _ => rfl
    rw [he', digest, if_neg hsize]
    dsimp only
    rw [hleft, hpad]
  rw [hdigest, hstate, halg]
  generalize (chain _sha256_process 64 (initial32 e._algorithm) (padded 64 8 m n)).1 = state
  congr 1
  split_ifs with hlong
  · have hall : e._algorithm = .SHA_256 := by
      revert hsize hlong
      cases e._algorithm <;> decide
    rw [hall]
    rfl
  · have hshort : e._algorithm = .SHA_224 := by
      revert hsize hlong
      cases e._algorithm <;> decide
    rw [hshort]
    rfl

end

end SHA2Engine

end Poco.Foundation
