import Poco.Foundation.BinaryIO

/-! # Numbers of seven bits a byte

`read7BitEncoded` takes bytes as long as their upper bit is set, and shifts the seven bits of each by seven more
places than those of the byte before.  Nothing ends the loop early: where the stream goes on and on so does the
loop, and a shift by as many places as the type has bits is not defined.  `decodes_iff` says for which streams the
number is the one that its bytes denote. -/

namespace Poco.Foundation

open Poco.Lib

namespace SevenBits

/-! ### The loop -/

/-- What the loop has done when it ends. -/
structure Outcome (w : ℕ) where
  value : BitVec w
  good : Bool
  consumed : ℕ
  shifts : List ℕ

/-- `read7BitEncoded` for a type of `w` bits, from byte `pos` on.  The stream need not end; there `next` is
`none`, the letter stays zero and the stream is not good any more.  The fuel is for the rounds. -/
def decode {w : ℕ} (next : ℕ → Option UInt8) : ℕ → ℕ → BitVec w → ℕ → List ℕ → Option (Outcome w)
  | 0, _, _, _, _ => none
  | fuel + 1, pos, value, s, shifts =>
    match next pos with
    | none => some ⟨value + (0 : BitVec w) <<< s, false, pos, shifts ++ [s]⟩
    | some c =>
      let x : BitVec w := (c &&& 0x7F).toBitVec.setWidth w
      let value := value + x <<< s
      if c &&& 0x80 ≠ 0 then decode next fuel (pos + 1) value (s + 7) (shifts ++ [s])
      else some ⟨value, true, pos + 1, shifts ++ [s]⟩

/-- The number that the first `n` bytes denote. -/
def denoted (next : ℕ → Option UInt8) (n : ℕ) : ℕ :=
  ((List.range n).map fun i => ((next i).getD 0 &&& 0x7F).toNat * 2 ^ (7 * i)).sum

/-- The loop ends, no shift is as wide as the type, and what is read successfully is the number that the bytes
denote. -/
def Decodes (w : ℕ) (next : ℕ → Option UInt8) : Prop :=
  ∃ fuel, ∃ o : Outcome w, decode next fuel 0 0 0 [] = some o ∧ (∀ s ∈ o.shifts, s < w) ∧
    (o.good = true → o.value.toNat = denoted next o.consumed)

/-- Byte `i` is there and says that another one follows. -/
def Continues (next : ℕ → Option UInt8) (i : ℕ) : Prop := ∃ c, next i = some c ∧ c &&& 0x80 ≠ 0

/-- After `n` bytes that go on there is one that does not, or the stream ends; the shift for it is less than the
width, and the number has no more bits than the type. -/
def Bounded (w : ℕ) (next : ℕ → Option UInt8) : Prop :=
  ∃ n, (∀ i < n, Continues next i) ∧ ¬Continues next n ∧ 7 * n < w ∧
    (next n ≠ none → denoted next (n + 1) < 2 ^ w)

variable {w : ℕ} {next : ℕ → Option UInt8}

/-! ### Rounds -/

theorem denoted_succ (next : ℕ → Option UInt8) (n : ℕ) :
    denoted next (n + 1) = denoted next n + ((next n).getD 0 &&& 0x7F).toNat * 2 ^ (7 * n) := by
  rw [denoted, List.range_succ, List.map_append, List.sum_append, List.map_singleton, List.sum_singleton, denoted]

theorem add_shiftLeft (a s : ℕ) (x : UInt8) :
    BitVec.ofNat w a + x.toBitVec.setWidth w <<< s = BitVec.ofNat w (a + x.toNat * 2 ^ s) := by
  apply BitVec.eq_of_toNat_eq
  rw [BitVec.toNat_add, BitVec.toNat_shiftLeft, BitVec.toNat_setWidth, BitVec.toNat_ofNat, BitVec.toNat_ofNat,
    Nat.shiftLeft_eq, UInt8.toNat_toBitVec, ← Nat.add_mod, Nat.add_mod a, Nat.mod_mul_mod, ← Nat.add_mod]

/-- What the loop has done after `n` bytes that go on and what is behind them. -/
def outcome (w : ℕ) (next : ℕ → Option UInt8) (n : ℕ) : Outcome w where
  value := BitVec.ofNat w (denoted next (n + 1))
  good := (next n).isSome
  consumed := if (next n).isSome then n + 1 else n
  shifts := (List.range (n + 1)).map (7 * ·)

theorem decode_eq {n : ℕ} (hcontinues : ∀ i < n, Continues next i) (hlast : ¬Continues next n) {k pos fuel : ℕ}
    (hpos : pos + k = n) (hfuel : k < fuel) :
    decode next fuel pos (BitVec.ofNat w (denoted next pos)) (7 * pos) ((List.range pos).map (7 * ·)) =
      some (outcome w next n) := by
  have hshifts : ∀ pos, (List.range pos).map (7 * ·) ++ [7 * pos] = (List.range (pos + 1)).map (7 * ·) := by
    intro pos
    rw [List.range_succ, List.map_append, List.map_singleton]
  obtain ⟨fuel, rfl⟩ := Nat.exists_eq_succ_of_ne_zero (Nat.ne_zero_of_lt hfuel)
  induction k generalizing pos fuel with
  | zero =>
      obtain rfl : pos = n := hpos
      have hsum := denoted_succ next pos
      rw [decode, hshifts]
      cases hnext : next pos with
      | none =>
          rw [hnext, Option.getD_none, UInt8.zero_and, UInt8.toNat_zero, Nat.zero_mul, Nat.add_zero] at hsum
          have hzero := add_shiftLeft (w := w) (denoted next pos) (7 * pos) 0
          rw [UInt8.toNat_zero, Nat.zero_mul, Nat.add_zero] at hzero
          have hsame : (0 : BitVec w) = (0 : UInt8).toBitVec.setWidth w := by simp
          simp only [outcome, hnext, hsum, hsame, hzero, Nat.add_zero, Option.isSome_none, Bool.false_eq_true, if_false]
      | some c =>
          have hbit : ¬(c &&& 0x80 ≠ 0) := fun hbit => hlast ⟨c, hnext, hbit⟩
          rw [hnext, Option.getD_some] at hsum
          simp only [outcome, hnext, hsum, if_neg hbit, add_shiftLeft, Option.isSome_some, if_true]
  | succ k ih =>
      obtain ⟨c, hnext, hbit⟩ := hcontinues pos (by omega)
      have hsum := denoted_succ next pos
      rw [hnext, Option.getD_some] at hsum
      obtain ⟨fuel, rfl⟩ := Nat.exists_eq_succ_of_ne_zero (show fuel ≠ 0 by omega)
      rw [decode, hshifts, hnext]
      simp only [if_pos hbit, add_shiftLeft]
      have hrec := ih (show pos + 1 + k = n by omega) fuel (by omega)
      rw [← hsum, ← hrec, Nat.mul_succ]

theorem decode_none {fuel pos s : ℕ} {value : BitVec w} {shifts : List ℕ}
    (hcontinues : ∀ i, pos ≤ i → i < pos + fuel → Continues next i) : decode next fuel pos value s shifts = none := by
  induction fuel generalizing pos s value shifts with
  | zero => rfl
  | succ fuel ih =>
      obtain ⟨c, hnext, hbit⟩ := hcontinues pos (Nat.le_refl pos) (by omega)
      rw [decode, hnext]
      simp only [if_pos hbit]
      exact ih fun i hle hlt => hcontinues i (by omega) (by omega)

/-- On a stream that ends it is the loop of `BinaryReader`, with the shifts written down. -/
theorem decode_sevenBits {bytes rest : List UInt8} {fuel pos s : ℕ} {value : BitVec w} {shifts : List ℕ}
    (hrest : bytes.drop pos = rest) (hfuel : rest.length < fuel) :
    ∃ o : Outcome w, decode (fun i => bytes[i]?) fuel pos value s shifts = some o ∧
      BinaryReader.sevenBits value s rest = (o.value, ⟨bytes.drop o.consumed, o.good⟩) := by
  obtain ⟨fuel, rfl⟩ := Nat.exists_eq_succ_of_ne_zero (Nat.ne_zero_of_lt hfuel)
  induction rest generalizing fuel pos s value shifts with
  | nil =>
      have hnext : bytes[pos]? = none := List.getElem?_eq_none (List.drop_eq_nil_iff.mp hrest)
      rw [decode, hnext]
      exact ⟨_, rfl, by simp [BinaryReader.sevenBits, hrest]⟩
  | cons c rest ih =>
      have hnext : bytes[pos]? = some c := by rw [← List.head?_drop, hrest, List.head?_cons]
      have htail : bytes.drop (pos + 1) = rest := by rw [← List.drop_drop, hrest, List.drop_one, List.tail_cons]
      rw [decode, hnext, BinaryReader.sevenBits]
      by_cases hbit : c &&& 0x80 ≠ 0
      · simp only [if_pos hbit]
        rw [List.length_cons] at hfuel
        obtain ⟨fuel, rfl⟩ := Nat.exists_eq_succ_of_ne_zero (show fuel ≠ 0 by omega)
        exact ih htail fuel (by omega)
      · simp only [if_neg hbit]
        exact ⟨_, rfl, by rw [htail]⟩

/-- On a good stream that ends `read7BitEncoded` does what the loop does. -/
theorem read7BitEncoded_eq (w : ℕ) (r : BinaryReader) (hgood : r._istr.good = true) :
    ∃ o : Outcome w, decode (fun i => r._istr.rest[i]?) (r._istr.rest.length + 1) 0 0 0 [] = some o ∧
      r.read7BitEncoded w = (o.value, { r with _istr := ⟨r._istr.rest.drop o.consumed, o.good⟩ }) := by
  obtain ⟨o, hdecode, hseven⟩ := @decode_sevenBits w _ _ _ 0 0 0#w [] List.drop_zero
    (Nat.lt_succ_self r._istr.rest.length)
  refine ⟨o, hdecode, ?_⟩
  rw [BinaryReader.read7BitEncoded, if_pos hgood, hseven]

/-! ### Numbers -/

/-- The loop ends at the first byte that does not go on. -/
theorem decodes_iff_outcome {n : ℕ} (hcontinues : ∀ i < n, Continues next i) (hlast : ¬Continues next n) :
    Decodes w next ↔ (∀ s ∈ (outcome w next n).shifts, s < w) ∧
      ((outcome w next n).good = true → (outcome w next n).value.toNat = denoted next (outcome w next n).consumed) := by
  have hstart : ∀ fuel, n < fuel → decode next fuel 0 (0 : BitVec w) 0 [] = some (outcome w next n) :=
    fun fuel hfuel => decode_eq hcontinues hlast (Nat.zero_add n) hfuel
  constructor
  · rintro ⟨fuel, o, hdecode, hshifts, hvalue⟩
    by_cases hfuel : n < fuel
    · rw [hstart fuel hfuel] at hdecode
      obtain rfl := Option.some.inj hdecode
      exact ⟨hshifts, hvalue⟩
    · rw [decode_none fun i _ hi => hcontinues i (by omega)] at hdecode
      cases hdecode
  · exact fun hboth => ⟨n + 1, outcome w next n, hstart _ (Nat.lt_succ_self n), hboth⟩

/-- Where the number ends the conditions say how wide it is. -/
theorem outcome_iff (w : ℕ) (next : ℕ → Option UInt8) (n : ℕ) :
    ((∀ s ∈ (outcome w next n).shifts, s < w) ∧
      ((outcome w next n).good = true → (outcome w next n).value.toNat = denoted next (outcome w next n).consumed)) ↔
        7 * n < w ∧ (next n ≠ none → denoted next (n + 1) < 2 ^ w) := by
  apply and_congr
  · constructor
    · exact fun hall => hall (7 * n) (List.mem_map.mpr ⟨n, List.mem_range.mpr (Nat.lt_succ_self n), rfl⟩)
    · intro hlt s hs
      obtain ⟨i, hi, rfl⟩ := List.mem_map.mp hs
      have hle := List.mem_range.mp hi
      omega
  · rw [← Option.isSome_iff_ne_none]
    apply imp_congr_right
    intro hsome
    have hconsumed : (outcome w next n).consumed = n + 1 := if_pos hsome
    rw [hconsumed, outcome, BitVec.toNat_ofNat]
    exact Nat.mod_eq_iff_lt (Nat.two_pow_pos w).ne'

/-- **Main result.**  Exactly a number that ends, and is no wider than the type, is read as what its bytes
denote. -/
theorem decodes_iff (w : ℕ) (next : ℕ → Option UInt8) : Decodes w next ↔ Bounded w next := by
  constructor
  · rintro ⟨fuel, o, hdecode, hrest⟩
    obtain ⟨n, hcontinues, hlast⟩ : ∃ n, (∀ i < n, Continues next i) ∧ ¬Continues next n := by
      by_contra hnever
      push Not at hnever
      have hall : ∀ n, Continues next n := fun n => Nat.strong_induction_on n hnever
      rw [decode_none fun i _ _ => hall i] at hdecode
      cases hdecode
    have hboth := (decodes_iff_outcome hcontinues hlast).mp ⟨fuel, o, hdecode, hrest⟩
    exact ⟨n, hcontinues, hlast, (outcome_iff w next n).mp hboth⟩
  · rintro ⟨n, hcontinues, hlast, hwidth⟩
    exact (decodes_iff_outcome hcontinues hlast).mpr ((outcome_iff w next n).mpr hwidth)

/-- Five bytes that go on: the sixth is shifted by 35 places. -/
theorem not_decodes_sixth : ¬∀ next : ℕ → Option UInt8, Decodes 32 next ∧ Decodes 64 next := by
  intro hall
  have hcontinues : ∀ i < 5, Continues (fun i => [0x80, 0x80, 0x80, 0x80, 0x80, 0x01][i]?) i := by
    intro i hi
    refine ⟨0x80, ?_, by decide⟩
    interval_cases i <;> rfl
  have hlast : ¬Continues (fun i => [0x80, 0x80, 0x80, 0x80, 0x80, 0x01][i]?) 5 := by
    rintro ⟨c, hc, hbit⟩
    obtain rfl : (0x01 : UInt8) = c := Option.some.inj hc
    exact hbit (by decide)
  have hwide := ((decodes_iff_outcome hcontinues hlast).mp (hall _).1).1
  have hshift : 35 < 32 := hwide 35 (List.mem_map.mpr ⟨5, by decide, rfl⟩)
  omega

end SevenBits

end Poco.Foundation
