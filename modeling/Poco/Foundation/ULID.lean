import Mathlib.Data.List.GetD
import Poco.Lib.Radix
import Poco.Lib.Bytes

/-! # `ULID`

An identifier of 128 bits in four members, written as 26 digits to base 32.  The text has the digits of
the number that the members form (`toString_eq`), so that it is read back (`parse_toString_eq`) and is in
the order of the identifiers (`compare_eq`). -/

namespace Poco.Foundation

open Poco.Lib

/-- The result of a comparison as an `int`. -/
def sign : Ordering → ℤ
  | .lt => -1
  | .eq => 0
  | .gt => 1

/-- `ULID`. -/
structure ULID where
  _timeHi : UInt32
  _timeLo : UInt16
  _randomHi : UInt16
  _randomLo : UInt64
deriving DecidableEq, Repr

namespace ULID

/-- `ENCODING`. -/
def ENCODING : List UInt8 := "0123456789ABCDEFGHJKMNPQRSTVWXYZ".toList.map Char.toUInt8

/-- `REVERSE_ENCODING`. -/
def REVERSE_ENCODING : List UInt8 := [
    0xFF, 0xFF, 0xFF, 0xFF, 0xFF, 0xFF, 0xFF, 0xFF, 0xFF, 0xFF, 0xFF, 0xFF, 0xFF, 0xFF, 0xFF, 0xFF,
    0xFF, 0xFF, 0xFF, 0xFF, 0xFF, 0xFF, 0xFF, 0xFF, 0xFF, 0xFF, 0xFF, 0xFF, 0xFF, 0xFF, 0xFF, 0xFF,
    0xFF, 0xFF, 0xFF, 0xFF, 0xFF, 0xFF, 0xFF, 0xFF, 0xFF, 0xFF, 0xFF, 0xFF, 0xFF, 0xFF, 0xFF, 0xFF,
    0x00, 0x01, 0x02, 0x03, 0x04, 0x05, 0x06, 0x07, 0x08, 0x09, 0xFF, 0xFF, 0xFF, 0x00, 0xFF, 0xFF,
    0xFF, 0x0A, 0x0B, 0x0C, 0x0D, 0x0E, 0x0F, 0x10, 0x11, 0x01, 0x12, 0x13, 0x01, 0x14, 0x15, 0x00,
    0x16, 0x17, 0x18, 0x19, 0x1A, 0xFF, 0x1B, 0x1C, 0x1D, 0x1E, 0x1F, 0xFF, 0xFF, 0xFF, 0xFF, 0xFF,
    0xFF, 0x0A, 0x0B, 0x0C, 0x0D, 0x0E, 0x0F, 0x10, 0x11, 0x01, 0x12, 0x13, 0x01, 0x14, 0x15, 0x00,
    0x16, 0x17, 0x18, 0x19, 0x1A, 0xFF, 0x1B, 0x1C, 0x1D, 0x1E, 0x1F, 0xFF, 0xFF, 0xFF, 0xFF, 0xFF,
    0xFF, 0xFF, 0xFF, 0xFF, 0xFF, 0xFF, 0xFF, 0xFF, 0xFF, 0xFF, 0xFF, 0xFF, 0xFF, 0xFF, 0xFF, 0xFF,
    0xFF, 0xFF, 0xFF, 0xFF, 0xFF, 0xFF, 0xFF, 0xFF, 0xFF, 0xFF, 0xFF, 0xFF, 0xFF, 0xFF, 0xFF, 0xFF,
    0xFF, 0xFF, 0xFF, 0xFF, 0xFF, 0xFF, 0xFF, 0xFF, 0xFF, 0xFF, 0xFF, 0xFF, 0xFF, 0xFF, 0xFF, 0xFF,
    0xFF, 0xFF, 0xFF, 0xFF, 0xFF, 0xFF, 0xFF, 0xFF, 0xFF, 0xFF, 0xFF, 0xFF, 0xFF, 0xFF, 0xFF, 0xFF,
    0xFF, 0xFF, 0xFF, 0xFF, 0xFF, 0xFF, 0xFF, 0xFF, 0xFF, 0xFF, 0xFF, 0xFF, 0xFF, 0xFF, 0xFF, 0xFF,
    0xFF, 0xFF, 0xFF, 0xFF, 0xFF, 0xFF, 0xFF, 0xFF, 0xFF, 0xFF, 0xFF, 0xFF, 0xFF, 0xFF, 0xFF, 0xFF,
    0xFF, 0xFF, 0xFF, 0xFF, 0xFF, 0xFF, 0xFF, 0xFF, 0xFF, 0xFF, 0xFF, 0xFF, 0xFF, 0xFF, 0xFF, 0xFF,
    0xFF, 0xFF, 0xFF, 0xFF, 0xFF, 0xFF, 0xFF, 0xFF, 0xFF, 0xFF, 0xFF, 0xFF, 0xFF, 0xFF, 0xFF, 0xFF]

/-- `decode`, as a number of any type. -/
def decode (c : UInt8) : ℕ := (REVERSE_ENCODING.getD c.toNat 0).toNat

/-- `ulid[0] > '7'` for a signed `char`, and none of the letters that are read as 0 or 1. -/
def startsTooHigh (c : UInt8) : Bool :=
  '7'.toUInt8.toInt8 < c.toInt8 ∧ ¬(c = 'l'.toUInt8 ∨ c = 'L'.toUInt8 ∨ c = 'i'.toUInt8 ∨
    c = 'I'.toUInt8 ∨ c = 'o'.toUInt8 ∨ c = 'O'.toUInt8)

/-- The assignments in `tryParse`. -/
def assemble (ulid : List UInt8) : ULID :=
  let d := fun i => decode (ulid.getD i 0)
  { _timeHi := UInt32.ofNat
      (d 0 <<< 29 ||| d 1 <<< 24 ||| d 2 <<< 19 ||| d 3 <<< 14 ||| d 4 <<< 9 ||| d 5 <<< 4 |||
        d 6 >>> 1)
    _timeLo := UInt16.ofNat ((d 6 &&& 1) <<< 15 ||| d 7 <<< 10 ||| d 8 <<< 5 ||| d 9)
    _randomHi := UInt16.ofNat (d 10 <<< 11 ||| d 11 <<< 6 ||| d 12 <<< 1 ||| d 13 >>> 4)
    _randomLo := UInt64.ofNat
      ((d 13 &&& 0xF) <<< 60 ||| d 14 <<< 55 ||| d 15 <<< 50 ||| d 16 <<< 45 ||| d 17 <<< 40 |||
        d 18 <<< 35 ||| d 19 <<< 30 ||| d 20 <<< 25 ||| d 21 <<< 20 ||| d 22 <<< 15 |||
        d 23 <<< 10 ||| d 24 <<< 5 ||| d 25) }

/-- `tryParse`: the result, and the object behind the call. -/
def tryParse (this : ULID) (ulid : List UInt8) : Bool × ULID :=
  if ulid.length ≠ 26 then (false, this)
  else if startsTooHigh (ulid.getD 0 0) then (false, this)
  else if ulid.any fun c => REVERSE_ENCODING.getD c.toNat 0 = 0xFF then (false, this)
  else (true, assemble ulid)

/-- `parse`, which throws a `SyntaxException` with the text. -/
def parse (this : ULID) (ulid : List UInt8) : Except (List UInt8) ULID :=
  if (tryParse this ulid).1 then .ok (tryParse this ulid).2 else .error ulid

/-- The places in `ENCODING` of the characters of `toString`. -/
def places (u : ULID) : List ℕ :=
  let timeHi := u._timeHi.toNat
  let timeLo := u._timeLo.toNat
  let randomHi := u._randomHi.toNat
  let randomLo := u._randomLo.toNat
  [timeHi >>> 29, timeHi >>> 24 &&& 0x1F, timeHi >>> 19 &&& 0x1F, timeHi >>> 14 &&& 0x1F,
    timeHi >>> 9 &&& 0x1F, timeHi >>> 4 &&& 0x1F, ((timeHi &&& 0x0F) <<< 1) + (timeLo >>> 15),
    timeLo >>> 10 &&& 0x1F, timeLo >>> 5 &&& 0x1F, timeLo &&& 0x1F,
    randomHi >>> 11 &&& 0x1F, randomHi >>> 6 &&& 0x1F, randomHi >>> 1 &&& 0x1F,
    ((randomHi &&& 0x01) <<< 4) + (randomLo >>> 60), randomLo >>> 55 &&& 0x1F,
    randomLo >>> 50 &&& 0x1F, randomLo >>> 45 &&& 0x1F, randomLo >>> 40 &&& 0x1F,
    randomLo >>> 35 &&& 0x1F, randomLo >>> 30 &&& 0x1F, randomLo >>> 25 &&& 0x1F,
    randomLo >>> 20 &&& 0x1F, randomLo >>> 15 &&& 0x1F, randomLo >>> 10 &&& 0x1F,
    randomLo >>> 5 &&& 0x1F, randomLo &&& 0x1F]

/-- `toString`. -/
def toString (u : ULID) : List UInt8 := u.places.map fun i => ENCODING.getD i 0

/-- `cmp`. -/
def cmp {T : Type} [LT T] [DecidableEq T] [DecidableRel (LT.lt (α := T))] (a b : T) : ℤ :=
  if a = b then 0 else if a < b then -1 else 1

/-- `compare`. -/
def compare (u ulid : ULID) : ℤ :=
  let c := cmp u._timeHi ulid._timeHi
  if c = 0 then
    let c := cmp u._timeLo ulid._timeLo
    if c = 0 then
      let c := cmp u._randomHi ulid._randomHi
      if c = 0 then cmp u._randomLo ulid._randomLo else c
    else c
  else c

/-! ### The number of an identifier -/

/-- The members as one number. -/
def value (u : ULID) : ℕ :=
  ((u._timeHi.toNat * 2 ^ 16 + u._timeLo.toNat) * 2 ^ 16 + u._randomHi.toNat) * 2 ^ 64 +
    u._randomLo.toNat

theorem value_lt (u : ULID) : u.value < 32 ^ 26 := by
  have h₁ := u._timeHi.toNat_lt
  have h₂ := u._timeLo.toNat_lt
  have h₃ := u._randomHi.toNat_lt
  have h₄ := u._randomLo.toNat_lt
  unfold value
  omega

theorem and_mask (x k : ℕ) : x &&& (2 ^ k - 1) = x % 2 ^ k := Nat.and_two_pow_sub_one_eq_mod x k

theorem places_eq (u : ULID) : u.places = radix 32 26 u.value := by
  have h₁ := u._timeHi.toNat_lt
  have h₂ := u._timeLo.toNat_lt
  have h₃ := u._randomHi.toNat_lt
  have h₄ := u._randomLo.toNat_lt
  have hmask₅ : ∀ x, x &&& 0x1F = x % 32 := fun x => and_mask x 5
  have hmask₄ : ∀ x, x &&& 0x0F = x % 16 := fun x => and_mask x 4
  have hmask₁ : ∀ x, x &&& 0x01 = x % 2 := fun x => and_mask x 1
  simp only [places, radix, value, hmask₅, hmask₄, hmask₁, Nat.shiftRight_eq_div_pow, Nat.shiftLeft_eq]
  generalize u._timeHi.toNat = a at *
  generalize u._timeLo.toNat = b at *
  generalize u._randomHi.toNat = c at *
  generalize u._randomLo.toNat = d at *
  norm_num
  refine ⟨?_, ?_, ?_, ?_, ?_, ?_, ?_, ?_, ?_, ?_, ?_, ?_, ?_, ?_, ?_, ?_, ?_, ?_, ?_, ?_, ?_, ?_, ?_, ?_, ?_, ?_⟩ <;> omega

/-! ### Characters -/

theorem ENCODING_spec :
    (∀ i < 32, decode (ENCODING.getD i 0) = i ∧ ¬(REVERSE_ENCODING.getD (ENCODING.getD i 0).toNat 0 = 0xFF)) ∧
      (∀ i < 32, ∀ j < 32, Ord.compare (ENCODING.getD i 0) (ENCODING.getD j 0) = Ord.compare i j) ∧
        ∀ i < 8, startsTooHigh (ENCODING.getD i 0) = false := by
  decide

theorem decode_ENCODING : ∀ i < 32, decode (ENCODING.getD i 0) = i ∧
    ¬(REVERSE_ENCODING.getD (ENCODING.getD i 0).toNat 0 = 0xFF) :=
  ENCODING_spec.1

theorem compare_ENCODING : ∀ i < 32, ∀ j < 32,
    Ord.compare (ENCODING.getD i 0) (ENCODING.getD j 0) = Ord.compare i j :=
  ENCODING_spec.2.1

theorem startsTooHigh_ENCODING : ∀ i < 8, startsTooHigh (ENCODING.getD i 0) = false := ENCODING_spec.2.2

theorem lt_of_mem_places {u : ULID} : ∀ i ∈ u.places, i < 32 := by
  rw [places_eq]
  exact lt_of_mem_radix (by decide)

theorem length_places (u : ULID) : u.places.length = 26 := rfl

/-! ### The text is read back -/

theorem shiftRight_or (x k : ℕ) :
    x >>> (k + 5) <<< (k + 5) ||| (x >>> k &&& 0x1F) <<< k = x >>> k <<< k := by
  have hmask : x >>> k &&& 0x1F = x >>> k % 32 := and_mask _ 5
  have hjoin : x >>> k = x >>> (k + 5) <<< 5 ||| x >>> k % 32 := by
    rw [← Nat.shiftLeft_add_eq_or_of_lt (show x >>> k % 32 < 2 ^ 5 by omega), Nat.shiftRight_add,
      Nat.shiftLeft_eq, Nat.shiftRight_eq_div_pow (x >>> k)]
    omega
  rw [hmask, Nat.add_comm k 5, Nat.shiftLeft_add, ← Nat.shiftLeft_or_distrib, Nat.add_comm 5 k, ← hjoin]

theorem shiftRight_or_mod (x k : ℕ) : x >>> k <<< k ||| x % 2 ^ k = x := by
  rw [← Nat.shiftLeft_add_eq_or_of_lt (Nat.mod_lt _ (Nat.two_pow_pos k)), Nat.shiftLeft_eq,
    Nat.shiftRight_eq_div_pow]
  exact Nat.div_add_mod' x (2 ^ k)

theorem decode_toString (u : ULID) {i : ℕ} (hi : i < 26) :
    decode (u.toString.getD i 0) = u.places.getD i 0 := by
  have hlen : i < u.places.length := hi
  have hplace : u.places.getD i 0 < 32 := by
    rw [List.getD_eq_getElem _ _ hlen]
    exact lt_of_mem_places _ (List.getElem_mem hlen)
  have hchar : u.toString.getD i 0 = ENCODING.getD (u.places.getD i 0) 0 := by
    rw [toString, List.getD_eq_getElem _ _ (by rwa [List.length_map]), List.getElem_map,
      List.getD_eq_getElem _ _ hlen]
  rw [hchar]
  exact (decode_ENCODING _ hplace).1

/-- The digits of 32 bits, in seven places; the last one has a bit of the next member. -/
theorem or_timeHi (a : ℕ) {g : ℕ} (hg : g < 2) :
    a >>> 29 <<< 29 ||| (a >>> 24 &&& 0x1F) <<< 24 ||| (a >>> 19 &&& 0x1F) <<< 19 |||
      (a >>> 14 &&& 0x1F) <<< 14 ||| (a >>> 9 &&& 0x1F) <<< 9 ||| (a >>> 4 &&& 0x1F) <<< 4 |||
      (((a &&& 0x0F) <<< 1) + g) >>> 1 = a := by
  have hlast : (((a &&& 0x0F) <<< 1) + g) >>> 1 = a % 2 ^ 4 := by
    have hmask : a &&& 0x0F = a % 2 ^ 4 := and_mask a 4
    rw [hmask, Nat.shiftLeft_eq, Nat.shiftRight_eq_div_pow]
    omega
  rw [hlast]
  simp only [shiftRight_or]
  exact shiftRight_or_mod a 4

/-- The digits of 16 bits, in four places; the first one has bits of the member before. -/
theorem or_timeLo (a : ℕ) {b : ℕ} (hb : b < 2 ^ 16) :
    ((((a &&& 0x0F) <<< 1) + b >>> 15) &&& 1) <<< 15 ||| (b >>> 10 &&& 0x1F) <<< 10 |||
      (b >>> 5 &&& 0x1F) <<< 5 ||| b &&& 0x1F = b := by
  have hfirst : (((a &&& 0x0F) <<< 1) + b >>> 15) &&& 1 = b >>> 15 := by
    have hmask : (((a &&& 0x0F) <<< 1) + b >>> 15) &&& 1 = (((a &&& 0x0F) <<< 1) + b >>> 15) % 2 ^ 1 :=
      and_mask _ 1
    rw [hmask, Nat.shiftLeft_eq, Nat.shiftRight_eq_div_pow]
    omega
  have hlast : b &&& 0x1F = b % 2 ^ 5 := and_mask b 5
  rw [hfirst, hlast]
  simp only [shiftRight_or]
  exact shiftRight_or_mod b 5

/-- The digits of 16 bits, in four places; the last one has bits of the next member. -/
theorem or_randomHi {c g : ℕ} (hc : c < 2 ^ 16) (hg : g < 16) :
    (c >>> 11 &&& 0x1F) <<< 11 ||| (c >>> 6 &&& 0x1F) <<< 6 ||| (c >>> 1 &&& 0x1F) <<< 1 |||
      (((c &&& 0x01) <<< 4) + g) >>> 4 = c := by
  have hfirst : c >>> 11 &&& 0x1F = c >>> 11 := by
    have hmask : c >>> 11 &&& 0x1F = c >>> 11 % 2 ^ 5 := and_mask _ 5
    rw [hmask, Nat.shiftRight_eq_div_pow]
    omega
  have hlast : (((c &&& 0x01) <<< 4) + g) >>> 4 = c % 2 ^ 1 := by
    have hmask : c &&& 0x01 = c % 2 ^ 1 := and_mask c 1
    rw [hmask, Nat.shiftLeft_eq, Nat.shiftRight_eq_div_pow]
    omega
  rw [hfirst, hlast]
  simp only [shiftRight_or]
  exact shiftRight_or_mod c 1

/-- The digits of 64 bits, in thirteen places; the first one has a bit of the member before. -/
theorem or_randomLo (c : ℕ) {d : ℕ} (hd : d < 2 ^ 64) :
    ((((c &&& 0x01) <<< 4) + d >>> 60) &&& 0xF) <<< 60 ||| (d >>> 55 &&& 0x1F) <<< 55 |||
      (d >>> 50 &&& 0x1F) <<< 50 ||| (d >>> 45 &&& 0x1F) <<< 45 ||| (d >>> 40 &&& 0x1F) <<< 40 |||
      (d >>> 35 &&& 0x1F) <<< 35 ||| (d >>> 30 &&& 0x1F) <<< 30 ||| (d >>> 25 &&& 0x1F) <<< 25 |||
      (d >>> 20 &&& 0x1F) <<< 20 ||| (d >>> 15 &&& 0x1F) <<< 15 ||| (d >>> 10 &&& 0x1F) <<< 10 |||
      (d >>> 5 &&& 0x1F) <<< 5 ||| d &&& 0x1F = d := by
  have hfirst : (((c &&& 0x01) <<< 4) + d >>> 60) &&& 0xF = d >>> 60 := by
    have hmask : (((c &&& 0x01) <<< 4) + d >>> 60) &&& 0xF =
        (((c &&& 0x01) <<< 4) + d >>> 60) % 2 ^ 4 := and_mask _ 4
    rw [hmask, Nat.shiftLeft_eq, Nat.shiftRight_eq_div_pow]
    omega
  have hlast : d &&& 0x1F = d % 2 ^ 5 := and_mask d 5
  rw [hfirst, hlast]
  simp only [shiftRight_or]
  exact shiftRight_or_mod d 5

theorem assemble_toString (u : ULID) : assemble u.toString = u := by
  have htimeLo := u._timeLo.toNat_lt
  have hrandomLo := u._randomLo.toNat_lt
  have hbit : u._timeLo.toNat >>> 15 < 2 := by
    rw [Nat.shiftRight_eq_div_pow]
    omega
  have hbits : u._randomLo.toNat >>> 60 < 16 := by
    rw [Nat.shiftRight_eq_div_pow]
    omega
  simp (disch := decide) only [assemble, decode_toString]
  simp only [places, List.getD_cons_zero, List.getD_cons_succ]
  rw [or_timeHi _ hbit, or_timeLo _ htimeLo, or_randomHi u._randomHi.toNat_lt hbits,
    or_randomLo _ hrandomLo, UInt32.ofNat_toNat, UInt16.ofNat_toNat, UInt16.ofNat_toNat, UInt64.ofNat_toNat]

theorem tryParse_toString (this u : ULID) : tryParse this u.toString = (true, u) := by
  have hlen : ¬(u.toString.length ≠ 26) := by
    rw [toString, List.length_map, length_places]
    decide
  have hfirst : ¬(startsTooHigh (u.toString.getD 0 0) = true) := by
    have htop : u._timeHi.toNat >>> 29 < 8 := by
      have := u._timeHi.toNat_lt
      rw [Nat.shiftRight_eq_div_pow]
      omega
    exact Bool.not_eq_true _ ▸ startsTooHigh_ENCODING _ htop
  have hall : ¬((u.toString.any fun c => REVERSE_ENCODING.getD c.toNat 0 = 0xFF) = true) := by
    rw [List.any_eq_true]
    rintro ⟨c, hc, h⟩
    obtain ⟨i, hi, rfl⟩ := List.mem_map.mp hc
    exact (decode_ENCODING i (lt_of_mem_places i hi)).2 (of_decide_eq_true h)
  rw [tryParse, if_neg hlen, if_neg hfirst, if_neg hall, assemble_toString]

theorem parse_toString_eq (this u : ULID) : parse this u.toString = .ok u := by
  rw [parse, tryParse_toString, if_pos rfl]

/-- A text that is not accepted leaves the object alone. -/
theorem tryParse_unchanged (this : ULID) (ulid : List UInt8) :
    (tryParse this ulid).1 = true ∨ (tryParse this ulid).2 = this := by
  unfold tryParse
  split_ifs
  · exact .inr rfl
  · exact .inr rfl
  · exact .inr rfl
  · exact .inl rfl

/-! ### The order of the texts -/

/-- `cmp` of two members is the order of their numbers. -/
theorem cmp_eq {T : Type} [LT T] [DecidableEq T] [DecidableRel (LT.lt (α := T))] {toNat : T → ℕ}
    (hlt : ∀ a b : T, a < b ↔ toNat a < toNat b) (hinj : ∀ a b : T, a = b ↔ toNat a = toNat b) (a b : T) :
    cmp a b = sign (Ord.compare (toNat a) (toNat b)) := by
  unfold cmp
  split_ifs with heq h
  · rw [compare_eq_iff_eq.mpr ((hinj a b).mp heq)]
    rfl
  · rw [compare_lt_iff_lt.mpr ((hlt a b).mp h)]
    rfl
  · have hne : ¬(toNat a = toNat b) := fun h' => heq ((hinj a b).mpr h')
    have hge : ¬(toNat a < toNat b) := fun h' => h ((hlt a b).mpr h')
    rw [compare_gt_iff_gt.mpr (by omega)]
    rfl

theorem sign_then (o o' : Ordering) : sign (o.then o') = if sign o = 0 then sign o' else sign o := by
  cases o <;> rfl

theorem compare_eq_value (u ulid : ULID) :
    compare u ulid = sign (Ord.compare u.value ulid.value) := by
  rw [value, value, compare_split u._randomLo.toNat_lt ulid._randomLo.toNat_lt,
    compare_split u._randomHi.toNat_lt ulid._randomHi.toNat_lt,
    compare_split u._timeLo.toNat_lt ulid._timeLo.toNat_lt, Ordering.then_assoc, Ordering.then_assoc,
    sign_then, sign_then, sign_then,
    ← cmp_eq (fun _ _ => UInt32.lt_iff_toNat_lt) (fun _ _ => UInt32.toNat_inj.symm),
    ← cmp_eq (fun _ _ => UInt16.lt_iff_toNat_lt) (fun _ _ => UInt16.toNat_inj.symm),
    ← cmp_eq (fun _ _ => UInt16.lt_iff_toNat_lt) (fun _ _ => UInt16.toNat_inj.symm),
    ← cmp_eq (fun _ _ => UInt64.lt_iff_toNat_lt) (fun _ _ => UInt64.toNat_inj.symm)]
  rfl

theorem compare_eq (u ulid : ULID) :
    compare u ulid = sign (compareText u.toString ulid.toString) := by
  have hlen : u.places.length = ulid.places.length := rfl
  rw [compare_eq_value, toString, toString,
    compareText_map (p := (· < 32)) (fun i j hi hj => compare_ENCODING i hi j hj) lt_of_mem_places
      lt_of_mem_places hlen,
    places_eq, places_eq, compareText_radix (by decide) u.value_lt ulid.value_lt]

end ULID

end Poco.Foundation
