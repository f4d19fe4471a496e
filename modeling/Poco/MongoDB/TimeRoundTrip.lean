import Poco.MongoDB.DocumentRoundTrip

/-! # Times are read back

A `Timestamp` is written as its milliseconds, and the reader takes milliseconds.  A `BSONTimestamp` is written
with its milliseconds in the upper half of a number and its increment in the lower one; the reader takes the
upper half for seconds (`times_read_back_iff`). -/

namespace Poco.MongoDB

open Poco.Lib Poco.Foundation

/-- The times that the format has: whole milliseconds, and whole seconds with an increment. -/
inductive Time
  | timestamp (ts : { ts : BitVec 64 // ts.toInt % 1000 = 0 })
  | bsonTimestamp (seconds inc : Fin (2 ^ 31))

/-- The element's value. -/
def Time.value : Time → Value
  | timestamp ts => .timestamp ts.val
  | bsonTimestamp seconds inc =>
      .bsonTimestamp (Timestamp.fromEpochTime (BitVec.ofNat 64 seconds.val)) (BitVec.ofNat 32 inc.val)

/-- What is written for a value is read back by a new element of its type, and nothing else is read. -/
def RoundTrips (h : Host) (v : Value) : Prop :=
  ∃ bytes, Puts h (fun w => v.write h w) bytes ∧ ∃ element, createElement v.type = some element ∧
    ∀ readDocument, Gets h (element.read h readDocument) bytes v

/-! ### Milliseconds -/

theorem toInt_sdiv_1000 (x : BitVec 64) : (x.sdiv 1000).toInt = x.toInt.tdiv 1000 := by
  rw [BitVec.toInt_sdiv_of_ne_or_ne _ _ (Or.inr (by decide))]
  rfl

theorem milliseconds_back {ts : BitVec 64} (hts : ts.toInt % 1000 = 0) :
    Timestamp.fromEpochTime ((ts.sdiv 1000).sdiv 1000) + (ts.sdiv 1000).srem 1000 * 1000 = ts := by
  have hlow := BitVec.le_toInt ts
  have hhigh := BitVec.toInt_lt (x := ts)
  have hms : (ts.sdiv 1000).toInt.tdiv 1000 * 1000000 + (ts.sdiv 1000).toInt.tmod 1000 * 1000 = ts.toInt := by
    rw [toInt_sdiv_1000]
    have h := Int.mul_tdiv_add_tmod (ts.toInt.tdiv 1000) 1000
    have h' := Int.mul_tdiv_add_tmod ts.toInt 1000
    have hzero : ts.toInt.tmod 1000 = 0 := Int.tmod_eq_zero_of_dvd (Int.dvd_of_emod_eq_zero hts)
    omega
  apply BitVec.eq_of_toInt_eq
  rw [BitVec.toInt_add, Timestamp.fromEpochTime, BitVec.toInt_mul, BitVec.toInt_mul, toInt_sdiv_1000,
    BitVec.toInt_srem, Int.bmod_add_bmod, Int.add_bmod_bmod]
  show ((ts.sdiv 1000).toInt.tdiv 1000 * 1000000 + (ts.sdiv 1000).toInt.tmod 1000 * 1000).bmod (2 ^ 64) = _
  rw [hms]
  exact BitVec.toInt_bmod_cancel ts

/-! ### Seconds -/

section

variable (seconds inc : Fin (2 ^ 31))

/-- What is written for a `BSONTimestamp`. -/
def packed : BitVec 64 :=
  ((Timestamp.fromEpochTime (BitVec.ofNat 64 seconds.val)).sdiv 1000 <<< 32) + (BitVec.ofNat 32 inc.val).signExtend 64

theorem toInt_fromEpochTime {t : BitVec 64} (hlow : -2 ^ 31 ≤ t.toInt) (hhigh : t.toInt < 2 ^ 31) :
    (Timestamp.fromEpochTime t).toInt = t.toInt * 1000000 := by
  rw [Timestamp.fromEpochTime, BitVec.toInt_mul]
  show (t.toInt * 1000000).bmod (2 ^ 64) = _
  exact Int.bmod_eq_of_le (by omega) (by omega)

theorem toInt_seconds : (BitVec.ofNat 64 seconds.val).toInt = seconds.val := by
  have hlt := seconds.isLt
  rw [BitVec.toInt_ofNat']
  exact Int.bmod_eq_of_le (by omega) (by omega)

theorem toNat_packed : (packed seconds inc).toNat = (seconds.val * 1000 * 2 ^ 32 + inc.val) % 2 ^ 64 := by
  have hs := seconds.isLt
  have hi := inc.isLt
  have hsec := toInt_seconds seconds
  have hms : ((Timestamp.fromEpochTime (BitVec.ofNat 64 seconds.val)).sdiv 1000).toNat = seconds.val * 1000 := by
    have hint : ((Timestamp.fromEpochTime (BitVec.ofNat 64 seconds.val)).sdiv 1000).toInt = seconds.val * 1000 := by
      have hmul : (seconds.val : ℤ) * 1000000 = 1000 * (seconds.val * 1000) := by omega
      rw [toInt_sdiv_1000, toInt_fromEpochTime (by omega) (by omega), hsec, hmul,
        Int.mul_tdiv_cancel_left _ (by decide)]
    rw [BitVec.toInt_eq_toNat_cond] at hint
    split_ifs at hint <;> omega
  have hinc : ((BitVec.ofNat 32 inc.val).signExtend 64).toNat = inc.val := by
    have hmsb : (BitVec.ofNat 32 inc.val).msb = false := by
      rw [BitVec.msb_eq_false_iff_two_mul_lt, BitVec.toNat_ofNat]
      omega
    rw [BitVec.signExtend_eq_setWidth_of_msb_false hmsb, BitVec.toNat_setWidth, BitVec.toNat_ofNat]
    omega
  rw [packed, BitVec.toNat_add, BitVec.toNat_shiftLeft, hms, hinc, Nat.shiftLeft_eq, Nat.mod_add_mod]

theorem inc_back : (packed seconds inc &&& 0xFFFFFFFF).setWidth 32 = BitVec.ofNat 32 inc.val := by
  have hi := inc.isLt
  have hmask : (0xFFFFFFFF : BitVec 64).toNat = 2 ^ 32 - 1 := rfl
  apply BitVec.eq_of_toNat_eq
  rw [BitVec.toNat_setWidth, BitVec.toNat_and, hmask, Nat.and_two_pow_sub_one_eq_mod, toNat_packed,
    BitVec.toNat_ofNat]
  omega

/-- The upper half is the number of milliseconds, of which 32 bits are left. -/
theorem seconds_back_iff :
    Timestamp.fromEpochTime ((packed seconds inc).sshiftRight 32) =
      Timestamp.fromEpochTime (BitVec.ofNat 64 seconds.val) ↔ seconds.val = 0 := by
  have hs := seconds.isLt
  have hi := inc.isLt
  have hsec := toInt_seconds seconds
  have hpacked := toNat_packed seconds inc
  have hupper : ((packed seconds inc).sshiftRight 32).toInt = (packed seconds inc).toInt / 2 ^ 32 := by
    rw [BitVec.toInt_sshiftRight, Int.shiftRight_eq_div_pow]
    rfl
  have hcond := BitVec.toInt_eq_toNat_cond (packed seconds inc)
  constructor
  · intro h
    have hint := congrArg BitVec.toInt h
    rw [toInt_fromEpochTime (by split_ifs at hcond <;> omega) (by split_ifs at hcond <;> omega),
      toInt_fromEpochTime (by omega) (by omega), hsec, hupper] at hint
    split_ifs at hcond <;> omega
  · intro hzero
    have hupperZero : ((packed seconds inc).sshiftRight 32).toInt = (BitVec.ofNat 64 seconds.val).toInt := by
      split_ifs at hcond <;> omega
    rw [BitVec.eq_of_toInt_eq hupperZero]

end

/-! ### Elements -/

theorem puts_longLong (h : Host) (value : BitVec 64) :
    ∃ bytes, Puts h (fun w => w.putScalar h .longLong value) bytes ∧
      Gets h (readNew h .longLong : Reader (BitVec 64)) bytes value := by
  obtain ⟨bytes, hputs⟩ := exists_puts h .longLong value
  exact ⟨bytes, hputs, hputs.gets _⟩

theorem Gets.unique {h : Host} {α : Type} {x : Reader α} {bytes : List UInt8} {a a' : α} (hx : Gets h x bytes a)
    (hx' : Gets h x bytes a') : a = a' := by
  have hrest := (hx []).symm.trans (hx' [])
  injection hrest

theorem timestamp_roundTrips (h : Host) {ts : BitVec 64} (hts : ts.toInt % 1000 = 0) : RoundTrips h (.timestamp ts) := by
  obtain ⟨bytes, hputs, hgets⟩ := puts_longLong h (ts.sdiv 1000)
  refine ⟨bytes, ?_, .timestamp 0, rfl, fun readDocument => ?_⟩
  · simp only [Value.write]
    exact hputs
  · have hread := hgets.bind_pure fun value : BitVec 64 =>
      Value.timestamp (Timestamp.fromEpochTime (value.sdiv 1000) + value.srem 1000 * 1000)
    rw [milliseconds_back hts] at hread
    exact hread

theorem bsonTimestamp_roundTrips_iff (h : Host) (seconds inc : Fin (2 ^ 31)) :
    RoundTrips h (Time.bsonTimestamp seconds inc).value ↔ seconds.val = 0 := by
  obtain ⟨bytes, hputs, hgets⟩ := puts_longLong h (packed seconds inc)
  have hwrite : Puts h (fun w => (Time.bsonTimestamp seconds inc).value.write h w) bytes := by
    simp only [Time.value, Value.write]
    exact hputs
  have hread : ∀ readDocument, Gets h ((Value.bsonTimestamp 0 0).read h readDocument) bytes
      (.bsonTimestamp (Timestamp.fromEpochTime ((packed seconds inc).sshiftRight 32)) (BitVec.ofNat 32 inc.val)) := by
    intro readDocument
    have hbind := hgets.bind_pure fun value : BitVec 64 =>
      Value.bsonTimestamp (Timestamp.fromEpochTime (value.sshiftRight 32)) ((value &&& 0xFFFFFFFF).setWidth 32)
    rw [inc_back] at hbind
    exact hbind
  rw [← seconds_back_iff seconds inc]
  constructor
  · rintro ⟨bytes', hputs', element, hcreate, hget⟩
    obtain rfl : bytes = bytes' := by
      have hboth := (hwrite []).symm.trans (hputs' [])
      injection hboth
    obtain rfl : Value.bsonTimestamp 0 0 = element := Option.some.inj hcreate
    have hvalue := (hread (pure [])).unique (hget (pure []))
    injection hvalue
  · intro hsame
    rw [hsame] at hread
    exact ⟨bytes, hwrite, .bsonTimestamp 0 0, rfl, hread⟩

/-- **Main result.**  A time is read back, on any host, unless it is a `BSONTimestamp` other than the epoch. -/
theorem times_read_back_iff (h : Host) (t : Time) :
    RoundTrips h t.value ↔ ∀ seconds inc, t = .bsonTimestamp seconds inc → seconds.val = 0 := by
  cases t with
  | timestamp ts => exact iff_of_true (timestamp_roundTrips h ts.property) fun _ _ heq => nomatch heq
  | bsonTimestamp seconds inc =>
      rw [bsonTimestamp_roundTrips_iff]
      constructor
      · rintro hzero _ _ ⟨⟩
        exact hzero
      · exact fun hall => hall seconds inc rfl

/-- One second after the epoch becomes a thousand seconds. -/
theorem not_read_back_second : ¬∀ (h : Host) (t : Time), RoundTrips h t.value := by
  intro hall
  have hone := (bsonTimestamp_roundTrips_iff ⟨true, true, fun _ => 0⟩ 1 1).mp (hall _ (.bsonTimestamp 1 1))
  exact absurd hone (by decide)

end Poco.MongoDB
