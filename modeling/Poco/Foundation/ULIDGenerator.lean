import Poco.Foundation.ULID

/-! # `ULIDGenerator`

A generator draws a random part for each new timestamp and counts it up for the timestamps that are the
same.  An overflow leaves the random part 0 at the same timestamp.  As long as a call does not use a
timestamp at which the call before it has failed, the identifiers are strictly increasing
(`created_increasing`): each is above a bound that only grows (`step_bound`). -/

namespace Poco.Foundation

/-- `ULIDGenerator`. -/
structure ULIDGenerator where
  _lastTime : UInt64
  _lastRandomHi : UInt16
  _lastRandomLo : UInt64
deriving DecidableEq, Repr

namespace ULIDGenerator

/-- `ULID(time, randomHi, randomLo)`. -/
def makeULID (time : UInt64) (randomHi : UInt16) (randomLo : UInt64) : ULID :=
  ⟨(time >>> 16).toUInt32, (time &&& 0xFFFF).toUInt16, randomHi, randomLo⟩

/-- The random part that is drawn from a `RandomInputStream`. -/
structure Random where
  hi : UInt16
  lo : UInt64
deriving DecidableEq, Repr

/-- One round for a timestamp: no identifier if the random part has overflowed. -/
def attempt (g : ULIDGenerator) (time : UInt64) (random : Random) : Option ULID × ULIDGenerator :=
  if time = g._lastTime then
    let lo := g._lastRandomLo + 1
    if lo = 0 then
      let hi := g._lastRandomHi + 1
      if hi = 0 then (none, { g with _lastRandomHi := hi, _lastRandomLo := lo })
      else (some (makeULID time hi lo), { g with _lastRandomHi := hi, _lastRandomLo := lo })
    else (some (makeULID time g._lastRandomHi lo), { g with _lastRandomLo := lo })
  else (some (makeULID time random.hi random.lo), ⟨time, random.hi, random.lo⟩)

/-- A call: `create(time)`, which throws at an overflow, or `create()`, which reads `time` from the clock
and waits for the next millisecond `ntime` at an overflow. -/
inductive Call where
  | create (time : UInt64) (random : Random)
  | createNow (time ntime : UInt64) (random : Random)

/-- The timestamp that a call starts with. -/
def Call.time : Call → UInt64
  | .create time _ => time
  | .createNow time _ _ => time

/-- The latest timestamp that a call can use. -/
def Call.latest : Call → UInt64
  | .create time _ => time
  | .createNow _ ntime _ => ntime

/-- The clock has gone on when a call has waited. -/
def Call.Waits : Call → Prop
  | .create _ _ => True
  | .createNow time ntime _ => time < ntime

/-- A call: the identifier, or none for the `RuntimeException`, and the generator after it. -/
def step (g : ULIDGenerator) : Call → Option ULID × ULIDGenerator
  | .create time random => g.attempt time random
  | .createNow time ntime random =>
      match g.attempt time random with
      | (some ulid, g) => (some ulid, g)
      | (none, g) => g.attempt ntime random

/-- The identifiers that a sequence of calls returns. -/
def created (g : ULIDGenerator) : List Call → List ULID
  | [] => []
  | call :: calls => (g.step call).1.toList ++ created (g.step call).2 calls

/-- The timestamps do not decrease; `_lastTime` is the one that the call before has used. -/
def NonDecreasing (g : ULIDGenerator) : List Call → Prop
  | [] => True
  | call :: calls => g._lastTime ≤ call.time ∧ call.Waits ∧ NonDecreasing (g.step call).2 calls

/-- The timestamps are of 48 bits, and no call has the timestamp of the call before it when that one has
thrown; `thrown` says whether it has. -/
def Avoids (g : ULIDGenerator) (thrown : Bool) : List Call → Prop
  | [] => True
  | call :: calls => call.latest.toNat < 2 ^ 48 ∧ (thrown = true → call.time ≠ g._lastTime) ∧
      Avoids (g.step call).2 (g.step call).1.isNone calls

/-! ### The bound -/

/-- The random part as a number. -/
def random (g : ULIDGenerator) : ℕ := g._lastRandomHi.toNat * 2 ^ 64 + g._lastRandomLo.toNat

/-- What the next identifiers have to exceed: the last one, or every one with its timestamp. -/
def bound (g : ULIDGenerator) (thrown : Bool) : ℕ :=
  g._lastTime.toNat * 2 ^ 80 + if thrown then 2 ^ 80 - 1 else g.random

theorem value_makeULID {time : UInt64} (h : time.toNat < 2 ^ 48) (hi : UInt16) (lo : UInt64) :
    (makeULID time hi lo).value = time.toNat * 2 ^ 80 + (hi.toNat * 2 ^ 64 + lo.toNat) := by
  have hhigh : (time >>> 16).toUInt32.toNat = time.toNat / 2 ^ 16 := by
    rw [UInt64.toNat_toUInt32, UInt64.toNat_shiftRight]
    show time.toNat >>> 16 % 2 ^ 32 = _
    rw [Nat.shiftRight_eq_div_pow]
    omega
  have hlow : (time &&& 0xFFFF).toUInt16.toNat = time.toNat % 2 ^ 16 := by
    rw [UInt64.toNat_toUInt16, UInt64.toNat_and]
    show (time.toNat &&& (2 ^ 16 - 1)) % 2 ^ 16 = _
    rw [Nat.and_two_pow_sub_one_eq_mod, Nat.mod_mod]
  simp only [ULID.value, makeULID, hhigh, hlow]
  omega

theorem increment64 (x : UInt64) :
    x + 1 = 0 ∧ x.toNat = 2 ^ 64 - 1 ∨ x + 1 ≠ 0 ∧ (x + 1).toNat = x.toNat + 1 := by
  have hlt := x.toNat_lt
  have hadd : (x + 1).toNat = (x.toNat + 1) % 2 ^ 64 := UInt64.toNat_add x 1
  have hzero : x + 1 = 0 ↔ (x + 1).toNat = 0 := UInt64.toNat_inj.symm
  rw [Ne, hzero]
  omega

theorem increment16 (x : UInt16) :
    x + 1 = 0 ∧ x.toNat = 2 ^ 16 - 1 ∨ x + 1 ≠ 0 ∧ (x + 1).toNat = x.toNat + 1 := by
  have hlt := x.toNat_lt
  have hadd : (x + 1).toNat = (x.toNat + 1) % 2 ^ 16 := UInt16.toNat_add x 1
  have hzero : x + 1 = 0 ↔ (x + 1).toNat = 0 := UInt16.toNat_inj.symm
  rw [Ne, hzero]
  omega

theorem bound_lt (g : ULIDGenerator) (thrown : Bool) :
    g.bound thrown < (g._lastTime.toNat + 1) * 2 ^ 80 := by
  have hhi := g._lastRandomHi.toNat_lt
  have hlo := g._lastRandomLo.toNat_lt
  unfold bound random
  split <;> omega

/-- A round that returns an identifier: it is above the bound, and is the next bound. -/
def Above (g : ULIDGenerator) (time : UInt64) (ulid : ULID) (g' : ULIDGenerator) : Prop :=
  ulid.value = g'.bound false ∧
    ∀ thrown, (thrown = true → time ≠ g._lastTime) → g.bound thrown < ulid.value

/-- What one round does: it returns an identifier, or the random part has overflowed at the timestamp of
the round before. -/
theorem attempt_cases (g : ULIDGenerator) {time : UInt64} (random : Random) (hle : g._lastTime ≤ time)
    (h48 : time.toNat < 2 ^ 48) :
    (∃ ulid, (g.attempt time random).1 = some ulid ∧ Above g time ulid (g.attempt time random).2) ∨
      (g.attempt time random).1 = none ∧ (g.attempt time random).2._lastTime = g._lastTime ∧
        time = g._lastTime := by
  have hle' := UInt64.le_iff_toNat_le.mp hle
  unfold attempt
  by_cases heq : time = g._lastTime
  · subst heq
    have hthrown {thrown : Bool} (h : thrown = true → g._lastTime ≠ g._lastTime) : thrown = false :=
      Bool.eq_false_iff.mpr fun ht => h ht rfl
    rw [if_pos rfl]
    rcases increment64 g._lastRandomLo with ⟨hlo, hmax⟩ | ⟨hlo, hnext⟩
    · simp only [hlo, if_true]
      rcases increment16 g._lastRandomHi with ⟨hhi, -⟩ | ⟨hhi, hnext⟩
      · right
        rw [if_pos hhi]
        exact ⟨rfl, rfl, trivial⟩
      · left
        rw [if_neg hhi]
        refine ⟨_, rfl, value_makeULID h48 _ _, fun thrown ht => ?_⟩
        rw [hthrown ht, value_makeULID h48, hnext, bound, ULIDGenerator.random, hmax]
        simp
        omega
    · left
      simp only [if_neg hlo]
      refine ⟨_, rfl, value_makeULID h48 _ _, fun thrown ht => ?_⟩
      rw [hthrown ht, value_makeULID h48, hnext, bound, ULIDGenerator.random]
      simp
  · left
    rw [if_neg heq]
    refine ⟨_, rfl, value_makeULID h48 _ _, fun thrown _ => ?_⟩
    have hne : g._lastTime.toNat ≠ time.toNat := fun h => heq (UInt64.toNat_inj.mp h).symm
    have hlt := g.bound_lt thrown
    rw [value_makeULID h48]
    omega

theorem step_createNow_of_some {g g' : ULIDGenerator} {time ntime : UInt64} {random : Random} {ulid : ULID}
    (h : g.attempt time random = (some ulid, g')) : g.step (.createNow time ntime random) = (some ulid, g') := by
  unfold step
  dsimp only
  rw [h]

theorem step_createNow_of_none {g g' : ULIDGenerator} {time ntime : UInt64} {random : Random}
    (h : g.attempt time random = (none, g')) :
    g.step (.createNow time ntime random) = g'.attempt ntime random := by
  unfold step
  dsimp only
  rw [h]

theorem step_bound {g : ULIDGenerator} {thrown : Bool} {call : Call} (hle : g._lastTime ≤ call.time)
    (hwaits : call.Waits) (h48 : call.latest.toNat < 2 ^ 48)
    (hthrown : thrown = true → call.time ≠ g._lastTime) :
    (∃ ulid, (g.step call).1 = some ulid ∧ g.bound thrown < ulid.value ∧
      ulid.value = (g.step call).2.bound false) ∨
    (g.step call).1 = none ∧ g.bound thrown ≤ (g.step call).2.bound true := by
  cases call with
  | create time random =>
      rcases attempt_cases g random hle h48 with ⟨ulid, hsome, hvalue, habove⟩ | ⟨hnone, hlast, -⟩
      · exact Or.inl ⟨ulid, hsome, habove thrown hthrown, hvalue⟩
      · right
        refine ⟨hnone, ?_⟩
        have hlt := g.bound_lt thrown
        have hstep : (g.step (.create time random)).2._lastTime = g._lastTime := hlast
        have hfull : (g.step (.create time random)).2.bound true = g._lastTime.toNat * 2 ^ 80 + (2 ^ 80 - 1) := by
          rw [bound, hstep, if_pos rfl]
        omega
  | createNow time ntime random =>
      left
      have hlt : time.toNat < ntime.toNat := UInt64.lt_iff_toNat_lt.mp hwaits
      have h48' : ntime.toNat < 2 ^ 48 := h48
      have hstart : g._lastTime ≤ time := hle
      rcases attempt_cases g random hstart (lt_trans hlt h48') with
        ⟨ulid, hsome, hvalue, habove⟩ | ⟨hnone, hlast, heq⟩
      · rw [step_createNow_of_some (Prod.ext hsome rfl)]
        exact ⟨ulid, rfl, habove thrown hthrown, hvalue⟩
      · -- the clock has gone on, so that the second round draws a new random part
        obtain ⟨g', hg⟩ : ∃ g', (g.attempt time random).2 = g' := ⟨_, rfl⟩
        rw [hg] at hlast
        rw [step_createNow_of_none (Prod.ext hnone hg)]
        have hlast' : g'._lastTime.toNat = time.toNat := by rw [hlast, heq]
        have hle' : g'._lastTime ≤ ntime := UInt64.le_iff_toNat_le.mpr (by omega)
        obtain ⟨ulid, hsome, hvalue, habove⟩ := (attempt_cases g' random hle' h48').resolve_right fun h => by
          rw [h.2.2] at hlt
          omega
        refine ⟨ulid, hsome, lt_of_le_of_lt ?_ (habove true fun _ h => ?_), hvalue⟩
        · have hbound := g.bound_lt thrown
          have hfull : g'.bound true = g._lastTime.toNat * 2 ^ 80 + (2 ^ 80 - 1) := by
            rw [bound, hlast, if_pos rfl]
          omega
        · rw [h] at hlt
          omega

/-- The identifiers of a run are above the bound, and increase. -/
theorem created_pairwise {g : ULIDGenerator} {thrown : Bool} {calls : List Call} (h : g.NonDecreasing calls)
    (havoids : g.Avoids thrown calls) :
    (∀ ulid ∈ g.created calls, g.bound thrown < ulid.value) ∧
      (g.created calls).Pairwise fun u v => u.value < v.value := by
  induction calls generalizing g thrown with
  | nil => exact ⟨fun ulid hmem => (nomatch hmem), List.Pairwise.nil⟩
  | cons call calls ih =>
      obtain ⟨hle, hwaits, hrest⟩ := h
      obtain ⟨h48, hthrown, havoids⟩ := havoids
      obtain ⟨habove, hpairwise⟩ := ih hrest havoids
      rw [created]
      rcases step_bound hle hwaits h48 hthrown with ⟨ulid, hsome, hlt, hvalue⟩ | ⟨hnone, hbound⟩
      · rw [hsome] at habove ⊢
        rw [show (some ulid).isNone = false from rfl, ← hvalue] at habove
        refine ⟨fun u hu => ?_, List.pairwise_cons.mpr ⟨habove, hpairwise⟩⟩
        rcases List.mem_cons.mp hu with rfl | hu
        · exact hlt
        · exact hlt.trans (habove u hu)
      · rw [hnone] at habove ⊢
        exact ⟨fun u hu => lt_of_le_of_lt hbound (habove u hu), hpairwise⟩

/-- **Main result.**  The identifiers of a generator are strictly increasing when no call uses the
timestamp of a call before it that has thrown. -/
theorem created_increasing {randomHi : UInt16} {randomLo : UInt64} {calls : List Call}
    (h : NonDecreasing ⟨0, randomHi, randomLo⟩ calls) (havoids : Avoids ⟨0, randomHi, randomLo⟩ false calls) :
    (created ⟨0, randomHi, randomLo⟩ calls).Pairwise fun earlier later => earlier.compare later < 0 := by
  refine (created_pairwise h havoids).2.imp fun {u v} hlt => ?_
  rw [ULID.compare_eq_value, compare_lt_iff_lt.mpr hlt]
  decide

/-- The largest random part, an overflow that waits, one that throws, and a later timestamp. -/
theorem created_increasing_overflow :
    (created ⟨0, 0, 0⟩ [.createNow 1 2 ⟨0xFFFF, 0xFFFFFFFFFFFFFFFF⟩, .createNow 1 2 ⟨0xFFFF, 0xFFFFFFFFFFFFFFFF⟩,
      .create 2 ⟨0, 0⟩, .create 3 ⟨0, 0⟩]).Pairwise fun earlier later => earlier.compare later < 0 :=
  created_increasing (by
    simp only [NonDecreasing, Call.Waits]
    decide) (by
    simp only [Avoids]
    decide)

/-- After an overflow the same timestamp starts again from a smaller random part. -/
theorem not_created_increasing :
    NonDecreasing ⟨0, 0, 0⟩ [.create 1 ⟨0xFFFF, 0xFFFFFFFFFFFFFFFF⟩, .create 1 ⟨0, 0⟩, .create 1 ⟨0, 0⟩] ∧
      ¬(created ⟨0, 0, 0⟩ [.create 1 ⟨0xFFFF, 0xFFFFFFFFFFFFFFFF⟩, .create 1 ⟨0, 0⟩, .create 1 ⟨0, 0⟩]).Pairwise
        fun earlier later => earlier.compare later < 0 := by
  simp only [NonDecreasing, Call.Waits]
  decide

end ULIDGenerator

end Poco.Foundation
