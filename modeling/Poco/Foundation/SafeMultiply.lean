import Mathlib.Tactic.Linarith
import Poco.Foundation.VarHolder

/-! # `safeMultiply`

The product of two integers of any types into a third one.  The test for an overflow divides a limit of
the result by one operand, all cast to the common type of the three; the product itself is computed in
the type of the two operands, where an overflow is undefined if the type is signed.

Both go wrong for some types: an unsigned common type makes a negative operand large, and the type of the
operands may not have a product that the type of the result has (`safeMultiply_exact_iff`). -/

namespace Poco.Foundation

open Poco.Dynamic

namespace SafeMultiply

/-! ### Types of expressions -/

/-- The integral promotion to `int`. -/
def promote (T : IntType) : IntType := if T.bits < 32 then .Int32 else T

/-- The usual arithmetic conversions: the type of `f * s`. -/
def arithmetic (F S : IntType) : IntType :=
  let F := promote F
  let S := promote S
  if F.isSigned = S.isSigned then (if F.bits < S.bits then S else F)
  else if F.isSigned then (if S.bits < F.bits then F else S)
  else (if F.bits < S.bits then S else F)

/-- `std::common_type_t` of two types. -/
def commonType₂ (F S : IntType) : IntType := if F = S then F else arithmetic F S

/-- `std::common_type_t<R, F, S>`. -/
def commonType (R F S : IntType) : IntType := commonType₂ (commonType₂ R F) S

/-! ### The function -/

/-- What a call comes to. -/
inductive Outcome
  | returnsFalse
  | returnsTrue (result : ℤ)
  /-- Signed integer overflow. -/
  | overflow
deriving DecidableEq

/-- `result = f * s`, in the type `M` of the product. -/
def multiply (R M : IntType) (f s : ℤ) : Outcome :=
  if M.isSigned ∧ ¬M.Holds (f * s) then .overflow else .returnsTrue (R.cast (M.cast (f * s)))

/-- `safeMultiply<R, F, S>`. -/
def safeMultiply (R F S : IntType) (f s : ℤ) : Outcome :=
  let cast := (commonType R F S).cast
  let result := multiply R (arithmetic F S) f s
  if f = 0 ∨ s = 0 then .returnsTrue 0
  else if F.isSigned ∨ S.isSigned then
    if 0 < f then
      if 0 < s then
        if cast f > (cast R.max).tdiv (cast s) then .returnsFalse else result
      else if cast s < (cast R.min).tdiv (cast f) then .returnsFalse else result
    else if 0 < s then
      if cast f < (cast R.min).tdiv (cast s) then .returnsFalse else result
    else if cast s < (cast R.max).tdiv (cast f) then .returnsFalse else result
  else if cast f > (cast R.max).tdiv (cast s) then .returnsFalse else result

/-- The product is the result exactly when the type of the result has it. -/
def Exact (R F S : IntType) (f s : ℤ) : Prop :=
  safeMultiply R F S f s = if R.Holds (f * s) then .returnsTrue (f * s) else .returnsFalse

/-- The operands and types for which a product that does not fit is noticed. -/
def Noticed (R F S : IntType) (f s : ℤ) : Prop :=
  (commonType R F S).isSigned = true ∨ 0 < f ∧ 0 < s ∨ R.isSigned = true ∧ (f = 1 ∨ s = 1)

instance (R F S : IntType) (f s : ℤ) : Decidable (Noticed R F S f s) :=
  inferInstanceAs (Decidable (_ ∨ _))

/-- When the product is computed rightly, and when it is refused rightly. -/
structure Fits (R F S : IntType) (f s : ℤ) : Prop where
  product : R.Holds (f * s) → (arithmetic F S).Holds (f * s) ∨
    (arithmetic F S).isSigned = false ∧ R.bits ≤ (arithmetic F S).bits
  refused : ¬R.Holds (f * s) → Noticed R F S f s

/-! ### The types of the expressions hold the values -/

/-- All types. -/
def types : List IntType := [.Int8, .Int16, .Int32, .Int64, .UInt8, .UInt16, .UInt32, .UInt64]

theorem mem_types (T : IntType) : T ∈ types := by
  cases T <;> decide

theorem limits (R F S : IntType) :
    (R.max ≤ (commonType R F S).max ∧ F.max ≤ (commonType R F S).max ∧ S.max ≤ (commonType R F S).max) ∧
      ((commonType R F S).isSigned = true → (commonType R F S).min ≤ R.min ∧
        (commonType R F S).min ≤ F.min ∧ (commonType R F S).min ≤ S.min) ∧
      ((commonType R F S).isSigned = false → -((commonType R F S).max + 1) ≤ 2 * R.min ∧
        -((commonType R F S).max + 1) ≤ 2 * F.min ∧ -((commonType R F S).max + 1) ≤ 2 * S.min) := by
  have hall : ∀ R ∈ types, ∀ F ∈ types, ∀ S ∈ types,
    (R.max ≤ (commonType R F S).max ∧ F.max ≤ (commonType R F S).max ∧ S.max ≤ (commonType R F S).max) ∧
      ((commonType R F S).isSigned = true → (commonType R F S).min ≤ R.min ∧
        (commonType R F S).min ≤ F.min ∧ (commonType R F S).min ≤ S.min) ∧
      ((commonType R F S).isSigned = false → -((commonType R F S).max + 1) ≤ 2 * R.min ∧
        -((commonType R F S).max + 1) ≤ 2 * F.min ∧ -((commonType R F S).max + 1) ≤ 2 * S.min) := by
    decide
  exact hall R (mem_types R) F (mem_types F) S (mem_types S)

theorem cast_unsigned {T : IntType} (h : T.isSigned = false) (v : ℤ) : T.cast v = v % (T.max + 1) := by
  rw [IntType.cast, IntType.max, h, if_neg (by decide), if_neg (by decide), sub_add_cancel]

theorem min_le_zero (T : IntType) : T.min ≤ 0 := by
  cases T <;> decide

theorem max_nonneg (T : IntType) : 0 < T.max := by
  cases T <;> decide

theorem min_eq_zero_iff (T : IntType) : T.min = 0 ↔ T.isSigned = false := by
  cases T <;> decide

/-! ### The tests -/

section Tests

variable {R F S : IntType} {f s : ℤ}

theorem test_pos (hf : F.Holds f) (hs : S.Holds s) (hf0 : 0 < f) (hs0 : 0 < s) :
    (commonType R F S).cast f > ((commonType R F S).cast R.max).tdiv ((commonType R F S).cast s) ↔
      ¬R.Holds (f * s) := by
  obtain ⟨⟨hR, hF, hS⟩, -⟩ := limits R F S
  have hmin := min_le_zero (commonType R F S)
  have hcast {v : ℤ} (h0 : 0 ≤ v) (hmax : v ≤ (commonType R F S).max) : (commonType R F S).cast v = v :=
    IntType.cast_of_holds ⟨hmin.trans h0, hmax⟩
  have hpos := mul_pos hf0 hs0
  have hRmin := min_le_zero R
  rw [hcast hf0.le (hf.2.trans hF), hcast hs0.le (hs.2.trans hS), hcast (max_nonneg R).le hR,
    Int.tdiv_eq_ediv_of_nonneg (max_nonneg R).le, gt_iff_lt, Int.ediv_lt_iff_lt_mul hs0, IntType.Holds]
  omega

/-- A limit that is not positive, divided by a positive operand. -/
theorem lt_tdiv_iff {a b m : ℤ} (hm : m ≤ 0) (hb : 0 < b) : a < m.tdiv b ↔ a * b < m := by
  have hdiv : m.tdiv b = -((-m) / b) := by
    rw [← Int.tdiv_eq_ediv_of_nonneg (by omega), Int.neg_tdiv, neg_neg]
  have hlt : -m / b < -a ↔ -m < -a * b := Int.ediv_lt_iff_lt_mul hb
  rw [neg_mul] at hlt
  rw [hdiv]
  omega

/-- A negative and a positive operand, in an unsigned common type of `N` values: the negative one is
large, and only a division by 1 does not make the limit smaller. -/
theorem unsigned_lt_iff {N a b m : ℤ} (ha : a < 0) (haN : -N ≤ 2 * a) (hb : 0 < b) (hm : m ≤ 0)
    (hmN : -N ≤ 2 * m) : a % N < (m % N).tdiv b ↔ b = 1 ∧ a < m ∧ m < 0 := by
  have hN : 0 < N := by omega
  have hmod {x : ℤ} (h : x < 0) (h' : -N ≤ 2 * x) : x % N = N + x := by
    rw [← Int.add_emod_left, Int.emod_eq_of_lt (by omega) (by omega)]
  have hmnonneg : 0 ≤ m % N := Int.emod_nonneg _ hN.ne'
  have hmlt : m % N < N := Int.emod_lt_of_pos _ hN
  rw [hmod ha haN, Int.tdiv_eq_ediv_of_nonneg hmnonneg]
  by_cases h1 : b = 1
  · rw [h1, Int.ediv_one, and_iff_right rfl]
    rcases lt_or_eq_of_le hm with hneg | hzero
    · rw [hmod hneg hmN]
      omega
    · rw [hzero, Int.zero_emod]
      omega
  · have hq := Int.ediv_nonneg hmnonneg hb.le
    have hhalf : 2 * (m % N / b) ≤ m % N := by
      have hle := Int.ediv_mul_le (m % N) hb.ne'
      nlinarith [show 2 ≤ b by omega]
    have hno : ¬(b = 1 ∧ a < m ∧ m < 0) := fun h => h1 h.1
    omega

theorem test_neg {T V : IntType} {a b : ℤ} (ha : T.Holds a) (hb : V.Holds b) (ha0 : a < 0) (hb0 : 0 < b)
    {C : IntType} (hV : V.max ≤ C.max)
    (hsigned : C.isSigned = true → C.min ≤ R.min ∧ C.min ≤ T.min)
    (hunsigned : C.isSigned = false → -(C.max + 1) ≤ 2 * R.min ∧ -(C.max + 1) ≤ 2 * T.min) :
    C.cast a < (C.cast R.min).tdiv (C.cast b) ↔
      ¬R.Holds (a * b) ∧ (C.isSigned = true ∨ R.isSigned = true ∧ b = 1) := by
  have hmin := min_le_zero C
  have hRmin := min_le_zero R
  have hCmax := max_nonneg C
  have hneg := mul_neg_of_neg_of_pos ha0 hb0
  have hholds : ¬R.Holds (a * b) ↔ a * b < R.min := by
    have hRmax := max_nonneg R
    rw [IntType.Holds]
    omega
  have hcast {v : ℤ} (h0 : C.min ≤ v) (hmax : v ≤ C.max) : C.cast v = v := IntType.cast_of_holds ⟨h0, hmax⟩
  rw [hcast (hmin.trans hb0.le) (hb.2.trans hV), hholds]
  cases hC : C.isSigned with
  | true =>
      obtain ⟨hlow, hlow'⟩ := hsigned hC
      rw [hcast (hlow'.trans ha.1) (by omega), hcast hlow (by omega), lt_tdiv_iff hRmin hb0]
      simp
  | false =>
      obtain ⟨hlow, hlow'⟩ := hunsigned hC
      have halow := ha.1
      have hzero := min_eq_zero_iff R
      rw [cast_unsigned hC, cast_unsigned hC, unsigned_lt_iff ha0 (by omega) hb0 hRmin hlow]
      constructor
      · rintro ⟨rfl, hlt, hlt0⟩
        rw [mul_one]
        refine ⟨hlt, Or.inr ⟨?_, rfl⟩⟩
        cases hsign : R.isSigned with
        | true => rfl
        | false => exact absurd (hzero.mpr hsign) hlt0.ne
      · rintro ⟨hlt, hfalse | ⟨hsign, rfl⟩⟩
        · cases hfalse
        · rw [mul_one] at hlt
          refine ⟨rfl, hlt, lt_of_le_of_ne hRmin fun h => ?_⟩
          rw [hzero.mp h] at hsign
          cases hsign

theorem test_neg_neg (hf : F.Holds f) (hs : S.Holds s) (hf0 : f < 0) (hs0 : s < 0) :
    (commonType R F S).cast s < ((commonType R F S).cast R.max).tdiv ((commonType R F S).cast f) ↔
      ¬R.Holds (f * s) ∧ (commonType R F S).isSigned = true := by
  obtain ⟨⟨hR, -, -⟩, hsigned, hunsigned⟩ := limits R F S
  generalize commonType R F S = C at *
  have hmin := min_le_zero C
  have hRmin := min_le_zero R
  have hRmax := max_nonneg R
  have hpos := mul_pos_of_neg_of_neg hf0 hs0
  have hholds : ¬R.Holds (f * s) ↔ R.max < f * s := by
    rw [IntType.Holds]
    omega
  have hcast {v : ℤ} (h0 : C.min ≤ v) (hmax : v ≤ C.max) : C.cast v = v := IntType.cast_of_holds ⟨h0, hmax⟩
  rw [hcast (by omega) hR, hholds]
  cases hC : C.isSigned with
  | true =>
      obtain ⟨-, hlowF, hlowS⟩ := hsigned hC
      have hdiv : R.max.tdiv f = -(R.max / -f) := by
        rw [← Int.tdiv_eq_ediv_of_nonneg hRmax.le, Int.tdiv_neg, neg_neg]
      have hlt : R.max / -f < -s ↔ R.max < -s * -f := Int.ediv_lt_iff_lt_mul (by omega)
      rw [neg_mul_neg, mul_comm s f] at hlt
      rw [hcast (hlowF.trans hf.1) (by omega), hcast (hlowS.trans hs.1) (by omega), hdiv, ← hlt]
      simp only [and_true]
      omega
  | false =>
      obtain ⟨-, hlowF, hlowS⟩ := hunsigned hC
      have hflow := hf.1
      have hslow := hs.1
      have hN := max_nonneg C
      have hmod {x : ℤ} (h : x < 0) (h' : -(C.max + 1) ≤ 2 * x) : x % (C.max + 1) = C.max + 1 + x := by
        rw [← Int.add_emod_left, Int.emod_eq_of_lt (by omega) (by omega)]
      rw [cast_unsigned hC, cast_unsigned hC, hmod hf0 (by omega), hmod hs0 (by omega),
        Int.tdiv_eq_ediv_of_nonneg hRmax.le]
      have hone : R.max / (C.max + 1 + f) < 2 := by
        rw [Int.ediv_lt_iff_lt_mul (by omega)]
        omega
      simp only [Bool.false_eq_true, and_false, iff_false]
      omega

/-! ### The product -/

theorem cast_emod (T : IntType) (v : ℤ) : T.cast v % 2 ^ T.bits = v % 2 ^ T.bits := by
  rw [IntType.cast]
  split
  · have h := @Int.bmod_emod v (2 ^ T.bits)
    push_cast at h
    exact h
  · exact Int.emod_emod_of_dvd v dvd_rfl

theorem cast_congr {T : IntType} {v w : ℤ} (h : v % 2 ^ T.bits = w % 2 ^ T.bits) : T.cast v = T.cast w := by
  rw [IntType.cast, IntType.cast, Int.bmod, Int.bmod]
  push_cast
  rw [h]

/-- A cast to a type that is at least as wide changes nothing for the narrower one. -/
theorem cast_cast {T U : IntType} (h : T.bits ≤ U.bits) (v : ℤ) : T.cast (U.cast v) = T.cast v := by
  apply cast_congr
  have hdvd : (2 : ℤ) ^ T.bits ∣ 2 ^ U.bits := pow_dvd_pow 2 h
  rw [← Int.emod_emod_of_dvd (U.cast v) hdvd, cast_emod, Int.emod_emod_of_dvd v hdvd]

theorem holds_cast (T : IntType) (v : ℤ) : T.Holds (T.cast v) := by
  have hbits : (2 : ℤ) ^ T.bits = 2 * 2 ^ (T.bits - 1) := by
    rw [← pow_succ', Nat.sub_add_cancel (by cases T <;> decide)]
  have hpos : (0 : ℤ) < 2 ^ T.bits := by positivity
  rw [IntType.Holds, IntType.min, IntType.max, IntType.cast]
  cases hT : T.isSigned with
  | true =>
      have hlow := @Int.le_bmod v (2 ^ T.bits) (by positivity)
      have hhigh := @Int.bmod_lt v (2 ^ T.bits) (by positivity)
      push_cast at hlow hhigh
      rw [hbits] at hlow hhigh
      simp only [if_true]
      omega
  | false =>
      have hlow := Int.emod_nonneg v hpos.ne'
      have hhigh := Int.emod_lt_of_pos v hpos
      simp only [Bool.false_eq_true, if_false]
      omega

/-- An unsigned product that is cut is not a negative one that a cast has made large. -/
theorem holds_of_wider {M : IntType} (hM : M.isSigned = false) (hwide : 32 ≤ M.bits) (hbits : M.bits < R.bits)
    {v : ℤ} (hv : M.Holds v) : R.Holds v := by
  have hR : R.bits ≤ 64 := by cases R <;> decide
  have hM : M = .UInt32 := by
    cases M <;> simp [IntType.bits, IntType.isSigned] at hM hwide hbits hR ⊢
    omega
  subst hM
  have hhigh : v ≤ 2 ^ 32 - 1 := hv.2
  have hlow : 0 ≤ v := hv.1
  have hR : R = .Int64 ∨ R = .UInt64 := by
    cases R <;> simp [IntType.bits] at hbits ⊢
  rcases hR with rfl | rfl
  · exact ⟨le_trans (by decide) hlow, hhigh.trans (by decide)⟩
  · exact ⟨hlow, hhigh.trans (by decide)⟩

/-- The product is kept when the type of the operands has it, or it wraps there and the result is not
wider than that. -/
theorem multiply_eq_iff (h : R.Holds (f * s)) :
    multiply R (arithmetic F S) f s = .returnsTrue (f * s) ↔
      (arithmetic F S).Holds (f * s) ∨
        (arithmetic F S).isSigned = false ∧ R.bits ≤ (arithmetic F S).bits := by
  have hwide : 32 ≤ (arithmetic F S).bits := by
    cases F <;> cases S <;> decide
  generalize arithmetic F S = M at *
  unfold multiply
  by_cases hM : M.Holds (f * s)
  · rw [if_neg fun hover => hover.2 hM, IntType.cast_of_holds hM, IntType.cast_of_holds h]
    exact iff_of_true rfl (Or.inl hM)
  · rw [or_iff_right hM]
    cases hsigned : M.isSigned with
    | true =>
        rw [if_pos ⟨rfl, hM⟩]
        exact iff_of_false nofun nofun
    | false =>
        rw [if_neg (fun hover => Bool.false_ne_true hover.1), and_iff_right rfl, Outcome.returnsTrue.injEq]
        constructor
        · intro heq
          by_contra hbits
          have hwrapped := holds_cast M (f * s)
          rw [IntType.cast_of_holds (holds_of_wider hsigned hwide (not_le.mp hbits) hwrapped)] at heq
          exact hM (heq ▸ hwrapped)
        · intro hbits
          rw [cast_cast hbits, IntType.cast_of_holds h]

/-! ### Main result -/

/-- What the function comes to: `false` where the test refuses the product. -/
theorem safeMultiply_eq (hf : F.Holds f) (hs : S.Holds s) (hf0 : f ≠ 0) (hs0 : s ≠ 0) :
    safeMultiply R F S f s =
      if ¬R.Holds (f * s) ∧ Noticed R F S f s then .returnsFalse
      else multiply R (arithmetic F S) f s := by
  obtain ⟨⟨-, hF, hS⟩, hsigned, hunsigned⟩ := limits R F S
  unfold safeMultiply
  dsimp only
  rw [if_neg (by omega)]
  by_cases hpos : 0 < f ∧ 0 < s
  · have htest : _ ↔ ¬R.Holds (f * s) ∧ Noticed R F S f s :=
      (@test_pos R F S f s hf hs hpos.1 hpos.2).trans (and_iff_left (Or.inr (Or.inl hpos))).symm
    rw [if_pos hpos.1, if_pos hpos.2, ite_self]
    exact if_congr htest rfl rfl
  · have hFS : F.isSigned = true ∨ S.isSigned = true := by
      by_contra hnot
      rw [not_or, Bool.not_eq_true, Bool.not_eq_true] at hnot
      have hFmin := (min_eq_zero_iff F).mpr hnot.1
      have hSmin := (min_eq_zero_iff S).mpr hnot.2
      have hflow := hf.1
      have hslow := hs.1
      omega
    rw [if_pos hFS]
    rcases lt_or_gt_of_ne hf0 with hfneg | hfpos
    · rw [if_neg (by omega)]
      rcases lt_or_gt_of_ne hs0 with hsneg | hspos
      · have hone : ¬(f = 1 ∨ s = 1) := by omega
        have htest : _ ↔ ¬R.Holds (f * s) ∧ Noticed R F S f s :=
          (@test_neg_neg R F S f s hf hs hfneg hsneg).trans
            (and_congr_right' (or_iff_left fun h => h.elim hpos fun h => hone h.2).symm)
        rw [if_neg (by omega)]
        exact if_congr htest rfl rfl
      · have hone : ¬f = 1 := by omega
        have htest : _ ↔ ¬R.Holds (f * s) ∧ Noticed R F S f s :=
          (@test_neg R F S f s hf hs hfneg hspos (commonType R F S) hS
            (fun h => ⟨(hsigned h).1, (hsigned h).2.1⟩) fun h => ⟨(hunsigned h).1, (hunsigned h).2.1⟩).trans
            (and_congr_right' (or_congr_right (by rw [or_iff_right hpos, or_iff_right hone])))
        rw [if_pos hspos]
        exact if_congr htest rfl rfl
    · have hsneg : s < 0 := by omega
      have hone : ¬s = 1 := by omega
      have htest : _ ↔ ¬R.Holds (s * f) ∧ Noticed R F S f s :=
        (@test_neg R S F s f hs hf hsneg hfpos (commonType R F S) hF
          (fun h => ⟨(hsigned h).1, (hsigned h).2.2⟩) fun h => ⟨(hunsigned h).1, (hunsigned h).2.2⟩).trans
          (and_congr_right' (or_congr_right (by rw [or_iff_right hpos, or_iff_left hone])))
      rw [if_pos hfpos, if_neg (by omega), mul_comm f s]
      exact if_congr htest rfl rfl

theorem multiply_ne_returnsFalse (M : IntType) : multiply R M f s ≠ .returnsFalse := by
  unfold multiply
  split
  · exact nofun
  · exact nofun

end Tests

/-- **Main result.**  `safeMultiply` is exact when the product is not lost in the type of the operands, and
an overflow is noticed: in a signed common type, for positive operands, or for an operand 1 and a signed
result. -/
theorem safeMultiply_exact_iff {R F S : IntType} {f s : ℤ} (hf : F.Holds f) (hs : S.Holds s) :
    Exact R F S f s ↔ Fits R F S f s := by
  by_cases hzero : f = 0 ∨ s = 0
  · have hprod : f * s = 0 := by
      rcases hzero with rfl | rfl
      · exact zero_mul s
      · exact mul_zero f
    have hholds (T : IntType) : T.Holds (f * s) := by
      rw [hprod]
      exact ⟨min_le_zero T, (max_nonneg T).le⟩
    have heq : Exact R F S f s := by
      rw [Exact, safeMultiply, if_pos hzero, if_pos (hholds R), hprod]
    exact ⟨fun _ => ⟨fun _ => Or.inl (hholds _), fun hnot => absurd (hholds R) hnot⟩, fun _ => heq⟩
  · rw [not_or] at hzero
    rw [Exact, safeMultiply_eq hf hs hzero.1 hzero.2]
    by_cases hR : R.Holds (f * s)
    · rw [if_neg fun h => h.1 hR, if_pos hR, multiply_eq_iff hR]
      exact ⟨fun h => ⟨fun _ => h, fun hnot => absurd hR hnot⟩, fun h => h.product hR⟩
    · rw [if_neg hR]
      constructor
      · intro h
        refine ⟨fun h' => absurd h' hR, fun _ => ?_⟩
        by_contra hnot
        rw [if_neg fun hand => hnot hand.2] at h
        exact multiply_ne_returnsFalse _ h
      · intro h
        rw [if_pos ⟨hR, h.refused hR⟩]

/-- Operands and result of one type: the largest product of 16 bits, and one more. -/
theorem safeMultiply_exact_int16 : Exact .Int16 .Int16 .Int16 (-32768) (-1) :=
  (safeMultiply_exact_iff (by decide) (by decide)).mpr ⟨fun h => absurd h (by decide), fun _ => Or.inl (by decide)⟩

/-- A negative product is accepted for an unsigned result; a product of 33 bits is lost in the type of its
operands, and another overflows there. -/
theorem safeMultiply_not_exact :
    safeMultiply .UInt64 .Int64 .Int64 (-1) 1 = .returnsTrue (2 ^ 64 - 1) ∧
    safeMultiply .Int64 .UInt32 .UInt32 65536 65536 = .returnsTrue 0 ∧
    safeMultiply .UInt32 .UInt16 .UInt16 65535 65535 = .overflow ∧
    ¬Exact .UInt64 .Int64 .Int64 (-1) 1 ∧ ¬Exact .Int64 .UInt32 .UInt32 65536 65536 ∧
    ¬Exact .UInt32 .UInt16 .UInt16 65535 65535 := by
  unfold Exact
  decide

end SafeMultiply

end Poco.Foundation
