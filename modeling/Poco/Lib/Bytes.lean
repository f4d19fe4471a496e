import Mathlib.Data.List.Basic
import Mathlib.Data.List.Induction
import Mathlib.Data.Nat.Basic
import Mathlib.Algebra.Order.Ring.Nat
import Mathlib.Tactic.Ring

/-! # Numbers and masks as bytes

`bigEndian w n` are the `w` bytes of `n` in network byte order and `ofBigEndian` reads such
bytes back.  `xorWith key bs` combines the bytes with a key stream; doing it twice with the
same key stream gives the bytes back.  A fact about all bytes is checked one by one
(`forall_byte`), a fact about their bits bit by bit (`byte_ext`). -/

namespace Poco.Lib

theorem forall_byte {P : UInt8 → Prop} (h : ∀ n < 256, P (UInt8.ofNat n)) (c : UInt8) : P c := by
  simpa using h c.toNat c.toNat_lt

theorem byte_ext {a b : UInt8} (h : ∀ i < 8, a.toBitVec.getLsbD i = b.toBitVec.getLsbD i) :
    a = b :=
  UInt8.toBitVec_inj.mp (BitVec.eq_of_getLsbD_eq h)

/-- The `w` low bytes of `n`, the most significant one first. -/
def bigEndian : ℕ → ℕ → List UInt8
  | 0, _ => []
  | w + 1, n => bigEndian w (n / 256) ++ [UInt8.ofNat n]

/-- The number that bytes in network byte order stand for. -/
def ofBigEndian (bs : List UInt8) : ℕ := bs.foldl (fun acc b => acc * 256 + b.toNat) 0

@[simp] theorem length_bigEndian (w n : ℕ) : (bigEndian w n).length = w := by
  induction w generalizing n with
  | zero => rfl
  | succ w ih => simp [bigEndian, ih]

theorem bigEndian_append (v w n : ℕ) :
    bigEndian (v + w) n = bigEndian v (n / 256 ^ w) ++ bigEndian w n := by
  induction w generalizing n with
  | zero => simp [bigEndian]
  | succ w ih =>
      rw [← Nat.add_assoc, bigEndian, bigEndian, ih, Nat.div_div_eq_div_mul, ← Nat.pow_succ',
        List.append_assoc]

theorem bigEndian_mod (w n : ℕ) : bigEndian w (n % 256 ^ w) = bigEndian w n := by
  induction w generalizing n with
  | zero => rfl
  | succ w ih =>
      have hlow : UInt8.ofNat (n % 256 ^ (w + 1)) = UInt8.ofNat n := by
        rw [← UInt8.toNat_inj, UInt8.toNat_ofNat', UInt8.toNat_ofNat']
        exact Nat.mod_mod_of_dvd n (Dvd.intro_left (256 ^ w) (Nat.pow_succ 256 w).symm)
      rw [bigEndian, bigEndian, hlow, Nat.pow_succ', Nat.mod_mul_right_div_self, ih]

theorem ofBigEndian_snoc (bs : List UInt8) (b : UInt8) :
    ofBigEndian (bs ++ [b]) = ofBigEndian bs * 256 + b.toNat := by
  simp [ofBigEndian, List.foldl_append]

theorem ofBigEndian_bigEndian {w n : ℕ} (h : n < 256 ^ w) : ofBigEndian (bigEndian w n) = n := by
  induction w generalizing n with
  | zero =>
      have : n = 0 := by simpa using h
      subst this
      rfl
  | succ w ih =>
      have hdiv : n / 256 < 256 ^ w := by
        apply Nat.div_lt_of_lt_mul
        rw [pow_succ] at h
        omega
      rw [bigEndian, ofBigEndian_snoc, ih hdiv, UInt8.toNat_ofNat']
      omega

theorem ofBigEndian_lt (bs : List UInt8) : ofBigEndian bs < 256 ^ bs.length := by
  induction bs using List.reverseRecOn with
  | nil => exact Nat.one_pos
  | append_singleton bs b ih =>
      have hb := b.toNat_lt
      rw [ofBigEndian_snoc, List.length_append, List.length_singleton, pow_succ]
      omega

/-- The bytes that have been read are the bytes of the number. -/
theorem bigEndian_ofBigEndian (bs : List UInt8) : bigEndian bs.length (ofBigEndian bs) = bs := by
  induction bs using List.reverseRecOn with
  | nil => rfl
  | append_singleton bs b ih =>
      have hb := b.toNat_lt
      have hdiv : (ofBigEndian bs * 256 + b.toNat) / 256 = ofBigEndian bs := by omega
      have hlow : UInt8.ofNat (ofBigEndian bs * 256 + b.toNat) = b := by
        rw [← UInt8.toNat_inj, UInt8.toNat_ofNat']
        omega
      rw [ofBigEndian_snoc, List.length_append, List.length_singleton, bigEndian, hdiv, ih, hlow]

/-- The bytes combined with a key stream. -/
def xorWith (key : ℕ → UInt8) (bs : List UInt8) : List UInt8 := bs.mapIdx fun i b => b ^^^ key i

@[simp] theorem length_xorWith (key : ℕ → UInt8) (bs : List UInt8) :
    (xorWith key bs).length = bs.length := by simp [xorWith]

@[simp] theorem xorWith_xorWith (key : ℕ → UInt8) (bs : List UInt8) :
    xorWith key (xorWith key bs) = bs := by
  apply List.ext_getElem
  · simp
  · intro i _ _
    simp only [xorWith, List.getElem_mapIdx, UInt8.xor_assoc, UInt8.xor_self, UInt8.xor_zero]

end Poco.Lib
