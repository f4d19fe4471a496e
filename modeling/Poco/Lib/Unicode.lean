import Mathlib.Data.Nat.Basic
import Mathlib.Data.List.Basic

/-! # Unicode scalar values and their UTF-8 code units

A `Char` is a Unicode scalar value and `String.utf8EncodeChar` its code unit sequence.
`Encodes v bs` describes the same sequences by their arithmetic (`encodes_iff`): the bits of the
scalar value `v` are spread over one to four bytes, and the shortest form is the only one. -/

namespace Poco.Lib

/-- `bs` is the code unit sequence of the scalar value `v`. -/
inductive Encodes : ℕ → List UInt8 → Prop
  | one {v : ℕ} {a : UInt8} : v ≤ 0x7F → a.toNat = v → Encodes v [a]
  | two {v : ℕ} {a b : UInt8} : 0x80 ≤ v → v ≤ 0x7FF →
      a.toNat = 0xC0 + v / 64 → b.toNat = 0x80 + v % 64 → Encodes v [a, b]
  | three {v : ℕ} {a b c : UInt8} : 0x800 ≤ v → v ≤ 0xFFFF → ¬(0xD800 ≤ v ∧ v ≤ 0xDFFF) →
      a.toNat = 0xE0 + v / 4096 → b.toNat = 0x80 + v / 64 % 64 → c.toNat = 0x80 + v % 64 →
      Encodes v [a, b, c]
  | four {v : ℕ} {a b c d : UInt8} : 0x10000 ≤ v → v ≤ 0x10FFFF →
      a.toNat = 0xF0 + v / 262144 → b.toNat = 0x80 + v / 4096 % 64 →
      c.toNat = 0x80 + v / 64 % 64 → d.toNat = 0x80 + v % 64 → Encodes v [a, b, c, d]

theorem toNat_scalar (c : Char) : c.toNat ≤ 0x10FFFF ∧ ¬(0xD800 ≤ c.toNat ∧ c.toNat ≤ 0xDFFF) := by
  rcases c.valid with h | ⟨h₁, h₂⟩
  · have : c.toNat < 0xD800 := h
    omega
  · have h₁ : 0xDFFF < c.toNat := h₁
    have h₂ : c.toNat < 0x110000 := h₂
    omega

theorem exists_char {v : ℕ} (hle : v ≤ 0x10FFFF) (hsur : ¬(0xD800 ≤ v ∧ v ≤ 0xDFFF)) :
    ∃ c : Char, c.toNat = v := by
  have hvalid : v.isValidChar := by
    rcases Nat.lt_or_ge v 0xD800 with h | h
    · exact .inl h
    · exact .inr ⟨by omega, by omega⟩
  exact ⟨Char.ofNatAux v hvalid, rfl⟩

theorem encodes_utf8EncodeChar (c : Char) : Encodes c.toNat (String.utf8EncodeChar c) := by
  obtain ⟨hle, hsur⟩ := toNat_scalar c
  have hval : c.val.toNat = c.toNat := rfl
  unfold String.utf8EncodeChar
  simp only [hval]
  split_ifs with h₁ h₂ h₃
  · exact .one h₁ (by rw [UInt8.toNat_ofNat']; omega)
  · exact .two (by omega) h₂ (by rw [UInt8.toNat_ofNat']; omega) (by rw [UInt8.toNat_ofNat']; omega)
  · exact .three (by omega) h₃ hsur (by rw [UInt8.toNat_ofNat']; omega)
      (by rw [UInt8.toNat_ofNat']; omega) (by rw [UInt8.toNat_ofNat']; omega)
  · exact .four (by omega) hle (by rw [UInt8.toNat_ofNat']; omega)
      (by rw [UInt8.toNat_ofNat']; omega) (by rw [UInt8.toNat_ofNat']; omega)
      (by rw [UInt8.toNat_ofNat']; omega)

theorem Encodes.unique {v : ℕ} {bs bs' : List UInt8} (h : Encodes v bs) (h' : Encodes v bs') :
    bs = bs' := by
  cases h <;> cases h' <;> first | omega | skip
  all_goals
    simp only [List.cons.injEq, and_true, ← UInt8.toNat_inj]
    omega

theorem Encodes.scalar {v : ℕ} {bs : List UInt8} (h : Encodes v bs) :
    v ≤ 0x10FFFF ∧ ¬(0xD800 ≤ v ∧ v ≤ 0xDFFF) := by
  cases h <;> omega

/-- `Encodes` describes the code unit sequences of the characters. -/
theorem encodes_iff {v : ℕ} {bs : List UInt8} :
    Encodes v bs ↔ ∃ c : Char, c.toNat = v ∧ String.utf8EncodeChar c = bs := by
  constructor
  · intro h
    obtain ⟨c, rfl⟩ := exists_char h.scalar.1 h.scalar.2
    exact ⟨c, rfl, (encodes_utf8EncodeChar c).unique h⟩
  · rintro ⟨c, rfl, rfl⟩
    exact encodes_utf8EncodeChar c

end Poco.Lib
