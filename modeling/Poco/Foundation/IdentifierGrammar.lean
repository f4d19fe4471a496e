import Mathlib.Data.Nat.Digits.Lemmas
import Poco.Foundation.UUID
import Poco.Foundation.Ascii

/-! # The grammar of identifiers

What `ULID::tryParse` and `UUID::tryParse` should accept, and what they accept.  The table of `ULID` also
has a value for `=` (`isSymbol_or_pad_iff`), and `UUID` does not look behind 32 digits without hyphens
(`UUID.accepts_iff`). -/

namespace Poco.Foundation

open Poco.Lib

namespace ULID

/-! ### The grammar of a `ULID` -/

/-- The upper case letter of a letter. -/
def upper (c : UInt8) : UInt8 := if 'a'.toUInt8 ≤ c ∧ c ≤ 'z'.toUInt8 then c - 32 else c

/-- The value of a character in base 32: the place in the alphabet, in either case, with `O` for 0 and
`I` and `L` for 1. -/
def symbolValue (c : UInt8) : Option ℕ :=
  if upper c = 'O'.toUInt8 then some 0
  else if upper c = 'I'.toUInt8 ∨ upper c = 'L'.toUInt8 then some 1
  else if upper c ∈ ENCODING then some (ENCODING.idxOf (upper c)) else none

/-- The number that characters stand for. -/
def numeral (s : List UInt8) : ℕ := Nat.ofDigits 32 (s.map fun c => (symbolValue c).getD 0).reverse

/-- The text of a `ULID`: 26 characters of the alphabet, for a number of 128 bits. -/
def IsULID (s : List UInt8) : Prop :=
  s.length = 26 ∧ (∀ c ∈ s, (symbolValue c).isSome = true) ∧ numeral s < 2 ^ 128

/-- The text would be a `ULID`, but for characters `=` behind the first one. -/
def HasPad (s : List UInt8) : Prop :=
  s.length = 26 ∧ startsTooHigh (s.getD 0 0) = false ∧
    (∀ c ∈ s, (symbolValue c).isSome = true ∨ c = '='.toUInt8) ∧ '='.toUInt8 ∈ s

/-- What the table and the test of the first character say about a character. -/
theorem table_spec (c : UInt8) :
    (¬(REVERSE_ENCODING.getD c.toNat 0 = 0xFF) ↔ (symbolValue c).isSome = true ∨ c = '='.toUInt8) ∧
      ((symbolValue c).isSome = true → (startsTooHigh c = false ↔ (symbolValue c).getD 0 < 8)) ∧
      (symbolValue c).getD 0 < 32 ∧ symbolValue '='.toUInt8 = none := by
  revert c
  apply forall_byte
  decide +kernel

theorem numeral_lt (s : List UInt8) : numeral s < 32 ^ s.length := by
  have h := Nat.ofDigits_lt_base_pow_length (b := 32) (l := (s.map fun c => (symbolValue c).getD 0).reverse)
    (by decide) fun d hd => by
      obtain ⟨c, -, rfl⟩ := List.mem_map.mp (List.mem_reverse.mp hd)
      exact (table_spec c).2.2.1
  rwa [List.length_reverse, List.length_map] at h

theorem numeral_cons (c : UInt8) (s : List UInt8) :
    numeral (c :: s) = (symbolValue c).getD 0 * 32 ^ s.length + numeral s := by
  rw [numeral, List.map_cons, List.reverse_cons, Nat.ofDigits_append, List.length_reverse, List.length_map,
    Nat.ofDigits_singleton, numeral, Nat.add_comm, Nat.mul_comm]

/-- The first character decides whether the number has 128 bits. -/
theorem numeral_lt_iff {c : UInt8} {s : List UInt8} (h : s.length = 25) :
    numeral (c :: s) < 2 ^ 128 ↔ (symbolValue c).getD 0 < 8 := by
  have hrest := numeral_lt s
  rw [h] at hrest
  rw [numeral_cons, h]
  omega

theorem tryParse_iff (this : ULID) (s : List UInt8) : (tryParse this s).1 = true ↔
    s.length = 26 ∧ startsTooHigh (s.getD 0 0) = false ∧
      ∀ c ∈ s, (symbolValue c).isSome = true ∨ c = '='.toUInt8 := by
  unfold tryParse
  split_ifs with hlen hfirst hany
  · exact ⟨fun h => (nomatch h), fun h => absurd h.1 hlen⟩
  · exact ⟨fun h => (nomatch h), fun h => absurd (hfirst.symm.trans h.2.1) (by decide)⟩
  · rw [List.any_eq_true] at hany
    obtain ⟨c, hc, hbad⟩ := hany
    refine ⟨fun h => (nomatch h), fun h => ?_⟩
    exact absurd (of_decide_eq_true hbad) ((table_spec c).1.mpr (h.2.2 c hc))
  · rw [Bool.not_eq_true] at hfirst
    refine ⟨fun _ => ⟨not_not.mp hlen, hfirst, fun c hc => (table_spec c).1.mp fun hbad => hany ?_⟩, fun _ => rfl⟩
    exact List.any_eq_true.mpr ⟨c, hc, decide_eq_true hbad⟩

/-- `tryParse` accepts the `ULID`s, and texts with `=`. -/
theorem accepts_iff (this : ULID) (s : List UInt8) :
    (tryParse this s).1 = true ↔ IsULID s ∨ HasPad s := by
  rw [tryParse_iff]
  constructor
  · rintro ⟨hlen, hfirst, hall⟩
    by_cases hpad : '='.toUInt8 ∈ s
    · exact Or.inr ⟨hlen, hfirst, hall, hpad⟩
    · left
      have hsymbols : ∀ c ∈ s, (symbolValue c).isSome = true := fun c hc =>
        (hall c hc).resolve_right fun heq => hpad (heq ▸ hc)
      refine ⟨hlen, hsymbols, ?_⟩
      cases s with
      | nil => cases hlen
      | cons c s =>
          rw [numeral_lt_iff (Nat.succ.inj hlen)]
          exact ((table_spec c).2.1 (hsymbols c List.mem_cons_self)).mp hfirst
  · rintro (⟨hlen, hsymbols, hlt⟩ | ⟨hlen, hfirst, hall, -⟩)
    · refine ⟨hlen, ?_, fun c hc => Or.inl (hsymbols c hc)⟩
      cases s with
      | nil => cases hlen
      | cons c s =>
          rw [numeral_lt_iff (Nat.succ.inj hlen)] at hlt
          exact ((table_spec c).2.1 (hsymbols c List.mem_cons_self)).mpr hlt
    · exact ⟨hlen, hfirst, hall⟩

theorem HasPad.not_isULID {s : List UInt8} (h : HasPad s) : ¬IsULID s := by
  intro hs
  have hsome := hs.2.1 _ h.2.2.2
  rw [(table_spec 0).2.2.2] at hsome
  cases hsome

end ULID

namespace UUID

/-! ### The grammar of a `UUID` -/

export Ascii (isHexDigit)

/-- The places of the hyphens. -/
def IsHyphenPlace (i : ℕ) : Prop := i = 8 ∨ i = 13 ∨ i = 18 ∨ i = 23

/-- The text of a `UUID`: 32 hexadecimal digits, or with hyphens after 8, 12, 16 and 20 of them. -/
def IsUUID (s : List UInt8) : Prop :=
  s.length = 32 ∧ s.all isHexDigit = true ∨
    s.length = 36 ∧ ∀ i < 36, (IsHyphenPlace i → s.getD i 0 = '-'.toUInt8) ∧
      (¬IsHyphenPlace i → isHexDigit (s.getD i 0) = true)

/-- Something follows 32 hexadecimal digits. -/
def HasTail (s : List UInt8) : Prop := 32 < s.length ∧ (s.take 32).all isHexDigit = true

theorem nibble_iff (c : UInt8) : ¬(nibble c < 0) ↔ isHexDigit c = true := by
  revert c
  apply forall_byte
  decide +kernel

theorem readNibbles_cons (w k acc : ℕ) (c : UInt8) (it : List UInt8) : readNibbles w (k + 1) acc (c :: it) =
    if nibble c < 0 then none else readNibbles w k ((acc <<< 4 ||| (nibble c).toNat) % 2 ^ w) it := rfl

theorem readNibbles_isSome (w k acc : ℕ) {it : List UInt8} (h : k ≤ it.length) :
    (∃ n, readNibbles w k acc it = some (n, it.drop k)) ∧ (it.take k).all isHexDigit = true ∨
      readNibbles w k acc it = none ∧ (it.take k).all isHexDigit = false := by
  induction k generalizing acc it with
  | zero => exact Or.inl ⟨⟨acc, rfl⟩, rfl⟩
  | succ k ih =>
      cases it with
      | nil => cases h
      | cons c it =>
          have hc := nibble_iff c
          rw [readNibbles_cons, List.take_succ_cons, List.all_cons, List.drop_succ_cons]
          by_cases hneg : nibble c < 0
          · right
            rw [if_pos hneg]
            exact ⟨rfl, by rw [Bool.eq_false_iff.mpr fun hd => hc.mpr hd hneg, Bool.false_and]⟩
          · rw [if_neg hneg, hc.mp hneg, Bool.true_and]
            exact ih _ (Nat.le_of_succ_le_succ h)

theorem readNode_isSome (k : ℕ) {it : List UInt8} (h : 2 * k ≤ it.length) :
    (readNode k it).isSome = true ↔ (it.take (2 * k)).all isHexDigit = true := by
  induction k generalizing it with
  | zero => exact ⟨fun _ => rfl, fun _ => rfl⟩
  | succ k ih =>
      have hsplit : it.take (2 * (k + 1)) = it.take 2 ++ (it.drop 2).take (2 * k) := by
        rw [← List.take_add]
        congr 1
        omega
      have hrest := @ih (it.drop 2) (by rw [List.length_drop]; omega)
      rw [hsplit, List.all_append, Bool.and_eq_true, ← hrest]
      conv_lhs => unfold readNode
      rcases readNibbles_isSome 8 2 0 (by omega : 2 ≤ it.length) with ⟨⟨n, hn⟩, hall⟩ | ⟨hnone, hall⟩
      · rw [hn, hall, and_iff_right rfl]
        simp only [Option.bind_eq_bind, Option.bind_some]
        cases readNode k (it.drop 2) <;> simp
      · rw [hnone, hall]
        simp

theorem readMembers_isSome (haveHyphens : Bool) {it : List UInt8} {k : ℕ}
    (hk : k = if haveHyphens then 1 else 0) (h : 32 + 4 * k ≤ it.length) :
    (readMembers haveHyphens it).isSome = true ↔
      (it.take 8).all isHexDigit = true ∧ ((it.drop (8 + k)).take 4).all isHexDigit = true ∧
        ((it.drop (12 + 2 * k)).take 4).all isHexDigit = true ∧
        ((it.drop (16 + 3 * k)).take 4).all isHexDigit = true ∧
        ((it.drop (20 + 4 * k)).take 12).all isHexDigit = true := by
  have hskip (n : ℕ) : skipHyphen haveHyphens (it.drop n) = it.drop (n + k) := by
    rw [hk, skipHyphen]
    cases haveHyphens with
    | false => rfl
    | true => rw [if_pos rfl, if_pos rfl, List.tail_drop]
  have h1 := readNibbles_isSome 32 8 0 (by omega : 8 ≤ it.length)
  have h2 := @readNibbles_isSome 16 4 0 (it.drop (8 + k)) (by rw [List.length_drop]; omega)
  have h3 := @readNibbles_isSome 16 4 0 (it.drop (12 + 2 * k)) (by rw [List.length_drop]; omega)
  have h4 := @readNibbles_isSome 16 4 0 (it.drop (16 + 3 * k)) (by rw [List.length_drop]; omega)
  have h5 := @readNode_isSome 6 (it.drop (20 + 4 * k)) (by rw [List.length_drop]; omega)
  rw [List.drop_drop, show 8 + k + 4 = 12 + k by omega] at h2
  rw [List.drop_drop, show 12 + 2 * k + 4 = 16 + 2 * k by omega] at h3
  rw [List.drop_drop, show 16 + 3 * k + 4 = 20 + 3 * k by omega] at h4
  unfold readMembers
  rcases h1 with ⟨⟨n, hn⟩, hall⟩ | ⟨hnone, hall⟩
  · rw [hn, hall, and_iff_right rfl]
    simp only [Option.bind_eq_bind, Option.bind_some, hskip]
    rcases h2 with ⟨⟨n, hn⟩, hall⟩ | ⟨hnone, hall⟩
    · rw [hn, hall, and_iff_right rfl]
      simp only [Option.bind_some, hskip, show 12 + k + k = 12 + 2 * k by omega]
      rcases h3 with ⟨⟨n, hn⟩, hall⟩ | ⟨hnone, hall⟩
      · rw [hn, hall, and_iff_right rfl]
        simp only [Option.bind_some, hskip, show 16 + 2 * k + k = 16 + 3 * k by omega]
        rcases h4 with ⟨⟨n, hn⟩, hall⟩ | ⟨hnone, hall⟩
        · rw [hn, hall, and_iff_right rfl, ← h5]
          simp only [Option.bind_some, hskip, show 20 + 3 * k + k = 20 + 4 * k by omega]
          cases readNode 6 (it.drop (20 + 4 * k)) <;> simp
        · simp [hnone, hall]
      · simp [hnone, hall]
    · simp [hnone, hall]
  · simp [hnone, hall]

theorem all_take_drop_iff {s : List UInt8} {j k : ℕ} (h : j + k ≤ s.length) (p : UInt8 → Bool) :
    ((s.drop j).take k).all p = true ↔ ∀ i, j ≤ i → i < j + k → p (s.getD i 0) = true := by
  rw [List.all_eq_true]
  constructor
  · intro hall i hji hik
    have hi : i < s.length := by omega
    rw [List.getD_eq_getElem _ _ hi]
    refine hall _ (List.mem_take_iff_getElem.mpr ⟨i - j, ?_, ?_⟩)
    · rw [List.length_drop]
      omega
    · rw [List.getElem_drop]
      congr 1
      omega
  · intro hall c hc
    obtain ⟨i, hi, rfl⟩ := List.mem_take_iff_getElem.mp hc
    rw [List.length_drop] at hi
    have hget := hall (j + i) (by omega) (by omega)
    rw [List.getD_eq_getElem _ _ (by omega)] at hget
    rwa [List.getElem_drop]

theorem hyphenated_iff (s : List UInt8) :
    hyphenated s = true ↔ ∀ i, IsHyphenPlace i → s.getD i 0 = '-'.toUInt8 := by
  simp [hyphenated, IsHyphenPlace]

theorem readMembers_hyphens {s : List UInt8} (h : s.length = 36) : (readMembers true s).isSome = true ↔
    ∀ i < 36, ¬IsHyphenPlace i → isHexDigit (s.getD i 0) = true := by
  have hfirst := all_take_drop_iff (by omega : 0 + 8 ≤ s.length) isHexDigit
  rw [List.drop_zero] at hfirst
  rw [readMembers_isSome true (k := 1) rfl (by omega), hfirst, all_take_drop_iff (by omega),
    all_take_drop_iff (by omega), all_take_drop_iff (by omega), all_take_drop_iff (by omega)]
  constructor
  · rintro ⟨h1, h2, h3, h4, h5⟩ i hi hplace
    rw [IsHyphenPlace] at hplace
    rcases Nat.lt_or_ge i 8 with hlt | hge
    · exact h1 i (by omega) (by omega)
    rcases Nat.lt_or_ge i 13 with hlt | hge
    · exact h2 i (by omega) (by omega)
    rcases Nat.lt_or_ge i 18 with hlt | hge
    · exact h3 i (by omega) (by omega)
    rcases Nat.lt_or_ge i 23 with hlt | hge
    · exact h4 i (by omega) (by omega)
    · exact h5 i (by omega) (by omega)
  · intro hall
    refine ⟨?_, ?_, ?_, ?_, ?_⟩ <;> intro i hlow hhigh <;> refine hall i (by omega) ?_ <;>
      rw [IsHyphenPlace] <;> omega

/-- Without hyphens the first 32 characters are digits. -/
theorem readMembers_digits {s : List UInt8} (h : 32 ≤ s.length) :
    (readMembers false s).isSome = true ↔ (s.take 32).all isHexDigit = true := by
  have hfirst := all_take_drop_iff (by omega : 0 + 8 ≤ s.length) isHexDigit
  have hwhole := all_take_drop_iff (by omega : 0 + 32 ≤ s.length) isHexDigit
  rw [List.drop_zero] at hfirst hwhole
  rw [readMembers_isSome false (k := 0) rfl (by omega), hfirst, all_take_drop_iff (by omega),
    all_take_drop_iff (by omega), all_take_drop_iff (by omega), all_take_drop_iff (by omega), hwhole]
  constructor
  · rintro ⟨h1, h2, h3, h4, h5⟩ i - hi
    rcases Nat.lt_or_ge i 8 with hlt | hge
    · exact h1 i (by omega) (by omega)
    rcases Nat.lt_or_ge i 12 with hlt | hge
    · exact h2 i (by omega) (by omega)
    rcases Nat.lt_or_ge i 16 with hlt | hge
    · exact h3 i (by omega) (by omega)
    rcases Nat.lt_or_ge i 20 with hlt | hge
    · exact h4 i (by omega) (by omega)
    · exact h5 i (by omega) (by omega)
  · intro hall
    refine ⟨?_, ?_, ?_, ?_, ?_⟩ <;> exact fun i hlow hhigh => hall i (by omega) (by omega)

theorem hyphenated_of_digits {s : List UInt8} (h : 32 ≤ s.length) (hdigits : (s.take 32).all isHexDigit = true) :
    hyphenated s = false := by
  have hwhole := all_take_drop_iff (by omega : 0 + 32 ≤ s.length) isHexDigit
  rw [List.drop_zero] at hwhole
  have h8 := hwhole.mp hdigits 8 (by omega) (by omega)
  rw [Bool.eq_false_iff]
  intro hh
  rw [(hyphenated_iff s).mp hh 8 (Or.inl rfl)] at h8
  revert h8
  decide

/-- `tryParse` accepts the `UUID`s, and anything behind 32 digits. -/
theorem accepts_iff (this : UUID) (s : List UInt8) :
    (tryParse this s).1 = true ↔ IsUUID s ∨ HasTail s := by
  have hresult : (tryParse this s).1 = true ↔ 32 ≤ s.length ∧ (hyphenated s = true → s.length = 36) ∧
      (readMembers (hyphenated s) s).isSome = true := by
    unfold tryParse
    split_ifs with hlen hbad
    · exact ⟨fun h => (nomatch h), fun h => absurd h.1 (by omega)⟩
    · exact ⟨fun h => (nomatch h), fun h => absurd (h.2.1 hbad.1) hbad.2⟩
    · have hplaces : hyphenated s = true → s.length = 36 := fun hh => not_not.mp fun hne => hbad ⟨hh, hne⟩
      rw [and_iff_right (by omega : 32 ≤ s.length), and_iff_right hplaces]
      cases readMembers (hyphenated s) s with
      | none => exact ⟨fun h => (nomatch h), fun h => (nomatch h)⟩
      | some u => exact ⟨fun _ => rfl, fun _ => rfl⟩
  rw [hresult]
  constructor
  · rintro ⟨hlen, hplaces, hread⟩
    cases hh : hyphenated s with
    | true =>
        have h36 := hplaces hh
        rw [hh, readMembers_hyphens h36] at hread
        exact Or.inl (Or.inr ⟨h36, fun i hi => ⟨(hyphenated_iff s).mp hh i, hread i hi⟩⟩)
    | false =>
        rw [hh, readMembers_digits hlen] at hread
        rcases Nat.lt_or_ge 32 s.length with hlt | hge
        · exact Or.inr ⟨hlt, hread⟩
        · rw [List.take_of_length_le hge] at hread
          exact Or.inl (Or.inl ⟨by omega, hread⟩)
  · rintro ((⟨h32, hall⟩ | ⟨h36, hall⟩) | ⟨hlt, hall⟩)
    · have htake : (s.take 32).all isHexDigit = true := by
        rwa [List.take_of_length_le (by omega)]
      have hh := hyphenated_of_digits h32.ge htake
      rw [hh, readMembers_digits h32.ge]
      exact ⟨h32.ge, fun h => (nomatch h), htake⟩
    · have hh : hyphenated s = true := (hyphenated_iff s).mpr fun i hi => (hall i (by
        rw [IsHyphenPlace] at hi
        omega)).1 hi
      rw [hh, readMembers_hyphens h36]
      exact ⟨by omega, fun _ => h36, fun i hi => (hall i hi).2⟩
    · have hh := hyphenated_of_digits hlt.le hall
      rw [hh, readMembers_digits hlt.le]
      exact ⟨hlt.le, fun h => (nomatch h), hall⟩

theorem HasTail.not_isUUID {s : List UInt8} (h : HasTail s) : ¬IsUUID s := by
  rintro (⟨h32, -⟩ | ⟨h36, hall⟩)
  · exact absurd h.1 (by omega)
  · have hh := hyphenated_of_digits h.1.le h.2
    rw [Bool.eq_false_iff] at hh
    exact hh ((hyphenated_iff s).mpr fun i hi => (hall i (by
      rw [IsHyphenPlace] at hi
      omega)).1 hi)

end UUID

/-- **Main result.**  The parsers accept their grammars exactly for the texts that have no `=` in a
`ULID` and nothing behind 32 hexadecimal digits. -/
theorem identifiers_accept_iff (this : ULID) (this' : UUID) (s : List UInt8) :
    ((ULID.tryParse this s).1 = true ↔ ULID.IsULID s) ∧ ((UUID.tryParse this' s).1 = true ↔ UUID.IsUUID s) ↔
      ¬ULID.HasPad s ∧ ¬UUID.HasTail s := by
  rw [ULID.accepts_iff, UUID.accepts_iff]
  constructor
  · rintro ⟨hulid, huuid⟩
    exact ⟨fun h => h.not_isULID (hulid.mp (Or.inr h)), fun h => h.not_isUUID (huuid.mp (Or.inr h))⟩
  · rintro ⟨hpad, htail⟩
    exact ⟨or_iff_left hpad, or_iff_left htail⟩

/-- A text with `=` is no `ULID`, and 33 digits are no `UUID`. -/
theorem identifiers_over_accepted :
    (∃ s, (ULID.tryParse ⟨0, 0, 0, 0⟩ s).1 = true ∧ ¬ULID.IsULID s) ∧
      ∃ s, (UUID.tryParse ⟨0, 0, 0, 0, Vector.replicate 6 0⟩ s).1 = true ∧ ¬UUID.IsUUID s := by
  have hpad : ULID.HasPad ("01BX5ZZKBKACTAV9WEVGEMMVR=".toList.map Char.toUInt8) := by
    unfold ULID.HasPad
    decide +kernel
  have htail : UUID.HasTail ("6ba7b8109dad11d180b400c04fd430c8A".toList.map Char.toUInt8) := by
    unfold UUID.HasTail
    decide
  exact ⟨⟨_, (ULID.accepts_iff _ _).mpr (Or.inr hpad), hpad.not_isULID⟩,
    ⟨_, (UUID.accepts_iff _ _).mpr (Or.inr htail), htail.not_isUUID⟩⟩

end Poco.Foundation
