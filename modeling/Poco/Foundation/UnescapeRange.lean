import Poco.Foundation.UTF8String

/-! # The iterators of `unescape`

`UTF8::unescape` with every `*it` written out as an access that can fail: in most places the code compares the
iterator with the end first, behind a backslash it does not.  `inRange_iff_whole` says for which strings no access is
behind the last character: those that do not end in a backslash which begins an escape sequence. -/

namespace Poco.Foundation.UTF8

open Hex

namespace Iterators

/-! ### The code -/

/-- What can go wrong: an access at the end of the string, or more rounds than the fuel allows. -/
inductive Fault
  | pastEnd
  | noFuel
deriving DecidableEq, Repr

/-- `*it`, for an iterator that is given by what is left of the string. -/
def deref : List UInt8 → Except Fault UInt8
  | [] => throw .pastEnd
  | c :: _ => pure c

/-- `it != end && Ascii::isHexDigit(*it)`. -/
def hexDigitAt (it : List UInt8) : Except Fault Bool :=
  if it = [] then pure false else do return isHexDigit (← deref it)

/-- `while (it != end && Ascii::isHexDigit(*it) && dno < n) digs[dno++] = *it++`, with `n - dno` as the
argument. -/
def readDigits : ℕ → List UInt8 → Except Fault (List UInt8 × List UInt8)
  | 0, it => do
    let _ ← hexDigitAt it
    return ([], it)
  | left + 1, it => do
    if ← hexDigitAt it then
      let c ← deref it
      let (digs, rest) ← readDigits left it.tail
      return (c :: digs, rest)
    else return ([], it)

/-- `it == end || *it != c`. -/
def differs (it : List UInt8) (c : UInt8) : Except Fault Bool :=
  if it = [] then pure true else do return (← deref it) != c

/-- `strtol` of the digits, if there are any. -/
def value (ch : UInt32) (digs : List UInt8) : UInt32 :=
  if digs = [] then ch else UInt32.ofNat (hexNumber digs)

/-- What is between the halves of a surrogate pair. -/
def skipBetween (it : List UInt8) : Except Fault (List UInt8) := do
  if ← differs it 0x5C then return it
  else if ← differs it.tail 0x75 then return it.tail
  else return it.tail.tail

/-- `case 'u'`, behind the `u`. -/
def readUnicode (ch : UInt32) (it : List UInt8) : Except Fault (UInt32 × List UInt8) := do
  let (digs, it) ← readDigits 4 it
  let ch := value ch digs
  if ch ≥ 0xD800 ∧ ch ≤ 0xDBFF then
    let it ← skipBetween it
    let (digs, it) ← readDigits 4 it
    if digs ≠ [] ∧ value 0 digs ≥ 0xDC00 ∧ value 0 digs ≤ 0xDFFF then
      return ((((ch - 0xD800) <<< 10) ||| (value 0 digs - 0xDC00)) + 0x10000, it)
    else return (ch, it)
  else return (ch, it)

/-- The `switch`, at the character behind the backslash; `*it` is read whether or not there is one. -/
def readEscape (ch : UInt32) (it : List UInt8) : Except Fault (UInt32 × List UInt8) := do
  let c ← deref it
  if c = 0x55 then
    let (digs, it) ← readDigits 8 it.tail
    return (value ch digs, it)
  else if c = 0x75 then readUnicode ch it.tail
  else
    match shortEscape c with
    | some ch => return (ch, it.tail)
    | none => return (ch, it)

/-- The loop of `unescape`. -/
def unescapeLoop : ℕ → List UInt8 → Except Fault (List UInt8)
  | _, [] => pure []
  | 0, _ :: _ => throw .noFuel
  | fuel + 1, b :: it => do
    let (ch, it) ← if charToUInt32 b = 0x5C then readEscape 0x5C it else pure (charToUInt32 b, it)
    return putChar ch ++ (← unescapeLoop fuel it)

/-- The loop ends, and no access is at the end of the string. -/
def InRange (s : List UInt8) : Prop := ∃ fuel result, unescapeLoop fuel s = .ok result

/-! ### The strings -/

/-- Up to four hexadecimal digits that are the first half of a surrogate pair. -/
def firstHalf (s : List UInt8) : Bool :=
  match (readHex 4 s).1 with
  | none => false
  | some ch => ch ≥ 0xD800 ∧ ch ≤ 0xDBFF

/-- What is behind these digits, and behind a backslash that follows them: it begins no sequence of its own. -/
def behindHalf (s : List UInt8) : List UInt8 :=
  let rest := (readHex 4 s).2
  if rest.head? = some 0x5C then rest.tail else rest

/-- No backslash that begins a sequence is the last character. -/
inductive Whole : List UInt8 → Prop
  | nil : Whole []
  | char {c : UInt8} {s : List UInt8} : c ≠ 0x5C → Whole s → Whole (c :: s)
  | sequence {c : UInt8} {s : List UInt8} : (c = 0x75 → firstHalf s = false) → Whole s → Whole (0x5C :: c :: s)
  | pair {s : List UInt8} : firstHalf s = true → Whole (behindHalf s) → Whole (0x5C :: 0x75 :: s)

/-! ### The accesses that are in range -/

theorem hexDigitAt_cons (c : UInt8) (it : List UInt8) : hexDigitAt (c :: it) = pure (isHexDigit c) := rfl

theorem differs_eq (it : List UInt8) (c : UInt8) : differs it c = pure (decide (it.head? ≠ some c)) := by
  cases it with
  | nil => rfl
  | cons d it =>
      have hsame : (d != c) = decide ((d :: it).head? ≠ some c) := by
        rw [List.head?_cons, bne, Bool.beq_eq_decide_eq, ← decide_not]
        exact decide_eq_decide.mpr (not_congr (Option.some.injEq d c ▸ Iff.rfl))
      rw [← hsame]
      rfl

theorem readDigits_eq (k : ℕ) (it : List UInt8) :
    readDigits k it = pure ((it.take k).takeWhile isHexDigit, it.drop ((it.take k).takeWhile isHexDigit).length) := by
  induction k generalizing it with
  | zero => cases it <;> rfl
  | succ k ih =>
      cases it with
      | nil => rfl
      | cons c it =>
          rw [readDigits, hexDigitAt_cons, List.take_succ_cons, pure_bind]
          by_cases hc : isHexDigit c = true
          · rw [if_pos hc, List.takeWhile_cons_of_pos hc, List.length_cons, List.drop_succ_cons, deref, pure_bind,
              List.tail_cons, ih it, pure_bind]
          · rw [if_neg hc, List.takeWhile_cons_of_neg hc]
            rfl

theorem value_eq (k : ℕ) (ch : UInt32) (it : List UInt8) :
    value ch ((it.take k).takeWhile isHexDigit) = (readHex k it).1.getD ch := by
  rw [value, readHex]
  split_ifs <;> rfl

theorem skipBetween_eq (it : List UInt8) : skipBetween it = pure (skipOther it) := by
  simp only [skipBetween, differs_eq, pure_bind, skipOther, decide_eq_true_iff, ne_eq]
  split_ifs <;> rfl

/-- The digits of the other half are there if they have a value. -/
theorem digits_iff (it : List UInt8) : (it.take 4).takeWhile isHexDigit ≠ [] ↔ (readHex 4 it).1 ≠ none := by
  rw [readHex]
  split_ifs with hdigs
  · exact iff_of_false (absurd hdigs ·) (absurd rfl ·)
  · exact iff_of_true hdigs (Option.some_ne_none _)

theorem readUnicode_eq (it : List UInt8) : readUnicode 0x5C it = pure (UTF8.readUnicode it) := by
  rw [readUnicode, UTF8.readUnicode, readDigits_eq, pure_bind]
  dsimp only
  rw [value_eq, skipBetween_eq]
  generalize (readHex 4 it).1.getD 0x5C = ch
  have hbehind : it.drop ((it.take 4).takeWhile isHexDigit).length = (readHex 4 it).2 := rfl
  rw [hbehind]
  generalize skipOther (readHex 4 it).2 = it'
  have hbehind' : it'.drop ((it'.take 4).takeWhile isHexDigit).length = (readHex 4 it').2 := rfl
  split_ifs with hhalf
  · rw [pure_bind, readDigits_eq, pure_bind]
    dsimp only
    rw [value_eq, hbehind']
    have hdigits := digits_iff it'
    cases htemp : (readHex 4 it').1 with
    | none =>
        rw [htemp] at hdigits
        rw [if_neg fun hboth => hdigits.mp hboth.1 rfl]
    | some temp =>
        rw [htemp] at hdigits
        rw [Option.getD_some]
        by_cases hsecond : temp ≥ 0xDC00 ∧ temp ≤ 0xDFFF
        · rw [if_pos ⟨hdigits.mpr (Option.some_ne_none temp), hsecond⟩]
          exact congrArg pure (if_pos hsecond).symm
        · rw [if_neg fun hboth => hsecond hboth.2]
          exact congrArg pure (if_neg hsecond).symm
  · rfl

/-- Only the access right behind the backslash is not checked. -/
theorem readEscape_eq (it : List UInt8) :
    readEscape 0x5C it = if it = [] then throw .pastEnd else pure (UTF8.readEscape it) := by
  cases it with
  | nil => rfl
  | cons c rest =>
      rw [if_neg (List.cons_ne_nil c rest), readEscape, deref, pure_bind, List.tail_cons, UTF8.readEscape]
      split_ifs
      · rw [readDigits_eq, pure_bind]
        dsimp only
        rw [value_eq]
        rfl
      · exact readUnicode_eq rest
      · cases shortEscape c <;> rfl

/-! ### What a sequence leaves -/

theorem whole_cons {c : UInt8} (hc : c ≠ 0x5C) (s : List UInt8) : Whole (c :: s) ↔ Whole s := by
  constructor
  · intro h
    cases h with
    | char _ h => exact h
    | sequence _ _ => exact absurd rfl hc
    | pair _ _ => exact absurd rfl hc
  · exact .char hc

theorem whole_append {digs : List UInt8} (hdigs : ∀ c ∈ digs, c ≠ 0x5C) (s : List UInt8) :
    Whole (digs ++ s) ↔ Whole s := by
  induction digs with
  | nil => rfl
  | cons c digs ih =>
      rw [List.cons_append, whole_cons (hdigs c List.mem_cons_self),
        ih fun d hd => hdigs d (List.mem_cons_of_mem c hd)]

theorem whole_readHex (k : ℕ) (it : List UInt8) : Whole (readHex k it).2 ↔ Whole it := by
  have hdigs : ∀ c ∈ (it.take k).takeWhile isHexDigit, c ≠ 0x5C := by
    intro c hc
    rintro rfl
    exact absurd (List.mem_takeWhile_imp hc) (by decide)
  have hfront : (it.take k).takeWhile isHexDigit <+: it := (List.takeWhile_prefix _).trans (List.take_prefix k it)
  rw [← whole_append hdigs (readHex k it).2]
  exact iff_of_eq (congrArg Whole (List.prefix_iff_eq_append.mp hfront))

theorem whole_sequence_iff {c : UInt8} {s : List UInt8} (hc : c = 0x75 → firstHalf s = false) :
    Whole (0x5C :: c :: s) ↔ Whole s := by
  constructor
  · intro h
    cases h with
    | char hne _ => exact absurd rfl hne
    | sequence _ h => exact h
    | pair hhalf _ =>
        rw [hc rfl] at hhalf
        cases hhalf
  · exact .sequence hc

theorem whole_pair_iff {s : List UInt8} (hhalf : firstHalf s = true) :
    Whole (0x5C :: 0x75 :: s) ↔ Whole (behindHalf s) := by
  constructor
  · intro h
    cases h with
    | char hne _ => exact absurd rfl hne
    | sequence hnone _ =>
        rw [hnone rfl] at hhalf
        cases hhalf
    | pair _ h => exact h
  · exact .pair hhalf

theorem whole_skipOther (s : List UInt8) : Whole (skipOther (readHex 4 s).2) ↔ Whole (behindHalf s) := by
  rw [skipOther, behindHalf]
  split_ifs with hbackslash hu
  · obtain ⟨rest, hrest⟩ : ∃ rest, (readHex 4 s).2.tail = 0x75 :: rest := by
      cases htail : (readHex 4 s).2.tail with
      | nil => rw [htail] at hu; cases hu
      | cons c rest =>
          rw [htail, List.head?_cons, Option.some.injEq] at hu
          exact ⟨rest, by rw [hu]⟩
    rw [hrest, List.tail_cons, whole_cons (by decide)]
  · rfl
  · rfl

theorem firstHalf_iff (s : List UInt8) :
    firstHalf s = true ↔ (readHex 4 s).1.getD 0x5C ≥ 0xD800 ∧ (readHex 4 s).1.getD 0x5C ≤ 0xDBFF := by
  rw [firstHalf]
  cases (readHex 4 s).1 with
  | none => decide
  | some ch => exact decide_eq_true_iff

theorem whole_readUnicode (s : List UInt8) :
    Whole (UTF8.readUnicode s).2 ↔ Whole (0x5C :: 0x75 :: s) := by
  rw [UTF8.readUnicode]
  dsimp only
  split_ifs with hhalf
  · rw [← firstHalf_iff] at hhalf
    rw [whole_pair_iff hhalf, ← whole_skipOther, ← whole_readHex 4 (skipOther (readHex 4 s).2)]
    split
    · split_ifs <;> rfl
    · rfl
  · rw [← firstHalf_iff, Bool.not_eq_true] at hhalf
    rw [whole_sequence_iff fun _ => hhalf, whole_readHex]

/-- A backslash needs a character behind it, and what the sequence leaves is as whole as the string. -/
theorem whole_backslash_iff (it : List UInt8) :
    Whole (0x5C :: it) ↔ it ≠ [] ∧ Whole (UTF8.readEscape it).2 := by
  cases it with
  | nil =>
      refine iff_of_false ?_ fun hboth => hboth.1 rfl
      intro h
      cases h with
      | char hne _ => exact hne rfl
  | cons c rest =>
      rw [and_iff_right (List.cons_ne_nil c rest), UTF8.readEscape]
      split_ifs with hU hu
      · rw [whole_sequence_iff fun hc => absurd (hU.symm.trans hc) (by decide)]
        exact (whole_readHex 8 rest).symm
      · rw [hu]
        exact (whole_readUnicode rest).symm
      · rw [whole_sequence_iff fun hc => absurd hc hu]
        cases hshort : shortEscape c with
        | some ch => rfl
        | none =>
            have hc : c ≠ 0x5C := by
              rintro rfl
              cases hshort
            exact (whole_cons hc rest).symm

/-! ### Main result -/

theorem charToUInt32_iff (b : UInt8) : charToUInt32 b = 0x5C ↔ b = 0x5C := by
  have hall : ∀ n < 256, charToUInt32 (UInt8.ofNat n) = 0x5C ↔ UInt8.ofNat n = 0x5C := by decide +kernel
  have hb := hall b.toNat b.toNat_lt
  rwa [UInt8.ofNat_toNat] at hb

theorem unescapeLoop_char {b : UInt8} (hb : b ≠ 0x5C) (fuel : ℕ) (it : List UInt8) :
    unescapeLoop (fuel + 1) (b :: it) = (unescapeLoop fuel it).map (putChar (charToUInt32 b) ++ ·) := by
  rw [unescapeLoop, if_neg fun h => hb ((charToUInt32_iff b).mp h), pure_bind]
  exact bind_pure_comp _ _

theorem unescapeLoop_backslash (fuel : ℕ) {it : List UInt8} (hit : it ≠ []) :
    unescapeLoop (fuel + 1) (0x5C :: it) =
      (unescapeLoop fuel (UTF8.readEscape it).2).map (putChar (UTF8.readEscape it).1 ++ ·) := by
  rw [unescapeLoop, if_pos ((charToUInt32_iff _).mpr rfl), readEscape_eq, if_neg hit, pure_bind]
  exact bind_pure_comp _ _

/-- A round of the loop that is modelled without its accesses, on a character of any kind. -/
theorem unescape_char {b : UInt8} (hb : b ≠ 0x5C) (it : List UInt8) :
    unescape (b :: it) = putChar (charToUInt32 b) ++ unescape it := by
  rw [unescape, List.length_cons, UTF8.unescapeLoop, if_neg fun h => hb ((charToUInt32_iff b).mp h)]
  rfl

/-- With a round for every character the loop ends: with the text that `unescape` gives, or at the end of a string
that is not whole. -/
theorem unescapeLoop_of_length {fuel : ℕ} {s : List UInt8} (hfuel : s.length ≤ fuel) :
    (Whole s → unescapeLoop fuel s = .ok (unescape s)) ∧ (¬Whole s → unescapeLoop fuel s = .error .pastEnd) := by
  induction fuel generalizing s with
  | zero =>
      obtain rfl := List.length_eq_zero_iff.mp (Nat.le_zero.mp hfuel)
      exact ⟨fun _ => rfl, fun hnot => absurd .nil hnot⟩
  | succ fuel ih =>
      cases s with
      | nil => exact ⟨fun _ => rfl, fun hnot => absurd .nil hnot⟩
      | cons b it =>
          rw [List.length_cons, Nat.add_le_add_iff_right] at hfuel
          by_cases hb : b = 0x5C
          · subst hb
            by_cases hit : it = []
            · subst hit
              refine ⟨fun hwhole => ?_, fun _ => rfl⟩
              exact absurd rfl ((whole_backslash_iff []).mp hwhole).1
            · have hrec := ih ((length_readEscape_le it).trans hfuel)
              rw [whole_backslash_iff, and_iff_right hit, unescapeLoop_backslash fuel hit, unescape_backslash rfl]
              constructor
              · intro hwhole
                rw [hrec.1 hwhole]
                rfl
              · intro hnot
                rw [hrec.2 hnot]
                rfl
          · rw [whole_cons hb, unescapeLoop_char hb, unescape_char hb]
            constructor
            · intro hwhole
              rw [(ih hfuel).1 hwhole]
              rfl
            · intro hnot
              rw [(ih hfuel).2 hnot]
              rfl

theorem whole_of_ok {fuel : ℕ} {s result : List UInt8} (hok : unescapeLoop fuel s = .ok result) : Whole s := by
  induction fuel generalizing s result with
  | zero =>
      cases s with
      | nil => exact .nil
      | cons b it => cases hok
  | succ fuel ih =>
      cases s with
      | nil => exact .nil
      | cons b it =>
          by_cases hb : b = 0x5C
          · subst hb
            by_cases hit : it = []
            · subst hit
              cases hok
            · rw [unescapeLoop_backslash fuel hit] at hok
              cases hrest : unescapeLoop fuel (UTF8.readEscape it).2 with
              | error fault =>
                  rw [hrest] at hok
                  cases hok
              | ok rest => exact (whole_backslash_iff it).mpr ⟨hit, ih hrest⟩
          · rw [unescapeLoop_char hb] at hok
            cases hrest : unescapeLoop fuel it with
            | error fault =>
                rw [hrest] at hok
                cases hok
            | ok rest => exact (whole_cons hb it).mpr (ih hrest)

/-- **Main result.**  The loop ends and stays in the string exactly if no backslash that begins a sequence is the
last character. -/
theorem inRange_iff_whole (s : List UInt8) : InRange s ↔ Whole s := by
  constructor
  · rintro ⟨fuel, result, hok⟩
    exact whole_of_ok hok
  · intro hwhole
    exact ⟨s.length, unescape s, (unescapeLoop_of_length le_rfl).1 hwhole⟩

/-- A backslash alone. -/
theorem not_inRange_backslash : ¬∀ s, InRange s := by
  intro hall
  obtain ⟨fuel, result, hok⟩ := hall [0x5C]
  cases fuel <;> cases hok

end Iterators

end Poco.Foundation.UTF8
