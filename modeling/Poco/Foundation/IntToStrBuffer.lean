import Poco.Foundation.IntToStr

/-! # The buffer of `intToStr`

`intToStr` compares the width with the capacity of the buffer before it writes, and the length of the text only
when all of it is written.  So a text that has more characters than the buffer because of its digits is written
past the end first.  `respects_iff` says for which calls the writes stay in the buffer and the exception tells
that the text and its terminating zero do not fit; in a successful call the buffer then holds them
(`run_cells`). -/

namespace Poco.Foundation

namespace NumericString

/-! ### Writing -/

/-- The characters behind `result`, and the indexes that have been written. -/
structure Buffer where
  cells : ℕ → UInt8
  writes : List ℕ

namespace Buffer

/-- `result[i] = c`. -/
def write (b : Buffer) (i : ℕ) (c : UInt8) : Buffer where
  cells := Function.update b.cells i c
  writes := b.writes ++ [i]

/-- `*ptr++ = c` for one character after the other; `ptr` is an index. -/
def put (b : Buffer) (ptr : ℕ) : List UInt8 → Buffer × ℕ
  | [] => (b, ptr)
  | c :: cs => (b.write ptr c).put (ptr + 1) cs

/-- The loop of phase 6. -/
def turn (b : Buffer) (lo ptr : ℕ) : Buffer :=
  if lo < ptr then
    let tmp := b.cells ptr
    ((b.write ptr (b.cells lo)).write lo tmp).turn (lo + 1) (ptr - 1)
  else b
termination_by ptr - lo

end Buffer

/-- What a call can end with besides its result. -/
inductive Failure
  | rangeException
  /-- `--w` below the smallest `int`, which is not defined. -/
  | signedOverflow
deriving DecidableEq, Repr

/-- The arguments of a call, the capacity being that in `size`. -/
structure Call where
  T : IntegerType
  value : ℤ
  value_range : T.min ≤ value ∧ value ≤ T.max
  base : ℕ
  base_ge : 2 ≤ base
  base_le : base ≤ 16
  capacity : ℕ
  capacity_lt : capacity < 2 ^ 64
  pfx : Bool
  width : ℤ
  width_ge : -2 ^ 31 ≤ width
  width_lt : width < 2 ^ 31
  fill : UInt8
  thSep : UInt8
  lowercase : Bool

namespace Call
variable (c : Call)

/-- `static_cast<int>(capacity)`. -/
def limit : ℤ := (c.capacity : ℤ).bmod (2 ^ 32)

/-- The characters of phase 4 for the prefix, the last one first. -/
def baseChars : List UInt8 :=
  if c.pfx ∧ c.base = 8 then ['0'.toUInt8] else if c.pfx ∧ c.base = 16 then ['x'.toUInt8, '0'.toUInt8] else []

def negative : Prop := c.value < 0

instance : Decidable c.negative := inferInstanceAs (Decidable (c.value < 0))

/-- The width of phase 3. -/
def w : ℤ :=
  c.width - (if c.negative then 1 else 0) - (if c.pfx ∧ c.base = 8 then 1 else 0) -
    (if c.pfx ∧ c.base = 16 then 2 else 0)

/-- `intToStr` for a base that it knows. -/
def run (b : Buffer) : Except Failure Bool × Buffer :=
  if c.width ≥ c.limit then (.error .rangeException, b)
  else
    let (b, ptr) := b.put 0 (digitsOf c.base c.thSep c.lowercase (magnitude c.T c.value))
    if c.fill = '0'.toUInt8 ∧ c.w < -2 ^ 31 then (.error .signedOverflow, b)
    else
      let (b, ptr) := b.put ptr (if c.fill = '0'.toUInt8 then List.replicate (c.w - ptr).toNat '0'.toUInt8 else [])
      let (b, ptr) := b.put ptr c.baseChars
      let (b, ptr) := b.put ptr (if c.negative then ['-'.toUInt8] else [])
      let (b, ptr) := b.put ptr (if c.fill ≠ '0'.toUInt8 then List.replicate (c.width - ptr).toNat c.fill else [])
      if ptr ≥ c.capacity then (.error .rangeException, b)
      else (.ok true, (b.write ptr 0).turn 0 (ptr - 1))

/-! ### The text that is meant -/

/-- The numeral with its prefix and its sign, padded to the width. -/
def text : List UInt8 :=
  let sign := if c.negative then ['-'.toUInt8] else []
  let digits := numeral c.base c.value.natAbs c.thSep c.lowercase
  let pad := List.replicate (c.width - (sign.length + c.baseChars.length + digits.length)).toNat c.fill
  if c.fill = '0'.toUInt8 then sign ++ c.baseChars.reverse ++ pad ++ digits
  else pad ++ sign ++ c.baseChars.reverse ++ digits

/-- Every write is below the capacity, and the exception is thrown exactly if the text and a zero do not fit. -/
def Respects : Prop :=
  ∀ cells : ℕ → UInt8,
    (c.run ⟨cells, []⟩).1 ≠ .error .signedOverflow ∧ (∀ i ∈ (c.run ⟨cells, []⟩).2.writes, i < c.capacity) ∧
      ((c.run ⟨cells, []⟩).1 = .error .rangeException ↔ c.capacity < c.text.length + 1)

/-- Where the width is not less than the capacity as an `int`, the text does not fit.  Where it is, the text fits
but for the zero at most, and the width of zeros is an `int`. -/
def Fits : Prop :=
  c.limit ≤ c.width ∧ c.capacity ≤ c.text.length ∨
    c.width < c.limit ∧ c.text.length ≤ c.capacity ∧ (c.fill = '0'.toUInt8 → -2 ^ 31 ≤ c.w)

end Call

/-! ### What is written -/

namespace Buffer

theorem put_append (b : Buffer) (ptr : ℕ) (l m : List UInt8) :
    b.put ptr (l ++ m) = (b.put ptr l).1.put (b.put ptr l).2 m := by
  induction l generalizing b ptr with
  | nil => rfl
  | cons c l ih =>
      rw [List.cons_append, put, put]
      exact ih (b.write ptr c) (ptr + 1)

theorem put_ptr (b : Buffer) (ptr : ℕ) (l : List UInt8) : (b.put ptr l).2 = ptr + l.length := by
  induction l generalizing b ptr with
  | nil => rfl
  | cons c l ih =>
      rw [put, ih, List.length_cons, Nat.add_assoc, Nat.add_comm 1]

theorem put_writes (b : Buffer) (ptr : ℕ) (l : List UInt8) :
    (b.put ptr l).1.writes = b.writes ++ List.range' ptr l.length := by
  induction l generalizing b ptr with
  | nil => exact (List.append_nil _).symm
  | cons c l ih =>
      rw [put, ih, write, List.length_cons, List.range'_succ, List.append_assoc]
      rfl

theorem put_cells (b : Buffer) (ptr : ℕ) (l : List UInt8) (i : ℕ) :
    (b.put ptr l).1.cells i = if ptr ≤ i ∧ i < ptr + l.length then l.getD (i - ptr) 0 else b.cells i := by
  induction l generalizing b ptr with
  | nil => exact (if_neg (by rw [List.length_nil]; omega)).symm
  | cons c l ih =>
      rw [put, ih, write, List.length_cons]
      dsimp only
      rcases Nat.lt_trichotomy i ptr with hlt | rfl | hgt
      · rw [if_neg (by omega), if_neg (by omega), Function.update_of_ne (by omega)]
      · rw [if_neg (by omega), if_pos (by omega), Function.update_self, Nat.sub_self, List.getD_cons_zero]
      · obtain ⟨j, rfl⟩ : ∃ j, i = ptr + 1 + j := ⟨i - ptr - 1, by omega⟩
        have hback : ptr + 1 + j - ptr = j + 1 := by omega
        rw [Function.update_of_ne (by omega), Nat.add_sub_cancel_left, hback, List.getD_cons_succ]
        exact if_congr (by omega) rfl rfl

theorem turn_writes (b : Buffer) (lo ptr : ℕ) :
    ∀ i ∈ (b.turn lo ptr).writes, i ∈ b.writes ∨ i ≤ ptr := by
  fun_induction turn b lo ptr with
  | case1 b lo ptr hlt tmp ih =>
      intro i hi
      rcases ih i hi with hold | hle
      · simp only [write, List.mem_append, List.mem_singleton] at hold
        rcases hold with (hold | hptr) | hlo
        · exact Or.inl hold
        · exact Or.inr hptr.le
        · exact Or.inr (hlo.trans_le hlt.le)
      · omega
  | case2 b lo ptr hle => exact fun i hi => Or.inl hi

theorem turn_cells (b : Buffer) (lo ptr i : ℕ) :
    (b.turn lo ptr).cells i = if lo ≤ i ∧ i ≤ ptr then b.cells (lo + ptr - i) else b.cells i := by
  fun_induction turn b lo ptr with
  | case1 b lo ptr hlt tmp ih =>
      have hlow : ((b.write ptr (b.cells lo)).write lo tmp).cells lo = b.cells ptr := Function.update_self _ _ _
      have hhigh : ((b.write ptr (b.cells lo)).write lo tmp).cells ptr = b.cells lo :=
        (Function.update_of_ne (Nat.ne_of_gt hlt) _ _).trans (Function.update_self _ _ _)
      have hother : ∀ j, j ≠ lo → j ≠ ptr → ((b.write ptr (b.cells lo)).write lo tmp).cells j = b.cells j :=
        fun j hlo hptr => (Function.update_of_ne hlo _ _).trans (Function.update_of_ne hptr _ _)
      rw [ih]
      rcases eq_or_ne i lo with rfl | hlo
      · rw [if_neg (by omega), if_pos (by omega), hlow, Nat.add_sub_cancel_left]
      rcases eq_or_ne i ptr with rfl | hptr
      · rw [if_neg (by omega), if_pos (by omega), hhigh, Nat.add_sub_cancel]
      by_cases hin : lo ≤ i ∧ i ≤ ptr
      · have hplace : lo + 1 + (ptr - 1) - i = lo + ptr - i := by omega
        rw [if_pos (by omega), if_pos hin, hplace, hother _ (by omega) (by omega)]
      · rw [if_neg (by omega), if_neg hin, hother i hlo hptr]
  | case2 b lo ptr hle =>
      split_ifs with hin
      · have hplace : lo + ptr - i = i := by omega
        rw [hplace]
      · rfl

end Buffer

namespace Call
variable (c : Call)

/-- The digits of every base are those of the numeral, the last one first. -/
theorem digitsOf_eq :
    digitsOf c.base c.thSep c.lowercase (magnitude c.T c.value) =
      (numeral c.base c.value.natAbs c.thSep c.lowercase).reverse := by
  have hlt := natAbs_lt_64 c.value_range
  rw [magnitude_eq c.value_range]
  have hbase := c.base_ge
  have hle := c.base_le
  by_cases hknown : c.base = 2 ∨ c.base = 8 ∨ c.base = 10 ∨ c.base = 16
  · exact NumericString.digitsOf_eq hknown c.thSep c.lowercase hlt
  by_cases hfour : c.base = 4
  · exact digitsOf_shift (k := 2) hfour (by decide) (by decide) (by rw [hfour]; rfl) (by omega) c.thSep c.lowercase hlt
  · have hpow : ∀ base ≤ 16, 2 ≤ base → ¬(base = 2 ∨ base = 8 ∨ base = 10 ∨ base = 16) → base ≠ 4 →
        base &&& (base - 1) ≠ 0 := by decide
    have hmod : ∀ x, x - x / c.base * c.base = x % c.base := fun x => by
      rw [Nat.mul_comm, Nat.mod_eq_sub]
    have hfuel : c.value.natAbs < c.base ^ 64 := lt_of_lt_of_le hlt (Nat.pow_le_pow_left hbase 64)
    have hten : ¬(c.base = 10 ∧ c.thSep ≠ 0) := fun h => hknown (by omega)
    rw [digitsOf, if_neg (by omega), if_neg (hpow c.base hle hbase hknown hfour),
      digitLoop_eq hbase hmod (fun _ => rfl) hfuel, if_neg (by decide), numeral, if_neg hten, List.reverse_reverse]
    apply List.map_congr_left
    intro d hd
    exact getD_digits c.lowercase d (lt_of_lt_of_le (lt_of_mem_places hbase d hd) hle)

/-- The phases together write the text, the last character first. -/
theorem phases_eq :
    let digits := (numeral c.base c.value.natAbs c.thSep c.lowercase).reverse
    let zeros := if c.fill = '0'.toUInt8 then List.replicate (c.w - digits.length).toNat '0'.toUInt8 else []
    let sign := if c.negative then ['-'.toUInt8] else []
    let front := digits ++ zeros ++ c.baseChars ++ sign
    front ++ (if c.fill ≠ '0'.toUInt8 then List.replicate (c.width - front.length).toNat c.fill else []) =
      c.text.reverse := by
  have hsign : (if c.negative then ['-'.toUInt8] else []).reverse = if c.negative then ['-'.toUInt8] else [] := by
    split_ifs <;> rfl
  dsimp only
  rw [text]
  by_cases hfill : c.fill = '0'.toUInt8
  · have hwidth : c.w - (numeral c.base c.value.natAbs c.thSep c.lowercase).reverse.length =
        c.width - ((if c.negative then ['-'.toUInt8] else []).length + c.baseChars.length +
          (numeral c.base c.value.natAbs c.thSep c.lowercase).length) := by
      rw [w, baseChars, List.length_reverse]
      split_ifs <;> simp <;> omega
    rw [if_pos hfill, if_neg (not_not_intro hfill), if_pos hfill, hwidth, hfill]
    simp only [List.reverse_append, List.reverse_reverse, List.reverse_replicate, hsign, List.append_nil,
      List.append_assoc]
  · rw [if_neg hfill, if_pos hfill, if_neg hfill, List.append_nil]
    simp only [List.reverse_append, List.reverse_reverse, List.reverse_replicate, hsign, List.append_assoc,
      List.length_append, List.length_reverse]
    congr 4
    omega

/-- The text is written in one go, as far as its length is concerned. -/
theorem run_eq (b : Buffer) :
    c.run b = if c.limit ≤ c.width then (.error .rangeException, b)
      else if c.fill = '0'.toUInt8 ∧ c.w < -2 ^ 31 then
        (.error .signedOverflow, (b.put 0 (numeral c.base c.value.natAbs c.thSep c.lowercase).reverse).1)
      else if c.capacity ≤ c.text.length then (.error .rangeException, (b.put 0 c.text.reverse).1)
      else (.ok true, (((b.put 0 c.text.reverse).1.write c.text.length 0).turn 0 (c.text.length - 1))) := by
  have hphases := c.phases_eq
  dsimp only at hphases
  rw [run, digitsOf_eq]
  generalize (numeral c.base c.value.natAbs c.thSep c.lowercase).reverse = digits at hphases ⊢
  dsimp only
  simp only [← Buffer.put_append]
  simp only [Buffer.put_ptr, Nat.zero_add, hphases, List.length_reverse, ge_iff_le]

/-- **Main result.**  A call stays in its buffer, and reports the texts that do not fit and no others, exactly if
the text fits but for the zero at most, or the width is refused and the text does not fit. -/
theorem respects_iff : c.Respects ↔ c.Fits := by
  rw [Respects, Fits]
  by_cases hlimit : c.limit ≤ c.width
  · have hrun : ∀ b, c.run b = (.error .rangeException, b) := fun b => by rw [run_eq, if_pos hlimit]
    simp only [hrun]
    constructor
    · exact fun h => Or.inl ⟨hlimit, Nat.lt_succ_iff.mp ((h fun _ => 0).2.2.mp trivial)⟩
    · rintro (⟨-, hle⟩ | ⟨hlt, -⟩)
      · exact fun _ => ⟨nofun, nofun, iff_of_true trivial (Nat.lt_succ_iff.mpr hle)⟩
      · omega
  have hwidth : c.width < c.limit := not_le.mp hlimit
  by_cases hoverflow : c.fill = '0'.toUInt8 ∧ c.w < -2 ^ 31
  · refine iff_of_false (fun h => (h fun _ => 0).1 ?_) ?_
    · rw [run_eq, if_neg hlimit, if_pos hoverflow]
    · rintro (⟨hle, -⟩ | ⟨-, -, hw⟩)
      · exact hlimit hle
      · exact absurd hoverflow.2 (not_lt.mpr (hw hoverflow.1))
  have hw : c.fill = '0'.toUInt8 → -2 ^ 31 ≤ c.w := fun hfill => not_lt.mp fun hlt => hoverflow ⟨hfill, hlt⟩
  by_cases hlength : c.capacity ≤ c.text.length
  · have hrun : ∀ b, c.run b = (.error .rangeException, (b.put 0 c.text.reverse).1) := fun b => by
      rw [run_eq, if_neg hlimit, if_neg hoverflow, if_pos hlength]
    simp only [hrun, Buffer.put_writes, List.nil_append, List.mem_range'_1, List.length_reverse]
    constructor
    · intro h
      have hlast := (h fun _ => 0).2.1 c.capacity
      exact Or.inr ⟨hwidth, by omega, hw⟩
    · rintro (⟨hle, -⟩ | ⟨-, hle, -⟩)
      · exact absurd hle hlimit
      · exact fun _ => ⟨nofun, fun i hi => by omega, iff_of_true trivial (Nat.lt_succ_iff.mpr hlength)⟩
  · refine iff_of_true ?_ (Or.inr ⟨hwidth, (not_le.mp hlength).le, hw⟩)
    intro cells
    rw [run_eq, if_neg hlimit, if_neg hoverflow, if_neg hlength]
    refine ⟨nofun, ?_, iff_of_false nofun (by omega)⟩
    intro i hi
    rcases Buffer.turn_writes _ _ _ i hi with hold | hle
    · rw [Buffer.write, Buffer.put_writes, List.nil_append, List.mem_append, List.mem_range'_1, List.mem_singleton,
        List.length_reverse] at hold
      omega
    · omega

/-- Where a call succeeds, the buffer holds the text and a zero. -/
theorem run_cells {b : Buffer} (hok : (c.run b).1 = .ok true) :
    (∀ i < c.text.length, (c.run b).2.cells i = c.text.getD i 0) ∧ (c.run b).2.cells c.text.length = 0 := by
  rw [run_eq] at hok ⊢
  split_ifs at hok ⊢
  have hput := Buffer.put_cells b 0 c.text.reverse
  rw [List.length_reverse] at hput
  dsimp only
  constructor
  · intro i hi
    have hback : 0 + (c.text.length - 1) - i = c.text.length - 1 - i := by omega
    rw [Buffer.turn_cells, if_pos (by omega), hback, Buffer.write]
    dsimp only
    rw [Function.update_of_ne (by omega), hput, if_pos (by omega), Nat.sub_zero, List.getD_eq_getElem?_getD,
      List.getElem?_reverse (by omega), List.getD_eq_getElem?_getD]
    congr 2
    omega
  · rw [Buffer.turn_cells, Buffer.write]
    dsimp only
    have hend : 0 + (c.text.length - 1) - c.text.length = c.text.length ∨ ¬c.text.length ≤ c.text.length - 1 := by omega
    split_ifs with hin
    · rw [hend.resolve_right (not_not_intro hin.2), Function.update_self]
    · exact Function.update_self _ _ _

/-- 256 to base 16 in a buffer of two characters: the third one is written behind it. -/
theorem not_respects_short : ¬∀ c : Call, c.Respects := by
  intro hall
  have hin := (hall ⟨⟨32, true, by decide⟩, 256, by decide, 16, by decide, by decide, 2, by decide, false, -1,
    by decide, by decide, ' '.toUInt8, 0, false⟩ fun _ => 0).2.1 2 (by decide)
  exact absurd hin (by decide)

end Call

end NumericString

end Poco.Foundation
