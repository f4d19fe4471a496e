import Poco.Foundation.ULID

/-! # `UUID`

An identifier of 128 bits in a 32-bit, three 16-bit and six 8-bit members, written as hexadecimal digits
with hyphens between the members.  `tryParse` reads the text back (`tryParse_toString`), and the texts
are in the order of the identifiers (`compare_eq`). -/

namespace Poco.Foundation

open Poco.Lib

/-- `UUID`. -/
structure UUID where
  _timeLow : UInt32
  _timeMid : UInt16
  _timeHiAndVersion : UInt16
  _clockSeq : UInt16
  _node : Vector UInt8 6
deriving DecidableEq, Repr

namespace UUID

/-! ### Text to identifier -/

/-- `nibble`. -/
def nibble (hex : UInt8) : ℤ :=
  if hex ≥ 'a'.toUInt8 ∧ hex ≤ 'f'.toUInt8 then (hex.toNat : ℤ) - 'a'.toNat + 10
  else if hex ≥ 'A'.toUInt8 ∧ hex ≤ 'F'.toUInt8 then (hex.toNat : ℤ) - 'A'.toNat + 10
  else if hex ≥ '0'.toUInt8 ∧ hex ≤ '9'.toUInt8 then (hex.toNat : ℤ) - '0'.toNat
  else -1

/-- The loop that reads `k` digits into a member of `w` bits: the member, and the iterator behind them.
There are always as many characters left. -/
def readNibbles (w : ℕ) : ℕ → ℕ → List UInt8 → Option (ℕ × List UInt8)
  | 0, acc, it => some (acc, it)
  | k + 1, acc, it =>
      let n := nibble (it.headD 0)
      if n < 0 then none else readNibbles w k ((acc <<< 4 ||| n.toNat) % 2 ^ w) it.tail

/-- The loop that reads `k` bytes of two digits. -/
def readNode : ℕ → List UInt8 → Option (List UInt8)
  | 0, _ => some []
  | k + 1, it => do
      let (b, it) ← readNibbles 8 2 0 it
      let rest ← readNode k it
      return UInt8.ofNat b :: rest

/-- `if (haveHyphens) ++it`. -/
def skipHyphen (haveHyphens : Bool) (it : List UInt8) : List UInt8 := if haveHyphens then it.tail else it

/-- The members that are read, behind the checks of the length and the hyphens. -/
def readMembers (haveHyphens : Bool) (it : List UInt8) : Option UUID := do
  let (timeLow, it) ← readNibbles 32 8 0 it
  let (timeMid, it) ← readNibbles 16 4 0 (skipHyphen haveHyphens it)
  let (timeHiAndVersion, it) ← readNibbles 16 4 0 (skipHyphen haveHyphens it)
  let (clockSeq, it) ← readNibbles 16 4 0 (skipHyphen haveHyphens it)
  let node ← readNode 6 (skipHyphen haveHyphens it)
  return { _timeLow := UInt32.ofNat timeLow
           _timeMid := UInt16.ofNat timeMid
           _timeHiAndVersion := UInt16.ofNat timeHiAndVersion
           _clockSeq := UInt16.ofNat clockSeq
           _node := Vector.ofFn fun i => node.getD i 0 }

/-- There are hyphens at the places for hyphens. -/
def hyphenated (uuid : List UInt8) : Bool := [8, 13, 18, 23].all fun i => uuid.getD i 0 = '-'.toUInt8

/-- `tryParse`: the result, and the object behind the call. -/
def tryParse (this : UUID) (uuid : List UInt8) : Bool × UUID :=
  if uuid.length < 32 then (false, this)
  else if hyphenated uuid ∧ uuid.length ≠ 36 then (false, this)
  else
    match readMembers (hyphenated uuid) uuid with
    | some newUUID => (true, newUUID)
    | none => (false, this)

/-! ### Identifier to text -/

/-- `digits` in `appendHex`. -/
def digits : List UInt8 := "0123456789abcdef".toList.map Char.toUInt8

/-- `appendHex` for 8 bits: what is appended. -/
def appendHex8 (n : UInt8) : List UInt8 :=
  [digits.getD ((n >>> 4) &&& 0xF).toNat 0, digits.getD (n &&& 0xF).toNat 0]

/-- `appendHex` for 16 bits. -/
def appendHex16 (n : UInt16) : List UInt8 := appendHex8 (n >>> 8).toUInt8 ++ appendHex8 (n &&& 0xFF).toUInt8

/-- `appendHex` for 32 bits. -/
def appendHex32 (n : UInt32) : List UInt8 :=
  appendHex16 (n >>> 16).toUInt16 ++ appendHex16 (n &&& 0xFFFF).toUInt16

/-- `toString`. -/
def toString (u : UUID) : List UInt8 :=
  appendHex32 u._timeLow ++ '-'.toUInt8 :: appendHex16 u._timeMid ++
    '-'.toUInt8 :: appendHex16 u._timeHiAndVersion ++ '-'.toUInt8 :: appendHex16 u._clockSeq ++
    '-'.toUInt8 :: u._node.toList.flatMap appendHex8

/-! ### Comparison -/

/-- The loop over `_node` in `compare`. -/
def compareNode : List UInt8 → List UInt8 → ℤ
  | a :: s, b :: t => if a < b then -1 else if a > b then 1 else compareNode s t
  | _, _ => 0

/-- `compare`. -/
def compare (u uuid : UUID) : ℤ :=
  if u._timeLow ≠ uuid._timeLow then (if u._timeLow < uuid._timeLow then -1 else 1)
  else if u._timeMid ≠ uuid._timeMid then (if u._timeMid < uuid._timeMid then -1 else 1)
  else if u._timeHiAndVersion ≠ uuid._timeHiAndVersion then
    (if u._timeHiAndVersion < uuid._timeHiAndVersion then -1 else 1)
  else if u._clockSeq ≠ uuid._clockSeq then (if u._clockSeq < uuid._clockSeq then -1 else 1)
  else compareNode u._node.toList uuid._node.toList

/-! ### Digits -/

/-- The text of `k` hexadecimal digits. -/
def hex (k n : ℕ) : List UInt8 := (radix 16 k n).map fun d => digits.getD d 0

@[simp] theorem length_hex (k n : ℕ) : (hex k n).length = k := by
  rw [hex, List.length_map, length_radix]

theorem appendHex8_eq (n : UInt8) : appendHex8 n = hex 2 n.toNat := by
  revert n
  apply forall_byte
  decide +kernel

theorem hex_append (j k n : ℕ) : hex (j + k) n = hex j (n / 16 ^ k) ++ hex k n := by
  rw [hex, radix_append, List.map_append]
  rfl

theorem hex_mod (k n : ℕ) : hex k (n % 16 ^ k) = hex k n := by
  rw [hex, radix_mod]
  rfl

theorem appendHex16_eq (n : UInt16) : appendHex16 n = hex 4 n.toNat := by
  have hlt := n.toNat_lt
  have hhigh : (n >>> 8).toUInt8.toNat = n.toNat / 16 ^ 2 := by
    rw [UInt16.toNat_toUInt8, UInt16.toNat_shiftRight]
    show n.toNat >>> 8 % 2 ^ 8 = _
    rw [Nat.shiftRight_eq_div_pow]
    omega
  have hlow : (n &&& 0xFF).toUInt8.toNat = n.toNat % 16 ^ 2 := by
    have hmask : n.toNat &&& (0xFF : UInt16).toNat = n.toNat % 2 ^ 8 :=
      Nat.and_two_pow_sub_one_eq_mod n.toNat 8
    rw [UInt16.toNat_toUInt8, UInt16.toNat_and, hmask]
    omega
  rw [appendHex16, appendHex8_eq, appendHex8_eq, hhigh, hlow, hex_mod]
  exact (hex_append 2 2 n.toNat).symm

theorem appendHex32_eq (n : UInt32) : appendHex32 n = hex 8 n.toNat := by
  have hlt := n.toNat_lt
  have hhigh : (n >>> 16).toUInt16.toNat = n.toNat / 16 ^ 4 := by
    rw [UInt32.toNat_toUInt16, UInt32.toNat_shiftRight]
    show n.toNat >>> 16 % 2 ^ 16 = _
    rw [Nat.shiftRight_eq_div_pow]
    omega
  have hlow : (n &&& 0xFFFF).toUInt16.toNat = n.toNat % 16 ^ 4 := by
    have hmask : n.toNat &&& (0xFFFF : UInt32).toNat = n.toNat % 2 ^ 16 :=
      Nat.and_two_pow_sub_one_eq_mod n.toNat 16
    rw [UInt32.toNat_toUInt16, UInt32.toNat_and, hmask]
    omega
  rw [appendHex32, appendHex16_eq, appendHex16_eq, hhigh, hlow, hex_mod]
  exact (hex_append 4 4 n.toNat).symm

theorem toString_eq (u : UUID) :
    u.toString = hex 8 u._timeLow.toNat ++ '-'.toUInt8 :: (hex 4 u._timeMid.toNat ++
      '-'.toUInt8 :: (hex 4 u._timeHiAndVersion.toNat ++ '-'.toUInt8 :: (hex 4 u._clockSeq.toNat ++
      '-'.toUInt8 :: u._node.toList.flatMap appendHex8))) := by
  rw [toString, appendHex32_eq, appendHex16_eq, appendHex16_eq, appendHex16_eq]
  simp only [List.append_assoc, List.cons_append]

/-! ### The text is read back -/

theorem digits_spec : (∀ d < 16, nibble (digits.getD d 0) = d) ∧
    ∀ d < 16, ∀ e < 16, Ord.compare (digits.getD d 0) (digits.getD e 0) = Ord.compare d e := by
  decide

theorem nibble_digits : ∀ d < 16, nibble (digits.getD d 0) = d := digits_spec.1

theorem readNibbles_hex {w k acc : ℕ} (h : (acc + 1) * 16 ^ k ≤ 2 ^ w) (n : ℕ) (rest : List UInt8) :
    readNibbles w k acc (hex k n ++ rest) = some (acc * 16 ^ k + n % 16 ^ k, rest) := by
  induction k generalizing acc with
  | zero =>
      rw [readNibbles, Nat.pow_zero, Nat.mul_one, Nat.mod_one]
      rfl
  | succ k ih =>
      have hdigit : n / 16 ^ k % 16 < 16 := Nat.mod_lt _ (by decide)
      have hnibble : nibble ((hex (k + 1) n ++ rest).headD 0) = (n / 16 ^ k % 16 : ℕ) :=
        nibble_digits _ hdigit
      have htail : (hex (k + 1) n ++ rest).tail = hex k n ++ rest := rfl
      have hjoin : acc <<< 4 ||| n / 16 ^ k % 16 = acc * 16 + n / 16 ^ k % 16 := by
        rw [← Nat.shiftLeft_add_eq_or_of_lt hdigit, Nat.shiftLeft_eq]
      rw [Nat.pow_succ'] at h
      have hnext : (acc * 16 + n / 16 ^ k % 16 + 1) * 16 ^ k ≤ 2 ^ w := by
        refine le_trans ?_ h
        rw [← Nat.mul_assoc]
        exact Nat.mul_le_mul_right _ (by omega)
      have hfits : acc * 16 + n / 16 ^ k % 16 < 2 ^ w := by
        have hpos : 0 < 16 ^ k := Nat.pow_pos (by decide)
        have hle := Nat.le_mul_of_pos_right (acc * 16 + n / 16 ^ k % 16 + 1) hpos
        omega
      rw [readNibbles, hnibble, htail, if_neg (by omega), Int.toNat_natCast, hjoin,
        Nat.mod_eq_of_lt hfits, ih hnext, Nat.mod_pow_succ]
      congr 2
      ring

theorem readNibbles_member {w k : ℕ} (h : 16 ^ k ≤ 2 ^ w) (n : ℕ) (rest : List UInt8) :
    readNibbles w k 0 (hex k n ++ rest) = some (n % 16 ^ k, rest) := by
  have hfits : (0 + 1) * 16 ^ k ≤ 2 ^ w := by omega
  rw [readNibbles_hex hfits, Nat.zero_mul, Nat.zero_add]

theorem readNode_flatMap (bs rest : List UInt8) :
    readNode bs.length (bs.flatMap appendHex8 ++ rest) = some bs := by
  induction bs with
  | nil => rfl
  | cons b bs ih =>
      have hread := readNibbles_member (w := 8) (k := 2) (by decide) b.toNat
        (bs.flatMap appendHex8 ++ rest)
      rw [Nat.mod_eq_of_lt (show b.toNat < 16 ^ 2 from b.toNat_lt)] at hread
      rw [List.flatMap_cons, List.length_cons, readNode, appendHex8_eq, List.append_assoc, hread]
      show (do
        let rest ← readNode bs.length (bs.flatMap appendHex8 ++ rest)
        return UInt8.ofNat b.toNat :: rest) = _
      rw [ih, UInt8.ofNat_toNat]
      rfl

theorem ofFn_node (node : Vector UInt8 6) : (Vector.ofFn fun i : Fin 6 => node.toList.getD i 0) = node := by
  apply Vector.ext
  intro i hi
  rw [Vector.getElem_ofFn, List.getD_eq_getElem _ _ (by rwa [Vector.length_toList]),
    Vector.getElem_toList]

theorem readMembers_toString (u : UUID) : readMembers true u.toString = some u := by
  have h32 : ∀ n : UInt32, n.toNat % 16 ^ 8 = n.toNat := fun n => Nat.mod_eq_of_lt n.toNat_lt
  have h16 : ∀ n : UInt16, n.toNat % 16 ^ 4 = n.toNat := fun n => Nat.mod_eq_of_lt n.toNat_lt
  have hskip : ∀ it, skipHyphen true ('-'.toUInt8 :: it) = it := fun _ => rfl
  have hnode := readNode_flatMap u._node.toList []
  rw [List.append_nil, Vector.length_toList] at hnode
  simp only [readMembers, toString_eq, readNibbles_member (w := 32) (k := 8) (by decide),
    readNibbles_member (w := 16) (k := 4) (by decide), hskip, hnode, h32, h16, Option.bind_eq_bind,
    Option.bind_some, UInt32.ofNat_toNat, UInt16.ofNat_toNat, ofFn_node]
  rfl

theorem length_flatMap_appendHex8 (bs : List UInt8) : (bs.flatMap appendHex8).length = 2 * bs.length := by
  induction bs with
  | nil => rfl
  | cons b bs ih =>
      rw [List.flatMap_cons, List.length_append, ih, appendHex8_eq, length_hex, List.length_cons]
      omega

theorem tryParse_toString (this u : UUID) : tryParse this u.toString = (true, u) := by
  have hlen : u.toString.length = 36 := by
    simp only [toString_eq, List.length_append, List.length_cons, length_hex, length_flatMap_appendHex8,
      Vector.length_toList]
  have hhyphen : hyphenated u.toString = true := rfl
  have hsize : ¬(u.toString.length < 32) := by omega
  have hall : ¬(hyphenated u.toString = true ∧ u.toString.length ≠ 36) := fun h => h.2 hlen
  rw [tryParse, if_neg hsize, if_neg hall, hhyphen, readMembers_toString]

/-- A text that is not accepted leaves the object alone. -/
theorem tryParse_unchanged (this : UUID) (uuid : List UInt8) :
    (tryParse this uuid).1 = true ∨ (tryParse this uuid).2 = this := by
  unfold tryParse
  split_ifs
  · exact .inr rfl
  · exact .inr rfl
  · cases readMembers (hyphenated uuid) uuid with
    | some newUUID => exact .inl rfl
    | none => exact .inr rfl

/-! ### The order of the texts -/

theorem compare_digits : ∀ d < 16, ∀ e < 16,
    Ord.compare (digits.getD d 0) (digits.getD e 0) = Ord.compare d e :=
  digits_spec.2

theorem compareText_hex {k m n : ℕ} (hm : m < 16 ^ k) (hn : n < 16 ^ k) :
    compareText (hex k m) (hex k n) = Ord.compare m n := by
  have hlen : (radix 16 k m).length = (radix 16 k n).length := by rw [length_radix, length_radix]
  rw [hex, hex, compareText_map (p := (· < 16)) (fun d e hd he => compare_digits d hd e he)
    (lt_of_mem_radix (by decide)) (lt_of_mem_radix (by decide)) hlen,
    compareText_radix (by decide) hm hn]

theorem compareNode_eq {s t : List UInt8} (h : s.length = t.length) :
    compareNode s t = sign (compareText (s.flatMap appendHex8) (t.flatMap appendHex8)) := by
  induction s generalizing t with
  | nil =>
      obtain rfl := List.length_eq_zero_iff.mp h.symm
      rfl
  | cons a s ih =>
      cases t with
      | nil => cases h
      | cons b t =>
          have hlen : (appendHex8 a).length = (appendHex8 b).length := rfl
          have ha : a.toNat < 16 ^ 2 := a.toNat_lt
          have hb : b.toNat < 16 ^ 2 := b.toNat_lt
          rw [List.flatMap_cons, List.flatMap_cons, compareText_append hlen, ULID.sign_then,
            ← ih (Nat.succ.inj h), appendHex8_eq, appendHex8_eq, compareText_hex ha hb,
            ← ULID.cmp_eq (fun _ _ => UInt8.lt_iff_toNat_lt) (fun _ _ => UInt8.toNat_inj.symm), compareNode]
          rcases Nat.lt_trichotomy a.toNat b.toNat with hlt | heq | hgt
          · replace hlt := UInt8.lt_iff_toNat_lt.mpr hlt
            rw [if_pos hlt, ULID.cmp, if_neg (UInt8.ne_of_lt hlt), if_pos hlt]
            rfl
          · obtain rfl := UInt8.toNat_inj.mp heq
            rw [if_neg (UInt8.lt_irrefl a), if_neg (UInt8.lt_irrefl a), ULID.cmp, if_pos rfl, if_pos rfl]
          · replace hgt := UInt8.lt_iff_toNat_lt.mpr hgt
            rw [if_neg (UInt8.lt_asymm hgt), if_pos hgt, ULID.cmp, if_neg (UInt8.ne_of_lt hgt).symm,
              if_neg (UInt8.lt_asymm hgt)]
            rfl

theorem member_eq {T : Type} [LT T] [DecidableEq T] [DecidableRel (LT.lt (α := T))] (a b : T) (c : ℤ) :
    (if a ≠ b then (if a < b then -1 else 1) else c) = if ULID.cmp a b = 0 then c else ULID.cmp a b := by
  unfold ULID.cmp
  split_ifs <;> first | rfl | contradiction

theorem compare_eq (u uuid : UUID) :
    compare u uuid = sign (compareText u.toString uuid.toString) := by
  have hlen : ∀ k m n, (hex k m).length = (hex k n).length := fun k m n => by rw [length_hex, length_hex]
  have hyphen : ∀ s t : List UInt8,
      compareText ('-'.toUInt8 :: s) ('-'.toUInt8 :: t) = compareText s t := by
    intro s t
    rw [compareText_cons]
    rfl
  rw [toString_eq, toString_eq, compareText_append (hlen 8 _ _), hyphen, compareText_append (hlen 4 _ _),
    hyphen, compareText_append (hlen 4 _ _), hyphen, compareText_append (hlen 4 _ _), hyphen,
    compareText_hex u._timeLow.toNat_lt uuid._timeLow.toNat_lt,
    compareText_hex u._timeMid.toNat_lt uuid._timeMid.toNat_lt,
    compareText_hex u._timeHiAndVersion.toNat_lt uuid._timeHiAndVersion.toNat_lt,
    compareText_hex u._clockSeq.toNat_lt uuid._clockSeq.toNat_lt,
    ULID.sign_then, ULID.sign_then, ULID.sign_then, ULID.sign_then,
    ← ULID.cmp_eq (fun _ _ => UInt32.lt_iff_toNat_lt) (fun _ _ => UInt32.toNat_inj.symm),
    ← ULID.cmp_eq (fun _ _ => UInt16.lt_iff_toNat_lt) (fun _ _ => UInt16.toNat_inj.symm),
    ← ULID.cmp_eq (fun _ _ => UInt16.lt_iff_toNat_lt) (fun _ _ => UInt16.toNat_inj.symm),
    ← ULID.cmp_eq (fun _ _ => UInt16.lt_iff_toNat_lt) (fun _ _ => UInt16.toNat_inj.symm),
    ← compareNode_eq (by rw [Vector.length_toList, Vector.length_toList]),
    compare, member_eq, member_eq, member_eq, member_eq]

end UUID

/-- **Main result.**  For both kinds of identifiers the text is read back, the texts are in the order of
the identifiers, and an object keeps its value if a text is not accepted. -/
theorem identifiers_read_back_in_order :
    (∀ this u : ULID, ULID.parse this u.toString = .ok u) ∧
    (∀ u ulid : ULID, ULID.compare u ulid = sign (compareText u.toString ulid.toString)) ∧
    (∀ (this : ULID) (ulid : List UInt8),
      (ULID.tryParse this ulid).1 = true ∨ (ULID.tryParse this ulid).2 = this) ∧
    (∀ this u : UUID, UUID.tryParse this u.toString = (true, u)) ∧
    (∀ u uuid : UUID, UUID.compare u uuid = sign (compareText u.toString uuid.toString)) ∧
    (∀ (this : UUID) (uuid : List UInt8),
      (UUID.tryParse this uuid).1 = true ∨ (UUID.tryParse this uuid).2 = this) :=
  ⟨ULID.parse_toString_eq, ULID.compare_eq, ULID.tryParse_unchanged, UUID.tryParse_toString, UUID.compare_eq,
    UUID.tryParse_unchanged⟩

end Poco.Foundation
