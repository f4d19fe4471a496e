import Poco.Foundation.StreamConverter
import Poco.Foundation.UTF8String

/-! # `TextIterator` and the two ways of `TextConverter`

`TextConverter::convert` for a `std::string` walks over the text with a `TextIterator`, which reads a
character with `queryConvert` and finds the next one with `sequenceLength`; the one for a buffer only
uses `queryConvert`.  For UTF-8 and UTF-16 the two walks visit the same positions (`convert_eq`), also in
text that is malformed or cut off, and UTF-16 of either byte order carries UTF-8 text without loss. -/

namespace Poco.Foundation

open Poco.Lib

/-! ### `TextIterator` -/

/-- A `TextEncoding` with its `sequenceLength(bytes, length)`. -/
structure SequenceEncoding extends TextEncoding where
  sequenceLength : List UInt8 → ℕ → ℤ
  length_asks : ∀ (bytes : List UInt8) (n : ℕ), sequenceLength bytes n < -1 →
    n < -sequenceLength bytes n ∧ -sequenceLength bytes n ≤ MAX_SEQUENCE_LENGTH

namespace TextIterator

/-- The loops of `operator *` and `operator ++`: `ask` is asked about the bytes in the buffer until it
has enough of them, or `it` has not enough.  The buffer grows, so `MAX_SEQUENCE_LENGTH` rounds are
enough.  The result is the last answer, the buffer and what is behind it. -/
def askLoop (ask : List UInt8 → ℕ → ℤ) : ℕ → ℤ → List UInt8 → List UInt8 → ℤ × List UInt8 × List UInt8
  | 0, n, buffer, it => (n, buffer, it)
  | fuel + 1, n, buffer, it =>
      if -1 > n ∧ it.length ≥ -n - buffer.length then
        let count := (-n).toNat - buffer.length
        let buffer := buffer ++ it.take count
        askLoop ask fuel (ask buffer buffer.length) buffer (it.drop count)
      else (n, buffer, it)

/-- `operator *` in front of the bytes `c :: it`. -/
def deref (enc : TextEncoding) (c : UInt8) (it : List UInt8) : ℤ :=
  let (n, _, _) := askLoop enc.queryConvert MAX_SEQUENCE_LENGTH (enc.queryConvert [c] 1) [c] it
  if -1 > n then -1 else n

/-- `operator ++` in front of the bytes `c :: it`: what is left. -/
def increment (enc : SequenceEncoding) (c : UInt8) (it : List UInt8) : List UInt8 :=
  let (n, buffer, it) := askLoop enc.sequenceLength MAX_SEQUENCE_LENGTH (enc.sequenceLength [c] 1) [c] it
  it.drop (n - buffer.length).toNat

end TextIterator

namespace TextConverter

open TextIterator

/-- The loop of `convert` for a `std::string`; every round takes a byte. -/
def convertStringLoop (inEncoding : SequenceEncoding) (outEncoding : TextEncoding) (defaultChar : ℤ)
    (trans : ℤ → ℤ) : ℕ → List UInt8 → ℕ × List UInt8
  | 0, _ => (0, [])
  | _, [] => (0, [])
  | fuel + 1, c :: it =>
      let n := deref inEncoding.toTextEncoding c it
      let uc := trans (if n = -1 then defaultChar else n)
      let (errors, destination) :=
        convertStringLoop inEncoding outEncoding defaultChar trans fuel (increment inEncoding c it)
      ((if n = -1 then 1 else 0) + errors, encode outEncoding defaultChar uc ++ destination)

/-- `convert(source, destination, trans)`: the number of errors, and what is appended. -/
def convertString (inEncoding : SequenceEncoding) (outEncoding : TextEncoding) (defaultChar : ℤ)
    (trans : ℤ → ℤ) (source : List UInt8) : ℕ × List UInt8 :=
  convertStringLoop inEncoding outEncoding defaultChar trans source.length source

/-- `convert(source, length, destination, trans)`. -/
def convertBuffer (inEncoding outEncoding : TextEncoding) (defaultChar : ℤ) (trans : ℤ → ℤ)
    (source : List UInt8) : ℕ × List UInt8 :=
  convertLoop inEncoding outEncoding defaultChar trans source.length source

end TextConverter

/-! ### Two walks over a text -/

section

open TextIterator TextConverter

variable {c : UInt8} {it : List UInt8}

/-- The bytes in the buffer are those at the beginning of the text. -/
theorem askLoop_eq (enc : TextEncoding) {read : ℕ} (fuel : ℕ) (s : List UInt8) (hread : 0 < read) (hle : read ≤ s.length) (n : ℤ)
    (hn : n < -1 → read < -n) :
    (askLoop enc.queryConvert fuel n (s.take read) (s.drop read)).1 = (queryLoop enc s fuel n read).1 := by
  induction fuel generalizing n read with
  | zero => rfl
  | succ fuel ih =>
      have hlen : (s.take read).length = read := List.length_take_of_le hle
      have hdrop : (s.drop read).length = s.length - read := List.length_drop
      rw [askLoop, queryLoop]
      by_cases hask : -1 > n ∧ (s.length : ℤ) ≥ -n
      · have hmore := hn hask.1
        have hbuffer : s.take read ++ (s.drop read).take ((-n).toNat - read) = s.take (-n).toNat := by
          rw [← List.take_add]
          congr 1
          omega
        have hrest : (s.drop read).drop ((-n).toNat - read) = s.drop (-n).toNat := by
          rw [List.drop_drop]
          congr 1
          omega
        have hcount : (s.take (-n).toNat).length = (-n).toNat := List.length_take_of_le (by omega)
        have hcongr : enc.queryConvert (s.take (-n).toNat) (-n).toNat = enc.queryConvert s (-n).toNat := by
          refine enc.queryConvert_congr (by omega) fun i hi => ?_
          conv_rhs => rw [← List.take_append_drop (-n).toNat s]
          rw [byteAt_append_left (by omega)]
        rw [if_pos hask, if_pos ⟨hask.1, by omega⟩, hlen]
        dsimp only
        rw [hbuffer, hrest, hcount, hcongr]
        refine ih (by omega) (by omega) _ fun h => ?_
        exact (enc.asks s _ h).1
      · rw [if_neg hask, if_neg]
        rw [hlen, hdrop]
        intro h
        exact hask ⟨h.1, by omega⟩

/-- `operator *` gives what `TextConverter` finds in a buffer. -/
theorem deref_eq (enc : TextEncoding) (c : UInt8) (it : List UInt8) :
    deref enc c it = if -1 > (query enc (c :: it)).1 then -1 else (query enc (c :: it)).1 := by
  have hfirst : enc.queryConvert [c] 1 = enc.queryConvert (c :: it) 1 := by
    refine enc.queryConvert_congr (by decide) fun i hi => ?_
    obtain rfl : i = 0 := by omega
    rfl
  have hloop := askLoop_eq enc MAX_SEQUENCE_LENGTH (c :: it) Nat.one_pos (by simp)
    (enc.queryConvert (c :: it) 1) fun h => (enc.asks _ 1 h).1
  rw [deref, hfirst]
  show (if -1 > (askLoop enc.queryConvert MAX_SEQUENCE_LENGTH (enc.queryConvert (c :: it) 1) [c] it).1 then -1
    else (askLoop enc.queryConvert MAX_SEQUENCE_LENGTH (enc.queryConvert (c :: it) 1) [c] it).1) = _
  rw [show query enc (c :: it) = queryLoop enc (c :: it) MAX_SEQUENCE_LENGTH (enc.queryConvert (c :: it) 1) 1
    from rfl, ← hloop]
  rfl

theorem askLoop_of_ge {ask : List UInt8 → ℕ → ℤ} {n : ℤ} (hn : -1 ≤ n) (fuel : ℕ) (buffer it : List UInt8) :
    askLoop ask fuel n buffer it = (n, buffer, it) := by
  cases fuel with
  | zero => rfl
  | succ fuel => rw [askLoop, if_neg (by omega)]

theorem increment_of_ge {enc : SequenceEncoding} (h : -1 ≤ enc.sequenceLength [c] 1) :
    increment enc c it = it.drop (enc.sequenceLength [c] 1 - 1).toNat := by
  rw [increment, askLoop_of_ge h]
  rfl

/-- What is left behind the sequence that `TextConverter` finds in a buffer. -/
def behind (enc : TextEncoding) (it : List UInt8) : List UInt8 :=
  if -1 > (query enc it).1 then [] else it.drop (query enc it).2

/-- `sequenceLength` leads to where `queryConvert` ends. -/
def Steps (enc : SequenceEncoding) : Prop :=
  ∀ (c : UInt8) (it : List UInt8), increment enc c it = behind enc.toTextEncoding (c :: it)

/-- If the positions are the same, the output is the same. -/
theorem convertString_eq {enc : SequenceEncoding} (h : Steps enc) (outEncoding : TextEncoding)
    (defaultChar : ℤ) (trans : ℤ → ℤ) (source : List UInt8) :
    convertString enc outEncoding defaultChar trans source =
      convertBuffer enc.toTextEncoding outEncoding defaultChar trans source := by
  unfold convertString convertBuffer
  generalize source.length = fuel
  induction fuel generalizing source with
  | zero => rfl
  | succ fuel ih =>
      cases source with
      | nil => rfl
      | cons c it =>
          have hvalue : deref enc.toTextEncoding c it = -1 ↔ -1 ≥ (query enc.toTextEncoding (c :: it)).1 := by
            rw [deref_eq]
            split_ifs <;> omega
          have hchar : (if deref enc.toTextEncoding c it = -1 then defaultChar else deref enc.toTextEncoding c it) =
              if -1 ≥ (query enc.toTextEncoding (c :: it)).1 then defaultChar
              else (query enc.toTextEncoding (c :: it)).1 := by
            by_cases hbad : -1 ≥ (query enc.toTextEncoding (c :: it)).1
            · rw [if_pos (hvalue.mpr hbad), if_pos hbad]
            · rw [if_neg (fun h => hbad (hvalue.mp h)), if_neg hbad, deref_eq, if_neg (by omega)]
          rw [convertStringLoop, convertLoop]
          · rw [hchar, ih, h c it]
            simp only [hvalue]
            rfl
          · exact List.cons_ne_nil c it

end

/-! ### UTF-8 -/

namespace UTF8Encoding

open TextIterator TextConverter

/-- `UTF8Encoding` with its `sequenceLength`. -/
def sequences : SequenceEncoding where
  toTextEncoding := Poco.Foundation.UTF8Encoding
  sequenceLength bytes n := sequenceLength bytes n
  length_asks bytes n h := by
    have hmap := _charMap_eq (byteAt bytes 0)
    unfold sequenceLength at h
    dsimp only at h
    split_ifs at h <;> omega

theorem sequenceLength_bounds (s : List UInt8) : 1 ≤ sequenceLength s 1 ∧ sequenceLength s 1 ≤ 4 := by
  rw [sequenceLength_eq s le_rfl]
  split_ifs <;> decide

/-- The first byte announces a sequence, and it is there or not. -/
theorem query_eq (s : List UInt8) (hne : s ≠ []) :
    query Poco.Foundation.UTF8Encoding s =
      if sequenceLength s 1 ≤ s.length then
        (convertSequence s (_charMap (byteAt s 0)), (sequenceLength s 1).toNat)
      else (-sequenceLength s 1, 1) := by
  have hlen : 0 < s.length := List.length_pos_iff.mpr hne
  obtain ⟨hlow, hhigh⟩ := sequenceLength_bounds s
  have hge := convertSequence_ge s (byteAt s 0)
  show queryLoop _ s 4 (queryConvert s (1 : ℕ)) 1 = _
  rcases lt_or_ge 1 (sequenceLength s 1) with hlong | hshort
  · have hask : queryConvert s (1 : ℕ) = -sequenceLength s 1 := queryConvert_of_lt Nat.one_pos hlong
    rw [hask, queryLoop]
    split_ifs with hloop hle hle
    · have hk : ((-(-sequenceLength s 1)).toNat : ℤ) = sequenceLength s 1 := by omega
      have hall : queryConvert s ((-(-sequenceLength s 1)).toNat : ℕ) =
          convertSequence s (_charMap (byteAt s 0)) := by
        refine queryConvert_of_le (by omega) ?_
        rw [sequenceLength_congr (by omega) (le_refl 1), hk]
      show queryLoop _ s 3 (queryConvert s ((-(-sequenceLength s 1)).toNat : ℕ)) _ = _
      rw [hall, queryLoop, if_neg (by omega), Int.neg_neg]
    · omega
    · omega
    · rfl
  · have hone : sequenceLength s 1 = 1 := by omega
    have hall : queryConvert s (1 : ℕ) = convertSequence s (_charMap (byteAt s 0)) :=
      queryConvert_of_le Nat.one_pos hshort
    rw [hall, queryLoop, if_neg (by omega), hone, if_pos (by omega)]
    rfl

theorem steps : Steps sequences := by
  intro c it
  have hlow := (sequenceLength_bounds (c :: it)).1
  have hge := convertSequence_ge (c :: it) (byteAt (c :: it) 0)
  have hlen : (c :: it).length = it.length + 1 := rfl
  have hfirst : sequenceLength [c] 1 = sequenceLength (c :: it) 1 := rfl
  have hloop : increment sequences c it = it.drop (sequenceLength (c :: it) 1 - 1).toNat :=
    increment_of_ge (by show -1 ≤ sequenceLength [c] 1; omega)
  rw [hloop, behind]
  show _ = if -1 > (query Poco.Foundation.UTF8Encoding (c :: it)).1 then _ else
    (c :: it).drop (query Poco.Foundation.UTF8Encoding (c :: it)).2
  rw [query_eq _ (List.cons_ne_nil c it)]
  split_ifs with hle hbad hbad
  · have : convertSequence (c :: it) (_charMap (byteAt (c :: it) 0)) < -1 := hbad
    omega
  · have hk : (sequenceLength (c :: it) 1).toNat = (sequenceLength (c :: it) 1 - 1).toNat + 1 := by omega
    show _ = (c :: it).drop (sequenceLength (c :: it) 1).toNat
    rw [hk, List.drop_succ_cons]
  · rw [List.drop_eq_nil_iff]
    omega
  · have : ¬(-1 > -sequenceLength (c :: it) 1) := hbad
    omega

/-- The sequence of a character at the beginning of a text. -/
theorem query_utf8EncodeChar (c : Char) (rest : List UInt8) :
    query Poco.Foundation.UTF8Encoding (String.utf8EncodeChar c ++ rest) =
      ((c.toNat : ℤ), (String.utf8EncodeChar c).length) := by
  have hleads : Leads c (String.utf8EncodeChar c ++ rest) := List.prefix_append _ _
  have hlen : (String.utf8EncodeChar c ++ rest).length = (String.utf8EncodeChar c).length + rest.length :=
    List.length_append
  rw [query_eq _ hleads.ne_nil, hleads.sequenceLength_eq le_rfl, if_pos (by omega), hleads.convertSequence_eq,
    Int.toNat_natCast]

end UTF8Encoding

/-! ### UTF-16 -/

namespace UTF16Encoding

open TextIterator TextConverter

/-- `sequenceLength(bytes, length)`; the byte that tells is the first or the second one. -/
def sequenceLength (_flipBytes : Bool) (bytes : List UInt8) (length : ℕ) : ℤ :=
  if _flipBytes then
    if length ≥ 1 then
      let c := byteAt bytes 0
      if c ≥ 0xD8 ∧ c < 0xDC then 4 else 2
    else -2
  else if length ≥ 2 then
    let uc := getWord false bytes 0
    if uc ≥ 0xD800 ∧ uc < 0xDC00 then 4 else 2
  else -2

/-- `UTF16Encoding` with its `sequenceLength`. -/
def sequences (_flipBytes : Bool) : SequenceEncoding where
  toTextEncoding := Poco.Foundation.UTF16Encoding _flipBytes
  sequenceLength := sequenceLength _flipBytes
  length_asks bytes n h := by
    have hmax : MAX_SEQUENCE_LENGTH = 4 := rfl
    unfold sequenceLength at h ⊢
    dsimp only at h ⊢
    split_ifs at h ⊢ <;> omega

theorem toNat_join (a b : UInt8) : (a.toUInt16 ||| b.toUInt16 <<< 8).toNat = a.toNat + 256 * b.toNat := by
  have ha := a.toNat_lt
  have hb := b.toNat_lt
  have hshift : b.toNat <<< 8 % 2 ^ 16 = b.toNat <<< 8 := by
    rw [Nat.shiftLeft_eq]
    omega
  have hor : a.toNat ||| b.toNat <<< 8 = b.toNat <<< 8 + a.toNat := by
    rw [Nat.or_comm, Nat.shiftLeft_add_eq_or_of_lt ha]
  rw [UInt16.toNat_or, UInt16.toNat_shiftLeft, UInt8.toNat_toUInt16, UInt8.toNat_toUInt16]
  show a.toNat ||| b.toNat <<< 8 % 2 ^ 16 = _
  rw [hshift, hor, Nat.shiftLeft_eq]
  omega

theorem toNat_flipBytes (w : UInt16) : (flipBytes w).toNat = w.toNat / 256 + 256 * (w.toNat % 256) := by
  have hw := w.toNat_lt
  have hhigh : ((w >>> (8 : UInt16)) &&& (0x00FF : UInt16)).toNat = w.toNat / 256 := by
    rw [UInt16.toNat_and, UInt16.toNat_shiftRight]
    show w.toNat >>> 8 &&& 2 ^ 8 - 1 = _
    rw [Nat.and_two_pow_sub_one_eq_mod, Nat.shiftRight_eq_div_pow]
    omega
  have hlow : ((w <<< (8 : UInt16)) &&& (0xFF00 : UInt16)).toNat = 256 * (w.toNat % 256) := by
    have hmask : ∀ d < 256, (256 * d) &&& 0xFF00 = 256 * d := by decide +kernel
    rw [UInt16.toNat_and, UInt16.toNat_shiftLeft]
    show w.toNat <<< 8 % 2 ^ 16 &&& 0xFF00 = _
    rw [Nat.shiftLeft_eq, show w.toNat * 2 ^ 8 % 2 ^ 16 = 256 * (w.toNat % 256) by omega]
    exact hmask _ (Nat.mod_lt _ (by decide))
  have hor : w.toNat / 256 ||| 256 * (w.toNat % 256) = 256 * (w.toNat % 256) + w.toNat / 256 := by
    rw [Nat.or_comm, show 256 * (w.toNat % 256) = (w.toNat % 256) <<< 8 by rw [Nat.shiftLeft_eq, Nat.mul_comm],
      Nat.shiftLeft_add_eq_or_of_lt (by omega)]
  rw [flipBytes, UInt16.toNat_or, hhigh, hlow, hor, Nat.add_comm]

/-- The number of a word, in either order of its bytes. -/
theorem toNat_getWord (_flipBytes : Bool) (bytes : List UInt8) (i : ℕ) :
    (getWord _flipBytes bytes i).toNat =
      if _flipBytes then 256 * (byteAt bytes i).toNat + (byteAt bytes (i + 1)).toNat
      else (byteAt bytes i).toNat + 256 * (byteAt bytes (i + 1)).toNat := by
  have h₀ := (byteAt bytes i).toNat_lt
  have h₁ := (byteAt bytes (i + 1)).toNat_lt
  unfold getWord
  dsimp only
  split_ifs
  · rw [toNat_flipBytes, toNat_join]
    omega
  · exact toNat_join _ _

theorem getWord_putWord (_flipBytes : Bool) (w : UInt16) (pre rest : List UInt8) :
    getWord _flipBytes (pre ++ (putWord _flipBytes w ++ rest)) pre.length = w := by
  have hw := w.toNat_lt
  have hbytes : ∀ v : UInt16, v.toUInt8.toNat = v.toNat % 256 ∧ (v >>> 8).toUInt8.toNat = v.toNat / 256 := by
    intro v
    have hv := v.toNat_lt
    rw [UInt16.toNat_toUInt8, UInt16.toNat_toUInt8, UInt16.toNat_shiftRight]
    refine ⟨rfl, ?_⟩
    show v.toNat >>> 8 % 2 ^ 8 = _
    rw [Nat.shiftRight_eq_div_pow]
    omega
  have hget : ∀ v : UInt16, byteAt (pre ++ ([v.toUInt8, (v >>> 8).toUInt8] ++ rest)) pre.length = v.toUInt8 ∧
      byteAt (pre ++ ([v.toUInt8, (v >>> 8).toUInt8] ++ rest)) (pre.length + 1) = (v >>> 8).toUInt8 := by
    intro v
    simp [byteAt]
  rw [← UInt16.toNat_inj, toNat_getWord, putWord]
  obtain ⟨h₀, h₁⟩ := hget (if _flipBytes then flipBytes w else w)
  rw [h₀, h₁, (hbytes _).1, (hbytes _).2]
  split_ifs
  · rw [toNat_flipBytes]
    omega
  · omega

/-- A lead surrogate. -/
def IsLead (w : UInt16) : Prop := w ≥ 0xD800 ∧ w < 0xDC00

theorem isLead_iff {w : UInt16} : IsLead w ↔ 0xD800 ≤ w.toNat ∧ w.toNat < 0xDC00 := by
  unfold IsLead
  rw [ge_iff_le, UInt16.le_iff_toNat_le, UInt16.lt_iff_toNat_lt]
  exact Iff.rfl

instance (w : UInt16) : Decidable (IsLead w) := inferInstanceAs (Decidable (_ ∧ _))

/-- A sequence has two bytes, or four behind a lead surrogate. -/
theorem query_eq (_flipBytes : Bool) (s : List UInt8) :
    query (Poco.Foundation.UTF16Encoding _flipBytes) s =
      if s.length < 2 then (-2, 1)
      else if IsLead (getWord _flipBytes s 0) then
        if s.length < 4 then (-4, 2) else (queryConvert _flipBytes s 4, 4)
      else ((getWord _flipBytes s 0).toNat, 2) := by
  show queryLoop _ s 4 (-2) 1 = _
  have htwo : queryConvert _flipBytes s 2 =
      if IsLead (getWord _flipBytes s 0) then -4 else ((getWord _flipBytes s 0).toNat : ℤ) := rfl
  have hfour : -1 ≤ queryConvert _flipBytes s 4 := by
    unfold queryConvert
    dsimp only
    split_ifs <;> omega
  rw [queryLoop]
  split_ifs with hask hshort hlead hshort' hshort hlead hshort'
  · omega
  · show queryLoop _ s 3 (queryConvert _flipBytes s 2) 2 = _
    rw [htwo, if_pos hlead, queryLoop, if_neg (by omega)]
  · show queryLoop _ s 3 (queryConvert _flipBytes s 2) 2 = _
    rw [htwo, if_pos hlead, queryLoop, if_pos (by omega)]
    show queryLoop _ s 2 (queryConvert _flipBytes s 4) 4 = _
    rw [queryLoop, if_neg (by omega)]
  · show queryLoop _ s 3 (queryConvert _flipBytes s 2) 2 = _
    rw [htwo, if_neg hlead, queryLoop, if_neg (by omega)]
  · rfl
  all_goals omega

theorem behind_eq (_flipBytes : Bool) (s : List UInt8) :
    behind (Poco.Foundation.UTF16Encoding _flipBytes) s =
      s.drop (if IsLead (getWord _flipBytes s 0) then 4 else 2) := by
  have hfour : -1 ≤ queryConvert _flipBytes s 4 := by
    unfold queryConvert
    dsimp only
    split_ifs <;> omega
  rw [behind, query_eq]
  by_cases hshort : s.length < 2
  · rw [if_pos hshort, if_pos (by decide)]
    symm
    rw [List.drop_eq_nil_iff]
    split_ifs <;> omega
  · rw [if_neg hshort]
    by_cases hlead : IsLead (getWord _flipBytes s 0)
    · rw [if_pos hlead, if_pos hlead]
      by_cases hcut : s.length < 4
      · rw [if_pos hcut, if_pos (by decide)]
        symm
        rw [List.drop_eq_nil_iff]
        omega
      · rw [if_neg hcut, if_neg (by dsimp only; omega)]
    · rw [if_neg hlead, if_neg hlead, if_neg (by dsimp only; omega)]

theorem steps (_flipBytes : Bool) : Steps (sequences _flipBytes) := by
  intro c it
  have hbehind : behind (sequences _flipBytes).toTextEncoding (c :: it) = _ := behind_eq _flipBytes (c :: it)
  have hword := toNat_getWord _flipBytes (c :: it) 0
  rw [hbehind]
  cases _flipBytes with
  | true =>
      have hsecond := (byteAt (c :: it) (0 + 1)).toNat_lt
      have hfirst : (byteAt (c :: it) 0) = c := rfl
      have hlead : IsLead (getWord true (c :: it) 0) ↔ c ≥ 0xD8 ∧ c < 0xDC := by
        rw [isLead_iff, hword, if_pos rfl, hfirst, ge_iff_le, UInt8.le_iff_toNat_le, UInt8.lt_iff_toNat_lt]
        show _ ↔ 216 ≤ c.toNat ∧ c.toNat < 220
        omega
      have hlength : (sequences true).sequenceLength [c] 1 = if c ≥ 0xD8 ∧ c < 0xDC then 4 else 2 := rfl
      rw [increment_of_ge (by rw [hlength]; split_ifs <;> decide), hlength]
      simp only [hlead]
      split_ifs <;> rfl
  | false =>
      cases it with
      | nil =>
          split_ifs <;> rfl
      | cons d it =>
          -- the second byte has to be asked for
          have hlength : (sequences false).sequenceLength [c, d] 2 =
              if IsLead (getWord false (c :: d :: it) 0) then 4 else 2 := rfl
          have hloop : askLoop (sequences false).sequenceLength MAX_SEQUENCE_LENGTH
                ((sequences false).sequenceLength [c] 1) [c] (d :: it) =
              askLoop (sequences false).sequenceLength 3 ((sequences false).sequenceLength [c, d] 2) [c, d] it := by
            show askLoop _ 4 (-2) [c] (d :: it) = _
            rw [askLoop, if_pos ⟨by decide, by simp⟩]
            rfl
          rw [increment, hloop, askLoop_of_ge (by rw [hlength]; split_ifs <;> decide), hlength]
          split_ifs <;> rfl

/-- The UTF-16 code units of a character, as bytes. -/
def utf16EncodeChar (_flipBytes : Bool) (c : Char) : List UInt8 :=
  if c.toNat ≤ 0xFFFF then putWord _flipBytes (UInt16.ofNat c.toNat)
  else
    putWord _flipBytes (UInt16.ofNat (0xD800 + (c.toNat - 0x10000) / 0x400)) ++
      putWord _flipBytes (UInt16.ofNat (0xDC00 + (c.toNat - 0x10000) % 0x400))

theorem length_putWord (_flipBytes : Bool) (w : UInt16) : (putWord _flipBytes w).length = 2 := rfl

theorem ofInt_natCast (n : ℕ) : UInt16.ofInt n = UInt16.ofNat n := by
  rw [UInt16.ofInt, ← UInt16.toNat_inj, UInt16.toNat_ofNat', UInt16.toNat_ofNat']
  omega

theorem convertChar_toNat (_flipBytes : Bool) (c : Char) :
    convertChar _flipBytes c.toNat MAX_SEQUENCE_LENGTH =
      (((utf16EncodeChar _flipBytes c).length : ℤ), utf16EncodeChar _flipBytes c) := by
  have hle := (toNat_scalar c).1
  have hmax : MAX_SEQUENCE_LENGTH = 4 := rfl
  have hofInt : UInt16.ofInt (c.toNat : ℤ) = UInt16.ofNat c.toNat := ofInt_natCast c.toNat
  unfold convertChar utf16EncodeChar
  by_cases hbmp : c.toNat ≤ 0xFFFF
  · rw [if_pos (by omega), if_pos hbmp, store_of_le (by rw [length_putWord, hmax]; decide), hofInt]
  · have hsub : ((c.toNat : ℤ) - 0x10000).toNat = c.toNat - 0x10000 := by omega
    have hhigh : (c.toNat - 0x10000) >>> 10 &&& 0x3FF = (c.toNat - 0x10000) / 0x400 := by
      rw [Nat.shiftRight_eq_div_pow, show (0x3FF : ℕ) = 2 ^ 10 - 1 by rfl, Nat.and_two_pow_sub_one_eq_mod]
      omega
    have hlow : (c.toNat - 0x10000) &&& 0x3FF = (c.toNat - 0x10000) % 0x400 :=
      Nat.and_two_pow_sub_one_eq_mod _ 10
    rw [if_neg (by omega), if_neg hbmp]
    dsimp only
    rw [hsub, hhigh, hlow, store_of_le (by rw [List.length_append, length_putWord, length_putWord, hmax])]

theorem getWord_first (_flipBytes : Bool) (w : UInt16) (rest : List UInt8) :
    getWord _flipBytes (putWord _flipBytes w ++ rest) 0 = w :=
  getWord_putWord _flipBytes w [] rest

theorem queryConvert_pair (_flipBytes : Bool) {w₁ w₂ : UInt16} (h₁ : IsLead w₁) (h₂ : 0xDC00 ≤ w₂.toNat)
    (rest : List UInt8) :
    queryConvert _flipBytes (putWord _flipBytes w₁ ++ (putWord _flipBytes w₂ ++ rest)) 4 =
      ((w₁.toNat % 0x400) * 0x400 + w₂.toNat % 0x400 + 0x10000 : ℕ) := by
  have hsecond : getWord _flipBytes (putWord _flipBytes w₁ ++ (putWord _flipBytes w₂ ++ rest)) 2 = w₂ :=
    getWord_putWord _flipBytes w₂ (putWord _flipBytes w₁) rest
  have hlt := (isLead_iff.mp h₁).2
  have hpair : w₂ ≥ 0xDC00 ∧ w₁ < 0xE000 := by
    rw [ge_iff_le, UInt16.le_iff_toNat_le, UInt16.lt_iff_toNat_lt]
    exact ⟨h₂, lt_trans hlt (by decide)⟩
  have hbits : ∀ x : ℕ, x &&& 0x3FF = x % 0x400 := fun x => Nat.and_two_pow_sub_one_eq_mod x 10
  rw [queryConvert, if_pos (by decide), getWord_first, hsecond]
  show (if IsLead w₁ then _ else _) = _
  rw [if_pos h₁, if_pos (by decide), if_pos hpair, hbits, hbits, Nat.shiftLeft_eq]

/-- The sequence of a character at the beginning of a text. -/
theorem query_utf16EncodeChar (_flipBytes : Bool) (c : Char) (rest : List UInt8) :
    query (Poco.Foundation.UTF16Encoding _flipBytes) (utf16EncodeChar _flipBytes c ++ rest) =
      ((c.toNat : ℤ), (utf16EncodeChar _flipBytes c).length) := by
  obtain ⟨hle, hsur⟩ := toNat_scalar c
  rw [query_eq]
  unfold utf16EncodeChar
  by_cases hbmp : c.toNat ≤ 0xFFFF
  · rw [if_pos hbmp]
    have hnat : (UInt16.ofNat c.toNat).toNat = c.toNat := by
      rw [UInt16.toNat_ofNat']
      omega
    have hlead : ¬IsLead (UInt16.ofNat c.toNat) := by
      rw [isLead_iff, hnat]
      omega
    rw [getWord_first, if_neg hlead, hnat, length_putWord, if_neg]
    rw [List.length_append, length_putWord]
    omega
  · rw [if_neg hbmp]
    generalize hv : c.toNat - 0x10000 = v
    have hw₁ : (UInt16.ofNat (0xD800 + v / 0x400)).toNat = 0xD800 + v / 0x400 := by
      rw [UInt16.toNat_ofNat']
      omega
    have hw₂ : (UInt16.ofNat (0xDC00 + v % 0x400)).toNat = 0xDC00 + v % 0x400 := by
      rw [UInt16.toNat_ofNat']
      omega
    generalize UInt16.ofNat (0xD800 + v / 0x400) = w₁ at hw₁
    generalize UInt16.ofNat (0xDC00 + v % 0x400) = w₂ at hw₂
    have hlead : IsLead w₁ := by
      rw [isLead_iff]
      omega
    have hlen : (putWord _flipBytes w₁ ++ (putWord _flipBytes w₂ ++ rest)).length = rest.length + 4 := by
      rw [List.length_append, List.length_append, length_putWord, length_putWord]
      omega
    have hvalue : (w₁.toNat % 0x400) * 0x400 + w₂.toNat % 0x400 + 0x10000 = c.toNat := by omega
    rw [List.append_assoc, hlen, getWord_first, if_neg (by omega), if_pos hlead, if_neg (by omega),
      queryConvert_pair _flipBytes hlead (by omega), hvalue, List.length_append, length_putWord, length_putWord]

end UTF16Encoding

/-! ### Text is carried without loss -/

namespace TextConverter

section

variable {enc : TextEncoding} {seqIn seqOut : Char → List UInt8}

/-- Text that consists of the sequences of characters is converted character by character. -/
theorem convertBuffer_flatMap (out : TextEncoding) (hne : ∀ c, seqIn c ≠ [])
    (hquery : ∀ c rest, query enc (seqIn c ++ rest) = ((c.toNat : ℤ), (seqIn c).length))
    (hencode : ∀ c : Char, out.convertChar c.toNat MAX_SEQUENCE_LENGTH = (((seqOut c).length : ℤ), seqOut c))
    (hne' : ∀ c, seqOut c ≠ []) (defaultChar : ℤ) (cs : List Char) :
    convertBuffer enc out defaultChar id (cs.flatMap seqIn) = (0, cs.flatMap seqOut) := by
  unfold convertBuffer
  generalize hfuel : (cs.flatMap seqIn).length = fuel
  replace hfuel : (cs.flatMap seqIn).length ≤ fuel := hfuel.le
  induction cs generalizing fuel with
  | nil => cases fuel <;> rfl
  | cons c cs ih =>
      rw [List.flatMap_cons] at hfuel ⊢
      have hpos : 0 < (seqIn c).length := List.length_pos_iff.mpr (hne c)
      rw [List.length_append] at hfuel
      obtain ⟨fuel, rfl⟩ : ∃ k, fuel = k + 1 := ⟨fuel - 1, by omega⟩
      have hlen : ((seqOut c).length : ℤ) ≠ 0 := by
        have := List.length_pos_iff.mpr (hne' c)
        omega
      rw [convertLoop, hquery]
      · dsimp only
        rw [if_neg (by omega), if_neg (by omega), if_neg (by omega), List.drop_left, ih _ (by omega), encode, id,
          hencode]
        dsimp only
        rw [if_neg hlen]
        rfl
      · intro h
        exact hne c (List.append_eq_nil_iff.mp h).1

end

end TextConverter

/-- The source encodings of the two ways. -/
inductive UnicodeEncoding
  | utf8
  | utf16 (_flipBytes : Bool)
deriving DecidableEq, Repr

/-- The encoding with its `sequenceLength`. -/
def UnicodeEncoding.sequences : UnicodeEncoding → SequenceEncoding
  | utf8 => UTF8Encoding.sequences
  | utf16 _flipBytes => UTF16Encoding.sequences _flipBytes

/-- **Main result.**  For UTF-8 and UTF-16 sources, `convert` gives the same output and the same number of
errors for a `std::string` and for a buffer.  Well-formed UTF-8 text goes to UTF-16 of either byte order
and back without a change and without errors. -/
theorem convert_lossless :
    (∀ (source : UnicodeEncoding) (outEncoding : TextEncoding) (defaultChar : ℤ) (trans : ℤ → ℤ) (s : List UInt8),
      TextConverter.convertString source.sequences outEncoding defaultChar trans s =
        TextConverter.convertBuffer source.sequences.toTextEncoding outEncoding defaultChar trans s) ∧
    ∀ (_flipBytes : Bool) (defaultChar defaultChar' : ℤ) (cs : List Char), ∃ s,
      TextConverter.convertString UTF8Encoding.sequences (UTF16Encoding _flipBytes) defaultChar id (UTF8.utf8 cs) =
          (0, s) ∧
        TextConverter.convertString (UTF16Encoding.sequences _flipBytes) UTF8Encoding defaultChar' id s =
          (0, UTF8.utf8 cs) := by
  constructor
  · intro source outEncoding defaultChar trans s
    cases source with
    | utf8 => exact convertString_eq UTF8Encoding.steps _ _ _ _
    | utf16 _flipBytes => exact convertString_eq (UTF16Encoding.steps _flipBytes) _ _ _ _
  · intro _flipBytes defaultChar defaultChar' cs
    have hne : ∀ c, UTF16Encoding.utf16EncodeChar _flipBytes c ≠ [] := by
      intro c
      unfold UTF16Encoding.utf16EncodeChar
      split_ifs
      · exact List.cons_ne_nil _ _
      · exact List.cons_ne_nil _ _
    refine ⟨cs.flatMap (UTF16Encoding.utf16EncodeChar _flipBytes), ?_, ?_⟩
    · rw [convertString_eq UTF8Encoding.steps]
      exact TextConverter.convertBuffer_flatMap (UTF16Encoding _flipBytes)
        (fun _ => String.utf8EncodeChar_ne_nil) UTF8Encoding.query_utf8EncodeChar
        (UTF16Encoding.convertChar_toNat _flipBytes) hne _ cs
    · rw [convertString_eq (UTF16Encoding.steps _flipBytes)]
      exact TextConverter.convertBuffer_flatMap UTF8Encoding hne
        (UTF16Encoding.query_utf16EncodeChar _flipBytes) UTF8Encoding.convertChar_toNat
        (fun _ => String.utf8EncodeChar_ne_nil) _ cs

end Poco.Foundation
