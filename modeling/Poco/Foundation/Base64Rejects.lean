import Poco.Foundation.Base64
import Mathlib.Data.List.Nodup
import Mathlib.Data.List.TakeWhile

/-! # What `Base64Decoder` rejects

`Denotes` is the grammar of Base64: groups of four characters of the alphabet, and a last one of two or three
that is padded, or need not be.  `decoded` is what reading to the end gives, as a function of the
characters that are not skipped (`reads_decoded`).  The decoder takes the padding for a digit 0 wherever it
stands, and a single character at the end for the end of the text; `Clean` leaves such texts out, and
`decoder_meets_iff` says that nothing else goes wrong. -/

namespace Poco.Foundation
namespace Base64DecoderBuf

open Poco.Lib

/-! ### The grammar -/

/-- The alphabet. -/
def alphabet (options : UInt32) : List UInt8 :=
  if options &&& BASE64_URL_ENCODING ≠ 0 then OUT_ENCODING_URL else OUT_ENCODING

/-- Padding may be left out. -/
def PaddingOptional (options : UInt32) : Prop := options &&& BASE64_NO_PADDING ≠ 0

instance (options : UInt32) : Decidable (PaddingOptional options) := inferInstanceAs (Decidable (_ ≠ _))

/-- The character is the digit `v`. -/
def Digit (options : UInt32) (c : UInt8) (v : ℕ) : Prop := (alphabet options)[v]? = some c

/-- The three bytes of four digits. -/
def groupBytes (v0 v1 v2 v3 : ℕ) : List UInt8 :=
  let n := ((v0 * 64 + v1) * 64 + v2) * 64 + v3
  [UInt8.ofNat (n / 65536), UInt8.ofNat (n / 256), UInt8.ofNat n]

/-- The characters are a well-formed text of the bytes. -/
inductive Denotes (options : UInt32) : List UInt8 → List UInt8 → Prop
  | nil : Denotes options [] []
  | group {c0 c1 c2 c3 : UInt8} {v0 v1 v2 v3 : ℕ} {cs bs : List UInt8} :
      Digit options c0 v0 → Digit options c1 v1 → Digit options c2 v2 → Digit options c3 v3 →
      Denotes options cs bs → Denotes options (c0 :: c1 :: c2 :: c3 :: cs) (groupBytes v0 v1 v2 v3 ++ bs)
  | one {c0 c1 : UInt8} {v0 v1 : ℕ} {pad : List UInt8} : Digit options c0 v0 → Digit options c1 v1 →
      pad = ['='.toUInt8, '='.toUInt8] ∨ pad = [] ∧ PaddingOptional options →
      Denotes options (c0 :: c1 :: pad) ((groupBytes v0 v1 0 0).take 1)
  | two {c0 c1 c2 : UInt8} {v0 v1 v2 : ℕ} {pad : List UInt8} : Digit options c0 v0 → Digit options c1 v1 →
      Digit options c2 v2 → pad = ['='.toUInt8] ∨ pad = [] ∧ PaddingOptional options →
      Denotes options (c0 :: c1 :: c2 :: pad) ((groupBytes v0 v1 v2 0).take 2)

/-- The characters of a text that are not skipped. -/
def chars (options : UInt32) (text : List UInt8) : List UInt8 :=
  if options &&& BASE64_URL_ENCODING = 0 then text.filter fun c => !isSpace c else text

/-- Reading the text to its end gives the bytes it stands for, or fails if it is not well-formed. -/
def Meets (options : UInt32) (text : List UInt8) : Prop :=
  (∃ bs d, Drains readFromDevice { _options := options, _buf := text } bs d ∧
      Denotes options (chars options text) bs) ∨
    Fails readFromDevice { _options := options, _buf := text } ∧
      ¬∃ bs, Denotes options (chars options text) bs

/-- The characters that the decoder has no value for. -/
def Unknown (options : UInt32) (c : UInt8) : Prop := c ∉ alphabet options ∧ c ≠ '='.toUInt8

instance (options : UInt32) (c : UInt8) : Decidable (Unknown options c) := inferInstanceAs (Decidable (_ ∧ _))

/-- Padding stands at the end only and completes a group, and no character is left over. -/
def Padded (cs : List UInt8) : Prop :=
  cs.length % 4 ≠ 1 ∧
    (cs.dropWhile (· ≠ '='.toUInt8) = [] ∨
      cs.length % 4 = 0 ∧ (cs.dropWhile (· ≠ '='.toUInt8) = ['='.toUInt8] ∨
        cs.dropWhile (· ≠ '='.toUInt8) = ['='.toUInt8, '='.toUInt8]))

instance (cs : List UInt8) : Decidable (Padded cs) := inferInstanceAs (Decidable (_ ∧ _))

/-- A character is not known, padding that is not optional is not there, or the padding is right. -/
def Clean (options : UInt32) (cs : List UInt8) : Prop :=
  (∃ c ∈ cs, Unknown options c) ∨ (2 ≤ cs.length % 4 ∧ ¬PaddingOptional options) ∨ Padded cs

instance (options : UInt32) (cs : List UInt8) : Decidable (Clean options cs) :=
  inferInstanceAs (Decidable (_ ∨ _))

/-! ### Characters and their values -/

/-- The loop of the constructor of `Base64DecoderBuf`. -/
def fillTable (out : List UInt8) (n : ℕ) : List UInt8 :=
  (List.range n).foldl (fun table i => table.set (out.getD i 0).toNat (UInt8.ofNat i)) (List.replicate 256 0xFF)

theorem fillTable_succ (out : List UInt8) (n : ℕ) :
    fillTable out (n + 1) = (fillTable out n).set (out.getD n 0).toNat (UInt8.ofNat n) := by
  rw [fillTable, List.range_succ, List.foldl_append]
  rfl

theorem length_fillTable (out : List UInt8) (n : ℕ) : (fillTable out n).length = 256 := by
  induction n with
  | zero => rw [fillTable, List.range_zero, List.foldl_nil, List.length_replicate]
  | succ n ih => rw [fillTable_succ, List.length_set, ih]

/-- Each character of the alphabet has its index, every other character has none. -/
theorem getElem?_fillTable (out : List UInt8) (hout : out.Nodup) (c : UInt8) {n : ℕ} (hn : n ≤ out.length) :
    (∀ i < n, out[i]? = some c → (fillTable out n)[c.toNat]? = some (UInt8.ofNat i)) ∧
      ((∀ i < n, out[i]? ≠ some c) → (fillTable out n)[c.toNat]? = some 0xFF) := by
  induction n with
  | zero =>
      refine ⟨fun i hi => absurd hi (Nat.not_lt_zero i), fun _ => ?_⟩
      rw [fillTable, List.range_zero, List.foldl_nil, List.getElem?_replicate, if_pos c.toNat_lt]
  | succ n ih =>
      obtain ⟨hdigit, hother⟩ := ih (Nat.le_of_succ_le hn)
      have hget : out[n]? = some (out.getD n 0) := by
        rw [List.getD_eq_getElem?_getD, List.getElem?_eq_getElem hn]
        rfl
      rw [fillTable_succ]
      by_cases hc : out.getD n 0 = c
      · have hset : ((fillTable out n).set (out.getD n 0).toNat (UInt8.ofNat n))[c.toNat]? = some (UInt8.ofNat n) := by
          rw [hc, List.getElem?_set_self (by rw [length_fillTable]; exact c.toNat_lt)]
        refine ⟨fun i hi hic => ?_, fun hnone => absurd (hc ▸ hget) (hnone n (Nat.lt_succ_self n))⟩
        have hin : i = n := by
          have hi' : i < out.length := Nat.lt_of_lt_of_le hi hn
          refine (@List.Nodup.getElem_inj_iff _ _ hout _ hi' _ hn).mp ?_
          rw [hc] at hget
          rw [List.getElem?_eq_getElem hi'] at hic
          rw [List.getElem?_eq_getElem hn] at hget
          exact (Option.some.inj hic).trans (Option.some.inj hget).symm
        rw [hin, hset]
      · have hne : (out.getD n 0).toNat ≠ c.toNat := fun h => hc (UInt8.toNat_inj.mp h)
        rw [List.getElem?_set_ne hne]
        refine ⟨fun i hi hic => ?_, fun hnone => hother fun i hi => hnone i (Nat.lt_succ_of_lt hi)⟩
        rcases Nat.lt_succ_iff_lt_or_eq.mp hi with hi | rfl
        · exact hdigit i hi hic
        · rw [hget] at hic
          exact absurd (Option.some.inj hic) hc

theorem alphabet_spec (options : UInt32) :
    (alphabet options).Nodup ∧ (alphabet options).length = 64 ∧ '='.toUInt8 ∉ alphabet options := by
  have hstd : OUT_ENCODING.Nodup ∧ OUT_ENCODING.length = 64 ∧ '='.toUInt8 ∉ OUT_ENCODING := by decide +kernel
  have hurl : OUT_ENCODING_URL.Nodup ∧ OUT_ENCODING_URL.length = 64 ∧ '='.toUInt8 ∉ OUT_ENCODING_URL := by
    decide +kernel
  rw [alphabet]
  split
  · exact hurl
  · exact hstd

theorem pInEncoding_eq (options : UInt32) (c : UInt8) :
    _pInEncoding options c =
      (((fillTable (alphabet options) (alphabet options).length).set '='.toNat 0)[c.toNat]?).getD 0 := by
  rw [_pInEncoding, List.getD_eq_getElem?_getD, alphabet]
  by_cases hopt : options &&& BASE64_URL_ENCODING ≠ 0
  · simp only [if_pos hopt]
    rfl
  · simp only [if_neg hopt]
    rfl

theorem pInEncoding_cases (options : UInt32) (c : UInt8) :
    c = '='.toUInt8 ∧ _pInEncoding options c = 0 ∨
      (∃ v < 64, Digit options c v ∧ _pInEncoding options c = UInt8.ofNat v ∧ c ≠ '='.toUInt8) ∨
      Unknown options c ∧ _pInEncoding options c = 0xFF := by
  obtain ⟨hnodup, hlen, hpad⟩ := alphabet_spec options
  obtain ⟨hdigit, hother⟩ := getElem?_fillTable (alphabet options) hnodup c le_rfl
  rw [pInEncoding_eq]
  by_cases hc : c = '='.toUInt8
  · have hnat : '='.toNat = c.toNat := by
      rw [hc]
      rfl
    refine Or.inl ⟨hc, ?_⟩
    rw [hnat, List.getElem?_set_self (by rw [length_fillTable]; exact c.toNat_lt)]
    rfl
  · have hne : '='.toNat ≠ c.toNat := fun h => hc (UInt8.toNat_inj.mp h.symm)
    rw [List.getElem?_set_ne hne]
    by_cases hmem : c ∈ alphabet options
    · obtain ⟨v, hv⟩ := List.mem_iff_getElem?.mp hmem
      have hlt : v < (alphabet options).length := (List.getElem?_eq_some_iff.mp hv).1
      refine Or.inr (Or.inl ⟨v, hlen ▸ hlt, hv, ?_, hc⟩)
      rw [hdigit v hlt hv]
      rfl
    · refine Or.inr (Or.inr ⟨⟨hmem, hc⟩, ?_⟩)
      rw [hother fun i _ hi => hmem (List.mem_of_getElem? hi)]
      rfl

theorem unknown_iff (options : UInt32) (c : UInt8) : Unknown options c ↔ _pInEncoding options c = 0xFF := by
  rcases pInEncoding_cases options c with ⟨hc, hvalue⟩ | ⟨v, hv, hdigit, hvalue, -⟩ | ⟨hunknown, hvalue⟩
  · rw [hvalue]
    exact iff_of_false (fun h => h.2 hc) (by decide)
  · rw [hvalue]
    refine iff_of_false (fun h => h.1 (List.mem_of_getElem? hdigit)) fun h => ?_
    have hnat : v % 256 = 255 := by
      rw [← UInt8.toNat_ofNat', h]
      rfl
    omega
  · exact iff_of_true hunknown hvalue

/-! ### One call of `readFromDevice` -/

variable {options : UInt32} {c c0 c1 c2 c3 : UInt8} {group buf cs : List UInt8} {groupLength groupIndex : ℕ}

theorem readOne_of_chars (h : chars options buf = c :: cs) :
    ∃ buf', chars options buf' = cs ∧ ∀ group groupLength groupIndex,
      readOne ⟨options, group, groupLength, groupIndex, buf⟩ =
        .ok (some c) ⟨options, group, groupLength, groupIndex, buf'⟩ := by
  rw [chars] at h
  split_ifs at h with hopt
  · induction buf with
    | nil => cases h
    | cons d buf ih =>
        by_cases hd : isSpace d = true
        · rw [List.filter_cons_of_neg (by simp [hd])] at h
          obtain ⟨buf', hchars, hread⟩ := ih h
          refine ⟨buf', hchars, fun group groupLength groupIndex => ?_⟩
          rw [← hread group groupLength groupIndex]
          simp [readOne, hopt, hd]
        · rw [List.filter_cons_of_pos (by simp [hd])] at h
          obtain ⟨rfl, hcs⟩ := List.cons.inj h
          refine ⟨buf, ?_, fun group groupLength groupIndex => ?_⟩
          · rw [chars, if_pos hopt, hcs]
          · simp [readOne, hopt, hd]
  · subst h
    refine ⟨cs, if_neg hopt, fun group groupLength groupIndex => ?_⟩
    simp [readOne, hopt]

theorem readOne_of_nil (h : chars options buf = []) :
    readOne ⟨options, group, groupLength, groupIndex, buf⟩ =
      .ok none ⟨options, group, groupLength, groupIndex, []⟩ := by
  rw [chars] at h
  split_ifs at h with hopt
  · have hdrop : buf.dropWhile isSpace = [] := by
      rw [List.dropWhile_eq_nil_iff]
      intro d hd
      simpa using List.filter_eq_nil_iff.mp h d hd
    simp [readOne, hopt, hdrop]
  · subst h
    simp [readOne]

/-- The third or fourth character of a group is there, or it may be missing. -/
theorem readPadded_of_chars (h : chars options buf = cs) (hcs : cs ≠ [] ∨ PaddingOptional options) :
    ∃ buf', chars options buf' = cs.tail ∧ ∀ group groupLength groupIndex,
      readPadded ⟨options, group, groupLength, groupIndex, buf⟩ =
        .ok (cs.headD '='.toUInt8) ⟨options, group, groupLength, groupIndex, buf'⟩ := by
  cases cs with
  | nil =>
      have hpad : options &&& BASE64_NO_PADDING ≠ 0 := hcs.resolve_left fun hne => hne rfl
      refine ⟨[], by simp [chars], fun group groupLength groupIndex => ?_⟩
      rw [readPadded, bind_of_ok (readOne_of_nil h)]
      simp only [get_bind]
      rw [if_pos hpad]
      rfl
  | cons c cs =>
      obtain ⟨buf', hbuf', hread⟩ := readOne_of_chars h
      refine ⟨buf', hbuf', fun group groupLength groupIndex => ?_⟩
      rw [readPadded, bind_of_ok (hread group groupLength groupIndex)]
      rfl

theorem readPadded_error (group : List UInt8) (groupLength groupIndex : ℕ) (h : chars options buf = []) (hpad : ¬PaddingOptional options) :
    ∃ s, readPadded ⟨options, group, groupLength, groupIndex, buf⟩ = .error .dataFormatException s := by
  refine ⟨⟨options, group, groupLength, groupIndex, []⟩, ?_⟩
  have hpad' : ¬options &&& BASE64_NO_PADDING ≠ 0 := hpad
  rw [readPadded, bind_of_ok (readOne_of_nil h)]
  simp only [get_bind]
  rw [if_neg hpad']
  rfl

theorem value_of_known (h : ¬Unknown options c) :
    value c ⟨options, group, groupLength, groupIndex, buf⟩ =
      .ok (_pInEncoding options c) ⟨options, group, groupLength, groupIndex, buf⟩ := by
  rw [value, get_bind, if_neg fun hc => h ((unknown_iff options c).mpr hc)]
  rfl

theorem value_of_unknown (h : Unknown options c) :
    value c ⟨options, group, groupLength, groupIndex, buf⟩ =
      .error .dataFormatException ⟨options, group, groupLength, groupIndex, buf⟩ := by
  rw [value, get_bind, if_pos ((unknown_iff options c).mp h)]
  rfl

/-- The bytes of a group in the buffer. -/
def quadBytes (options : UInt32) (c0 c1 c2 c3 : UInt8) : List UInt8 :=
  let v0 := _pInEncoding options c0
  let v1 := _pInEncoding options c1
  let v2 := _pInEncoding options c2
  let v3 := _pInEncoding options c3
  [(v0 <<< 2) ||| (v1 >>> 4), ((v1 &&& 0x0F) <<< 4) ||| (v2 >>> 2), (v2 <<< 6) ||| v3]

/-- How many of them are handed out. -/
def quadLength (c2 c3 : UInt8) : ℕ := if c2 = '='.toUInt8 then 1 else if c3 = '='.toUInt8 then 2 else 3

/-- The part of `readFromDevice` behind the second character. -/
def readRest (v0 v1 : UInt8) : EStateM DataFormatException Base64DecoderBuf (Option UInt8) := do
  let c2 ← readPadded
  let v2 ← value c2
  let c3 ← readPadded
  let v3 ← value c3
  let g0 := (v0 <<< 2) ||| (v1 >>> 4)
  let g1 := ((v1 &&& 0x0F) <<< 4) ||| (v2 >>> 2)
  let g2 := (v2 <<< 6) ||| v3
  modify fun b => { b with _group := [g0, g1, g2], _groupLength := quadLength c2 c3, _groupIndex := 1 }
  return some g0

/-- What is needed of the characters behind the second. -/
def RestKnown (options : UInt32) (cs : List UInt8) : Prop :=
  (2 ≤ cs.length ∨ PaddingOptional options) ∧ ¬Unknown options (cs.headD '='.toUInt8) ∧
    ¬Unknown options (cs.tail.headD '='.toUInt8)

instance (options : UInt32) (cs : List UInt8) : Decidable (RestKnown options cs) :=
  inferInstanceAs (Decidable (_ ∧ _))

theorem readRest_ok (c0 c1 : UInt8) (h : chars options buf = cs) (hknown : RestKnown options cs) :
    ∃ buf', chars options buf' = cs.tail.tail ∧ ∀ group groupLength groupIndex,
      readRest (_pInEncoding options c0) (_pInEncoding options c1)
          ⟨options, group, groupLength, groupIndex, buf⟩ =
        .ok (quadBytes options c0 c1 (cs.headD '='.toUInt8) (cs.tail.headD '='.toUInt8)).head?
          ⟨options, quadBytes options c0 c1 (cs.headD '='.toUInt8) (cs.tail.headD '='.toUInt8),
            quadLength (cs.headD '='.toUInt8) (cs.tail.headD '='.toUInt8), 1, buf'⟩ := by
  obtain ⟨hlen, h2, h3⟩ := hknown
  have hne : cs ≠ [] ∨ PaddingOptional options := hlen.imp_left fun hlen hnil => by simp [hnil] at hlen
  have hne' : cs.tail ≠ [] ∨ PaddingOptional options := hlen.imp_left fun hlen hnil => by
    have htail := congrArg List.length hnil
    rw [List.length_tail, List.length_nil] at htail
    omega
  obtain ⟨buf1, hbuf1, hread2⟩ := readPadded_of_chars h hne
  obtain ⟨buf2, hbuf2, hread3⟩ := readPadded_of_chars hbuf1 hne'
  refine ⟨buf2, hbuf2, fun group groupLength groupIndex => ?_⟩
  rw [readRest, bind_of_ok (hread2 group groupLength groupIndex), bind_of_ok (value_of_known h2),
    bind_of_ok (hread3 group groupLength groupIndex), bind_of_ok (value_of_known h3)]
  rfl

theorem readRest_error (group : List UInt8) (groupLength groupIndex : ℕ) (h : chars options buf = cs) (hunknown : ¬RestKnown options cs) (v0 v1 : UInt8) :
    ∃ s, readRest v0 v1 ⟨options, group, groupLength, groupIndex, buf⟩ = .error .dataFormatException s := by
  by_cases hne : cs ≠ [] ∨ PaddingOptional options
  · obtain ⟨buf1, hbuf1, hread2⟩ := readPadded_of_chars h hne
    rw [readRest, bind_of_ok (hread2 group groupLength groupIndex)]
    by_cases h2 : Unknown options (cs.headD '='.toUInt8)
    · exact ⟨_, bind_of_error (value_of_unknown h2)⟩
    · rw [bind_of_ok (value_of_known h2)]
      by_cases hne' : cs.tail ≠ [] ∨ PaddingOptional options
      · obtain ⟨buf2, -, hread3⟩ := readPadded_of_chars hbuf1 hne'
        rw [bind_of_ok (hread3 group groupLength groupIndex)]
        have h3 : Unknown options (cs.tail.headD '='.toUInt8) := by
          by_contra h3
          refine hunknown ⟨hne'.imp_left fun htail => ?_, h2, h3⟩
          have hpos := List.length_pos_iff.mpr htail
          rw [List.length_tail] at hpos
          omega
        exact ⟨_, bind_of_error (value_of_unknown h3)⟩
      · obtain ⟨hnil, hpad⟩ := not_or.mp hne'
        obtain ⟨s, hs⟩ := readPadded_error group groupLength groupIndex
           (hbuf1.trans (not_not.mp hnil)) hpad
        exact ⟨s, bind_of_error hs⟩
  · obtain ⟨hnil, hpad⟩ := not_or.mp hne
    obtain ⟨s, hs⟩ := readPadded_error group groupLength groupIndex
       (h.trans (not_not.mp hnil)) hpad
    exact ⟨s, bind_of_error hs⟩

theorem readFromDevice_front (h : chars options buf = c0 :: c1 :: cs) (h0 : ¬Unknown options c0)
    (h1 : ¬Unknown options c1) :
    ∃ buf', chars options buf' = cs ∧ ∀ group groupLength,
      readFromDevice ⟨options, group, groupLength, groupLength, buf⟩ =
        readRest (_pInEncoding options c0) (_pInEncoding options c1)
          ⟨options, group, groupLength, groupLength, buf'⟩ := by
  obtain ⟨buf0, hbuf0, hread0⟩ := readOne_of_chars h
  obtain ⟨buf1, hbuf1, hread1⟩ := readOne_of_chars hbuf0
  refine ⟨buf1, hbuf1, fun group groupLength => ?_⟩
  rw [readFromDevice, get_bind, if_neg (lt_irrefl _), bind_of_ok (hread0 group groupLength groupLength)]
  simp only
  rw [bind_of_ok (value_of_known h0), bind_of_ok (hread1 group groupLength groupLength)]
  simp only
  rw [bind_of_ok (value_of_known h1)]
  rfl

theorem readFromDevice_unknown (group : List UInt8) (groupLength : ℕ) (h : chars options buf = c0 :: cs)
    (hunknown : Unknown options c0 ∨ ∃ c1 ∈ cs.head?, Unknown options c1) :
    ∃ s, readFromDevice ⟨options, group, groupLength, groupLength, buf⟩ = .error .dataFormatException s := by
  obtain ⟨buf0, hbuf0, hread0⟩ := readOne_of_chars h
  rw [readFromDevice, get_bind, if_neg (lt_irrefl _), bind_of_ok (hread0 group groupLength groupLength)]
  simp only
  by_cases h0 : Unknown options c0
  · exact ⟨_, bind_of_error (value_of_unknown h0)⟩
  · obtain ⟨c1, hc1, h1⟩ := hunknown.resolve_left h0
    obtain ⟨cs', rfl⟩ := List.head?_eq_some_iff.mp hc1
    obtain ⟨buf1, -, hread1⟩ := readOne_of_chars hbuf0
    rw [bind_of_ok (value_of_known h0), bind_of_ok (hread1 group groupLength groupLength)]
    simp only
    exact ⟨_, bind_of_error (value_of_unknown h1)⟩

theorem readFromDevice_single (group : List UInt8) (groupLength : ℕ) (h : chars options buf = [c0]) (h0 : ¬Unknown options c0) :
    ∃ s, readFromDevice ⟨options, group, groupLength, groupLength, buf⟩ = .ok none s := by
  obtain ⟨buf0, hbuf0, hread0⟩ := readOne_of_chars h
  refine ⟨⟨options, group, groupLength, groupLength, []⟩, ?_⟩
  rw [readFromDevice, get_bind, if_neg (lt_irrefl _), bind_of_ok (hread0 group groupLength groupLength)]
  simp only
  rw [bind_of_ok (value_of_known h0), bind_of_ok (readOne_of_nil hbuf0)]
  rfl

theorem readFromDevice_end (group : List UInt8) (groupLength : ℕ) (h : chars options buf = []) :
    ∃ s, readFromDevice ⟨options, group, groupLength, groupLength, buf⟩ = .ok none s := by
  refine ⟨⟨options, group, groupLength, groupLength, []⟩, ?_⟩
  rw [readFromDevice, get_bind, if_neg (lt_irrefl _), bind_of_ok (readOne_of_nil h)]
  rfl

/-! ### Reading to the end -/

/-- The bytes that are handed out for a group. -/
def quad (options : UInt32) (c0 c1 c2 c3 : UInt8) : List UInt8 :=
  (quadBytes options c0 c1 c2 c3).take (quadLength c2 c3)

/-- What reading to the end gives; `none` when it fails. -/
def decoded (options : UInt32) : List UInt8 → Option (List UInt8)
  | [] => some []
  | [c0] => if Unknown options c0 then none else some []
  | [c0, c1] =>
      if Unknown options c0 ∨ Unknown options c1 ∨ ¬RestKnown options [] then none
      else some (quad options c0 c1 '='.toUInt8 '='.toUInt8)
  | [c0, c1, c2] =>
      if Unknown options c0 ∨ Unknown options c1 ∨ ¬RestKnown options [c2] then none
      else some (quad options c0 c1 c2 '='.toUInt8)
  | c0 :: c1 :: c2 :: c3 :: cs =>
      if Unknown options c0 ∨ Unknown options c1 ∨ ¬RestKnown options (c2 :: c3 :: cs) then none
      else (decoded options cs).map (quad options c0 c1 c2 c3 ++ ·)

/-- The remaining bytes of a group come before the next one is read. -/
theorem delivers_quad (h : readFromDevice ⟨options, group, groupLength, groupLength, buf⟩ =
      .ok (quadBytes options c0 c1 c2 c3).head?
        ⟨options, quadBytes options c0 c1 c2 c3, quadLength c2 c3, 1, cs⟩) :
    Delivers readFromDevice ⟨options, group, groupLength, groupLength, buf⟩ (quad options c0 c1 c2 c3)
      ⟨options, quadBytes options c0 c1 c2 c3, quadLength c2 c3, quadLength c2 c3, cs⟩ := by
  obtain ⟨n, hn⟩ : ∃ n, quadLength c2 c3 = n + 1 := by
    apply Nat.exists_eq_add_of_le'
    rw [quadLength]
    split_ifs <;> omega
  have hle : n ≤ 2 := by
    rw [quadLength] at hn
    split_ifs at hn <;> omega
  have hquad : quad options c0 c1 c2 c3 = (quadBytes options c0 c1 c2 c3).headD 0 ::
      (quadBytes options c0 c1 c2 c3).tail.take n := by
    rw [quad, hn]
    rfl
  have hnext : ∀ i e, ((quadBytes options c0 c1 c2 c3).tail.take n)[i]? = some e →
      readFromDevice ⟨options, quadBytes options c0 c1 c2 c3, n + 1, i + 1, cs⟩ =
        .ok (some e) ⟨options, quadBytes options c0 c1 c2 c3, n + 1, i + 1 + 1, cs⟩ := by
    intro i e he
    rw [List.getElem?_take, List.getElem?_tail] at he
    split_ifs at he with hi
    exact readFromDevice_next (by omega) he
  have hsteps := delivers_steps
    (fun i => Base64DecoderBuf.mk options (quadBytes options c0 c1 c2 c3) (n + 1) (i + 1) cs) hnext
  have hlen : ((quadBytes options c0 c1 c2 c3).tail.take n).length = n := by
    rw [List.length_take]
    simp [quadBytes, hle]
  rw [hlen] at hsteps
  rw [hn] at h ⊢
  rw [hquad]
  exact .cons h hsteps

theorem delivers_group (group : List UInt8) (groupLength : ℕ) (h : chars options buf = c0 :: c1 :: cs)
    (hknown : ¬(Unknown options c0 ∨ Unknown options c1 ∨ ¬RestKnown options cs)) :
    ∃ group' groupLength' buf', chars options buf' = cs.tail.tail ∧
      Delivers readFromDevice ⟨options, group, groupLength, groupLength, buf⟩
        (quad options c0 c1 (cs.headD '='.toUInt8) (cs.tail.headD '='.toUInt8))
        ⟨options, group', groupLength', groupLength', buf'⟩ := by
  obtain ⟨h0, h1, hrest⟩ := (not_or.mp hknown).imp_right not_or.mp
  obtain ⟨buf1, hbuf1, hfront⟩ := readFromDevice_front h h0 h1
  obtain ⟨buf2, hbuf2, hread⟩ := readRest_ok c0 c1 hbuf1 (not_not.mp hrest)
  exact ⟨_, _, buf2, hbuf2,
    delivers_quad ((hfront group groupLength).trans (hread group groupLength groupLength))⟩

theorem fails_group (group : List UInt8) (groupLength : ℕ) (h : chars options buf = c0 :: c1 :: cs)
    (hunknown : Unknown options c0 ∨ Unknown options c1 ∨ ¬RestKnown options cs) :
    Fails readFromDevice ⟨options, group, groupLength, groupLength, buf⟩ := by
  by_cases hfirst : Unknown options c0 ∨ Unknown options c1
  · obtain ⟨s, hs⟩ := readFromDevice_unknown group groupLength h
      (hfirst.imp_right fun h1 => ⟨c1, rfl, h1⟩)
    exact ⟨[], _, _, s, .nil _, hs⟩
  · obtain ⟨h0, h1⟩ := not_or.mp hfirst
    obtain ⟨buf1, hbuf1, hfront⟩ := readFromDevice_front h h0 h1
    have hrest : ¬RestKnown options cs := (hunknown.resolve_left h0).resolve_left h1
    obtain ⟨s, hs⟩ := readRest_error group groupLength groupLength
      hbuf1 hrest (_pInEncoding options c0) (_pInEncoding options c1)
    exact ⟨[], _, _, s, .nil _, (hfront group groupLength).trans hs⟩

/-- What reading to the end does. -/
def ReadsAs (b : Base64DecoderBuf) : Option (List UInt8) → Prop
  | some bs => ∃ d, Drains readFromDevice b bs d
  | none => Fails readFromDevice b

/-- The characters of the last group, or of the group before `cs`. -/
theorem readsAs_group (group : List UInt8) (groupLength : ℕ) (r : Option (List UInt8)) (h : chars options buf = c0 :: c1 :: cs)
    (hrest : ∀ group groupLength buf, chars options buf = cs.tail.tail →
      ReadsAs ⟨options, group, groupLength, groupLength, buf⟩ r) :
    ReadsAs ⟨options, group, groupLength, groupLength, buf⟩
      (if Unknown options c0 ∨ Unknown options c1 ∨ ¬RestKnown options cs then none
      else r.map (quad options c0 c1 (cs.headD '='.toUInt8) (cs.tail.headD '='.toUInt8) ++ ·)) := by
  split_ifs with hunknown
  · exact fails_group group groupLength h hunknown
  · obtain ⟨group', groupLength', buf', hbuf', hdel⟩ := delivers_group group groupLength h hunknown
    have hreads := hrest group' groupLength' buf' hbuf'
    cases r with
    | none => exact hdel.fails hreads
    | some bs =>
        obtain ⟨d, hd⟩ := hreads
        exact ⟨d, hdel.drains hd⟩

/-- **Reading to the end.** -/
theorem reads_decoded (options : UInt32) : (cs : List UInt8) → ∀ group groupLength buf,
    chars options buf = cs → ReadsAs ⟨options, group, groupLength, groupLength, buf⟩ (decoded options cs)
  | [], group, groupLength, buf, h => by
      obtain ⟨s, hs⟩ := readFromDevice_end group groupLength h
      exact ⟨s, drains_nil hs⟩
  | [c0], group, groupLength, buf, h => by
      rw [decoded]
      split_ifs with h0
      · obtain ⟨s, hs⟩ := readFromDevice_unknown group groupLength h (.inl h0)
        exact ⟨[], _, _, s, .nil _, hs⟩
      · obtain ⟨s, hs⟩ := readFromDevice_single group groupLength h h0
        exact ⟨s, drains_nil hs⟩
  | [c0, c1], group, groupLength, buf, h => by
      have hreads := readsAs_group group groupLength (some []) h
        fun group groupLength buf hnil => reads_decoded options [] group groupLength buf hnil
      simpa [decoded] using hreads
  | [c0, c1, c2], group, groupLength, buf, h => by
      have hreads := readsAs_group group groupLength (some []) h
        fun group groupLength buf hnil => reads_decoded options [] group groupLength buf hnil
      simpa [decoded] using hreads
  | c0 :: c1 :: c2 :: c3 :: cs, group, groupLength, buf, h => by
      rw [decoded]
      exact readsAs_group _ _ _ h fun group groupLength buf hcs => reads_decoded options cs group groupLength buf hcs

/-! ### The text that is accepted -/

theorem digit_lt {v : ℕ} (h : Digit options c v) : v < 64 := by
  rw [← (alphabet_spec options).2.1]
  exact (List.getElem?_eq_some_iff.mp h).1

theorem Digit.known {v : ℕ} (h : Digit options c v) :
    ¬Unknown options c ∧ c ≠ '='.toUInt8 ∧ _pInEncoding options c = UInt8.ofNat v := by
  obtain ⟨hnodup, hlen, hpad⟩ := alphabet_spec options
  have hmem := List.mem_of_getElem? h
  rcases pInEncoding_cases options c with ⟨rfl, -⟩ | ⟨w, -, hw, hvalue, hne⟩ | ⟨hunknown, -⟩
  · exact absurd hmem hpad
  · have hv : v = w := by
      have hv' := (List.getElem?_eq_some_iff.mp h).1
      have hw' := (List.getElem?_eq_some_iff.mp hw).1
      refine (@List.Nodup.getElem_inj_iff _ _ hnodup _ hv' _ hw').mp ?_
      rw [Digit, List.getElem?_eq_getElem hv'] at h
      rw [Digit, List.getElem?_eq_getElem hw'] at hw
      exact (Option.some.inj h).trans (Option.some.inj hw).symm
    exact ⟨fun hunknown => hunknown.1 hmem, hne, hv ▸ hvalue⟩
  · exact absurd hmem hunknown.1

theorem digit_of_known (h : ¬Unknown options c) (hne : c ≠ '='.toUInt8) : ∃ v, Digit options c v := by
  have hmem : c ∈ alphabet options := by
    by_contra hmem
    exact h ⟨hmem, hne⟩
  exact List.mem_iff_getElem?.mp hmem

theorem not_unknown_pad (options : UInt32) : ¬Unknown options '='.toUInt8 := fun h => h.2 rfl

theorem pInEncoding_pad (options : UInt32) : _pInEncoding options '='.toUInt8 = 0 := (stands_pad options).value

theorem shiftLeft_or {x y k : ℕ} (hk : k < 8) (hy : y < 2 ^ k) :
    (UInt8.ofNat x <<< UInt8.ofNat k) ||| UInt8.ofNat y = UInt8.ofNat (x * 2 ^ k + y) := by
  have hpow : 2 ^ 8 = 2 ^ (8 - k) * 2 ^ k := by
    rw [← pow_add]
    congr 1
    omega
  have hle : 2 ^ k ≤ 2 ^ 8 := Nat.pow_le_pow_right (by decide) hk.le
  have hhigh (z : ℕ) : z * 2 ^ k % 2 ^ 8 = z % 2 ^ (8 - k) * 2 ^ k := by rw [hpow, Nat.mul_mod_mul_right]
  have hsum : (x * 2 ^ k + y) % 2 ^ 8 = x % 2 ^ (8 - k) * 2 ^ k + y := by
    have hlt := Nat.mul_le_mul_right (2 ^ k) (Nat.mod_lt x (Nat.two_pow_pos (8 - k)))
    rw [← Nat.mod_add_mod, hhigh, Nat.mod_eq_of_lt]
    rw [Nat.succ_mul] at hlt
    omega
  have hlow : x % 2 ^ 8 % 2 ^ (8 - k) = x % 2 ^ (8 - k) :=
    Nat.mod_mod_of_dvd x (pow_dvd_pow 2 (Nat.sub_le 8 k))
  rw [← UInt8.toNat_inj, UInt8.toNat_or, UInt8.toNat_shiftLeft, UInt8.toNat_ofNat', UInt8.toNat_ofNat',
    UInt8.toNat_ofNat', UInt8.toNat_ofNat', Nat.mod_eq_of_lt (by omega : k < 2 ^ 8), Nat.mod_eq_of_lt hk,
    Nat.shiftLeft_eq, hhigh, hlow, hsum, Nat.mod_eq_of_lt (by omega : y < 2 ^ 8), ← Nat.shiftLeft_eq,
    Nat.shiftLeft_add_eq_or_of_lt hy]

theorem groupBytes_eq (v0 : ℕ) {v1 v2 v3 : ℕ} (h1 : v1 < 64) (h2 : v2 < 64) (h3 : v3 < 64) :
    [(UInt8.ofNat v0 <<< 2) ||| (UInt8.ofNat v1 >>> 4), ((UInt8.ofNat v1 &&& 0x0F) <<< 4) ||| (UInt8.ofNat v2 >>> 2),
      (UInt8.ofNat v2 <<< 6) ||| UInt8.ofNat v3] = groupBytes v0 v1 v2 v3 := by
  have hshift : ∀ a < 64, UInt8.ofNat a >>> 4 = UInt8.ofNat (a / 16) ∧ UInt8.ofNat a >>> 2 = UInt8.ofNat (a / 4) ∧
      UInt8.ofNat a &&& 0x0F = UInt8.ofNat (a % 16) := by
    decide +kernel
  have hbyte0 : (UInt8.ofNat v0 <<< 2) ||| (UInt8.ofNat v1 >>> 4) = UInt8.ofNat (v0 * 4 + v1 / 16) := by
    rw [(hshift v1 h1).1]
    exact shiftLeft_or (by decide : 2 < 8) (show v1 / 16 < 4 by omega)
  have hbyte1 : ((UInt8.ofNat v1 &&& 0x0F) <<< 4) ||| (UInt8.ofNat v2 >>> 2) =
      UInt8.ofNat (v1 % 16 * 16 + v2 / 4) := by
    rw [(hshift v1 h1).2.2, (hshift v2 h2).2.1]
    exact shiftLeft_or (by decide : 4 < 8) (show v2 / 4 < 16 by omega)
  have hbyte2 : (UInt8.ofNat v2 <<< 6) ||| UInt8.ofNat v3 = UInt8.ofNat (v2 * 64 + v3) :=
    shiftLeft_or (by decide : 6 < 8) (by omega)
  have hmod {a b : ℕ} (h : a % 256 = b % 256) : UInt8.ofNat a = UInt8.ofNat b := by
    rw [← UInt8.toNat_inj, UInt8.toNat_ofNat', UInt8.toNat_ofNat']
    exact h
  rw [hbyte0, hbyte1, hbyte2, groupBytes,
    hmod (by omega : (v0 * 4 + v1 / 16) % 256 = ((((v0 * 64 + v1) * 64 + v2) * 64 + v3) / 65536) % 256),
    hmod (by omega : (v1 % 16 * 16 + v2 / 4) % 256 = ((((v0 * 64 + v1) * 64 + v2) * 64 + v3) / 256) % 256),
    hmod (by omega : (v2 * 64 + v3) % 256 = (((v0 * 64 + v1) * 64 + v2) * 64 + v3) % 256)]

theorem quad_digits {v0 v1 v2 v3 : ℕ} (h0 : Digit options c0 v0) (h1 : Digit options c1 v1)
    (h2 : Digit options c2 v2) (h3 : Digit options c3 v3) : quad options c0 c1 c2 c3 = groupBytes v0 v1 v2 v3 := by
  have hlen : quadLength c2 c3 = 3 := by rw [quadLength, if_neg h2.known.2.1, if_neg h3.known.2.1]
  rw [quad, quadBytes, h0.known.2.2, h1.known.2.2, h2.known.2.2, h3.known.2.2, hlen,
    groupBytes_eq v0 (digit_lt h1) (digit_lt h2) (digit_lt h3)]
  rfl

theorem quad_one {v0 v1 : ℕ} (h0 : Digit options c0 v0) (h1 : Digit options c1 v1) :
    quad options c0 c1 '='.toUInt8 '='.toUInt8 = (groupBytes v0 v1 0 0).take 1 := by
  have hzero : _pInEncoding options '='.toUInt8 = UInt8.ofNat 0 := pInEncoding_pad options
  rw [quad, quadBytes, h0.known.2.2, h1.known.2.2, hzero, quadLength, if_pos rfl,
    groupBytes_eq v0 (digit_lt h1) (by decide) (by decide)]

theorem quad_two {v0 v1 v2 : ℕ} (h0 : Digit options c0 v0) (h1 : Digit options c1 v1)
    (h2 : Digit options c2 v2) : quad options c0 c1 c2 '='.toUInt8 = (groupBytes v0 v1 v2 0).take 2 := by
  have hzero : _pInEncoding options '='.toUInt8 = UInt8.ofNat 0 := pInEncoding_pad options
  rw [quad, quadBytes, h0.known.2.2, h1.known.2.2, h2.known.2.2, hzero, quadLength, if_neg h2.known.2.1, if_pos rfl,
    groupBytes_eq v0 (digit_lt h1) (digit_lt h2) (by decide)]

theorem Denotes.decoded_eq {bs : List UInt8} (h : Denotes options cs bs) : decoded options cs = some bs := by
  induction h with
  | nil => rfl
  | group h0 h1 h2 h3 hcs ih =>
      simp [decoded, RestKnown, h0.known.1, h1.known.1, h2.known.1, h3.known.1, ih, quad_digits h0 h1 h2 h3]
  | one h0 h1 hpad =>
      rcases hpad with rfl | ⟨rfl, hopt⟩
      · simp [decoded, RestKnown, h0.known.1, h1.known.1, not_unknown_pad, quad_one h0 h1]
      · simp [decoded, RestKnown, h0.known.1, h1.known.1, not_unknown_pad, hopt, quad_one h0 h1]
  | two h0 h1 h2 hpad =>
      rcases hpad with rfl | ⟨rfl, hopt⟩
      · simp [decoded, RestKnown, h0.known.1, h1.known.1, h2.known.1, not_unknown_pad, quad_two h0 h1 h2]
      · simp [decoded, RestKnown, h0.known.1, h1.known.1, h2.known.1, not_unknown_pad, hopt, quad_two h0 h1 h2]

/-- The padding of a text with a group of digits before it. -/
theorem padded_group (h0 : c0 ≠ '='.toUInt8) (h1 : c1 ≠ '='.toUInt8) (h2 : c2 ≠ '='.toUInt8)
    (h3 : c3 ≠ '='.toUInt8) : Padded (c0 :: c1 :: c2 :: c3 :: cs) ↔ Padded cs := by
  have hmod : (cs.length + 1 + 1 + 1 + 1) % 4 = cs.length % 4 := by omega
  simp only [Padded, List.length_cons, hmod, List.dropWhile_cons, h0, h1, h2, h3, ne_eq, not_false_eq_true,
    decide_true, if_true]

theorem Denotes.padded {bs : List UInt8} (h : Denotes options cs bs) : Padded cs := by
  induction h with
  | nil => decide
  | group h0 h1 h2 h3 hcs ih => exact (padded_group h0.known.2.1 h1.known.2.1 h2.known.2.1 h3.known.2.1).mpr ih
  | one h0 h1 hpad =>
      rcases hpad with rfl | ⟨rfl, -⟩
      · simp [Padded, h0.known.2.1, h1.known.2.1]
      · simp [Padded, h0.known.2.1, h1.known.2.1]
  | two h0 h1 h2 hpad =>
      rcases hpad with rfl | ⟨rfl, -⟩
      · simp [Padded, h0.known.2.1, h1.known.2.1, h2.known.2.1]
      · simp [Padded, h0.known.2.1, h1.known.2.1, h2.known.2.1]

theorem decoded_eq_none_iff (options : UInt32) : (cs : List UInt8) → (decoded options cs = none ↔
    (∃ c ∈ cs, Unknown options c) ∨ 2 ≤ cs.length % 4 ∧ ¬PaddingOptional options)
  | [] => by simp [decoded]
  | [c0] => by simp [decoded]
  | [c0, c1] => by
      simp [decoded, RestKnown, not_unknown_pad]
      tauto
  | [c0, c1, c2] => by
      simp [decoded, RestKnown, not_unknown_pad]
      tauto
  | c0 :: c1 :: c2 :: c3 :: cs => by
      have ih := decoded_eq_none_iff options cs
      have hmod : (cs.length + 1 + 1 + 1 + 1) % 4 = cs.length % 4 := by omega
      by_cases h0 : Unknown options c0
      · simp [decoded, h0]
      · by_cases h1 : Unknown options c1
        · simp [decoded, h1]
        · by_cases h2 : Unknown options c2
          · simp [decoded, RestKnown, h2]
          · by_cases h3 : Unknown options c3
            · simp [decoded, RestKnown, h3]
            · simp [decoded, RestKnown, h0, h1, h2, h3, ih, hmod]

theorem denotes_of_padded (options : UInt32) : (cs : List UInt8) → decoded options cs ≠ none → Padded cs →
    ∃ bs, Denotes options cs bs
  | [], _, _ => ⟨[], .nil⟩
  | [c0], _, hpad => absurd rfl hpad.1
  | [c0, c1], h, hpad => by
      have hknown : ¬Unknown options c0 ∧ ¬Unknown options c1 ∧ PaddingOptional options := by
        simpa [decoded, RestKnown, not_unknown_pad] using h
      have h0 : c0 ≠ '='.toUInt8 := by
        rintro rfl
        simp [Padded] at hpad
      have h1 : c1 ≠ '='.toUInt8 := by
        rintro rfl
        simp [Padded, h0] at hpad
      obtain ⟨v0, h0⟩ := digit_of_known hknown.1 h0
      obtain ⟨v1, h1⟩ := digit_of_known hknown.2.1 h1
      exact ⟨_, .one h0 h1 (.inr ⟨rfl, hknown.2.2⟩)⟩
  | [c0, c1, c2], h, hpad => by
      have hknown : ¬Unknown options c0 ∧ ¬Unknown options c1 ∧ PaddingOptional options ∧ ¬Unknown options c2 := by
        simpa [decoded, RestKnown, not_unknown_pad] using h
      have h0 : c0 ≠ '='.toUInt8 := by
        rintro rfl
        simp [Padded] at hpad
      have h1 : c1 ≠ '='.toUInt8 := by
        rintro rfl
        simp [Padded, h0] at hpad
      have h2 : c2 ≠ '='.toUInt8 := by
        rintro rfl
        simp [Padded, h0, h1] at hpad
      obtain ⟨v0, h0⟩ := digit_of_known hknown.1 h0
      obtain ⟨v1, h1⟩ := digit_of_known hknown.2.1 h1
      obtain ⟨v2, h2⟩ := digit_of_known hknown.2.2.2 h2
      exact ⟨_, .two h0 h1 h2 (.inr ⟨rfl, hknown.2.2.1⟩)⟩
  | c0 :: c1 :: c2 :: c3 :: cs, h, hpad => by
      have hknown : ¬Unknown options c0 ∧ ¬Unknown options c1 ∧ ¬Unknown options c2 ∧ ¬Unknown options c3 ∧
          decoded options cs ≠ none := by
        simpa [decoded, RestKnown, and_assoc] using h
      obtain ⟨hk0, hk1, hk2, hk3, hcs⟩ := hknown
      have h0 : c0 ≠ '='.toUInt8 := by
        rintro rfl
        simp [Padded] at hpad
      have h1 : c1 ≠ '='.toUInt8 := by
        rintro rfl
        simp [Padded, h0] at hpad
      obtain ⟨v0, hv0⟩ := digit_of_known hk0 h0
      obtain ⟨v1, hv1⟩ := digit_of_known hk1 h1
      by_cases h2 : c2 = '='.toUInt8
      · -- two characters of padding, and nothing behind them
        subst h2
        obtain ⟨-, rfl, rfl⟩ : (cs.length + 1 + 1 + 1 + 1) % 4 = 0 ∧ c3 = '='.toUInt8 ∧ cs = [] := by
          simpa [h0, h1] using hpad.2
        exact ⟨_, .one hv0 hv1 (.inl rfl)⟩
      · obtain ⟨v2, hv2⟩ := digit_of_known hk2 h2
        by_cases h3 : c3 = '='.toUInt8
        · subst h3
          obtain rfl : cs = [] := by
            have hend := hpad.2
            simp only [List.dropWhile_cons, h0, h1, h2, ne_eq, not_false_eq_true, decide_true, if_true,
              not_true_eq_false, decide_false, Bool.false_eq_true, if_false, List.cons_ne_nil, false_or,
              List.cons.injEq, true_and] at hend
            rcases hend with ⟨hmod, rfl | rfl⟩
            · rfl
            · simp at hmod
          exact ⟨_, .two hv0 hv1 hv2 (.inl rfl)⟩
        · obtain ⟨v3, hv3⟩ := digit_of_known hk3 h3
          obtain ⟨bs, hbs⟩ := denotes_of_padded options cs hcs ((padded_group h0 h1 h2 h3).mp hpad)
          exact ⟨_, .group hv0 hv1 hv2 hv3 hbs⟩

/-- What the decoder does to a text, from the function `decoded`. -/
theorem meets_iff_decoded (options : UInt32) (text : List UInt8) :
    Meets options text ↔ decoded options (chars options text) = none ∨ Padded (chars options text) := by
  have hreads := reads_decoded options _ [0, 0, 0] 0 text rfl
  rw [Meets]
  cases hdecoded : decoded options (chars options text) with
  | none =>
      rw [hdecoded] at hreads
      refine iff_of_true (Or.inr ⟨hreads, ?_⟩) (Or.inl rfl)
      rintro ⟨bs, hbs⟩
      rw [hbs.decoded_eq] at hdecoded
      cases hdecoded
  | some bs =>
      rw [hdecoded] at hreads
      obtain ⟨d, hd⟩ := hreads
      constructor
      · rintro (⟨bs', d', -, hbs'⟩ | ⟨hfails, -⟩)
        · exact Or.inr hbs'.padded
        · exact absurd hfails hd.not_fails
      · intro hclean
        have hpad := hclean.resolve_left (by simp)
        obtain ⟨bs', hbs'⟩ := denotes_of_padded options _ (by simp [hdecoded]) hpad
        obtain rfl : bs' = bs := Option.some.inj (hbs'.decoded_eq.symm.trans hdecoded)
        exact Or.inl ⟨bs', d, hd, hbs'⟩

/-- **Main result.** The decoder does as it should exactly for the texts that are clean. -/
theorem decoder_meets_iff (options : UInt32) (text : List UInt8) :
    Meets options text ↔ Clean options (chars options text) := by
  rw [meets_iff_decoded, decoded_eq_none_iff, or_assoc]
  rfl

/-- A single character behind a group, padding inside of a text, padding that is too long, and padding that is
too short are accepted; of the first text the last character is dropped. -/
theorem not_meets_dangling :
    ¬Meets 0 ("QUJDR".toList.map Char.toUInt8) ∧ ¬Meets 0 ("QQ==QQ==".toList.map Char.toUInt8) ∧
      ¬Meets 0 ("Q===".toList.map Char.toUInt8) ∧ ¬Meets BASE64_NO_PADDING ("QQ=".toList.map Char.toUInt8) ∧
      ∃ d, Drains readFromDevice { _options := 0, _buf := "QUJDR".toList.map Char.toUInt8 }
        ("ABC".toList.map Char.toUInt8) d := by
  have hmeets {options : UInt32} {text : List UInt8} (h : ¬(decoded options (chars options text) = none ∨
      Padded (chars options text))) : ¬Meets options text := fun hmeets =>
    h ((meets_iff_decoded options text).mp hmeets)
  refine ⟨hmeets (by decide +kernel), hmeets (by decide +kernel), hmeets (by decide +kernel),
    hmeets (by decide +kernel), ?_⟩
  have hreads := reads_decoded 0 _ [0, 0, 0] 0 ("QUJDR".toList.map Char.toUInt8) rfl
  have hdecoded : decoded 0 (chars 0 ("QUJDR".toList.map Char.toUInt8)) =
      some ("ABC".toList.map Char.toUInt8) := by decide +kernel
  rw [hdecoded] at hreads
  exact hreads

end Base64DecoderBuf

end Poco.Foundation
