import Poco.Lib.Streams
import Poco.Foundation.InputStream
import Poco.Zip.ZipDataInfo
import Mathlib.Data.Nat.Count
import Mathlib.Algebra.Group.Even

/-! # `AutoDetectStreamBuf`

The stream buffer that finds the end of the data of an entry.  It looks for the signature of a data
descriptor and takes the data to end there if the descriptor has the size of the bytes before it; the
prefix is delivered before the data and the postfix behind it.

The first bytes of a signature are held back (`matchAfter`) until the next byte is known; what is
delivered up to then is `emitted`.  The data are delivered as a whole (`drains_data`), unless an earlier
place looks like their descriptor or an odd number of fragments `PK\x07` stands before it. -/

namespace Poco.Zip

open Poco.Lib Poco.Foundation ZipDataInfo

/-- The members of `AutoDetectStreamBuf`. -/
structure AutoDetectStreamBuf where
  _pIstr : MemoryStream
  _eofDetected : Bool := false
  _matchCnt : ℕ := 0
  _prefix : List UInt8
  _postfix : List UInt8
  _reposition : Bool
  _start : BitVec 32
  _needsZip64 : Bool
  _length : BitVec 64 := 0

namespace AutoDetectStreamBuf

/-- The constructor. -/
def create (istr : MemoryStream) (pre post : List UInt8) (reposition : Bool) (start : BitVec 32)
    (needsZip64 : Bool) : AutoDetectStreamBuf :=
  { _pIstr := istr, _prefix := pre, _postfix := post, _reposition := reposition, _start := start
    _needsZip64 := needsZip64 }

/-- The end of `readFromDevice` behind the data: if there are none in the buffer, the postfix follows. -/
def endDetected (length : ℕ) (b : AutoDetectStreamBuf) (buffer : List UInt8) :
    List UInt8 × AutoDetectStreamBuf :=
  let b := { b with _eofDetected := true, _length := b._length + BitVec.ofNat 64 buffer.length }
  if buffer.length = 0 ∧ b._postfix ≠ [] then
    (b._postfix.take length, { b with _postfix := b._postfix.drop length })
  else (buffer, b)

/-- The loop of `readFromDevice` that fills the buffer; a round reads a byte or ends the stream. -/
def scan (length : ℕ) : ℕ → AutoDetectStreamBuf → List UInt8 → Except String (List UInt8 × AutoDetectStreamBuf)
  | 0, b, buffer => .ok (buffer, { b with _length := b._length + BitVec.ofNat 64 buffer.length })
  | fuel + 1, b, buffer =>
    if b._pIstr.good ∧ buffer.length + 4 < length then
      let (c, istr) := b._pIstr.get
      let b := { b with _pIstr := istr }
      match c with
      | none => scan length fuel b buffer
      | some c =>
        if b._matchCnt < 3 then
          if c = HEADER.getD b._matchCnt 0 then scan length fuel { b with _matchCnt := b._matchCnt + 1 } buffer
          else if c = HEADER.getD 0 0 then
            scan length fuel { b with _matchCnt := 1 } (buffer ++ HEADER.take b._matchCnt)
          else scan length fuel { b with _matchCnt := 0 } (buffer ++ HEADER.take b._matchCnt ++ [c])
        else if b._matchCnt = 3 then
          if HEADER.getD 3 0 = c then
            let dataInfoSize := FULLHEADER_SIZE b._needsZip64
            let (info, istr) := b._pIstr.read (dataInfoSize - HEADER_SIZE)
            let dataInfo := HEADER ++ info
            if ¬istr.good then .error "Failed to read data descriptor"
            else if getCompressedSize b._needsZip64 dataInfo = b._length + BitVec.ofNat 64 buffer.length then
              let istr := istr.seekg (istr.pos - dataInfoSize)
              if ¬istr.good then .error "Failed to seek on input stream"
              else .ok (endDetected length { b with _pIstr := istr } buffer)
            else
              let istr := istr.seekg (istr.pos - (dataInfoSize - 4))
              if ¬istr.good then .error "Failed to seek on input stream"
              else scan length fuel { b with _pIstr := istr, _matchCnt := 0 } (buffer ++ HEADER)
          else scan length fuel { b with _matchCnt := 0 } (buffer ++ HEADER.take 3 ++ [c])
        else scan length fuel b buffer
    else .ok (buffer, { b with _length := b._length + BitVec.ofNat 64 buffer.length })

/-- `readFromDevice`; `none` is -1. -/
def readFromDevice (length : ℕ) (b : AutoDetectStreamBuf) : Except String (Option (List UInt8) × AutoDetectStreamBuf) :=
  if length = 0 then .ok (none, b)
  else
    let repositioned := b._reposition
    let b := if b._reposition then { b with _pIstr := b._pIstr.seekg b._start.toNat, _reposition := false } else b
    if repositioned ∧ ¬b._pIstr.good then .ok (none, b)
    else if b._prefix ≠ [] then
      .ok (some (b._prefix.take length), { b with _prefix := b._prefix.drop length })
    else if b._eofDetected then
      if b._postfix ≠ [] then .ok (some (b._postfix.take length), { b with _postfix := b._postfix.drop length })
      else .ok (none, b)
    else if ¬b._pIstr.good then .ok (none, b)
    else (scan length (b._pIstr.bytes.length + 2) b []).map fun (buffer, b) => (some buffer, b)

/-- `underflow`: a result of 0 or less is the end of file. -/
def underflow (length : ℕ) (b : AutoDetectStreamBuf) : Except String (List UInt8 × AutoDetectStreamBuf) :=
  (readFromDevice length b).map fun (buffer, b) => (buffer.getD [], b)

/-! ### The search for the signature -/

/-- How much of the signature has been read behind a byte. -/
def next (matchCnt : ℕ) (c : UInt8) : ℕ :=
  if matchCnt < 3 then if c = HEADER.getD matchCnt 0 then matchCnt + 1 else if c = HEADER.getD 0 0 then 1 else 0
  else 0

/-- What is put into the buffer behind a byte. -/
def emit (matchCnt : ℕ) (c : UInt8) : List UInt8 :=
  if matchCnt < 3 then
    if c = HEADER.getD matchCnt 0 then []
    else if c = HEADER.getD 0 0 then HEADER.take matchCnt
    else HEADER.take matchCnt ++ [c]
  else HEADER.take 3 ++ [c]

/-- How much of the signature stands at the end of a text. -/
def matchAfter (t : List UInt8) : ℕ := t.foldl next 0

/-- What a text puts into the buffers. -/
def emitted (t : List UInt8) : List UInt8 := t.take (t.length - matchAfter t)

theorem next_le (m : ℕ) (c : UInt8) : next m c ≤ 3 := by
  unfold next
  split_ifs <;> omega

theorem matchAfter_snoc (t : List UInt8) (c : UInt8) : matchAfter (t ++ [c]) = next (matchAfter t) c := by
  rw [matchAfter, List.foldl_append]
  rfl

theorem matchAfter_le (t : List UInt8) : matchAfter t ≤ 3 := by
  rcases List.eq_nil_or_concat t with rfl | ⟨t, c, rfl⟩
  · decide
  · rw [List.concat_eq_append, matchAfter_snoc]
    exact next_le _ c

/-- A byte is held back or put into the buffer behind what was held back. -/
theorem emit_next {m : ℕ} (hm : m ≤ 3) (c : UInt8) :
    HEADER.take m ++ [c] = emit m c ++ HEADER.take (next m c) := by
  unfold emit next
  by_cases hlt : m < 3
  · rw [if_pos hlt, if_pos hlt]
    split_ifs with hsame hfirst
    · rw [hsame]
      have hm : m = 0 ∨ m = 1 ∨ m = 2 := by omega
      rcases hm with rfl | rfl | rfl <;> rfl
    · rw [hfirst]
      rfl
    · simp
  · obtain rfl : m = 3 := by omega
    rfl

theorem emitted_of_append {t s : List UInt8} (h : t = s ++ HEADER.take (matchAfter t)) : emitted t = s := by
  have hlen : (HEADER.take (matchAfter t)).length = matchAfter t := by
    have hle := matchAfter_le t
    have hheader : HEADER.length = 4 := rfl
    rw [List.length_take]
    omega
  have hsum := congrArg List.length h
  rw [List.length_append, hlen] at hsum
  rw [emitted, hsum, Nat.add_sub_cancel]
  conv_lhs => rw [h]
  exact List.take_left

theorem emitted_append (t : List UInt8) : emitted t ++ HEADER.take (matchAfter t) = t := by
  induction t using List.reverseRecOn with
  | nil => rfl
  | append_singleton t c ih =>
      have hsnoc : t ++ [c] = (emitted t ++ emit (matchAfter t) c) ++ HEADER.take (matchAfter (t ++ [c])) := by
        rw [matchAfter_snoc, List.append_assoc, ← emit_next (matchAfter_le t) c, ← List.append_assoc, ih]
      rw [emitted_of_append hsnoc, ← hsnoc]

theorem emitted_snoc (t : List UInt8) (c : UInt8) : emitted (t ++ [c]) = emitted t ++ emit (matchAfter t) c := by
  refine emitted_of_append ?_
  rw [matchAfter_snoc, List.append_assoc, ← emit_next (matchAfter_le t) c, ← List.append_assoc, emitted_append]

/-- How many fragments `PK\x07` stand at the end of a text that is given in reverse. -/
def fragments : List UInt8 → ℕ
  | 0x07 :: 0x4b :: 0x50 :: t => fragments t + 1
  | _ => 0

/-- A fragment at the end is held back, unless one stands before it. -/
theorem matchAfter_fragment (t : List UInt8) : matchAfter (t ++ [0x50, 0x4b, 0x07]) = 3 ↔ matchAfter t ≠ 3 := by
  have hle := matchAfter_le t
  have hsplit : t ++ [0x50, 0x4b, 0x07] = t ++ [0x50] ++ [0x4b] ++ [0x07] := by simp
  rw [hsplit, matchAfter_snoc, matchAfter_snoc, matchAfter_snoc]
  have hm : matchAfter t = 0 ∨ matchAfter t = 1 ∨ matchAfter t = 2 ∨ matchAfter t = 3 := by omega
  rcases hm with hm | hm | hm | hm <;> rw [hm] <;> decide

/-- Three bytes of the signature are held back behind an odd number of fragments. -/
theorem matchAfter_eq_three (t : List UInt8) : matchAfter t.reverse = 3 ↔ Odd (fragments t) := by
  fun_induction fragments t with
  | case1 t ih =>
      have hreverse : (0x07 :: 0x4b :: 0x50 :: t).reverse = t.reverse ++ [0x50, 0x4b, 0x07] := by simp
      rw [hreverse, matchAfter_fragment, Nat.odd_add_one, ← ih]
  | case2 t h =>
      refine iff_of_false (fun hthree => ?_) (by decide)
      have hend := emitted_append t.reverse
      rw [hthree] at hend
      have hreverse := congrArg List.reverse hend
      rw [List.reverse_append, List.reverse_reverse] at hreverse
      exact h _ hreverse.symm

/-! ### The rounds of the loop -/

/-- What stands at a place looks like the descriptor of the data before it. -/
def DescribesAt (zip64 : Bool) (bytes : List UInt8) (i : ℕ) : Prop :=
  HEADER <+: bytes.drop i ∧
    (getCompressedSize zip64 ((bytes.drop i).take (FULLHEADER_SIZE zip64))).toNat = i

instance (zip64 : Bool) (bytes : List UInt8) (i : ℕ) : Decidable (DescribesAt zip64 bytes i) :=
  inferInstanceAs (Decidable (_ ∧ _))

section

variable {front T post : List UInt8} {start : BitVec 32} {zip64 : Bool} {length fuel n : ℕ} {L : BitVec 64}
  {buffer : List UInt8} {c : UInt8}

/-- The buffer when `n` bytes behind `front` have been read. -/
def scanning (front T post : List UInt8) (start : BitVec 32) (zip64 : Bool) (n : ℕ) (L : BitVec 64) :
    AutoDetectStreamBuf where
  _pIstr := .at_ (front ++ T) (front.length + n)
  _matchCnt := matchAfter (T.take n)
  _prefix := []
  _postfix := post
  _reposition := false
  _start := start
  _needsZip64 := zip64
  _length := L

theorem take_succ_eq (hc : T[n]? = some c) : T.take (n + 1) = T.take n ++ [c] := by
  rw [List.take_add_one, hc]
  rfl

theorem get_scanning (hc : T[n]? = some c) : (MemoryStream.at_ (front ++ T) (front.length + n)).get =
    (some c, .at_ (front ++ T) (front.length + (n + 1))) := by
  refine MemoryStream.get_at ?_
  rw [List.getElem?_append_right (Nat.le_add_right _ _), Nat.add_sub_cancel_left, hc]

theorem scan_round (hroom : buffer.length + 4 < length) (hc : T[n]? = some c)
    (hno : ¬(matchAfter (T.take n) = 3 ∧ c = HEADER.getD 3 0)) :
    scan length (fuel + 1) (scanning front T post start zip64 n L) buffer =
      scan length fuel (scanning front T post start zip64 (n + 1) L) (buffer ++ emit (matchAfter (T.take n)) c) := by
  have hle := matchAfter_le (T.take n)
  have hgo : (scanning front T post start zip64 n L)._pIstr.good ∧ buffer.length + 4 < length := ⟨rfl, hroom⟩
  have hget : (MemoryStream.at_ (front ++ T) (front.length + n)).get = _ := get_scanning hc
  rw [scan, if_pos hgo]
  simp only [scanning, hget, take_succ_eq hc, matchAfter_snoc]
  generalize matchAfter (T.take n) = m at hle hno
  unfold next emit
  by_cases hlt : m < 3
  · simp only [if_pos hlt]
    by_cases hsame : c = HEADER.getD m 0
    · simp only [if_pos hsame, List.append_nil]
    · by_cases hfirst : c = HEADER.getD 0 0
      · simp only [if_neg hsame, if_pos hfirst]
      · simp only [if_neg hsame, if_neg hfirst, List.append_assoc]
  · have hthree : m = 3 := by omega
    have hlast : ¬HEADER.getD 3 0 = c := fun h => hno ⟨hthree, h.symm⟩
    simp only [if_neg hlt, if_pos hthree, if_neg hlast, List.append_assoc]

theorem drop_signature (hthree : matchAfter (T.take n) = 3) (hc : T[n]? = some (HEADER.getD 3 0)) :
    3 ≤ n ∧ T.drop (n - 3) = HEADER ++ T.drop (n + 1) ∧ emitted (T.take n) = T.take (n - 3) := by
  have hlt : n < T.length := (List.getElem?_eq_some_iff.mp hc).1
  have hend := emitted_append (T.take n)
  rw [hthree] at hend
  have hlen : (T.take n).length = n := List.length_take_of_le hlt.le
  have hemitted : (emitted (T.take n)).length = n - 3 := by
    rw [emitted, hthree, hlen, List.length_take, hlen]
    omega
  have hsum := congrArg List.length hend
  have hheader : (HEADER.take 3).length = 3 := rfl
  rw [List.length_append, hlen, hemitted, hheader] at hsum
  have hall : T = emitted (T.take n) ++ (HEADER ++ T.drop (n + 1)) := by
    have hsplit : HEADER = HEADER.take 3 ++ [HEADER.getD 3 0] := rfl
    calc T = T.take (n + 1) ++ T.drop (n + 1) := (List.take_append_drop _ _).symm
      _ = emitted (T.take n) ++ (HEADER.take 3 ++ [HEADER.getD 3 0]) ++ T.drop (n + 1) := by
        rw [take_succ_eq hc, ← List.append_assoc, hend]
      _ = emitted (T.take n) ++ (HEADER ++ T.drop (n + 1)) := by rw [← hsplit, List.append_assoc]
  refine ⟨by omega, ?_, ?_⟩
  · conv_lhs => rw [hall]
    rw [← hemitted, List.drop_left]
  · conv_rhs => rw [hall]
    rw [← hemitted, List.take_left]

/-- A round that completes the signature: the buffer is at its end, or the signature belongs to the data. -/
theorem scan_signature (hroom : buffer.length + 4 < length) (hthree : matchAfter (T.take n) = 3)
    (hc : T[n]? = some (HEADER.getD 3 0)) (hfit : n - 3 + FULLHEADER_SIZE zip64 ≤ T.length)
    (hL : L + BitVec.ofNat 64 buffer.length = BitVec.ofNat 64 (n - 3)) (hn : n - 3 < 2 ^ 64) :
    scan length (fuel + 1) (scanning front T post start zip64 n L) buffer =
      if DescribesAt zip64 T (n - 3) then
        .ok (endDetected length { scanning front T post start zip64 n L with
          _pIstr := .at_ (front ++ T) (front.length + (n - 3)) } buffer)
      else scan length fuel (scanning front T post start zip64 (n + 1) L) (buffer ++ HEADER) := by
  obtain ⟨hle, hdrop, -⟩ := drop_signature hthree hc
  have hsize : FULLHEADER_SIZE zip64 = HEADER_SIZE + (FULLHEADER_SIZE zip64 - HEADER_SIZE) := by
    cases zip64
    · rfl
    · rfl
  have hheader : HEADER_SIZE = 4 := rfl
  have hblock : HEADER ++ (T.drop (n + 1)).take (FULLHEADER_SIZE zip64 - HEADER_SIZE) =
      (T.drop (n - 3)).take (FULLHEADER_SIZE zip64) := by
    have hfour : HEADER.length = HEADER_SIZE := rfl
    conv_rhs => rw [hdrop, hsize, ← hfour, List.take_length_add_append]
    rfl
  have hread : (MemoryStream.at_ (front ++ T) (front.length + (n + 1))).read (FULLHEADER_SIZE zip64 - HEADER_SIZE) =
      ((T.drop (n + 1)).take (FULLHEADER_SIZE zip64 - HEADER_SIZE),
        .at_ (front ++ T) (front.length + (n + 1) + (FULLHEADER_SIZE zip64 - HEADER_SIZE))) := by
    rw [MemoryStream.read_at (by rw [List.length_append]; omega), List.drop_append]
    have hzero : front.drop (front.length + (n + 1)) = [] := List.drop_eq_nil_of_le (by omega)
    rw [hzero, List.nil_append, Nat.add_sub_cancel_left]
  have hback : (MemoryStream.at_ (front ++ T) (front.length + (n + 1) + (FULLHEADER_SIZE zip64 - HEADER_SIZE))).seekg
      ((front.length + (n + 1) + (FULLHEADER_SIZE zip64 - HEADER_SIZE) : ℕ) - FULLHEADER_SIZE zip64) =
        .at_ (front ++ T) (front.length + (n - 3)) := by
    have htarget : ((front.length + (n + 1) + (FULLHEADER_SIZE zip64 - HEADER_SIZE) : ℕ) : ℤ) - FULLHEADER_SIZE zip64 =
        (front.length + (n - 3) : ℕ) := by omega
    rw [htarget, MemoryStream.seekg_at (by rw [List.length_append]; omega)]
  have hbehind : (MemoryStream.at_ (front ++ T) (front.length + (n + 1) + (FULLHEADER_SIZE zip64 - HEADER_SIZE))).seekg
      ((front.length + (n + 1) + (FULLHEADER_SIZE zip64 - HEADER_SIZE) : ℕ) - (FULLHEADER_SIZE zip64 - 4)) =
        .at_ (front ++ T) (front.length + (n + 1)) := by
    have htarget : ((front.length + (n + 1) + (FULLHEADER_SIZE zip64 - HEADER_SIZE) : ℕ) : ℤ) -
        (FULLHEADER_SIZE zip64 - 4) = (front.length + (n + 1) : ℕ) := by omega
    rw [htarget, MemoryStream.seekg_at (by rw [List.length_append]; omega)]
  have hdescribes : DescribesAt zip64 T (n - 3) ↔ getCompressedSize zip64
      (HEADER ++ (T.drop (n + 1)).take (FULLHEADER_SIZE zip64 - HEADER_SIZE)) =
        L + BitVec.ofNat 64 buffer.length := by
    rw [DescribesAt, ← hblock, hL, ← BitVec.toNat_inj, BitVec.toNat_ofNat, Nat.mod_eq_of_lt hn, hdrop]
    exact and_iff_right (List.prefix_append _ _)
  have hgo : (scanning front T post start zip64 n L)._pIstr.good ∧ buffer.length + 4 < length := ⟨rfl, hroom⟩
  have hget : (MemoryStream.at_ (front ++ T) (front.length + n)).get = _ := get_scanning hc
  have hpos : ∀ pos, (MemoryStream.at_ (front ++ T) pos).pos = pos := fun pos => rfl
  rw [scan, if_pos hgo]
  simp only [scanning, hget, hthree, hread, MemoryStream.good_at, hpos, hback, hbehind,
    Nat.lt_irrefl, if_false, if_true, not_true]
  by_cases hend : DescribesAt zip64 T (n - 3)
  · rw [if_pos hend, if_pos (hdescribes.mp hend)]
  · have hnext : matchAfter (T.take (n + 1)) = 0 := by rw [take_succ_eq hc, matchAfter_snoc, hthree]; rfl
    rw [if_neg hend, if_neg (fun h => hend (hdescribes.mpr h)), hnext]

end

/-! ### The data are delivered -/

/-- The data end at the first place that looks like their descriptor, and no fragment is open there. -/
structure EndsAtDescriptor (zip64 : Bool) (D tail : List UInt8) : Prop where
  describes : DescribesAt zip64 (D ++ tail) D.length
  first : ∀ i < D.length, ¬DescribesAt zip64 (D ++ tail) i
  length_le : FULLHEADER_SIZE zip64 ≤ tail.length
  even : Even (fragments D.reverse)

section

variable {front D tail post : List UInt8} {start : BitVec 32} {zip64 : Bool} {length : ℕ}

/-- In the signature of the descriptor the data are in the buffers. -/
theorem EndsAtDescriptor.in_signature (h : EndsAtDescriptor zip64 D tail) :
    (D ++ tail)[D.length + 3]? = some (HEADER.getD 3 0) ∧ matchAfter ((D ++ tail).take (D.length + 3)) = 3 ∧
      D.length < 2 ^ 64 := by
  have hclosed : matchAfter D ≠ 3 := by
    have hodd := matchAfter_eq_three D.reverse
    rw [List.reverse_reverse] at hodd
    rw [ne_eq, hodd, Nat.not_odd_iff_even]
    exact h.even
  obtain ⟨hheader, hsize⟩ := h.describes
  rw [List.drop_left] at hheader
  obtain ⟨more, rfl⟩ := hheader
  refine ⟨?_, ?_, ?_⟩
  · rw [List.getElem?_append_right (Nat.le_add_right _ _), Nat.add_sub_cancel_left]
    rfl
  · have htake : (D ++ (HEADER ++ more)).take (D.length + 3) = D ++ [0x50, 0x4b, 0x07] := List.take_length_add_append 3
    rw [htake]
    exact (matchAfter_fragment D).mpr hclosed
  · rw [← hsize]
    exact BitVec.isLt _

theorem EndsAtDescriptor.emitted_eq (h : EndsAtDescriptor zip64 D tail) :
    emitted ((D ++ tail).take (D.length + 3)) = D := by
  obtain ⟨hlast, hthree, -⟩ := h.in_signature
  rw [(drop_signature hthree hlast).2.2, Nat.add_sub_cancel, List.take_left]

/-- What the loop does with a stream that holds the data and their descriptor: it fills the buffer or comes
to the end of the data. -/
theorem scan_spec (front post : List UInt8) (start : BitVec 32) (length : ℕ) (h : EndsAtDescriptor zip64 D tail)
    {fuel n : ℕ} (hn : n ≤ D.length + 3)
    (hfuel : D.length + 4 ≤ n + fuel) {L : BitVec 64} {buffer : List UInt8}
    (hL : L + BitVec.ofNat 64 buffer.length = BitVec.ofNat 64 (emitted ((D ++ tail).take n)).length) :
    (∃ out n', n' ≤ D.length + 3 ∧ emitted ((D ++ tail).take n') = emitted ((D ++ tail).take n) ++ out ∧
      length ≤ (buffer ++ out).length + 4 ∧
        scan length fuel (scanning front (D ++ tail) post start zip64 n L) buffer =
          .ok (buffer ++ out, scanning front (D ++ tail) post start zip64 n'
            (BitVec.ofNat 64 (emitted ((D ++ tail).take n')).length))) ∨
    ∃ out, D = emitted ((D ++ tail).take n) ++ out ∧
      scan length fuel (scanning front (D ++ tail) post start zip64 n L) buffer =
        .ok (endDetected length { scanning front (D ++ tail) post start zip64 (D.length + 3) L with
          _pIstr := .at_ (front ++ (D ++ tail)) (front.length + D.length) } (buffer ++ out)) := by
  obtain ⟨hlast, hthree, hlt⟩ := h.in_signature
  have htail := h.length_le
  have hsize : 16 ≤ FULLHEADER_SIZE zip64 := by cases zip64 <;> decide
  induction fuel generalizing n buffer with
  | zero => omega
  | succ fuel ih =>
      by_cases hroom : buffer.length + 4 < length
      · by_cases hend : n = D.length + 3
        · subst hend
          rw [h.emitted_eq] at hL ⊢
          refine Or.inr ⟨[], (List.append_nil D).symm, ?_⟩
          rw [scan_signature hroom hthree hlast (by rw [List.length_append]; omega) hL hlt, List.append_nil]
          exact if_pos h.describes
        · obtain ⟨c, hc⟩ : ∃ c, (D ++ tail)[n]? = some c :=
            ⟨_, List.getElem?_eq_getElem (by rw [List.length_append]; omega)⟩
          have hsnoc : emitted ((D ++ tail).take (n + 1)) =
              emitted ((D ++ tail).take n) ++ emit (matchAfter ((D ++ tail).take n)) c := by
            rw [take_succ_eq hc, emitted_snoc]
          have hstep : scan length (fuel + 1) (scanning front (D ++ tail) post start zip64 n L) buffer =
              scan length fuel (scanning front (D ++ tail) post start zip64 (n + 1) L)
                (buffer ++ emit (matchAfter ((D ++ tail).take n)) c) := by
            by_cases hsignature : matchAfter ((D ++ tail).take n) = 3 ∧ c = HEADER.getD 3 0
            · obtain ⟨hm, rfl⟩ := hsignature
              obtain ⟨hle, -, hbefore⟩ := drop_signature hm hc
              have hlen : (emitted ((D ++ tail).take n)).length = n - 3 := by
                rw [hbefore, List.length_take, List.length_append]
                omega
              rw [hlen] at hL
              rw [scan_signature hroom hm hc (by rw [List.length_append]; omega) hL (by omega),
                if_neg (h.first _ (by omega)), hm]
              rfl
            · exact scan_round hroom hc hsignature
          have hL' : L + BitVec.ofNat 64 (buffer ++ emit (matchAfter ((D ++ tail).take n)) c).length =
              BitVec.ofNat 64 (emitted ((D ++ tail).take (n + 1))).length := by
            rw [hsnoc, List.length_append, List.length_append, BitVec.ofNat_add, ← BitVec.add_assoc, hL, BitVec.ofNat_add]
          rw [hstep]
          rcases ih (by omega) (by omega) hL' with ⟨out, n', hn', hemitted, hfull, hscan⟩ | ⟨out, hD, hscan⟩
          · refine Or.inl ⟨emit (matchAfter ((D ++ tail).take n)) c ++ out, n', hn', ?_, ?_, ?_⟩
            · rw [hemitted, hsnoc, List.append_assoc]
            · rwa [← List.append_assoc]
            · rw [hscan, List.append_assoc]
          · refine Or.inr ⟨emit (matchAfter ((D ++ tail).take n)) c ++ out, ?_, ?_⟩
            · rwa [← List.append_assoc, ← hsnoc]
            · rw [hscan, List.append_assoc]
      · refine Or.inl ⟨[], n, hn, (List.append_nil _).symm, by rw [List.append_nil]; omega, ?_⟩
        have hstop : ¬((scanning front (D ++ tail) post start zip64 n L)._pIstr.good ∧ buffer.length + 4 < length) :=
          fun h => hroom h.2
        rw [scan, if_neg hstop, List.append_nil, ← hL]
        rfl

theorem take_ne_nil {l : List UInt8} {n : ℕ} (hl : l ≠ []) (hn : 0 < n) : l.take n ≠ [] := by
  rw [ne_eq, List.take_eq_nil_iff]
  rintro (h | h)
  · omega
  · exact hl h

/-- The buffer behind the data. -/
def detected (front D tail post : List UInt8) (start : BitVec 32) (zip64 : Bool) (L : BitVec 64) :
    AutoDetectStreamBuf :=
  { scanning front (D ++ tail) post start zip64 (D.length + 3) L with
    _pIstr := .at_ (front ++ (D ++ tail)) (front.length + D.length), _eofDetected := true }

theorem underflow_detected {L : BitVec 64} (hlength : 0 < length) :
    underflow length (detected front D tail post start zip64 L) =
      .ok (post.take length, detected front D tail (post.drop length) start zip64 L) := by
  rw [underflow, readFromDevice, if_neg (by omega)]
  by_cases hpost : post = []
  · subst hpost
    simp [detected, scanning, Except.map]
  · simp [detected, scanning, Except.map, hpost]

theorem drains_behind {sizes : ℕ → ℕ} (hsizes : ∀ i, 8 ≤ sizes i) (L : BitVec 64) :
    DrainsBlocks underflow sizes (detected front D tail post start zip64 L) post
      (detected front D tail [] start zip64 L) := by
  induction hk : post.length using Nat.strong_induction_on generalizing post sizes with
  | _ k ih =>
      have hsize := hsizes 0
      have hunder : underflow (sizes 0) (detected front D tail post start zip64 L) =
          .ok (post.take (sizes 0), detected front D tail (post.drop (sizes 0)) start zip64 L) :=
        underflow_detected (by omega)
      by_cases hpost : post = []
      · subst hpost
        exact .last (by simpa using hunder)
      · have hpos := List.length_pos_of_ne_nil hpost
        have hne : post.take (sizes 0) ≠ [] := take_ne_nil hpost (by omega)
        have hrest := ih (post.drop (sizes 0)).length (by rw [List.length_drop]; omega)
          (fun i => hsizes (i + 1)) rfl
        have hall := DrainsBlocks.block hunder hne hrest
        rwa [List.take_append_drop] at hall

theorem underflow_scanning {n : ℕ} {L : BitVec 64} (hlength : 0 < length) :
    underflow length (scanning front (D ++ tail) post start zip64 n L) =
      scan length ((front ++ (D ++ tail)).length + 2) (scanning front (D ++ tail) post start zip64 n L) [] := by
  have hgood : (scanning front (D ++ tail) post start zip64 n L)._pIstr.good = true := rfl
  rw [underflow, readFromDevice, if_neg (by omega)]
  simp only [scanning] at hgood ⊢
  simp only [Bool.false_eq_true, if_false, false_and, ne_eq, not_true, hgood]
  rw [show (MemoryStream.at_ (front ++ (D ++ tail)) (front.length + n)).bytes = front ++ (D ++ tail) from rfl]
  cases scan length ((front ++ (D ++ tail)).length + 2)
    ⟨.at_ (front ++ (D ++ tail)) (front.length + n), false, matchAfter ((D ++ tail).take n), [], post, false, start, zip64, L⟩ []
  · rfl
  · rfl

/-- What is put into the buffers only grows, up to the data. -/
theorem EndsAtDescriptor.emitted_prefix (h : EndsAtDescriptor zip64 D tail) {n : ℕ} (hn : n ≤ D.length + 3) :
    emitted ((D ++ tail).take n) <+: D := by
  have hgrow : ∀ m, n ≤ m → emitted ((D ++ tail).take n) <+: emitted ((D ++ tail).take m) := by
    intro m hm
    induction m, hm using Nat.le_induction with
    | base => exact List.prefix_refl _
    | succ m _ ih =>
        refine ih.trans ?_
        rw [List.take_add_one]
        cases (D ++ tail)[m]? with
        | none => rw [Option.toList_none, List.append_nil]
        | some c =>
            rw [Option.toList_some, emitted_snoc]
            exact List.prefix_append _ _
  have hlast := hgrow _ hn
  rwa [h.emitted_eq] at hlast

/-- The data that have not been delivered yet, and the postfix. -/
theorem drains_scanning (h : EndsAtDescriptor zip64 D tail) {sizes : ℕ → ℕ} (hsizes : ∀ i, 8 ≤ sizes i) {n : ℕ}
    (hn : n ≤ D.length + 3) {more : List UInt8} (hmore : emitted ((D ++ tail).take n) ++ more = D) :
    DrainsBlocks underflow sizes
      (scanning front (D ++ tail) post start zip64 n (BitVec.ofNat 64 (emitted ((D ++ tail).take n)).length))
      (more ++ post) (detected front D tail [] start zip64 (BitVec.ofNat 64 D.length)) := by
  induction hk : more.length using Nat.strong_induction_on generalizing more n sizes with
  | _ k ih =>
      have hsize := hsizes 0
      have hfuel : D.length + 4 ≤ n + ((front ++ (D ++ tail)).length + 2) := by
        have hlen := h.length_le
        have hsixteen : 16 ≤ FULLHEADER_SIZE zip64 := by cases zip64 <;> decide
        rw [List.length_append, List.length_append]
        omega
      have hL : BitVec.ofNat 64 (emitted ((D ++ tail).take n)).length + BitVec.ofNat 64 ([] : List UInt8).length =
          BitVec.ofNat 64 (emitted ((D ++ tail).take n)).length := BitVec.add_zero _
      have hfirst : underflow (sizes 0) (scanning front (D ++ tail) post start zip64 n
          (BitVec.ofNat 64 (emitted ((D ++ tail).take n)).length)) = _ := underflow_scanning (by omega)
      rcases scan_spec front post start (sizes 0) h hn hfuel hL with
        ⟨out, n', hn', hemitted, hfull, hscan⟩ | ⟨out, hD, hscan⟩
      · -- the buffer is full
        obtain ⟨more', hmore'⟩ := h.emitted_prefix hn'
        have hout : more = out ++ more' := by
          rw [hemitted, List.append_assoc] at hmore'
          exact List.append_cancel_left (hmore.trans hmore'.symm)
        have hne : out ≠ [] := by
          rintro rfl
          simp at hfull
          omega
        have hpos := List.length_pos_of_ne_nil hne
        have hsum := congrArg List.length hout
        rw [List.length_append] at hsum
        rw [hout, List.append_assoc]
        exact .block (hfirst.trans hscan) hne (ih more'.length (by omega) (fun i => hsizes (i + 1)) hn' hmore' rfl)
      · -- the data have ended
        have hout : out = more := List.append_cancel_left (hD.symm.trans hmore.symm)
        subst hout
        have hlength : BitVec.ofNat 64 (emitted ((D ++ tail).take n)).length + BitVec.ofNat 64 out.length =
            BitVec.ofNat 64 D.length := by
          rw [← BitVec.ofNat_add, ← List.length_append, hmore]
        rw [hscan, List.nil_append, endDetected] at hfirst
        simp only [scanning, hlength] at hfirst
        by_cases hout : out = []
        · subst hout
          by_cases hpost : post = []
          · subst hpost
            rw [if_neg (by simp)] at hfirst
            exact .last hfirst
          · have hne : post.take (sizes 0) ≠ [] := take_ne_nil hpost (by omega)
            rw [if_pos ⟨rfl, hpost⟩] at hfirst
            have hrest : DrainsBlocks underflow (fun i => sizes (i + 1))
                (detected front D tail (post.drop (sizes 0)) start zip64 (BitVec.ofNat 64 D.length))
                (post.drop (sizes 0)) (detected front D tail [] start zip64 (BitVec.ofNat 64 D.length)) :=
              drains_behind (fun i => hsizes (i + 1)) _
            have hall := DrainsBlocks.block hfirst hne hrest
            rwa [List.take_append_drop] at hall
        · have hpos := List.length_pos_of_ne_nil hout
          rw [if_neg (by omega)] at hfirst
          exact .block hfirst hout (drains_behind (fun i => hsizes (i + 1)) _)

theorem drains_before (h : EndsAtDescriptor zip64 D tail) (pre : List UInt8) {sizes : ℕ → ℕ}
    (hsizes : ∀ i, 8 ≤ sizes i) :
    DrainsBlocks underflow sizes { scanning front (D ++ tail) post start zip64 0 0 with _prefix := pre }
      (pre ++ D ++ post) (detected front D tail [] start zip64 (BitVec.ofNat 64 D.length)) := by
  induction hk : pre.length using Nat.strong_induction_on generalizing pre sizes with
  | _ k ih =>
      by_cases hpre : pre = []
      · subst hpre
        exact drains_scanning h hsizes (Nat.zero_le _) rfl
      · have hsize := hsizes 0
        have hpos := List.length_pos_of_ne_nil hpre
        have hzero : sizes 0 ≠ 0 := by omega
        have hunder : underflow (sizes 0) { scanning front (D ++ tail) post start zip64 0 0 with _prefix := pre } =
            .ok (pre.take (sizes 0),
              { scanning front (D ++ tail) post start zip64 0 0 with _prefix := pre.drop (sizes 0) }) := by
          simp [underflow, readFromDevice, scanning, hzero, hpre, Except.map]
        have hne : pre.take (sizes 0) ≠ [] := take_ne_nil hpre (by omega)
        have hrest := ih (pre.drop (sizes 0)).length (by rw [List.length_drop]; omega) (pre.drop (sizes 0))
          (fun i => hsizes (i + 1)) rfl
        have hall := DrainsBlocks.block hunder hne hrest
        rwa [← List.append_assoc, ← List.append_assoc, List.take_append_drop] at hall

end

/-- **Main result.** The buffer delivers the prefix, the data and the postfix, and leaves the stream at the
descriptor, for buffers of at least 8 bytes: if no earlier place looks like the descriptor of the data before it,
and no odd number of fragments `PK\x07` ends the data. -/
theorem drains_data {zip64 : Bool} {front D info rest pre post : List UInt8} {start : BitVec 32} {pos : ℕ}
    {reposition : Bool} (hpos : (if reposition then start.toNat else pos) = front.length)
    (hinfo : info.length = FULLHEADER_SIZE zip64) (hheader : HEADER <+: info)
    (hsize : (getCompressedSize zip64 info).toNat = D.length)
    (hfirst : ∀ i < D.length, ¬DescribesAt zip64 (D ++ info ++ rest) i) (hclosed : ¬Odd (fragments D.reverse))
    {sizes : ℕ → ℕ} (hsizes : ∀ i, 8 ≤ sizes i) :
    ∃ b, DrainsBlocks underflow sizes
        (create (.at_ (front ++ D ++ info ++ rest) pos) pre post reposition start zip64) (pre ++ D ++ post) b ∧
      b._pIstr = .at_ (front ++ D ++ info ++ rest) (front.length + D.length) := by
  have hends : EndsAtDescriptor zip64 D (info ++ rest) := by
    refine ⟨⟨?_, ?_⟩, ?_, ?_, Nat.not_odd_iff_even.mp hclosed⟩
    · rw [List.drop_left]
      exact hheader.trans (List.prefix_append info rest)
    · rw [List.drop_left, ← hinfo, List.take_left, hsize]
    · rwa [← List.append_assoc]
    · rw [List.length_append]
      omega
  have hbytes : front ++ D ++ info ++ rest = front ++ (D ++ (info ++ rest)) := by simp only [List.append_assoc]
  have hprefix : DrainsBlocks underflow sizes { scanning front (D ++ (info ++ rest)) post start zip64 0 0 with
      _prefix := pre } (pre ++ D ++ post) _ := drains_before hends pre hsizes
  rw [hbytes]
  refine ⟨_, hprefix.congr ?_, rfl⟩
  have hzero : sizes 0 ≠ 0 := by
    have hsize := hsizes 0
    omega
  cases reposition with
  | false =>
      obtain rfl : pos = front.length := hpos
      rfl
  | true =>
      have hseek : (MemoryStream.at_ (front ++ (D ++ (info ++ rest))) pos).seekg start.toNat =
          .at_ (front ++ (D ++ (info ++ rest))) front.length := by
        have hstart : start.toNat = front.length := hpos
        rw [hstart, MemoryStream.seekg_at (by rw [List.length_append]; omega)]
      simp [underflow, readFromDevice, scanning, create, hzero, hseek, matchAfter]

/-- Data that end in a part of the signature, at a given position, with a prefix and a postfix. -/
theorem drains_data_small :
    ∃ b, DrainsBlocks underflow (fun _ => 8)
        (create (.at_ ([9] ++ [0x41, 0x50, 0x4b] ++ (HEADER ++ [1, 2, 3, 4, 3, 0, 0, 0, 3, 0, 0, 0]) ++ [7]) 0) [5] [6]
          true 1 false) ([5] ++ [0x41, 0x50, 0x4b] ++ [6]) b ∧
      b._pIstr = .at_ ([9] ++ [0x41, 0x50, 0x4b] ++ (HEADER ++ [1, 2, 3, 4, 3, 0, 0, 0, 3, 0, 0, 0]) ++ [7]) 4 :=
  drains_data (by decide) (by decide) (by decide) (by decide) (by decide) (by decide) fun _ => le_rfl

/-- Data that look like the descriptor of no data: nothing is delivered. -/
theorem not_drains_embedded :
    (HEADER ++ [0, 0, 0, 0, 16, 0, 0, 0, 16, 0, 0, 0]).length = FULLHEADER_SIZE false ∧
    (getCompressedSize false (HEADER ++ [0, 0, 0, 0, 16, 0, 0, 0, 16, 0, 0, 0])).toNat =
      (HEADER ++ List.replicate 12 0).length ∧
    ¬∃ b, DrainsBlocks underflow (fun _ => 8)
      (create (.at_ (HEADER ++ List.replicate 12 0 ++ (HEADER ++ [0, 0, 0, 0, 16, 0, 0, 0, 16, 0, 0, 0])) 0) [] []
        false 0 false) (HEADER ++ List.replicate 12 0) b := by
  refine ⟨by decide, by decide, ?_⟩
  rintro ⟨b, hb⟩
  have hnothing : DrainsBlocks underflow (fun _ => 8)
      (create (.at_ (HEADER ++ List.replicate 12 0 ++ (HEADER ++ [0, 0, 0, 0, 16, 0, 0, 0, 16, 0, 0, 0])) 0) [] []
        false 0 false) [] _ := .last rfl
  exact absurd (hb.unique hnothing) (by decide)

end AutoDetectStreamBuf

end Poco.Zip
