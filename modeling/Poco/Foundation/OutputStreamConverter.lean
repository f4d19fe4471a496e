import Mathlib.Data.List.Induction
import Poco.Foundation.StreamConverter

/-! # `OutputStreamConverter`

`writeToDevice` stores a byte in `_buffer`, asks the source encoding as soon as it has as many bytes as
were asked for, and writes the character to the stream behind it.  Only a character makes `_pos` and
`_sequenceLength` zero again: behind a malformed sequence the bytes that follow are stored one behind the
other until the buffer ends, and nothing is converted any more.

So the position stays within the buffer, and the text behind a malformed sequence is converted, exactly if
hardly anything follows one (`converter_meets_iff`). -/

namespace Poco.Foundation

open Poco.Lib TextConverter

/-- The encodings between which bytes are written here. -/
inductive UnicodeName
  | named (name : EncodingName)
  | utf32 (_flipBytes : Bool)
deriving DecidableEq, Repr

/-- The encoding that a name stands for. -/
def UnicodeName.encoding : UnicodeName → TextEncoding
  | named name => name.encoding
  | utf32 _flipBytes => UTF32Encoding _flipBytes

namespace OutputStreamConverter

/-- The members of `StreamConverterBuf`; `_ostr` is what the stream behind it has received. -/
structure StreamConverterBuf where
  _ostr : List UInt8
  _inEncoding : TextEncoding
  _outEncoding : TextEncoding
  _defaultChar : ℤ
  _buffer : List UInt8
  _sequenceLength : ℤ := 0
  _pos : ℕ := 0
  _errors : ℕ := 0

/-- A write behind the end of `_buffer`. -/
inductive Overrun
  | overrun
deriving DecidableEq, Repr

/-- `writeToDevice`: the byte, or nothing for `-1`. -/
def writeToDevice (b : StreamConverterBuf) (c : UInt8) : Except Overrun (Option UInt8 × StreamConverterBuf) :=
  if b._pos < b._buffer.length then
    let buffer := overwrite b._buffer b._pos [c]
    let pos := b._pos + 1
    if b._sequenceLength = 0 ∨ b._sequenceLength = pos then
      let n := b._inEncoding.queryConvert buffer pos
      if -1 ≤ n then
        if -1 = n then
          .ok (none, { b with _buffer := buffer, _pos := pos, _errors := b._errors + 1 })
        else
          let (written, buffer) := Foundation.StreamConverterBuf.encodeInto b._outEncoding b._defaultChar n buffer
          .ok (some c, { b with
            _ostr := b._ostr ++ buffer.take written.toNat
            _buffer := buffer
            _sequenceLength := 0
            _pos := 0 })
      else .ok (some c, { b with _buffer := buffer, _pos := pos, _sequenceLength := -n })
    else .ok (some c, { b with _buffer := buffer, _pos := pos })
  else .error .overrun

/-- One byte after the other, also behind a `-1`. -/
def writeAll (b : StreamConverterBuf) (bytes : List UInt8) : Except Overrun StreamConverterBuf :=
  bytes.foldlM (fun b c => (writeToDevice b c).map Prod.snd) b

/-- A new stream buffer; nothing is stored in the buffer, which holds whatever was there. -/
def create (inEncoding outEncoding : TextEncoding) (defaultChar : ℤ) (memory : List UInt8) : StreamConverterBuf where
  _ostr := []
  _inEncoding := inEncoding
  _outEncoding := outEncoding
  _defaultChar := defaultChar
  _buffer := memory

/-! ### What is promised -/

/-- Whole sequences one behind the other, as `TextConverter` finds them, with results that are `ok`. -/
inductive Sequences (enc : TextEncoding) (ok : ℤ → Prop) : List UInt8 → Prop
  | nil : Sequences enc ok []
  | cons {s t : List UInt8} {n : ℤ} : query enc s = (n, s.length) → ok n → Sequences enc ok t →
      Sequences enc ok (s ++ t)

/-- Whole sequences, well formed or not. -/
def Whole (enc : TextEncoding) : List UInt8 → Prop := Sequences enc (-1 ≤ ·)

/-- Sequences of characters. -/
def WellFormed (enc : TextEncoding) : List UInt8 → Prop := Sequences enc (0 ≤ ·)

/-- A malformed sequence. -/
def Malformed (enc : TextEncoding) (s : List UInt8) : Prop := query enc s = (-1, s.length)

/-- The position stays within the buffer, and behind sequences of any kind a well-formed text is converted as
`TextConverter` converts it. -/
structure Meets (inEncoding outEncoding : TextEncoding) (defaultChar : ℤ) (memory bytes : List UInt8) : Prop where
  inside : ∀ w, w <+: bytes → ∃ b, writeAll (create inEncoding outEncoding defaultChar memory) w = .ok b ∧
    b._pos ≤ MAX_SEQUENCE_LENGTH
  resumes : ∀ pre t, pre ++ t <+: bytes → Whole inEncoding pre → WellFormed inEncoding t → ∃ b b',
    writeAll (create inEncoding outEncoding defaultChar memory) pre = .ok b ∧
      writeAll (create inEncoding outEncoding defaultChar memory) (pre ++ t) = .ok b' ∧
      b'._ostr = b._ostr ++ (convert inEncoding outEncoding defaultChar t).2

/-- Behind the first malformed sequence there are more bytes than the buffer has room for, or there is text. -/
def Interrupted (inEncoding outEncoding : TextEncoding) (defaultChar : ℤ) (bytes : List UInt8) : Prop :=
  ∃ pre s rest, bytes = pre ++ (s ++ rest) ∧ WellFormed inEncoding pre ∧ Malformed inEncoding s ∧
    (MAX_SEQUENCE_LENGTH < s.length + rest.length ∨
      ∃ pre' t, pre' ++ t <+: rest ∧ Whole inEncoding pre' ∧ WellFormed inEncoding t ∧
        (convert inEncoding outEncoding defaultChar t).2 ≠ [])

/-! ### Queries -/

section

variable {enc : TextEncoding} {it it' : List UInt8} {c : UInt8}

/-- There is nothing yet, or the encoding asks for more. -/
def Asking (enc : TextEncoding) (it : List UInt8) : Prop := it = [] ∨ (query enc it).1 < -1

theorem queryLoop_stop (fuel : ℕ) {n : ℤ} (hn : n = enc.queryConvert it it.length) :
    queryLoop enc it fuel n it.length = (n, it.length) := by
  cases fuel with
  | zero => rfl
  | succ fuel =>
      rw [queryLoop, if_neg]
      rintro ⟨hlt, hle⟩
      have hasks := enc.asks it it.length (by omega)
      omega

theorem queryLoop_query {fuel read : ℕ} {n : ℤ} (hn : n = enc.queryConvert it read) :
    (queryLoop enc it fuel n read).1 = enc.queryConvert it (queryLoop enc it fuel n read).2 := by
  induction fuel generalizing n read with
  | zero => exact hn
  | succ fuel ih =>
      rw [queryLoop]
      split_ifs
      · exact ih rfl
      · exact hn

/-- With one byte more, the loop asks once more if this was the last byte asked for. -/
theorem queryLoop_snoc {fuel read : ℕ} {n : ℤ} (hfuel : MAX_SEQUENCE_LENGTH ≤ fuel + read)
    (hn : n = enc.queryConvert it read) (h : (queryLoop enc it fuel n read).1 < -1) :
    (it.length : ℤ) < -(queryLoop enc it fuel n read).1 ∧
      queryLoop enc (it ++ [c]) fuel n read =
        if -(queryLoop enc it fuel n read).1 = it.length + 1 then
          (enc.queryConvert (it ++ [c]) (it.length + 1), it.length + 1)
        else queryLoop enc it fuel n read := by
  have hlen : (it ++ [c]).length = it.length + 1 := by rw [List.length_append, List.length_singleton]
  induction fuel generalizing n read with
  | zero =>
      have hlt : n < -1 := h
      have hasks := enc.asks it read (by omega)
      omega
  | succ fuel ih =>
      by_cases hask : -1 > n ∧ it.length ≥ -n
      · have hasks := enc.asks it read (by omega)
        have hcongr : enc.queryConvert (it ++ [c]) (-n).toNat = enc.queryConvert it (-n).toNat :=
          enc.queryConvert_congr (by omega) fun i hi => byteAt_append_left (by omega)
        have hshort : queryLoop enc it (fuel + 1) n read =
            queryLoop enc it fuel (enc.queryConvert it (-n).toNat) (-n).toNat := by
          rw [queryLoop, if_pos hask]
        have hlong : queryLoop enc (it ++ [c]) (fuel + 1) n read =
            queryLoop enc (it ++ [c]) fuel (enc.queryConvert it (-n).toNat) (-n).toNat := by
          rw [queryLoop, if_pos ⟨hask.1, by omega⟩, hcongr]
        rw [hshort] at h ⊢
        rw [hlong]
        exact ih (by omega) rfl h
      · have hshort : queryLoop enc it (fuel + 1) n read = (n, read) := by rw [queryLoop, if_neg hask]
        rw [hshort] at h ⊢
        dsimp only at h ⊢
        refine ⟨by omega, ?_⟩
        split_ifs with hlast
        · have hnext : (-n).toNat = (it ++ [c]).length := by omega
          rw [queryLoop, if_pos ⟨h, by omega⟩, hnext, queryLoop_stop fuel rfl, hlen]
        · rw [queryLoop, if_neg fun hmore => hlast (by omega)]

theorem query_of_ne_nil (h : it ≠ []) : 1 ≤ (query enc it).2 ∧ (query enc it).2 ≤ it.length :=
  ⟨le_queryLoop rfl, queryLoop_le (List.length_pos_iff.mpr h)⟩

/-- The bytes behind a whole sequence make no difference. -/
theorem query_append (hne : it ≠ []) (h : -1 ≤ (query enc it).1) : query enc (it ++ it') = query enc it := by
  have hfirst : enc.queryConvert (it ++ it') 1 = enc.queryConvert it 1 :=
    enc.queryConvert_congr Nat.one_pos fun i hi =>
      byteAt_append_left (lt_of_lt_of_le hi (List.length_pos_iff.mpr hne))
  unfold query at h ⊢
  rw [hfirst]
  exact queryLoop_append h

theorem sameBytes_take {n k : ℕ} (h : n ≤ k) (it : List UInt8) : SameBytes n (it.take k) it := by
  intro i hi
  rw [byteAt, byteAt, List.getD_eq_getElem?_getD, List.getD_eq_getElem?_getD, List.getElem?_take_of_lt (by omega)]

theorem queryLoop_take {fuel read k : ℕ} {n : ℤ} (h : -1 ≤ (queryLoop enc it fuel n read).1)
    (hk : (queryLoop enc it fuel n read).2 ≤ k) :
    queryLoop enc (it.take k) fuel n read = queryLoop enc it fuel n read := by
  induction fuel generalizing n read with
  | zero => rfl
  | succ fuel ih =>
      by_cases hask : -1 > n ∧ it.length ≥ -n
      · have hnext : queryLoop enc it (fuel + 1) n read =
            queryLoop enc it fuel (enc.queryConvert it (-n).toNat) (-n).toNat := by
          rw [queryLoop, if_pos hask]
        rw [hnext] at h hk ⊢
        have hle : (-n).toNat ≤ k := le_trans (le_queryLoop rfl) hk
        have hcongr : enc.queryConvert (it.take k) (-n).toNat = enc.queryConvert it (-n).toNat :=
          enc.queryConvert_congr (by omega) (sameBytes_take hle it)
        rw [queryLoop, if_pos ⟨hask.1, by rw [List.length_take]; omega⟩, hcongr]
        exact ih h hk
      · have hend : queryLoop enc it (fuel + 1) n read = (n, read) := by rw [queryLoop, if_neg hask]
        rw [hend] at h ⊢
        rw [queryLoop, if_neg fun hmore => absurd hmore.1 (not_lt.mpr h)]

/-- The sequence at the beginning of some bytes is one without the others. -/
theorem query_take (hne : it ≠ []) (h : -1 ≤ (query enc it).1) :
    query enc (it.take (query enc it).2) = ((query enc it).1, (it.take (query enc it).2).length) := by
  obtain ⟨hone, hle⟩ := @query_of_ne_nil enc it hne
  have hlen : (it.take (query enc it).2).length = (query enc it).2 := by
    rw [List.length_take]
    omega
  have hfirst : enc.queryConvert (it.take (query enc it).2) 1 = enc.queryConvert it 1 :=
    enc.queryConvert_congr Nat.one_pos (sameBytes_take hone it)
  rw [hlen, query, hfirst]
  exact queryLoop_take h le_rfl

theorem Asking.query_snoc (h : Asking enc it) (c : UInt8) :
    query enc (it ++ [c]) =
      if it = [] ∨ -(query enc it).1 = it.length + 1 then
        (enc.queryConvert (it ++ [c]) (it.length + 1), it.length + 1)
      else query enc it := by
  rcases h with rfl | h
  · rw [if_pos (Or.inl rfl)]
    exact queryLoop_stop MAX_SEQUENCE_LENGTH rfl
  · by_cases hnil : it = []
    · subst hnil
      rw [if_pos (Or.inl rfl)]
      exact queryLoop_stop MAX_SEQUENCE_LENGTH rfl
    · have hfirst : enc.queryConvert (it ++ [c]) 1 = enc.queryConvert it 1 :=
        enc.queryConvert_congr Nat.one_pos fun i hi =>
          byteAt_append_left (lt_of_lt_of_le hi (List.length_pos_iff.mpr hnil))
      rw [query, hfirst, (queryLoop_snoc (by decide) rfl h).2]
      exact if_congr (by rw [or_iff_right hnil]; rfl) rfl rfl

theorem Asking.length_lt (h : Asking enc it) : it.length < MAX_SEQUENCE_LENGTH ∧
    (it ≠ [] → (it.length : ℤ) < -(query enc it).1) := by
  rcases h with rfl | h
  · exact ⟨by decide, fun hne => absurd rfl hne⟩
  · have hlt : (it.length : ℤ) < -(query enc it).1 := (@queryLoop_snoc enc it 0 _ _ _ (by decide) rfl h).1
    have hlast : (query enc it).1 = enc.queryConvert it (query enc it).2 := queryLoop_query rfl
    have hasks := enc.asks it (query enc it).2 (by rwa [← hlast])
    exact ⟨by omega, fun _ => hlt⟩

/-- One byte less than a whole sequence, or than a part of one, is a part of a sequence. -/
theorem asking_of_snoc (h : -1 ≤ (query enc (it ++ [c])).1 → (query enc (it ++ [c])).2 = it.length + 1) :
    Asking enc it := by
  by_contra hno
  unfold Asking at hno
  rw [not_or, not_lt] at hno
  have hsame := @query_append enc it [c] hno.1 hno.2
  have hle := (@query_of_ne_nil enc it hno.1).2
  rw [hsame] at h
  have := h hno.2
  omega

/-! ### Whole sequences -/

theorem Whole.of_wellFormed {s : List UInt8} (h : WellFormed enc s) : Whole enc s := by
  induction h with
  | nil => exact .nil
  | cons hquery hok _ ih => exact .cons hquery (le_trans (by decide) hok) ih

theorem Sequences.append {ok : ℤ → Prop} {s t : List UInt8} (hs : Sequences enc ok s) (ht : Sequences enc ok t) :
    Sequences enc ok (s ++ t) := by
  induction hs with
  | nil => exact ht
  | cons hquery hok _ ih =>
      rw [List.append_assoc]
      exact .cons hquery hok ih

/-- Whole sequences are well formed up to the first malformed one. -/
theorem Whole.split {s : List UInt8} (h : Whole enc s) : WellFormed enc s ∨
    ∃ pre m rest, s = pre ++ (m ++ rest) ∧ WellFormed enc pre ∧ Malformed enc m ∧ Whole enc rest := by
  induction h with
  | nil => exact Or.inl .nil
  | @cons s t n hquery hok ht ih =>
      by_cases hn : 0 ≤ n
      · rcases ih with hwell | ⟨pre, m, rest, rfl, hpre, hm, hrest⟩
        · exact Or.inl (.cons hquery hn hwell)
        · refine Or.inr ⟨s ++ pre, m, rest, ?_, .cons hquery hn hpre, hm, hrest⟩
          rw [List.append_assoc]
      · obtain rfl : n = -1 := by omega
        exact Or.inr ⟨[], s, t, rfl, .nil, hquery, ht⟩

/-- Any bytes are well formed up to a malformed sequence or to a part of a sequence at the end. -/
theorem exists_split (enc : TextEncoding) (bytes : List UInt8) :
    ∃ pre rest, bytes = pre ++ rest ∧ WellFormed enc pre ∧
      (Asking enc rest ∨ ∃ m r, rest = m ++ r ∧ Malformed enc m) := by
  by_cases hnil : bytes = []
  · exact ⟨[], bytes, rfl, .nil, Or.inl (Or.inl hnil)⟩
  by_cases hask : (query enc bytes).1 < -1
  · exact ⟨[], bytes, rfl, .nil, Or.inl (Or.inr hask)⟩
  have htake := @query_take enc bytes hnil (not_lt.mp hask)
  have hsplit := List.take_append_drop (query enc bytes).2 bytes
  by_cases hn : 0 ≤ (query enc bytes).1
  · have hone := (@query_of_ne_nil enc bytes hnil).1
    have hpos := List.length_pos_iff.mpr hnil
    have hlt : (bytes.drop (query enc bytes).2).length < bytes.length := by
      rw [List.length_drop]
      omega
    obtain ⟨pre, rest, hrest, hpre, hend⟩ := exists_split enc (bytes.drop (query enc bytes).2)
    refine ⟨bytes.take (query enc bytes).2 ++ pre, rest, ?_, .cons htake hn hpre, hend⟩
    rw [List.append_assoc, ← hrest, hsplit]
  · have hminus : (query enc bytes).1 = -1 := by omega
    rw [hminus] at htake
    exact ⟨[], bytes, rfl, .nil, Or.inr ⟨_, _, hsplit.symm, htake⟩⟩
termination_by bytes.length

/-! ### `TextConverter` on whole sequences -/

theorem convertLoop_nil (enc out : TextEncoding) (defaultChar : ℤ) (fuel : ℕ) :
    convertLoop enc out defaultChar id fuel [] = (0, []) := by
  cases fuel <;> rfl

/-- What is left after a round. -/
def rest (enc : TextEncoding) (it : List UInt8) : List UInt8 :=
  if -1 > (query enc it).1 then [] else it.drop (query enc it).2

theorem length_rest_lt (hne : it ≠ []) : (rest enc it).length < it.length := by
  have hpos := List.length_pos_iff.mpr hne
  have hone := (@query_of_ne_nil enc it hne).1
  unfold rest
  split_ifs
  · exact hpos
  · rw [List.length_drop]
    omega

theorem convertLoop_succ (out : TextEncoding) (defaultChar : ℤ) (fuel : ℕ) (hne : it ≠ []) :
    convertLoop enc out defaultChar id (fuel + 1) it =
      ((if -1 ≥ (query enc it).1 then 1 else 0) + (convertLoop enc out defaultChar id fuel (rest enc it)).1,
        encode out defaultChar (if -1 ≥ (query enc it).1 then defaultChar else (query enc it).1) ++
          (convertLoop enc out defaultChar id fuel (rest enc it)).2) := by
  rw [convertLoop]
  · rfl
  · exact hne

theorem convertLoop_fuel (enc out : TextEncoding) (defaultChar : ℤ) {fuel fuel' : ℕ} (h : it.length ≤ fuel)
    (h' : it.length ≤ fuel') :
    convertLoop enc out defaultChar id fuel it = convertLoop enc out defaultChar id fuel' it := by
  induction fuel generalizing fuel' it with
  | zero =>
      obtain rfl : it = [] := List.length_eq_zero_iff.mp (by omega)
      rw [convertLoop_nil, convertLoop_nil]
  | succ fuel ih =>
      by_cases hnil : it = []
      · rw [hnil, convertLoop_nil, convertLoop_nil]
      · have hlt := @length_rest_lt enc it hnil
        have hpos := List.length_pos_iff.mpr hnil
        obtain ⟨fuel', rfl⟩ : ∃ k, fuel' = k + 1 := ⟨fuel' - 1, by omega⟩
        rw [convertLoop_succ out defaultChar fuel hnil, convertLoop_succ out defaultChar fuel' hnil,
          @ih (rest enc it) fuel' (by omega) (by omega)]

theorem convert_cons (out : TextEncoding) (defaultChar : ℤ) {s : List UInt8} {n : ℤ}
    (hquery : query enc s = (n, s.length)) (hn : 0 ≤ n) (t : List UInt8) :
    (convert enc out defaultChar (s ++ t)).2 = encode out defaultChar n ++ (convert enc out defaultChar t).2 := by
  have hne : s ≠ [] := by
    rintro rfl
    have hone : 1 ≤ (query enc []).2 := le_queryLoop rfl
    rw [hquery] at hone
    exact absurd hone (Nat.not_succ_le_zero 0)
  have hsame : query enc (s ++ t) = (n, s.length) := by
    rw [query_append hne (by rw [hquery]; exact le_trans (by decide) hn), hquery]
  have hrest : rest enc (s ++ t) = t := by
    rw [rest, hsame, if_neg (by omega), List.drop_left]
  have happend : s ++ t ≠ [] := fun h => hne (List.append_eq_nil_iff.mp h).1
  have hlt := @length_rest_lt enc (s ++ t) happend
  rw [hrest] at hlt
  obtain ⟨fuel, hfuel⟩ : ∃ fuel, (s ++ t).length = fuel + 1 := ⟨(s ++ t).length - 1, by omega⟩
  unfold convert
  rw [hfuel, convertLoop_succ out defaultChar fuel happend, hrest, hsame,
    convertLoop_fuel enc out defaultChar (show t.length ≤ fuel by omega) le_rfl]
  dsimp only
  rw [if_neg (show ¬-1 ≥ n by omega)]

end

/-! ### One byte -/

section

variable {inEncoding outEncoding : TextEncoding} {defaultChar : ℤ} {ostr it : List UInt8} {k : ℕ}
  {b : StreamConverterBuf}

/-- The buffer holds a part of a sequence; `ostr` has been written. -/
structure Holds (inEncoding outEncoding : TextEncoding) (defaultChar : ℤ) (ostr it : List UInt8)
    (b : StreamConverterBuf) : Prop where
  inEncoding_eq : b._inEncoding = inEncoding
  outEncoding_eq : b._outEncoding = outEncoding
  defaultChar_eq : b._defaultChar = defaultChar
  ostr_eq : b._ostr = ostr
  length_buffer : b._buffer.length = MAX_SEQUENCE_LENGTH
  pos : b._pos = it.length
  stored : b._buffer.take it.length = it
  asking : Asking inEncoding it
  sequenceLength : b._sequenceLength = if it = [] then 0 else -(query inEncoding it).1

/-- The buffer holds a malformed sequence and what follows it, and nothing is asked any more or every answer is
that the sequence is malformed. -/
structure Stuck (inEncoding : TextEncoding) (ostr : List UInt8) (k : ℕ) (b : StreamConverterBuf) : Prop where
  inEncoding_eq : b._inEncoding = inEncoding
  ostr_eq : b._ostr = ostr
  length_buffer : b._buffer.length = MAX_SEQUENCE_LENGTH
  pos : b._pos = k
  pos_pos : 0 < k
  pos_le : k ≤ MAX_SEQUENCE_LENGTH
  asked : (b._sequenceLength ≠ 0 ∧ b._sequenceLength ≤ k) ∨ inEncoding.queryConvert b._buffer 1 = -1

theorem sameBytes_of_take {buffer : List UInt8} (h : buffer.take it.length = it) : SameBytes it.length buffer it := by
  intro i hi
  have hsame := sameBytes_take (le_refl it.length) buffer i hi
  rw [h] at hsame
  exact hsame.symm

theorem take_overwrite_snoc {buffer : List UInt8} (h : buffer.take it.length = it) (c : UInt8) :
    (overwrite buffer it.length [c]).take (it ++ [c]).length = it ++ [c] := by
  rw [overwrite, h]
  exact List.take_left

theorem length_overwrite_one {buffer : List UInt8} (hpos : k < buffer.length) (c : UInt8) :
    (overwrite buffer k [c]).length = buffer.length :=
  overwrite_length hpos

theorem Holds.write (h : Holds inEncoding outEncoding defaultChar ostr it b) (c : UInt8) :
    ∃ r b', writeToDevice b c = .ok (r, b') ∧
      ((query inEncoding (it ++ [c])).1 < -1 →
        Holds inEncoding outEncoding defaultChar ostr (it ++ [c]) b') ∧
      ((query inEncoding (it ++ [c])).1 = -1 → Stuck inEncoding ostr (it.length + 1) b') ∧
      (0 ≤ (query inEncoding (it ++ [c])).1 →
        Holds inEncoding outEncoding defaultChar
          (ostr ++ encode outEncoding defaultChar (query inEncoding (it ++ [c])).1) [] b') := by
  obtain ⟨ostr', enc, out, ch, buffer, sequenceLength, pos, errors⟩ := b
  obtain ⟨rfl, rfl, rfl, rfl, hlen, rfl, hstored, hasking, hseq⟩ := h
  dsimp only at hlen hstored hasking hseq ⊢
  subst hseq
  obtain ⟨hmax, hlt⟩ := hasking.length_lt
  have hfits : it.length < buffer.length := by omega
  have htake := take_overwrite_snoc hstored c
  have hsame : enc.queryConvert (overwrite buffer it.length [c]) (it.length + 1) =
      enc.queryConvert (it ++ [c]) (it.length + 1) := by
    have hsnoc := sameBytes_of_take htake
    rw [List.length_append, List.length_singleton] at hsnoc
    exact enc.queryConvert_congr (Nat.succ_pos _) hsnoc
  have hbuffer := length_overwrite_one hfits c
  have hquery := hasking.query_snoc c
  have hcond : ((if it = [] then 0 else -(query enc it).1) = 0 ∨
      (if it = [] then 0 else -(query enc it).1) = ((it.length + 1 : ℕ) : ℤ)) ↔
      (it = [] ∨ -(query enc it).1 = it.length + 1) := by
    by_cases hnil : it = []
    · rw [if_pos hnil]
      exact ⟨fun _ => Or.inl hnil, fun _ => Or.inl rfl⟩
    · have hpos := hlt hnil
      rw [if_neg hnil, or_iff_right (by omega), or_iff_right hnil, Nat.cast_succ]
  unfold writeToDevice
  dsimp only
  rw [if_pos hfits, if_congr hcond rfl rfl, hsame]
  by_cases hask : it = [] ∨ -(query enc it).1 = it.length + 1
  · -- the sequence is asked about
    rw [if_pos hask] at hquery
    rw [if_pos hask]
    generalize hn : enc.queryConvert (it ++ [c]) (it.length + 1) = n at hquery
    have hone : (query enc (it ++ [c])).1 = n := by rw [hquery]
    rw [hone]
    by_cases hmore : -1 ≤ n
    · rw [if_pos hmore]
      by_cases hminus : -1 = n
      · rw [if_pos hminus]
        refine ⟨none, _, rfl, fun h => absurd h (by omega), fun _ => ⟨rfl, rfl, hbuffer.trans hlen, rfl, Nat.succ_pos _,
          hmax, ?_⟩, fun h => absurd h (by omega)⟩
        dsimp only
        by_cases hnil : it = []
        · subst hnil
          exact Or.inr (hsame.trans (hn.trans hminus.symm))
        · have hlast := hask.resolve_left hnil
          rw [if_neg hnil]
          exact Or.inl ⟨by omega, by push_cast; omega⟩
      · have hencode := Foundation.StreamConverterBuf.encodeInto_eq out ch n (overwrite buffer it.length [c])
        have hle := Foundation.StreamConverterBuf.length_encode_le out ch n
        have hwritten : (overwrite (overwrite buffer it.length [c]) 0 (encode out ch n)).take
            (encode out ch n).length = encode out ch n := by
          rw [overwrite_zero]
          exact List.take_left
        rw [if_neg hminus, hencode]
        dsimp only
        rw [Int.toNat_natCast, hwritten]
        refine ⟨some c, _, rfl, fun h => absurd h (by omega), fun h => absurd h.symm hminus,
          fun _ => ⟨rfl, rfl, rfl, rfl, ?_, rfl, rfl, Or.inl rfl, rfl⟩⟩
        show (overwrite (overwrite buffer it.length [c]) 0 (encode out ch n)).length = MAX_SEQUENCE_LENGTH
        rw [overwrite_length (by omega), hbuffer, hlen]
    · rw [if_neg hmore]
      refine ⟨some c, _, rfl, fun _ => ⟨rfl, rfl, rfl, rfl, hbuffer.trans hlen, ?_, htake, Or.inr (by omega), ?_⟩,
        fun h => absurd h (by omega), fun h => absurd h (by omega)⟩
      · rw [List.length_append, List.length_singleton]
      · rw [if_neg (List.append_ne_nil_of_right_ne_nil it (List.cons_ne_nil c [])), hone]
  · -- more bytes are awaited
    obtain ⟨hnil, -⟩ := not_or.mp hask
    have hless := hasking.resolve_left hnil
    rw [if_neg hask] at hquery
    rw [if_neg hask, hquery]
    refine ⟨some c, _, rfl, fun _ => ⟨rfl, rfl, rfl, rfl, hbuffer.trans hlen, ?_, htake, Or.inr ?_, ?_⟩,
      fun h => absurd h (by omega), fun h => absurd h (by omega)⟩
    · rw [List.length_append, List.length_singleton]
    · rwa [hquery]
    · rw [if_neg (List.append_ne_nil_of_right_ne_nil it (List.cons_ne_nil c [])), hquery]
      exact if_neg hnil

/-- What is malformed after one byte stays malformed with more of them. -/
def Settled (enc : TextEncoding) : Prop :=
  ∀ (bytes : List UInt8) (n : ℕ), 0 < n → enc.queryConvert bytes 1 = -1 → enc.queryConvert bytes n = -1

/-- What is stuck takes bytes as long as there is room for them. -/
theorem Stuck.write (hsettled : Settled inEncoding) (h : Stuck inEncoding ostr k b) (c : UInt8) :
    if k < MAX_SEQUENCE_LENGTH then ∃ r b', writeToDevice b c = .ok (r, b') ∧ Stuck inEncoding ostr (k + 1) b'
    else writeToDevice b c = .error .overrun := by
  obtain ⟨ostr', enc, out, ch, buffer, sequenceLength, pos, errors⟩ := b
  obtain ⟨rfl, rfl, hlen, rfl, hpos, hle, hasked⟩ := h
  dsimp only at hlen hpos hle hasked ⊢
  unfold writeToDevice
  dsimp only
  rw [hlen]
  by_cases hroom : pos < MAX_SEQUENCE_LENGTH
  · have hbuffer := (length_overwrite_one (hlen ▸ hroom) c).trans hlen
    have hfirst : enc.queryConvert (overwrite buffer pos [c]) 1 = enc.queryConvert buffer 1 := by
      refine enc.queryConvert_congr Nat.one_pos fun i hi => ?_
      rw [overwrite, List.append_assoc, byteAt_append_left (by rw [List.length_take]; omega)]
      exact sameBytes_take hpos buffer i (by omega)
    rw [if_pos hroom, if_pos hroom]
    by_cases hask : sequenceLength = 0 ∨ sequenceLength = ((pos + 1 : ℕ) : ℤ)
    · -- the answer is the same as for the first byte
      have hone : enc.queryConvert buffer 1 = -1 := hasked.resolve_left fun h => by omega
      have hanswer := hsettled _ (pos + 1) (Nat.succ_pos pos) (hfirst.trans hone)
      rw [if_pos hask, hanswer, if_pos le_rfl, if_pos rfl]
      exact ⟨none, _, rfl, rfl, rfl, hbuffer, rfl, Nat.succ_pos _, hroom, Or.inr (hfirst.trans hone)⟩
    · rw [if_neg hask]
      refine ⟨some c, _, rfl, rfl, rfl, hbuffer, rfl, Nat.succ_pos _, hroom, ?_⟩
      rcases hasked with ⟨hne, hlast⟩ | hone
      · exact Or.inl ⟨hne, by push_cast; omega⟩
      · exact Or.inr (hfirst.trans hone)
  · rw [if_neg hroom, if_neg hroom]

/-! ### Runs -/

theorem writeAll_append (b : StreamConverterBuf) (s t : List UInt8) :
    writeAll b (s ++ t) = writeAll b s >>= fun b => writeAll b t := List.foldlM_append

theorem writeAll_snoc {b b' : StreamConverterBuf} {s : List UInt8} (h : writeAll b s = .ok b') (c : UInt8) :
    writeAll b (s ++ [c]) = (writeToDevice b' c).map Prod.snd := by
  rw [writeAll_append, h]
  show writeAll b' [c] = _
  unfold writeAll
  rw [List.foldlM_cons]
  cases writeToDevice b' c <;> rfl

theorem Holds.part (h : Holds inEncoding outEncoding defaultChar ostr [] b) {p : List UInt8}
    (hp : Asking inEncoding p) :
    ∃ b', writeAll b p = .ok b' ∧ Holds inEncoding outEncoding defaultChar ostr p b' := by
  induction p using List.reverseRecOn with
  | nil => exact ⟨b, rfl, h⟩
  | append_singleton p c ih =>
      have hless : (query inEncoding (p ++ [c])).1 < -1 :=
        hp.resolve_left (List.append_ne_nil_of_right_ne_nil p (List.cons_ne_nil c []))
      obtain ⟨b₁, hrun, hholds⟩ := ih (asking_of_snoc fun hge => absurd hge (not_le.mpr hless))
      obtain ⟨r, b', hwrite, hmore, -, -⟩ := hholds.write c
      refine ⟨b', ?_, hmore hless⟩
      rw [writeAll_snoc hrun, hwrite]
      rfl

theorem Holds.sequence (h : Holds inEncoding outEncoding defaultChar ostr [] b) {s : List UInt8} {n : ℤ}
    (hquery : query inEncoding s = (n, s.length)) :
    ∃ b', writeAll b s = .ok b' ∧ (n = -1 → Stuck inEncoding ostr s.length b') ∧
      (0 ≤ n → Holds inEncoding outEncoding defaultChar (ostr ++ encode outEncoding defaultChar n) [] b') := by
  induction s using List.reverseRecOn with
  | nil =>
      have hone : 1 ≤ (query inEncoding []).2 := le_queryLoop rfl
      rw [hquery] at hone
      exact absurd hone (Nat.not_succ_le_zero 0)
  | append_singleton p c _ =>
      rw [List.length_append, List.length_singleton] at hquery ⊢
      have hasking : Asking inEncoding p := asking_of_snoc fun _ => by rw [hquery]
      obtain ⟨b₁, hrun, hholds⟩ := h.part hasking
      obtain ⟨r, b', hwrite, -, hmalformed, hchar⟩ := hholds.write c
      rw [hquery] at hmalformed hchar
      refine ⟨b', ?_, hmalformed, hchar⟩
      rw [writeAll_snoc hrun, hwrite]
      rfl

theorem Holds.wellFormed {t : List UInt8} (ht : WellFormed inEncoding t)
    (h : Holds inEncoding outEncoding defaultChar ostr [] b) :
    ∃ b', writeAll b t = .ok b' ∧
      Holds inEncoding outEncoding defaultChar (ostr ++ (convert inEncoding outEncoding defaultChar t).2) [] b' := by
  induction ht generalizing ostr b with
  | nil =>
      refine ⟨b, rfl, ?_⟩
      rwa [show (convert inEncoding outEncoding defaultChar []).2 = [] from rfl, List.append_nil]
  | cons hquery hok _ ih =>
      obtain ⟨b₁, hrun, -, hchar⟩ := h.sequence hquery
      obtain ⟨b', hrest, hholds⟩ := ih (hchar hok)
      refine ⟨b', ?_, ?_⟩
      · rw [writeAll_append, hrun]
        exact hrest
      · rwa [convert_cons outEncoding defaultChar hquery hok, ← List.append_assoc]

/-- Behind a malformed sequence the buffer is filled, and then left. -/
theorem Stuck.run (hsettled : Settled inEncoding) (h : Stuck inEncoding ostr k b) (r : List UInt8) :
    if k + r.length ≤ MAX_SEQUENCE_LENGTH then
      ∃ b', writeAll b r = .ok b' ∧ Stuck inEncoding ostr (k + r.length) b'
    else writeAll b r = .error .overrun := by
  induction r generalizing k b with
  | nil =>
      rw [List.length_nil, Nat.add_zero, if_pos h.pos_le]
      exact ⟨b, rfl, h⟩
  | cons c r ih =>
      have hcons : writeAll b (c :: r) = (writeToDevice b c).map Prod.snd >>= fun b => writeAll b r :=
        List.foldlM_cons
      have hlen : (c :: r).length = r.length + 1 := List.length_cons
      have hwrite := h.write hsettled c
      rw [hcons, hlen]
      by_cases hroom : k < MAX_SEQUENCE_LENGTH
      · rw [if_pos hroom] at hwrite
        obtain ⟨x, b₁, heq, hstuck⟩ := hwrite
        have hrun := ih hstuck
        rw [heq, ← Nat.add_assoc, Nat.add_right_comm]
        exact hrun
      · rw [if_neg hroom] at hwrite
        rw [hwrite, if_neg (by omega)]
        rfl

end

/-! ### The encodings -/

theorem UTF8Encoding_settled : Settled UTF8Encoding := by
  intro bytes n hn hone
  have hone' : UTF8Encoding.queryConvert bytes ((1 : ℕ) : ℤ) = -1 := hone
  show UTF8Encoding.queryConvert bytes (n : ℤ) = -1
  have hge := UTF8Encoding.convertSequence_ge bytes (byteAt bytes 0)
  unfold UTF8Encoding.queryConvert at hone' ⊢
  dsimp only at hone' ⊢
  generalize UTF8Encoding._charMap (byteAt bytes 0) = m at hone' hge ⊢
  split_ifs at hone' with hmore
  · omega
  · rw [if_neg (by omega)]
    exact hone'

/-- A byte that is malformed for itself stays so with other bytes behind it. -/
theorem settled (name : UnicodeName) : Settled name.encoding := by
  intro bytes n hn hone
  rcases name with (_ | _flipBytes | _ | _) | _flipBytes
  · exact UTF8Encoding_settled bytes n hn hone
  · cases hone
  · have hone' : Latin1Encoding.queryConvert bytes 1 = -1 := hone
    rw [Latin1Encoding.queryConvert, if_pos le_rfl] at hone'
    omega
  · have hone' : ASCIIEncoding.queryConvert bytes 1 = -1 := hone
    show ASCIIEncoding.queryConvert bytes n = -1
    rw [ASCIIEncoding.queryConvert, if_pos le_rfl] at hone'
    rw [ASCIIEncoding.queryConvert, if_pos (show 1 ≤ n from hn), hone']
  · cases hone

/-! ### The promise -/

section

variable {inEncoding outEncoding : TextEncoding} {defaultChar : ℤ} {memory bytes : List UInt8}

theorem holds_create (hmemory : memory.length = MAX_SEQUENCE_LENGTH) :
    Holds inEncoding outEncoding defaultChar [] [] (create inEncoding outEncoding defaultChar memory) :=
  ⟨rfl, rfl, rfl, rfl, hmemory, rfl, rfl, Or.inl rfl, rfl⟩

/-- A text with a malformed sequence and what follows it. -/
theorem run_malformed (hsettled : Settled inEncoding) (hmemory : memory.length = MAX_SEQUENCE_LENGTH)
    {pre m : List UInt8} (hpre : WellFormed inEncoding pre) (hm : Malformed inEncoding m) (r : List UInt8) :
    if m.length + r.length ≤ MAX_SEQUENCE_LENGTH then
      ∃ b', writeAll (create inEncoding outEncoding defaultChar memory) (pre ++ (m ++ r)) = .ok b' ∧
        Stuck inEncoding (convert inEncoding outEncoding defaultChar pre).2 (m.length + r.length) b'
    else writeAll (create inEncoding outEncoding defaultChar memory) (pre ++ (m ++ r)) = .error .overrun := by
  obtain ⟨b₁, hrun₁, hholds⟩ := (holds_create hmemory).wellFormed hpre
  obtain ⟨b₂, hrun₂, hstuck, -⟩ := hholds.sequence hm
  have hrun := (hstuck rfl).run hsettled r
  have hall : writeAll (create inEncoding outEncoding defaultChar memory) (pre ++ (m ++ r)) = writeAll b₂ r := by
    rw [writeAll_append, hrun₁]
    show writeAll b₁ (m ++ r) = _
    rw [writeAll_append, hrun₂]
    rfl
  rw [hall]
  exact hrun

theorem ostr_of_malformed (hsettled : Settled inEncoding) (hmemory : memory.length = MAX_SEQUENCE_LENGTH)
    {pre m r : List UInt8} (hpre : WellFormed inEncoding pre) (hm : Malformed inEncoding m) {b : StreamConverterBuf}
    (hrun : writeAll (create inEncoding outEncoding defaultChar memory) (pre ++ (m ++ r)) = .ok b) :
    b._ostr = (convert inEncoding outEncoding defaultChar pre).2 := by
  have hall := @run_malformed inEncoding outEncoding defaultChar memory hsettled hmemory pre m hpre hm r
  rw [hrun] at hall
  split_ifs at hall
  obtain ⟨b', hb, hstuck⟩ := hall
  cases hb
  exact hstuck.ostr_eq

theorem not_interrupted_length (h : ¬Interrupted inEncoding outEncoding defaultChar bytes) {pre m r : List UInt8}
    (hpref : pre ++ (m ++ r) <+: bytes) (hpre : WellFormed inEncoding pre) (hm : Malformed inEncoding m) :
    m.length + r.length ≤ MAX_SEQUENCE_LENGTH := by
  obtain ⟨u, rfl⟩ := hpref
  by_contra hlong
  refine h ⟨pre, m, r ++ u, by rw [List.append_assoc, List.append_assoc], hpre, hm, Or.inl ?_⟩
  rw [List.length_append]
  omega

theorem inside_of_not_interrupted (hsettled : Settled inEncoding) (hmemory : memory.length = MAX_SEQUENCE_LENGTH)
    (h : ¬Interrupted inEncoding outEncoding defaultChar bytes) {w : List UInt8} (hw : w <+: bytes) :
    ∃ b, writeAll (create inEncoding outEncoding defaultChar memory) w = .ok b ∧ b._pos ≤ MAX_SEQUENCE_LENGTH := by
  obtain ⟨pre, rest, rfl, hpre, hasking | ⟨m, r, rfl, hm⟩⟩ := exists_split inEncoding w
  · obtain ⟨b₁, hrun₁, hholds⟩ := (@holds_create inEncoding outEncoding defaultChar memory hmemory).wellFormed hpre
    obtain ⟨b', hrun, hholds'⟩ := hholds.part hasking
    refine ⟨b', ?_, hholds'.pos.trans_le hasking.length_lt.1.le⟩
    rw [writeAll_append, hrun₁]
    exact hrun
  · have hrun := @run_malformed inEncoding outEncoding defaultChar memory hsettled hmemory pre m hpre hm r
    rw [if_pos (not_interrupted_length h hw hpre hm)] at hrun
    obtain ⟨b', hrun, hstuck⟩ := hrun
    exact ⟨b', hrun, hstuck.pos.trans_le hstuck.pos_le⟩

theorem resumes_of_not_interrupted (hsettled : Settled inEncoding) (hmemory : memory.length = MAX_SEQUENCE_LENGTH)
    (h : ¬Interrupted inEncoding outEncoding defaultChar bytes) {pre t : List UInt8} (hpref : pre ++ t <+: bytes)
    (hpre : Whole inEncoding pre) (ht : WellFormed inEncoding t) :
    ∃ b b', writeAll (create inEncoding outEncoding defaultChar memory) pre = .ok b ∧
      writeAll (create inEncoding outEncoding defaultChar memory) (pre ++ t) = .ok b' ∧
      b'._ostr = b._ostr ++ (convert inEncoding outEncoding defaultChar t).2 := by
  rcases hpre.split with hwell | ⟨pre₁, m, rest, rfl, hpre₁, hm, hrest⟩
  · obtain ⟨b, hrun, hholds⟩ := (@holds_create inEncoding outEncoding defaultChar memory hmemory).wellFormed hwell
    obtain ⟨b', hrun', hholds'⟩ := hholds.wellFormed ht
    refine ⟨b, b', hrun, ?_, ?_⟩
    · rw [writeAll_append, hrun]
      exact hrun'
    · rw [hholds'.ostr_eq, hholds.ostr_eq]
  · -- nothing has been written since the malformed sequence
    have hassoc : pre₁ ++ (m ++ rest) ++ t = pre₁ ++ (m ++ (rest ++ t)) := by
      rw [List.append_assoc, List.append_assoc]
    rw [hassoc] at hpref ⊢
    have hlong := not_interrupted_length h hpref hpre₁ hm
    have hlen : (rest ++ t).length = rest.length + t.length := List.length_append
    have hrun := @run_malformed inEncoding outEncoding defaultChar memory hsettled hmemory pre₁ m hpre₁ hm rest
    have hrun' := @run_malformed inEncoding outEncoding defaultChar memory hsettled hmemory pre₁ m hpre₁ hm (rest ++ t)
    rw [if_pos (by omega)] at hrun
    rw [if_pos hlong] at hrun'
    obtain ⟨b, hrun, hstuck⟩ := hrun
    obtain ⟨b', hrun', hstuck'⟩ := hrun'
    have hnone : (convert inEncoding outEncoding defaultChar t).2 = [] := by
      by_contra hsome
      obtain ⟨u, rfl⟩ := hpref
      refine h ⟨pre₁, m, rest ++ t ++ u, ?_, hpre₁, hm, Or.inr ⟨rest, t, List.prefix_append _ _, hrest, ht, hsome⟩⟩
      rw [List.append_assoc, List.append_assoc]
    refine ⟨b, b', hrun, hrun', ?_⟩
    rw [hnone, List.append_nil, hstuck.ostr_eq, hstuck'.ostr_eq]

end

/-- **Main result.**  For bytes in any of these encodings the position stays within the buffer, and text behind
a malformed sequence is converted, exactly if behind the first malformed sequence there are no more bytes than
the buffer has room for, and no text. -/
theorem converter_meets_iff (inName outName : UnicodeName) (defaultChar : ℤ) {memory : List UInt8}
    (hmemory : memory.length = MAX_SEQUENCE_LENGTH) (bytes : List UInt8) :
    Meets inName.encoding outName.encoding defaultChar memory bytes ↔
      ¬Interrupted inName.encoding outName.encoding defaultChar bytes := by
  have hsettled := settled inName
  constructor
  · rintro h ⟨pre, m, rest, rfl, hpre, hm, hlong | ⟨pre', t, ⟨u, rfl⟩, hpre', ht, hsome⟩⟩
    · obtain ⟨b, hrun, -⟩ := h.inside _ List.prefix_rfl
      have hover := @run_malformed _ outName.encoding defaultChar memory hsettled hmemory pre m hpre hm rest
      rw [if_neg (not_le.mpr hlong), hrun] at hover
      cases hover
    · have hassoc : pre ++ (m ++ (pre' ++ t)) = pre ++ (m ++ pre') ++ t := by
        rw [List.append_assoc, List.append_assoc]
      have hpref : pre ++ (m ++ pre') ++ t <+: pre ++ (m ++ (pre' ++ t ++ u)) :=
        ⟨u, by simp only [List.append_assoc]⟩
      have hwhole : Whole inName.encoding (pre ++ (m ++ pre')) :=
        (Whole.of_wellFormed hpre).append (.cons hm le_rfl hpre')
      obtain ⟨b, b', hrun, hrun', hresumes⟩ := h.resumes _ t hpref hwhole ht
      rw [← hassoc] at hrun'
      rw [ostr_of_malformed hsettled hmemory hpre hm hrun, ostr_of_malformed hsettled hmemory hpre hm hrun',
        List.self_eq_append_right] at hresumes
      exact hsome hresumes
  · intro h
    exact ⟨fun w hw => inside_of_not_interrupted hsettled hmemory h hw,
      fun pre t hpref hpre ht => resumes_of_not_interrupted hsettled hmemory h hpref hpre ht⟩

/-- Two letters, the second one of two bytes, and a malformed byte at the end: the letters are converted. -/
theorem converter_meets_malformed :
    ([0, 0, 0, 0] : List UInt8).length = MAX_SEQUENCE_LENGTH ∧
      (Meets (UnicodeName.named .utf8).encoding (UnicodeName.named .latin1).encoding 0x3F [0, 0, 0, 0]
          [0x41, 0xC3, 0xA9, 0xFF] ↔
        ¬Interrupted (UnicodeName.named .utf8).encoding (UnicodeName.named .latin1).encoding 0x3F
          [0x41, 0xC3, 0xA9, 0xFF]) ∧
      (writeAll (create (UnicodeName.named .utf8).encoding (UnicodeName.named .latin1).encoding 0x3F [0, 0, 0, 0])
        [0x41, 0xC3, 0xA9, 0xFF]).map (·._ostr) = .ok [0x41, 0xE9] :=
  ⟨rfl, converter_meets_iff (.named .utf8) (.named .latin1) 0x3F rfl _, rfl⟩

/-- The byte `0xFF` and four letters: the last one is written behind the buffer. -/
theorem not_meets_overrun :
    ¬Meets UTF8Encoding UTF8Encoding 0x3F [0, 0, 0, 0] [0xFF, 0x41, 0x41, 0x41, 0x41] := by
  intro h
  obtain ⟨b, hrun, -⟩ := h.inside _ List.prefix_rfl
  have hover : writeAll (create UTF8Encoding UTF8Encoding 0x3F [0, 0, 0, 0]) [0xFF, 0x41, 0x41, 0x41, 0x41] =
      .error .overrun := rfl
  rw [hover] at hrun
  cases hrun

end OutputStreamConverter

end Poco.Foundation
