import Poco.Foundation.TextEncoding
import Poco.Lib.Memory
import Poco.Lib.Streams
import Mathlib.Logic.Function.Iterate

/-! # `TextConverter` and `InputStreamConverter`

Both decode a text sequence by sequence and encode every character again.  `TextConverter::convert` has
all of the bytes before it and stops where they end; `StreamConverterBuf` collects the bytes of a
sequence in `_buffer`, which also takes the encoded character, and does not notice when the stream
ends before the sequence does: it then decodes what earlier sequences left in `_buffer`.

So the two agree unless the bytes that are left over complete the last sequence (`agrees_iff`). -/

namespace Poco.Foundation

open Poco.Lib

/-! ### In memory -/

namespace TextConverter

/-- The loop that asks for the length of a sequence, in `convert`: the result of the last
`queryConvert` and the number of bytes it has been given.  The numbers of bytes increase, so
`MAX_SEQUENCE_LENGTH` rounds are enough. -/
def queryLoop (inEncoding : TextEncoding) (it : List UInt8) : ℕ → ℤ → ℕ → ℤ × ℕ
  | 0, n, read => (n, read)
  | fuel + 1, n, read =>
      if -1 > n ∧ it.length ≥ -n then
        queryLoop inEncoding it fuel (inEncoding.queryConvert it (-n).toNat) (-n).toNat
      else (n, read)

/-- The sequence at the beginning of some bytes. -/
def query (inEncoding : TextEncoding) (it : List UInt8) : ℤ × ℕ :=
  queryLoop inEncoding it MAX_SEQUENCE_LENGTH (inEncoding.queryConvert it 1) 1

/-- The bytes of a character, or of the default character if it cannot be encoded. -/
def encode (outEncoding : TextEncoding) (defaultChar uc : ℤ) : List UInt8 :=
  let (n, buffer) := outEncoding.convertChar uc MAX_SEQUENCE_LENGTH
  if n = 0 then (outEncoding.convertChar defaultChar MAX_SEQUENCE_LENGTH).2 else buffer

/-- The loop of `convert`; every round takes a byte.  It gives the number of errors and what is
appended to the destination. -/
def convertLoop (inEncoding outEncoding : TextEncoding) (defaultChar : ℤ) (trans : ℤ → ℤ) :
    ℕ → List UInt8 → ℕ × List UInt8
  | 0, _ => (0, [])
  | _, [] => (0, [])
  | fuel + 1, it =>
      let (n, read) := query inEncoding it
      let next := if -1 > n then [] else it.drop read
      let uc := trans (if -1 ≥ n then defaultChar else n)
      let (errors, destination) := convertLoop inEncoding outEncoding defaultChar trans fuel next
      ((if -1 ≥ n then 1 else 0) + errors, encode outEncoding defaultChar uc ++ destination)

/-- `convert(source, length, destination)`, with `nullTransform`. -/
def convert (inEncoding outEncoding : TextEncoding) (defaultChar : ℤ) (source : List UInt8) :
    ℕ × List UInt8 :=
  convertLoop inEncoding outEncoding defaultChar id source.length source

end TextConverter

/-! ### As a stream -/

/-- The members of `StreamConverterBuf`; `_istr` is what is left of the stream. -/
structure StreamConverterBuf where
  _istr : List UInt8
  _inEncoding : TextEncoding
  _outEncoding : TextEncoding
  _defaultChar : ℤ
  _buffer : List UInt8
  _sequenceLength : ℕ := 0
  _pos : ℕ := 0
  _errors : ℕ := 0

namespace StreamConverterBuf

/-- The loop that reads a sequence, in `readFromDevice`: the result of the last `queryConvert`, the
buffer and the stream.  `read` gets what there is of the bytes that are asked for. -/
def fillLoop (inEncoding : TextEncoding) : ℕ → ℤ → ℕ → List UInt8 → List UInt8 →
    ℤ × List UInt8 × List UInt8
  | 0, n, _, buffer, istr => (n, buffer, istr)
  | fuel + 1, n, read, buffer, istr =>
      if -1 > n then
        let count := (-n).toNat - read
        let buffer := overwrite buffer read (istr.take count)
        fillLoop inEncoding fuel (inEncoding.queryConvert buffer (-n).toNat) (-n).toNat buffer
          (istr.drop count)
      else (n, buffer, istr)

/-- The end of `readFromDevice`: `_sequenceLength` and the buffer after a character, or the default
character, has been encoded. -/
def encodeInto (outEncoding : TextEncoding) (defaultChar uc : ℤ) (buffer : List UInt8) :
    ℤ × List UInt8 :=
  let (sequenceLength, bytes) := outEncoding.convertChar uc MAX_SEQUENCE_LENGTH
  let buffer := overwrite buffer 0 bytes
  if sequenceLength = 0 then
    let (sequenceLength, bytes) := outEncoding.convertChar defaultChar MAX_SEQUENCE_LENGTH
    (sequenceLength, overwrite buffer 0 bytes)
  else (sequenceLength, buffer)

/-- The part of `readFromDevice` that converts the next sequence; `_sequenceLength` is zero at the end
of the stream, and if not even the default character can be encoded. -/
def fetch (b : StreamConverterBuf) : StreamConverterBuf :=
  match b._istr with
  | [] => { b with _pos := 0, _sequenceLength := 0 }
  | c :: istr =>
      let buffer := overwrite b._buffer 0 [c]
      let (n, buffer, istr) := fillLoop b._inEncoding MAX_SEQUENCE_LENGTH
        (b._inEncoding.queryConvert buffer 1) 1 buffer istr
      let uc := if -1 ≥ n then b._defaultChar else n
      let (sequenceLength, buffer) := encodeInto b._outEncoding b._defaultChar uc buffer
      { b with
        _istr := istr
        _buffer := buffer
        _sequenceLength := sequenceLength.toNat
        _pos := 0
        _errors := if -1 ≥ n then b._errors + 1 else b._errors }

/-- `readFromDevice`. -/
def readFromDevice : EStateM Empty StreamConverterBuf (Option UInt8) := do
  let b ← get
  if b._pos < b._sequenceLength then
    set { b with _pos := b._pos + 1 }
    return some (byteAt b._buffer b._pos)
  else
    let b := b.fetch
    if b._sequenceLength = 0 then
      set b
      return none
    else
      set { b with _pos := b._pos + 1 }
      return some (byteAt b._buffer b._pos)

/-- A new stream buffer; nothing is stored in the buffer, which holds whatever was there. -/
def create (istr : List UInt8) (inEncoding outEncoding : TextEncoding) (defaultChar : ℤ)
    (memory : List UInt8) : StreamConverterBuf where
  _istr := istr
  _inEncoding := inEncoding
  _outEncoding := outEncoding
  _defaultChar := defaultChar
  _buffer := memory

end StreamConverterBuf

/-! ### Sequences -/

theorem byteAt_append_left {bs bs' : List UInt8} {i : ℕ} (h : i < bs.length) :
    byteAt (bs ++ bs') i = byteAt bs i := by
  rw [byteAt, byteAt, List.getD_eq_getElem?_getD, List.getD_eq_getElem?_getD, List.getElem?_append_left h]

namespace TextConverter

section

variable {enc : TextEncoding} {it it' : List UInt8} {fuel read : ℕ} {n : ℤ}

theorem le_queryLoop (hn : n = enc.queryConvert it read) :
    read ≤ (queryLoop enc it fuel n read).2 := by
  induction fuel generalizing n read with
  | zero => exact le_rfl
  | succ fuel ih =>
      rw [queryLoop]
      split_ifs with h
      · have hasks := enc.asks it read (by omega)
        exact le_trans (by omega) (ih rfl)
      · exact le_rfl

/-- A loop that gets all the bytes it asks for ends with an answer. -/
theorem queryLoop_ge (hfuel : MAX_SEQUENCE_LENGTH ≤ fuel + read) (hn : n = enc.queryConvert it read)
    (hlen : MAX_SEQUENCE_LENGTH ≤ it.length) : -1 ≤ (queryLoop enc it fuel n read).1 := by
  induction fuel generalizing n read with
  | zero =>
      by_contra h
      have hlt : n < -1 := not_le.mp h
      have hasks := enc.asks it read (by omega)
      omega
  | succ fuel ih =>
      rw [queryLoop]
      split_ifs with h
      · have hasks := enc.asks it read (by omega)
        exact ih (by omega) rfl
      · have hasks := enc.asks it read
        show -1 ≤ n
        omega

theorem queryLoop_append (h : -1 ≤ (queryLoop enc it fuel n read).1) :
    queryLoop enc (it ++ it') fuel n read = queryLoop enc it fuel n read := by
  induction fuel generalizing n read with
  | zero => rfl
  | succ fuel ih =>
      have hlen : (it ++ it').length = it.length + it'.length := List.length_append
      rw [queryLoop] at h ⊢
      rw [queryLoop]
      split_ifs at h with hask
      · have hcongr : enc.queryConvert (it ++ it') (-n).toNat = enc.queryConvert it (-n).toNat :=
          enc.queryConvert_congr (by omega) fun i hi => byteAt_append_left (by omega)
        rw [if_pos ⟨hask.1, by omega⟩, if_pos hask, hcongr, ih h]
      · have hn : ¬(-1 > n) := not_lt.mpr h
        rw [if_neg (fun h => hn h.1), if_neg hask]

theorem queryLoop_le (hread : read ≤ it.length) : (queryLoop enc it fuel n read).2 ≤ it.length := by
  induction fuel generalizing n read with
  | zero => exact hread
  | succ fuel ih =>
      rw [queryLoop]
      split_ifs with h
      · exact ih (by omega)
      · exact hread

theorem queryLoop_le_max (hread : read ≤ MAX_SEQUENCE_LENGTH) (hn : n = enc.queryConvert it read) :
    (queryLoop enc it fuel n read).2 ≤ MAX_SEQUENCE_LENGTH := by
  induction fuel generalizing n read with
  | zero => exact hread
  | succ fuel ih =>
      rw [queryLoop]
      split_ifs with h
      · have hasks := enc.asks it read (by omega)
        exact ih (by omega) rfl
      · exact hread

/-- A sequence that does not end takes all of the bytes, whatever comes behind them. -/
theorem length_le_queryLoop (hfuel : MAX_SEQUENCE_LENGTH ≤ fuel + read)
    (hn : n = enc.queryConvert it read) (hlen : MAX_SEQUENCE_LENGTH ≤ (it ++ it').length)
    (h : (queryLoop enc it fuel n read).1 < -1) :
    it.length ≤ (queryLoop enc (it ++ it') fuel n read).2 := by
  induction fuel generalizing n read with
  | zero =>
      have hlt : n < -1 := h
      have hasks := enc.asks it read (by omega)
      omega
  | succ fuel ih =>
      rw [queryLoop] at h ⊢
      split_ifs at h with hask
      · have hasks := enc.asks it read (by omega)
        have hcongr : enc.queryConvert (it ++ it') (-n).toNat = enc.queryConvert it (-n).toNat :=
          enc.queryConvert_congr (by omega) fun i hi => byteAt_append_left (by omega)
        rw [List.length_append] at hlen ⊢
        rw [if_pos ⟨hask.1, by omega⟩, hcongr]
        exact ih (by omega) rfl h
      · -- the bytes end here
        have hlt : n < -1 := h
        have hasks := enc.asks it read (by omega)
        rw [if_pos ⟨hlt, by omega⟩]
        exact le_trans (by omega) (le_queryLoop rfl)

end

end TextConverter

namespace StreamConverterBuf

open TextConverter

/-! ### The buffer -/

/-- What the buffer holds when the stream has ended: the rest of the stream, and the bytes that were
in the buffer behind it. -/
def overlay (istr buffer : List UInt8) : List UInt8 := istr ++ buffer.drop istr.length

section

variable {istr buffer : List UInt8}

/-- The bytes that have been read are those of the stream, as long as it has some. -/
theorem sameBytes_overlay (istr buffer : List UInt8) (r : ℕ) :
    SameBytes r (overwrite buffer 0 (istr.take r)) (overlay istr buffer) := by
  intro i hi
  rw [overwrite_zero, overlay]
  by_cases hle : r ≤ istr.length
  · rw [byteAt_append_left (by rw [List.length_take]; omega), byteAt_append_left (by omega), byteAt,
      byteAt, List.getD_eq_getElem?_getD, List.getD_eq_getElem?_getD, List.getElem?_take_of_lt hi]
  · rw [List.take_of_length_le (by omega)]

/-- The stream buffer asks what `TextConverter` asks about the bytes that end up in the buffer. -/
theorem fillLoop_eq {enc : TextEncoding} {fuel read : ℕ} {n : ℤ}
    (hbuffer : buffer.length = MAX_SEQUENCE_LENGTH)
    (hread : 0 < read) (hn : n = enc.queryConvert (overlay istr buffer) read) :
    fillLoop enc fuel n read (overwrite buffer 0 (istr.take read)) (istr.drop read) =
      ((queryLoop enc (overlay istr buffer) fuel n read).1,
        overwrite buffer 0 (istr.take (queryLoop enc (overlay istr buffer) fuel n read).2),
        istr.drop (queryLoop enc (overlay istr buffer) fuel n read).2) := by
  induction fuel generalizing n read with
  | zero => rfl
  | succ fuel ih =>
      have hlen : MAX_SEQUENCE_LENGTH ≤ (overlay istr buffer).length := by
        rw [overlay, List.length_append, List.length_drop]
        omega
      rw [fillLoop, queryLoop]
      by_cases hask : -1 > n
      · have hasks := enc.asks (overlay istr buffer) read (by omega)
        have hcount : read + ((-n).toNat - read) = (-n).toNat := by omega
        have hcongr : enc.queryConvert (overwrite buffer 0 (istr.take (-n).toNat)) (-n).toNat =
            enc.queryConvert (overlay istr buffer) (-n).toNat :=
          enc.queryConvert_congr (by omega) (sameBytes_overlay _ _ _)
        rw [if_pos hask, if_pos ⟨hask, by omega⟩]
        dsimp only
        rw [overwrite_overwrite, hcount, List.drop_drop, hcount, hcongr, ih (by omega) rfl]
      · rw [if_neg hask, if_neg (fun h => hask h.1)]

end

/-! ### One sequence -/

/-- The bytes of a character are there if those of the default character are. -/
theorem encode_ne_nil {out : TextEncoding} {defaultChar : ℤ}
    (hdefault : (out.convertChar defaultChar MAX_SEQUENCE_LENGTH).2 ≠ []) (uc : ℤ) :
    encode out defaultChar uc ≠ [] := by
  have hwrites := (out.writes uc).1
  unfold encode
  dsimp only
  split_ifs with hzero
  · exact hdefault
  · intro hnil
    rw [hnil] at hwrites
    exact hzero hwrites

theorem length_encode_le (out : TextEncoding) (defaultChar uc : ℤ) :
    (encode out defaultChar uc).length ≤ MAX_SEQUENCE_LENGTH := by
  unfold encode
  dsimp only
  split_ifs
  · exact (out.writes defaultChar).2
  · exact (out.writes uc).2

/-- The bytes of the character are written over the buffer. -/
theorem encodeInto_eq (out : TextEncoding) (defaultChar uc : ℤ) (buffer : List UInt8) :
    encodeInto out defaultChar uc buffer =
      (((encode out defaultChar uc).length : ℤ), overwrite buffer 0 (encode out defaultChar uc)) := by
  have hwrites := (out.writes uc).1
  unfold encodeInto encode
  dsimp only
  by_cases hzero : (out.convertChar uc MAX_SEQUENCE_LENGTH).1 = 0
  · have hnil : (out.convertChar uc MAX_SEQUENCE_LENGTH).2 = [] := by
      rw [← List.length_eq_zero_iff]
      omega
    have hkeep : overwrite buffer 0 [] = buffer := by
      rw [overwrite_zero]
      rfl
    rw [if_pos hzero, if_pos hzero, hnil, hkeep, (out.writes defaultChar).1]
  · rw [if_neg hzero, if_neg hzero, hwrites]

variable {b : StreamConverterBuf}

/-- The sequence that `fetch` finds in the buffer. -/
def found (b : StreamConverterBuf) : ℤ × ℕ := query b._inEncoding (overlay b._istr b._buffer)

/-- The bytes that `fetch` makes of it. -/
def converted (b : StreamConverterBuf) : List UInt8 :=
  encode b._outEncoding b._defaultChar (if -1 ≥ b.found.1 then b._defaultChar else b.found.1)

theorem fetch_eq (hbuffer : b._buffer.length = MAX_SEQUENCE_LENGTH) (hne : b._istr ≠ []) :
    b.fetch =
      { b with
        _istr := b._istr.drop b.found.2
        _buffer := overwrite (overwrite b._buffer 0 (b._istr.take b.found.2)) 0 b.converted
        _sequenceLength := b.converted.length
        _pos := 0
        _errors := if -1 ≥ b.found.1 then b._errors + 1 else b._errors } := by
  obtain ⟨istr, enc, out, defaultChar, buffer, sequenceLength, pos, errors⟩ := b
  obtain ⟨c, rest, rfl⟩ := List.exists_cons_of_ne_nil hne
  have hfirst : enc.queryConvert (overwrite buffer 0 [c]) 1 =
      enc.queryConvert (overlay (c :: rest) buffer) 1 :=
    enc.queryConvert_congr (by decide) (sameBytes_overlay (c :: rest) buffer 1)
  have hfill : fillLoop enc MAX_SEQUENCE_LENGTH (enc.queryConvert (overwrite buffer 0 [c]) 1) 1
        (overwrite buffer 0 [c]) rest =
      ((query enc (overlay (c :: rest) buffer)).1,
        overwrite buffer 0 ((c :: rest).take (query enc (overlay (c :: rest) buffer)).2),
        (c :: rest).drop (query enc (overlay (c :: rest) buffer)).2) := by
    rw [hfirst]
    exact fillLoop_eq hbuffer Nat.one_pos rfl
  rw [fetch]
  dsimp only
  rw [hfill]
  rw [encodeInto_eq]
  dsimp only
  rw [Int.toNat_natCast]
  rfl

/-- All bytes of the last sequence have been handed out. -/
structure Ready (b : StreamConverterBuf) : Prop where
  handedOut : b._sequenceLength ≤ b._pos
  length_buffer : b._buffer.length = MAX_SEQUENCE_LENGTH

/-- The state in which the bytes of the next sequence have been handed out. -/
def advance (b : StreamConverterBuf) : StreamConverterBuf :=
  { b.fetch with _pos := b.converted.length }

theorem Ready.advance (h : Ready b) (hne : b._istr ≠ []) : Ready b.advance := by
  have hlen := length_encode_le b._outEncoding b._defaultChar
    (if -1 ≥ b.found.1 then b._defaultChar else b.found.1)
  constructor
  · show b.fetch._sequenceLength ≤ b.converted.length
    rw [fetch_eq h.length_buffer hne]
  · show b.fetch._buffer.length = MAX_SEQUENCE_LENGTH
    have hmax : b.found.2 ≤ MAX_SEQUENCE_LENGTH := queryLoop_le_max (by decide) rfl
    have hread : (overwrite b._buffer 0 (b._istr.take b.found.2)).length = MAX_SEQUENCE_LENGTH := by
      rw [overwrite_length, h.length_buffer]
      rw [List.length_take, h.length_buffer]
      omega
    rw [fetch_eq h.length_buffer hne]
    dsimp only
    rw [overwrite_length, hread]
    rw [hread, Nat.zero_add]
    exact hlen

theorem Ready.delivers (h : Ready b) (hne : b._istr ≠ []) (hconv : b.converted ≠ []) :
    Delivers readFromDevice b b.converted b.advance := by
  have hfetch := fetch_eq h.length_buffer hne
  have hlength : b.fetch._sequenceLength = b.converted.length := by rw [hfetch]
  have hpos : b.fetch._pos = 0 := by rw [hfetch]
  have hbyte : ∀ i c, b.converted[i]? = some c → byteAt b.fetch._buffer i = c := by
    intro i c hc
    have hi : i < b.converted.length := (List.getElem?_eq_some_iff.mp hc).1
    rw [hfetch]
    dsimp only
    rw [overwrite_zero, byteAt_append_left hi, byteAt, List.getD_eq_getElem?_getD, hc]
    rfl
  rw [StreamConverterBuf.advance]
  generalize b.converted = bytes at *
  obtain ⟨c, bs, rfl⟩ := List.exists_cons_of_ne_nil hconv
  refine .cons (t := { b.fetch with _pos := 1 }) ?_ ?_
  · -- the first byte comes with the sequence
    rw [readFromDevice, get_bind, if_neg (not_lt.mpr h.handedOut)]
    dsimp only
    rw [if_neg (by rw [hlength]; exact Nat.succ_ne_zero _), set_bind, hpos, hbyte 0 c rfl]
    rfl
  · refine delivers_steps (fun i => { b.fetch with _pos := i + 1 }) fun i d hd => ?_
    have hi : i < bs.length := (List.getElem?_eq_some_iff.mp hd).1
    rw [readFromDevice, get_bind]
    dsimp only
    rw [if_pos (by rw [hlength, List.length_cons]; omega), set_bind, hbyte (i + 1) d hd]
    rfl

/-! ### Whole texts -/

/-- The stream ends within a sequence, and the bytes in the buffer behind what is left of it make it a
legal one. -/
def Completes (b : StreamConverterBuf) : Prop :=
  b._istr ≠ [] ∧ (query b._inEncoding b._istr).1 < -1 ∧
    0 ≤ (query b._inEncoding (overlay b._istr b._buffer)).1

/-- No sequence of the stream is completed by what is in the buffer. -/
def Sound (b : StreamConverterBuf) : Prop := ∀ k, ¬Completes (fetch^[k] b)

theorem fetch_pos (b : StreamConverterBuf) (pos : ℕ) : { b with _pos := pos }.fetch = b.fetch := by
  unfold fetch
  rfl

theorem sound_iff : Sound b ↔ ¬Completes b ∧ Sound b.advance := by
  have hnext : ∀ k, Completes (fetch^[k] b.advance) ↔ Completes (fetch^[k] b.fetch) := by
    intro k
    cases k with
    | zero => exact Iff.rfl
    | succ k => rw [Function.iterate_succ_apply, Function.iterate_succ_apply, advance, fetch_pos]
  constructor
  · intro h
    refine ⟨h 0, fun k => ?_⟩
    rw [hnext]
    exact h (k + 1)
  · rintro ⟨h, hs⟩ k
    cases k with
    | zero => exact h
    | succ k =>
        rw [Function.iterate_succ_apply, ← hnext]
        exact hs k

/-- The number of errors `TextConverter` counts for the next sequence. -/
def textErrors (b : StreamConverterBuf) : ℕ := if -1 ≥ (query b._inEncoding b._istr).1 then 1 else 0

/-- The bytes `TextConverter` makes of the next sequence. -/
def textBytes (b : StreamConverterBuf) : List UInt8 :=
  encode b._outEncoding b._defaultChar
    (if -1 ≥ (query b._inEncoding b._istr).1 then b._defaultChar else (query b._inEncoding b._istr).1)

/-- What `TextConverter` has before it after the next sequence. -/
def textNext (b : StreamConverterBuf) : List UInt8 :=
  if -1 > (query b._inEncoding b._istr).1 then [] else b._istr.drop (query b._inEncoding b._istr).2

/-- Both go on with the same bytes, and the next sequence is the same for both unless the buffer
completes it; then `TextConverter` counts an error more. -/
theorem Ready.fetch_spec (h : Ready b) (hne : b._istr ≠ []) :
    b.fetch._istr = b.textNext ∧
      (¬Completes b → b.converted = b.textBytes ∧ b.fetch._errors = b._errors + b.textErrors) ∧
      (Completes b → b.fetch._errors < b._errors + b.textErrors) := by
  have hfetch := fetch_eq h.length_buffer hne
  have hlen : MAX_SEQUENCE_LENGTH ≤ (overlay b._istr b._buffer).length := by
    have hbuffer := h.length_buffer
    rw [overlay, List.length_append, List.length_drop]
    omega
  have hfound : -1 ≤ b.found.1 := queryLoop_ge (by decide) rfl hlen
  have hfirst : b._inEncoding.queryConvert (overlay b._istr b._buffer) 1 =
      b._inEncoding.queryConvert b._istr 1 :=
    b._inEncoding.queryConvert_congr Nat.one_pos fun i hi =>
      byteAt_append_left (lt_of_lt_of_le hi (List.length_pos_iff.mpr hne))
  by_cases hends : -1 ≤ (query b._inEncoding b._istr).1
  · -- the sequence lies within the stream
    have hsame : b.found = query b._inEncoding b._istr := by
      rw [found, query, hfirst]
      exact queryLoop_append hends
    refine ⟨?_, fun _ => ⟨?_, ?_⟩, fun hc => absurd hc.2.1 (not_lt.mpr hends)⟩
    · rw [hfetch, textNext, if_neg (not_lt.mpr hends), hsame]
    · rw [converted, textBytes, hsame]
    · rw [hfetch, textErrors, hsame]
      split_ifs <;> rfl
  · -- the stream ends before the sequence
    have htrunc : (query b._inEncoding b._istr).1 < -1 := not_le.mp hends
    have hall : b._istr.length ≤ b.found.2 := by
      rw [found, query, hfirst]
      exact length_le_queryLoop (by decide) rfl hlen htrunc
    have herrors : b.textErrors = 1 := by rw [textErrors, if_pos (le_of_lt htrunc)]
    refine ⟨?_, fun hc => ?_, fun hc => ?_⟩
    · rw [hfetch, textNext, if_pos htrunc]
      exact List.drop_eq_nil_of_le hall
    · have hneg : b.found.1 < 0 := not_le.mp fun hle => hc ⟨hne, htrunc, hle⟩
      have hone : -1 ≥ b.found.1 := by omega
      rw [hfetch, herrors, converted, textBytes, if_pos hone, if_pos (le_of_lt htrunc)]
      exact ⟨rfl, if_pos hone⟩
    · have hzero : 0 ≤ b.found.1 := hc.2.2
      rw [hfetch, herrors]
      dsimp only
      rw [if_neg (by omega)]
      exact Nat.lt_succ_self _

theorem length_textNext_lt (hne : b._istr ≠ []) : b.textNext.length < b._istr.length := by
  have hpos := List.length_pos_iff.mpr hne
  have hread : 1 ≤ (query b._inEncoding b._istr).2 := le_queryLoop rfl
  rw [textNext]
  split_ifs
  · exact hpos
  · rw [List.length_drop]
    omega

/-- What `TextConverter` makes of what is left of the stream. -/
def textRest (b : StreamConverterBuf) (fuel : ℕ) : ℕ × List UInt8 :=
  convertLoop b._inEncoding b._outEncoding b._defaultChar id fuel b._istr

theorem textRest_of_ne_nil {fuel : ℕ} (h : Ready b) (hne : b._istr ≠ []) :
    b.textRest (fuel + 1) =
      (b.textErrors + (b.advance.textRest fuel).1, b.textBytes ++ (b.advance.textRest fuel).2) := by
  have hnext : b.advance.textRest fuel =
      convertLoop b._inEncoding b._outEncoding b._defaultChar id fuel b.textNext := by
    rw [← (h.fetch_spec hne).1, textRest, advance, fetch_eq h.length_buffer hne]
  rw [hnext]
  obtain ⟨c, rest, hcons⟩ := List.exists_cons_of_ne_nil hne
  rw [textRest, textErrors, textBytes, textNext, hcons, convertLoop]
  · rfl
  · exact List.cons_ne_nil c rest

theorem Ready.drains_nil (h : Ready b) (hnil : b._istr = []) :
    Drains readFromDevice b [] b.fetch ∧ b.fetch._errors = b._errors ∧ Sound b := by
  have hfetch : b.fetch = { b with _pos := 0, _sequenceLength := 0 } := by rw [fetch, hnil]
  have hend : ∀ k, (fetch^[k] b)._istr = [] := by
    intro k
    induction k with
    | zero => exact hnil
    | succ k ih =>
        rw [Function.iterate_succ_apply', fetch, ih]
  refine ⟨Lib.drains_nil ?_, by rw [hfetch], fun k hc => hc.1 (hend k)⟩
  have hzero : b.fetch._sequenceLength = 0 := by rw [hfetch]
  rw [readFromDevice, get_bind, if_neg (not_lt.mpr h.handedOut), if_pos hzero]
  rfl

/-- Reading to the end of the stream against converting the rest of it in memory. -/
theorem Ready.drains {fuel : ℕ} (h : Ready b) (hfuel : b._istr.length ≤ fuel)
    (hdefault : (b._outEncoding.convertChar b._defaultChar MAX_SEQUENCE_LENGTH).2 ≠ []) :
    ∃ bs b', Drains readFromDevice b bs b' ∧
      (Sound b → bs = (b.textRest fuel).2 ∧ b'._errors = b._errors + (b.textRest fuel).1) ∧
      (¬Sound b → b'._errors < b._errors + (b.textRest fuel).1) := by
  induction fuel generalizing b with
  | zero =>
      obtain ⟨hdrains, herrors, hsound⟩ := h.drains_nil (List.length_eq_zero_iff.mp (by omega))
      exact ⟨[], b.fetch, hdrains, fun _ => ⟨rfl, herrors⟩, fun hn => absurd hsound hn⟩
  | succ fuel ih =>
      by_cases hnil : b._istr = []
      · obtain ⟨hdrains, herrors, hsound⟩ := h.drains_nil hnil
        have hrest : b.textRest (fuel + 1) = (0, []) := by
          rw [textRest, hnil, convertLoop]
          exact Nat.succ_ne_zero fuel
        rw [hrest]
        exact ⟨[], b.fetch, hdrains, fun _ => ⟨rfl, herrors⟩, fun hn => absurd hsound hn⟩
      · obtain ⟨hnext, hsame, hcompletes⟩ := h.fetch_spec hnil
        have hlen : b.advance._istr.length ≤ fuel := by
          have hlt := length_textNext_lt hnil
          show b.fetch._istr.length ≤ fuel
          rw [hnext]
          omega
        have hdefault' : (b.advance._outEncoding.convertChar b.advance._defaultChar
            MAX_SEQUENCE_LENGTH).2 ≠ [] := by
          rwa [StreamConverterBuf.advance, fetch_eq h.length_buffer hnil]
        obtain ⟨bs, b', hdrains, hsound, hunsound⟩ := ih (h.advance hnil) hlen hdefault'
        have hdel := h.delivers hnil (encode_ne_nil hdefault _)
        have herrors : b.advance._errors = b.fetch._errors := rfl
        refine ⟨b.converted ++ bs, b', hdel.drains hdrains, ?_, ?_⟩
        · intro hs
          obtain ⟨hnot, hs⟩ := sound_iff.mp hs
          obtain ⟨rfl, herr⟩ := hsound hs
          rw [textRest_of_ne_nil h hnil, (hsame hnot).1]
          refine ⟨rfl, ?_⟩
          have := (hsame hnot).2
          dsimp only
          omega
        · intro hs
          rw [textRest_of_ne_nil h hnil]
          dsimp only
          have hle : b'._errors ≤ b.advance._errors + (b.advance.textRest fuel).1 := by
            by_cases hs' : Sound b.advance
            · exact (hsound hs').2.le
            · exact (hunsound hs').le
          by_cases hc : Completes b
          · have := hcompletes hc
            omega
          · have hs' : ¬Sound b.advance := fun hs' => hs (sound_iff.mpr ⟨hc, hs'⟩)
            have := hunsound hs'
            have := (hsame hc).2
            omega

/-- **Main result.**  Whatever is read through an `InputStreamConverter` to the end of the stream has the
bytes and the number of errors that `TextConverter::convert` gives for all of the text, if and only if
in no state of the run the stream ends within a sequence that the bytes left over in the buffer
complete. -/
theorem agrees_iff (inName outName : EncodingName) (defaultChar : ℤ) (memory source : List UInt8)
    (hmemory : memory.length = MAX_SEQUENCE_LENGTH)
    (hdefault : (outName.encoding.convertChar defaultChar MAX_SEQUENCE_LENGTH).2 ≠ []) :
    ∃ bs b', Drains readFromDevice
        (create source inName.encoding outName.encoding defaultChar memory) bs b' ∧
      ((bs = (TextConverter.convert inName.encoding outName.encoding defaultChar source).2 ∧
        b'._errors = (TextConverter.convert inName.encoding outName.encoding defaultChar source).1) ↔
      ∀ k, ¬Completes (fetch^[k]
        (create source inName.encoding outName.encoding defaultChar memory))) := by
  have hready : Ready (create source inName.encoding outName.encoding defaultChar memory) :=
    ⟨le_rfl, hmemory⟩
  obtain ⟨bs, b', hdrains, hsound, hunsound⟩ := hready.drains le_rfl hdefault
  refine ⟨bs, b', hdrains, fun heq => ?_, fun hs => ?_⟩
  · by_contra hs
    have hlt := hunsound hs
    have hcount : b'._errors = 0 + b'._errors := (Nat.zero_add _).symm
    exact absurd hlt (by rw [hcount, heq.2]; exact lt_irrefl _)
  · obtain ⟨hbs, herrors⟩ := hsound hs
    exact ⟨hbs, herrors.trans (Nat.zero_add _)⟩

/-- A text that ends with a whole sequence. -/
theorem agrees_iff_whole :
    ∃ bs b', Drains readFromDevice
        (create [0xC3, 0xA9, 0xFF, 0x41] UTF8Encoding UTF8Encoding 0x3F [0, 0, 0, 0]) bs b' ∧
      ((bs = [0xC3, 0xA9, 0x3F, 0x41] ∧ b'._errors = 1) ↔
        ∀ k, ¬Completes (fetch^[k]
          (create [0xC3, 0xA9, 0xFF, 0x41] UTF8Encoding UTF8Encoding 0x3F [0, 0, 0, 0]))) :=
  agrees_iff .utf8 .utf8 0x3F [0, 0, 0, 0] [0xC3, 0xA9, 0xFF, 0x41] rfl (by decide)

/-- The second byte of the first sequence completes the second one. -/
theorem drains_twice :
    (∃ b', Drains readFromDevice
        (create [0xC3, 0xA9, 0xC3] UTF8Encoding UTF8Encoding 0x3F [0, 0, 0, 0])
        [0xC3, 0xA9, 0xC3, 0xA9] b' ∧ b'._errors = 0) ∧
      TextConverter.convert UTF8Encoding UTF8Encoding 0x3F [0xC3, 0xA9, 0xC3] =
        (1, [0xC3, 0xA9, 0x3F]) := by
  refine ⟨⟨create [] UTF8Encoding UTF8Encoding 0x3F [0xC3, 0xA9, 0, 0], ?_, ?_⟩, by decide⟩
  · exact .cons rfl (.cons rfl (.cons rfl (.cons rfl (Lib.drains_nil rfl))))
  · rfl

end StreamConverterBuf

end Poco.Foundation
