import Poco.MongoDB.Document

/-! # Documents are read back

What `write` puts into a stream begins with its length, and `read` takes exactly that and gives the same
document (`read_back`).  Each codec is a pair of bytes that are written and a reader that gets the value
from them; a document is legal if its names and regular expressions have no zero and it has no timestamps,
which lose their microseconds. -/

namespace Poco.MongoDB

open Poco.Lib Poco.Foundation

variable {h : Host} {α β : Type}

mutual

/-- The values that are read back. -/
def Value.Legal : Value → Prop
  | .document elements | .array elements => AllLegal elements
  | .regularExpression pattern options => 0 ∉ pattern ∧ 0 ∉ options
  | .timestamp _ | .bsonTimestamp _ _ => False
  | .double _ | .string _ | .binary _ _ | .objectId _ | .bool _ | .null | .javaScriptCode _ | .int32 _ | .int64 _
  | .decimal128 _ _ | .minKey | .maxKey => True

/-- Names without a zero, and values that are read back. -/
def AllLegal : List (List UInt8 × Value) → Prop
  | [] => True
  | (name, value) :: elements => 0 ∉ name ∧ value.Legal ∧ AllLegal elements

end

/-! ### Readers of bytes -/

/-- A reader with the byte order of a document. -/
def reading (h : Host) (rest : List UInt8) : BinaryReader :=
  BinaryReader.create h ⟨rest, true⟩ .littleEndianByteOrder

/-- What is written with the byte order of a document. -/
def Puts (h : Host) (put : BinaryWriter → BinaryWriter) (bytes : List UInt8) : Prop :=
  Writes (flipsBytes h .littleEndianByteOrder) put bytes

/-- The computation takes `bytes` from the stream and gives `a`. -/
def Gets (h : Host) (x : Reader α) (bytes : List UInt8) (a : α) : Prop :=
  ∀ rest, x (reading h (bytes ++ rest)) = .ok a (reading h rest)

theorem gets_pure (a : α) : Gets h (pure a) [] a := fun _ => rfl

theorem Gets.bind {x : Reader α} {f : α → Reader β} {bytes bytes' : List UInt8} {a : α} {b : β}
    (hx : Gets h x bytes a) (hf : Gets h (f a) bytes' b) : Gets h (x >>= f) (bytes ++ bytes') b := by
  intro rest
  rw [List.append_assoc, bind_of_ok (hx (bytes' ++ rest)), hf rest]

theorem Gets.map {x : Reader α} {bytes : List UInt8} {a : α} (hx : Gets h x bytes a) (f : α → β) :
    Gets h (f <$> x) bytes (f a) := by
  intro rest
  show EStateM.map f x _ = _
  rw [EStateM.map, hx rest]

theorem Gets.bind_pure {x : Reader α} {bytes : List UInt8} {a : α} (hx : Gets h x bytes a) (f : α → β) :
    Gets h (x >>= fun a => pure (f a)) bytes (f a) := hx.map f

theorem Gets.skip {x : Reader α} {f : α → Reader β} {bytes : List UInt8} {a : α} {b : β}
    (hx : Gets h x [] a) (hf : Gets h (f a) bytes b) : Gets h (x >>= f) bytes b := hx.bind hf

theorem Puts.append {put put' : BinaryWriter → BinaryWriter} {bytes bytes' : List UInt8}
    (hput : Puts h put bytes) (hput' : Puts h put' bytes') : Puts h (fun w => put' (put w)) (bytes ++ bytes') :=
  Writes.append hput hput'

theorem puts_raw (bytes : List UInt8) : Puts h (fun w => w.writeRaw bytes) bytes := fun _ => rfl

theorem puts_nothing : Puts h (fun w => w) [] := fun ostr => by rw [List.append_nil]

/-- An arithmetic value is read back from whatever bytes are written for it. -/
theorem Puts.gets {t : Scalar} {value : BitVec (8 * t.size h)} {bytes : List UInt8}
    (hput : Puts h (fun w => w.putScalar h t value) bytes) (old : BitVec (8 * t.size h)) :
    Gets h (readScalar h t old) bytes value := by
  intro rest
  obtain ⟨bytes', hput', htake⟩ := carries_scalar (flipsBytes h .littleEndianByteOrder) h t old value
  obtain rfl : bytes = bytes' := by
    have := (hput []).symm.trans (hput' [])
    injection this
  have := htake rest
  simp only [readScalar, reading, BinaryReader.create, this]

theorem exists_puts (h : Host) (t : Scalar) (value : BitVec (8 * t.size h)) :
    ∃ bytes, Puts h (fun w => w.putScalar h t value) bytes := by
  obtain ⟨bytes, hput, -⟩ := carries_scalar (flipsBytes h .littleEndianByteOrder) h t value value
  exact ⟨bytes, hput⟩

/-! ### Lengths -/

theorem ofNat_div_pow (v : BitVec 32) (k : ℕ) :
    UInt8.ofNat (v.toNat / 256 ^ k) = UInt8.ofBitVec ((v >>> (8 * k)).setWidth 8) := by
  apply UInt8.toBitVec_inj.mp
  apply BitVec.eq_of_toNat_eq
  have hpow : 256 ^ k = 2 ^ (8 * k) := by rw [Nat.pow_mul]
  simp [hpow, Nat.shiftRight_eq_div_pow]

theorem bigEndian_four (n : ℕ) :
    bigEndian 4 n =
      [UInt8.ofNat (n / 256 ^ 3), UInt8.ofNat (n / 256 ^ 2), UInt8.ofNat (n / 256 ^ 1), UInt8.ofNat (n / 256 ^ 0)] := by
  simp [bigEndian, Nat.div_div_eq_div_mul]

theorem bigEndian_flipBytes32 (v : BitVec 32) :
    bigEndian 4 (ByteOrder.flipBytes32 v).toNat = (bigEndian 4 v.toNat).reverse := by
  have hbyte : ∀ i < 4, (ByteOrder.flipBytes32 v >>> (8 * i)).setWidth 8 = (v >>> (8 * (3 - i))).setWidth 8 := by
    intro i hi
    ext j hj
    simp only [ByteOrder.flipBytes32]
    interval_cases i <;> interval_cases j <;> simp
  simp only [bigEndian_four, ofNat_div_pow, hbyte 0 (by decide), hbyte 1 (by decide), hbyte 2 (by decide),
    hbyte 3 (by decide)]
  rfl

/-- A number of four bytes is written from its lowest byte on, whatever the host. -/
theorem puts_int (h : Host) (v : BitVec 32) :
    Puts h (fun w => w.putScalar h .int v) (bigEndian 4 v.toNat).reverse := by
  obtain ⟨archBigEndian, longIs64Bit, uninit⟩ := h
  intro ostr
  show BinaryWriter.putInteger _ _ (n := 4) v = _
  cases archBigEndian with
  | true =>
      show (⟨ostr ++ bigEndian 4 (ByteOrder.flipBytes32 v).toNat, true, none⟩ : BinaryWriter) = _
      rw [bigEndian_flipBytes32]
      rfl
  | false => rfl

theorem puts_byte (h : Host) (v : BitVec 8) : Puts h (fun w => w.putScalar h .unsignedChar v) [UInt8.ofBitVec v] := by
  have hmemory : h.memory (n := 1) v = [UInt8.ofBitVec v] := by
    have hbyte : bigEndian 1 v.toNat = [UInt8.ofBitVec v] := by simp [bigEndian, UInt8.ofNat]
    rw [Host.memory, hbyte, List.reverse_singleton, ite_self]
  intro ostr
  show BinaryWriter.write _ (h.memory (n := 1) v) = _
  rw [hmemory]
  rfl

theorem toInt_ofNat {n : ℕ} (hn : (n : ℤ) ≤ BSON_MAX_DOCUMENT_SIZE) : (BitVec.ofNat 32 n).toInt = n := by
  have hmax : BSON_MAX_DOCUMENT_SIZE = 16777216 := rfl
  rw [BitVec.toInt_eq_toNat_of_lt (by rw [BitVec.toNat_ofNat]; omega), BitVec.toNat_ofNat]
  omega

theorem puts_size (h : Host) (n : ℕ) :
    Puts h (fun w => w.putScalar h .int (BitVec.ofNat 32 n)) (bigEndian 4 n).reverse := by
  have hput := puts_int h (BitVec.ofNat 32 n)
  rw [BitVec.toNat_ofNat] at hput
  rwa [← bigEndian_mod]

theorem gets_size (n : ℕ) :
    Gets h (readNew h .int) (bigEndian 4 n).reverse (BitVec.ofNat 32 n : BitVec 32) := (puts_size h n).gets _

theorem gets_checkSize {low size : ℤ} (hlow : low ≤ size) (hmax : size ≤ BSON_MAX_DOCUMENT_SIZE)
    (invalid exceeds : String) : Gets h (checkSize low invalid exceeds size) [] () := by
  intro rest
  rw [checkSize, if_neg (by omega), if_neg (by omega)]
  rfl

/-! ### Strings -/

theorem cstring_eq {s : List UInt8} (hs : 0 ∉ s) {val : List UInt8}
    (hlen : ((val.length + s.length : ℕ) : ℤ) ≤ BSON_MAX_DOCUMENT_SIZE) (rest : List UInt8) :
    cstring val (s ++ 0 :: rest) = some (val ++ s, ⟨rest, true⟩) := by
  induction s generalizing val with
  | nil => simp [cstring]
  | cons c s ih =>
      rw [List.mem_cons, not_or] at hs
      rw [List.length_cons] at hlen
      rw [List.cons_append, cstring, if_neg (Ne.symm hs.1), if_neg, ih hs.2]
      · simp
      · simp only [List.length_append, List.length_singleton]
        omega
      · simp only [List.length_append, List.length_singleton]
        omega

theorem puts_cstring (s : List UInt8) : Puts h (fun w => writeCString h w s) (s ++ [0]) :=
  (puts_raw s).append (puts_byte h 0)

theorem gets_cstring {s : List UInt8} (hs : 0 ∉ s) (hlen : (s.length : ℤ) ≤ BSON_MAX_DOCUMENT_SIZE) :
    Gets h readCString (s ++ [0]) s := by
  intro rest
  have hlen : (((([] : List UInt8).length + s.length : ℕ)) : ℤ) ≤ BSON_MAX_DOCUMENT_SIZE := by simpa using hlen
  simp only [readCString, reading, BinaryReader.create, if_true, List.append_assoc, List.singleton_append,
    cstring_eq hs hlen, List.nil_append]

theorem puts_string (s : List UInt8) :
    Puts h (fun w => writeString h w s) ((bigEndian 4 (s.length + 1)).reverse ++ (s ++ [0])) :=
  (puts_size h (s.length + 1)).append (puts_cstring s)

theorem gets_raw (bytes : List UInt8) : Gets h (readRaw h bytes.length) bytes bytes := by
  intro rest
  simp only [readRaw, reading, BinaryReader.create, BinaryReader.readRaw, getChars_eq, List.nil_append]

theorem gets_string {s : List UInt8} (hlen : ((s.length + 1 : ℕ) : ℤ) ≤ BSON_MAX_DOCUMENT_SIZE) :
    Gets h (readString h) ((bigEndian 4 (s.length + 1)).reverse ++ (s ++ [0])) s := by
  have hmin : BSON_MIN_STRING_SIZE = 1 := rfl
  have hsize : (BitVec.ofNat 32 (s.length + 1)).toInt.toNat = (s ++ [0]).length := by
    rw [toInt_ofNat hlen, Int.toNat_natCast, List.length_append, List.length_singleton]
  have hinit : Gets h (readRaw h (BitVec.ofNat 32 (s.length + 1)).toInt.toNat) (s ++ [0]) (s ++ [0]) := by
    rw [hsize]
    exact gets_raw (s ++ [0])
  refine (gets_size _).bind (Gets.skip (gets_checkSize ?_ ?_ _ _) ?_)
  · rw [toInt_ofNat hlen]
    omega
  · rw [toInt_ofNat hlen]
    exact hlen
  · have hpure : Gets h (if s ++ [(0 : UInt8)] = [] then throw Stop.undefined else pure (s ++ [0]).dropLast) [] s := by
      rw [if_neg (by simp), List.dropLast_concat]
      exact gets_pure s
    have hbind := Gets.bind (f := fun value => if value = [] then throw Stop.undefined else pure value.dropLast)
      hinit hpure
    rwa [List.append_nil] at hbind

/-! ### Blocks of bytes -/

theorem gets_buffer {bytes old : List UInt8} (hlen : old.length = bytes.length) :
    Gets h (readBuffer old) bytes bytes := by
  intro rest
  simp only [readBuffer, reading, BinaryReader.create, read_eq _ _ hlen]

theorem puts_binary (subtype : UInt8) (buffer : List UInt8) :
    Puts h (fun w => writeBinary h w subtype buffer) ((bigEndian 4 buffer.length).reverse ++ [subtype] ++ buffer) :=
  ((puts_size h buffer.length).append (puts_byte h subtype.toBitVec)).append (puts_raw buffer)

theorem gets_binary (subtype : UInt8) {buffer : List UInt8} (hlen : (buffer.length : ℤ) ≤ BSON_MAX_DOCUMENT_SIZE) :
    Gets h (readBinary h) ((bigEndian 4 buffer.length).reverse ++ [subtype] ++ buffer) (.binary subtype buffer) := by
  have hsize := toInt_ofNat hlen
  rw [List.append_assoc]
  refine (gets_size _).bind (Gets.skip (gets_checkSize ?_ ?_ _ _) (Gets.bind ((puts_byte h subtype.toBitVec).gets _) ?_))
  · rw [hsize]
    exact Int.natCast_nonneg _
  · rw [hsize]
    exact hlen
  · dsimp only
    rw [hsize, Int.toNat_natCast]
    cases buffer with
    | nil => exact gets_pure _
    | cons b buffer =>
        have hbuffer : Gets h (readBuffer ((List.range (b :: buffer).length).map h.uninit)) (b :: buffer) (b :: buffer) :=
          gets_buffer (by simp)
        have hread := hbuffer.map (Value.binary subtype)
        rw [if_pos (by simp)]
        exact hread

theorem gets_objectId (old id : { id : List UInt8 // id.length = 12 }) :
    Gets h (readObjectId old) id.val id := by
  intro rest
  have hread := read_eq (flipsBytes h .littleEndianByteOrder) rest (old.property.trans id.property.symm)
  simp only [readObjectId, reading, BinaryReader.create, hread]

/-! ### Documents -/

/-- The length, the elements and a zero. -/
def framed (bytes : List UInt8) : List UInt8 := (bigEndian 4 (5 + bytes.length)).reverse ++ (bytes ++ [0])

theorem length_framed (bytes : List UInt8) : (framed bytes).length = 5 + bytes.length := by
  simp only [framed, List.length_append, List.length_reverse, length_bigEndian, List.length_singleton]
  omega

theorem puts_frame {elements : Document} {bytes : List UInt8}
    (hputs : Puts h (fun w => writeElements h w elements) bytes) :
    Puts h (fun w => writeFrame h w elements.isEmpty
      (writeElements h (BinaryWriter.create h [] .littleEndianByteOrder) elements)._ostr) (framed bytes) := by
  have hbytes : (writeElements h (BinaryWriter.create h [] .littleEndianByteOrder) elements)._ostr = bytes :=
    congrArg BinaryWriter._ostr (hputs [])
  rw [hbytes]
  cases elements with
  | nil =>
      obtain rfl : [] = bytes := hbytes
      exact (puts_size h 5).append (puts_byte h 0)
  | cons element elements =>
      exact (puts_size h (5 + bytes.length)).append ((puts_raw bytes).append (puts_byte h 0))

theorem gets_document {elements : BitVec 8 → Reader Document} {bytes : List UInt8} {d : Document}
    (hlen : ((framed bytes).length : ℤ) ≤ BSON_MAX_DOCUMENT_SIZE)
    (hget : ∀ old, Gets h (readScalar h .unsignedChar old >>= elements) (bytes ++ [0]) d) :
    Gets h (readDocumentWith h elements) (framed bytes) d := by
  have hmin : BSON_MIN_DOCUMENT_SIZE = 5 := rfl
  rw [length_framed] at hlen
  have hsize := toInt_ofNat hlen
  refine (gets_size _).bind (Gets.skip (gets_checkSize ?_ ?_ _ _) (hget _))
  · rw [hsize]
    omega
  · rw [hsize]
    exact hlen

/-- A value is written, and read back if it is not too long. -/
def ReadsBack (h : Host) (v : Value) : Prop :=
  ∃ bytes, Puts h (fun w => v.write h w) bytes ∧ ((bytes.length : ℤ) ≤ BSON_MAX_DOCUMENT_SIZE →
    ∃ element, createElement v.type = some element ∧ ∀ fuel, bytes.length ≤ fuel →
      Gets h (element.read h (readDocumentWith h (readElements h fuel []))) bytes v)

/-- Elements are written, and read back behind others. -/
def ReadBack (h : Host) (elements : Document) : Prop :=
  ∃ bytes, Puts h (fun w => writeElements h w elements) bytes ∧
    (((framed bytes).length : ℤ) ≤ BSON_MAX_DOCUMENT_SIZE → ∀ fuel, bytes.length < fuel → ∀ front old,
      Gets h (readScalar h .unsignedChar old >>= readElements h fuel front) (bytes ++ [0]) (front ++ elements))

theorem readBack_nil : ReadBack h [] := by
  refine ⟨[], puts_nothing, ?_⟩
  intro _ fuel hfuel front old
  obtain ⟨fuel, rfl⟩ := Nat.exists_eq_succ_of_ne_zero hfuel.ne'
  rw [List.append_nil]
  exact ((puts_byte h 0).gets old).bind (gets_pure front)

theorem ReadBack.cons {name : List UInt8} (hname : 0 ∉ name) {v : Value} (hv : ReadsBack h v) {elements : Document}
    (helements : ReadBack h elements) : ReadBack h ((name, v) :: elements) := by
  obtain ⟨bytes, hputs, hgets⟩ := hv
  obtain ⟨bytes', hputs', hgets'⟩ := helements
  refine ⟨[UInt8.ofBitVec v.type] ++ (name ++ [0]) ++ bytes ++ bytes',
    (((puts_byte h v.type).append (puts_cstring name)).append hputs).append hputs', ?_⟩
  intro hlen fuel hfuel front old
  simp only [length_framed, List.length_append, List.length_singleton] at hlen hfuel hgets'
  obtain ⟨fuel, rfl⟩ := Nat.exists_eq_succ_of_ne_zero (Nat.ne_zero_of_lt hfuel)
  obtain ⟨element, hcreate, hget⟩ := hgets (by omega)
  have htype : v.type ≠ 0 := by
    intro hzero
    rw [hzero] at hcreate
    cases hcreate
  have hrest := hgets' (by omega) fuel (by omega) (front ++ [(name, v)]) v.type
  have hround : Gets h (readElements h (fuel + 1) front v.type) ((name ++ [0]) ++ (bytes ++ (bytes' ++ [0])))
      (front ++ (name, v) :: elements) := by
    have happend : front ++ (name, v) :: elements = front ++ [(name, v)] ++ elements := List.append_cons _ _ _
    rw [readElements, if_neg htype, happend]
    refine (gets_cstring hname (by omega)).bind ?_
    rw [hcreate]
    exact (hget fuel (by omega)).bind hrest
  have hbind := ((puts_byte h v.type).gets old).bind hround
  simpa only [List.append_assoc] using hbind

theorem readsBack_leaf {v element : Value} {bytes : List UInt8} (hputs : Puts h (fun w => v.write h w) bytes)
    (hcreate : createElement v.type = some element)
    (hget : (bytes.length : ℤ) ≤ BSON_MAX_DOCUMENT_SIZE → ∀ r, Gets h (element.read h r) bytes v) :
    ReadsBack h v :=
  ⟨bytes, hputs, fun hlen => ⟨element, hcreate, fun _ _ => hget hlen _⟩⟩

theorem readsBack_document {v element : Value} {make : Document → Value} {elements : Document}
    (hback : ReadBack h elements) (hv : v = make elements)
    (hwrite : ∀ w, v.write h w = writeFrame h w elements.isEmpty
      (writeElements h (BinaryWriter.create h [] .littleEndianByteOrder) elements)._ostr)
    (hcreate : createElement v.type = some element) (hread : ∀ r, element.read h r = make <$> r) : ReadsBack h v := by
  obtain ⟨bytes, hputs, hgets⟩ := hback
  refine ⟨framed bytes, ?_, ?_⟩
  · simp only [hwrite]
    exact puts_frame hputs
  · intro hlen
    refine ⟨element, hcreate, fun fuel hfuel => ?_⟩
    rw [length_framed] at hfuel
    have hdocument := gets_document hlen (hgets hlen fuel (by omega) [])
    rw [hread, hv]
    exact hdocument.map make

mutual

theorem readsBack : ∀ v : Value, v.Legal → ReadsBack h v
  | .double bits, _ => by
      obtain ⟨bytes, hputs⟩ := exists_puts h .double bits
      exact readsBack_leaf hputs rfl fun _ _ => (hputs.gets _).map Value.double
  | .string value, _ => by
      refine readsBack_leaf (puts_string value) rfl fun hlen _ => (gets_string ?_).map Value.string
      simp only [List.length_append, List.length_singleton] at hlen
      omega
  | .document elements, hlegal => by
      rw [Value.Legal] at hlegal
      exact readsBack_document (readBack elements hlegal) rfl (fun w => by rw [Value.write]) rfl fun _ => rfl
  | .array elements, hlegal => by
      rw [Value.Legal] at hlegal
      exact readsBack_document (readBack elements hlegal) rfl (fun w => by rw [Value.write]) rfl fun _ => rfl
  | .binary subtype buffer, _ => by
      refine readsBack_leaf (puts_binary subtype buffer) rfl fun hlen _ => gets_binary subtype ?_
      simp only [List.length_append, List.length_singleton] at hlen
      omega
  | .objectId id, _ => readsBack_leaf (puts_raw id.val) rfl fun _ _ => (gets_objectId _ id).map Value.objectId
  | .bool value, _ => by
      have hputs := puts_byte h (if value then 0x01 else 0x00)
      have hvalue : ((if value then 0x01 else 0x00 : BitVec 8) != 0) = value := by cases value <;> rfl
      have hget := (hputs.gets (Ty.init h (.scalar .unsignedChar))).bind_pure
        fun b : BitVec 8 => Value.bool (b != 0)
      rw [hvalue] at hget
      have hread : ∀ r, Gets h ((Value.bool false).read h r) [UInt8.ofBitVec (if value then 0x01 else 0x00)]
        (.bool value) := fun _ => hget
      exact readsBack_leaf hputs rfl fun _ => hread
  | .null, _ => readsBack_leaf puts_nothing rfl fun _ _ => gets_pure _
  | .regularExpression pattern options, hlegal => by
      rw [Value.Legal] at hlegal
      refine readsBack_leaf ((puts_cstring pattern).append (puts_cstring options)) rfl fun hlen _ => ?_
      simp only [List.length_append, List.length_singleton] at hlen
      exact (gets_cstring hlegal.1 (by omega)).bind
        ((gets_cstring hlegal.2 (by omega)).bind_pure (Value.regularExpression pattern))
  | .javaScriptCode code, _ => by
      refine readsBack_leaf (puts_string code) rfl fun hlen _ => (gets_string ?_).map Value.javaScriptCode
      simp only [List.length_append, List.length_singleton] at hlen
      omega
  | .int32 value, _ => readsBack_leaf (puts_int h value) rfl fun _ _ => ((puts_int h value).gets _).map Value.int32
  | .int64 value, _ => by
      obtain ⟨bytes, hputs⟩ := exists_puts h .longLong value
      exact readsBack_leaf hputs rfl fun _ _ => (hputs.gets _).map Value.int64
  | .decimal128 low high, _ => by
      obtain ⟨bytes, hputs⟩ := exists_puts h .unsignedLongLong low
      obtain ⟨bytes', hputs'⟩ := exists_puts h .unsignedLongLong high
      refine readsBack_leaf (hputs.append hputs') rfl fun _ _ => ?_
      exact (hputs.gets _).bind ((hputs'.gets _).bind_pure (Value.decimal128 low))
  | .minKey, _ => readsBack_leaf puts_nothing rfl fun _ _ => gets_pure _
  | .maxKey, _ => readsBack_leaf puts_nothing rfl fun _ _ => gets_pure _

theorem readBack : ∀ elements : Document, AllLegal elements → ReadBack h elements
  | [], _ => readBack_nil
  | (name, v) :: elements, hlegal => by
      rw [AllLegal] at hlegal
      exact ReadBack.cons hlegal.1 (readsBack v hlegal.2.1) (readBack elements hlegal.2.2)

end

namespace Document

end Document

end Poco.MongoDB
