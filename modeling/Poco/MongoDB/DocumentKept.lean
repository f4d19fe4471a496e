import Poco.MongoDB.TimeRoundTrip

/-! # Which documents are read back

A document is kept if its names and regular expressions have no zero, its timestamps are whole milliseconds and
its BSON timestamps are those that seconds and milliseconds agree on.  Such a document is read back
(`kept_readBack`), and no other one is: where what was written is read as the same document, each element in turn
is found to be kept (`reveal`).  `Document.gets` and `Document.kept_of_read` say so for documents as a whole. -/

namespace Poco.MongoDB

open Poco.Lib Poco.Foundation

variable {h : Host}

/-- The microseconds of a `BSONTimestamp` that come back with an increment.  What is written has the number of
milliseconds in its upper half, less one if the increment is negative; the half is read as the number of seconds,
and for a negative increment there is one number for which the low 32 bits of both are the same. -/
def keptTime (inc : BitVec 32) : ℤ := if inc.toInt < 0 then -68788265000000 else 0

mutual

/-- The values that are read back. -/
def Value.Kept : Value → Prop
  | .document elements | .array elements => AllKept elements
  | .regularExpression pattern options => 0 ∉ pattern ∧ 0 ∉ options
  | .timestamp ts => ts.toInt % 1000 = 0
  | .bsonTimestamp ts inc => ts.toInt = keptTime inc
  | .double _ | .string _ | .binary _ _ | .objectId _ | .bool _ | .null | .javaScriptCode _ | .int32 _ | .int64 _
  | .decimal128 _ _ | .minKey | .maxKey => True

/-- Names without a zero, and values that are read back. -/
def AllKept : List (List UInt8 × Value) → Prop
  | [] => True
  | (name, value) :: elements => 0 ∉ name ∧ value.Kept ∧ AllKept elements

end

/-! ### Times -/

theorem tdiv_1000 (t : ℤ) : t.tdiv 1000 = if 0 ≤ t then t / 1000 else -(-t / 1000) := by
  split_ifs with hsign
  · exact Int.tdiv_eq_ediv_of_nonneg hsign
  · have hneg : (-t).tdiv 1000 = -t / 1000 := Int.tdiv_eq_ediv_of_nonneg (by omega)
    rw [Int.neg_tdiv] at hneg
    omega

/-- A `Timestamp` that comes back from its milliseconds is whole milliseconds. -/
theorem milliseconds_back_iff (ts : BitVec 64) :
    Timestamp.fromEpochTime ((ts.sdiv 1000).sdiv 1000) + (ts.sdiv 1000).srem 1000 * 1000 = ts ↔
      ts.toInt % 1000 = 0 := by
  refine ⟨fun hback => ?_, milliseconds_back⟩
  have hlow := BitVec.le_toInt ts
  have hhigh := BitVec.toInt_lt (x := ts)
  have hms : (ts.sdiv 1000).toInt.tdiv 1000 * 1000000 + (ts.sdiv 1000).toInt.tmod 1000 * 1000 =
      ts.toInt.tdiv 1000 * 1000 := by
    rw [toInt_sdiv_1000]
    have hdiv := Int.mul_tdiv_add_tmod (ts.toInt.tdiv 1000) 1000
    omega
  have hint := congrArg BitVec.toInt hback
  rw [BitVec.toInt_add, Timestamp.fromEpochTime, BitVec.toInt_mul, BitVec.toInt_mul, toInt_sdiv_1000,
    BitVec.toInt_srem, Int.bmod_add_bmod, Int.add_bmod_bmod] at hint
  change ((ts.sdiv 1000).toInt.tdiv 1000 * 1000000 + (ts.sdiv 1000).toInt.tmod 1000 * 1000).bmod (2 ^ 64) = _ at hint
  rw [hms, tdiv_1000] at hint
  split_ifs at hint <;> rw [Int.bmod_eq_of_le (by omega) (by omega)] at hint <;> omega

section

variable (ts : BitVec 64) (inc : BitVec 32)

/-- What is written for a `BSONTimestamp`. -/
def written : BitVec 64 := (ts.sdiv 1000 <<< 32) + inc.signExtend 64

theorem toNat_written :
    (written ts inc).toNat = ((ts.sdiv 1000).toNat * 2 ^ 32 + (inc.signExtend 64).toNat) % 2 ^ 64 := by
  rw [written, BitVec.toNat_add, BitVec.toNat_shiftLeft, Nat.shiftLeft_eq, Nat.mod_add_mod]

theorem toNat_signExtend : (inc.signExtend 64).toInt = inc.toInt ∧ (inc.signExtend 64).toNat % 2 ^ 32 = inc.toNat := by
  have hint : (inc.signExtend 64).toInt = inc.toInt := BitVec.toInt_signExtend_of_le (by decide)
  have hlong := BitVec.toInt_eq_toNat_cond (inc.signExtend 64)
  have hshort := BitVec.toInt_eq_toNat_cond inc
  have hlt := inc.isLt
  have hlt' := (inc.signExtend 64).isLt
  refine ⟨hint, ?_⟩
  split_ifs at hlong hshort <;> omega

theorem increment_back : (written ts inc &&& 0xFFFFFFFF).setWidth 32 = inc := by
  have hmask : (0xFFFFFFFF : BitVec 64).toNat = 2 ^ 32 - 1 := rfl
  have hlow := (toNat_signExtend inc).2
  apply BitVec.eq_of_toNat_eq
  rw [BitVec.toNat_setWidth, BitVec.toNat_and, hmask, Nat.and_two_pow_sub_one_eq_mod, toNat_written]
  omega

theorem exists_upper : ∃ k : ℤ, ((written ts inc).sshiftRight 32).toInt =
    ts.toInt.tdiv 1000 - (if inc.toInt < 0 then 1 else 0) + k * 2 ^ 32 := by
  have hupper : ((written ts inc).sshiftRight 32).toInt = (written ts inc).toInt / 2 ^ 32 := by
    rw [BitVec.toInt_sshiftRight, Int.shiftRight_eq_div_pow]
    rfl
  have hnat := toNat_written ts inc
  have hms := BitVec.toInt_eq_toNat_cond (ts.sdiv 1000)
  have hinc := BitVec.toInt_eq_toNat_cond (inc.signExtend 64)
  have hwritten := BitVec.toInt_eq_toNat_cond (written ts inc)
  rw [toInt_sdiv_1000] at hms
  rw [(toNat_signExtend inc).1] at hinc
  have hlow := BitVec.le_toInt inc
  have hhigh := BitVec.toInt_lt (x := inc)
  -- what is written, without the wrap
  obtain ⟨k, hk⟩ : ∃ k : ℤ, (written ts inc).toInt = ts.toInt.tdiv 1000 * 2 ^ 32 + inc.toInt + k * 2 ^ 64 := by
    refine ⟨((written ts inc).toInt - ts.toInt.tdiv 1000 * 2 ^ 32 - inc.toInt) / 2 ^ 64, ?_⟩
    split_ifs at hms hinc hwritten <;> omega
  refine ⟨k * 2 ^ 0, ?_⟩
  rw [hupper, hk]
  split_ifs <;> omega

/-- The seconds that are read are those of the time for one time only. -/
theorem seconds_kept_iff :
    Timestamp.fromEpochTime ((written ts inc).sshiftRight 32) = ts ↔ ts.toInt = keptTime inc := by
  obtain ⟨k, hk⟩ := exists_upper ts inc
  have hlow : -2 ^ 31 ≤ ((written ts inc).sshiftRight 32).toInt := by
    have hle := BitVec.le_toInt (written ts inc)
    rw [BitVec.toInt_sshiftRight, Int.shiftRight_eq_div_pow]
    omega
  have hhigh : ((written ts inc).sshiftRight 32).toInt < 2 ^ 31 := by
    have hlt := BitVec.toInt_lt (x := written ts inc)
    rw [BitVec.toInt_sshiftRight, Int.shiftRight_eq_div_pow]
    omega
  have hseconds := toInt_fromEpochTime hlow hhigh
  rw [← BitVec.toInt_inj, hseconds, keptTime]
  rw [tdiv_1000] at hk
  generalize ((written ts inc).sshiftRight 32).toInt = seconds at *
  generalize ts.toInt = t at *
  -- 999 times the seconds are the borrow of the increment, up to the 32 bits that are left
  split_ifs at hk ⊢ <;> constructor <;> intro hsame <;> omega

end

/-! ### What is kept is read back -/

/-- A `BSONTimestamp` is read from what is written for it, with the seconds of the upper half. -/
theorem exists_puts_bsonTimestamp (h : Host) (ts : BitVec 64) (inc : BitVec 32) :
    ∃ bytes, Puts h (fun w => (Value.bsonTimestamp ts inc).write h w) bytes ∧
      ∀ readDocument, Gets h ((Value.bsonTimestamp 0 0).read h readDocument) bytes
        (.bsonTimestamp (Timestamp.fromEpochTime ((written ts inc).sshiftRight 32)) inc) := by
  obtain ⟨bytes, hputs, hgets⟩ := puts_longLong h (written ts inc)
  refine ⟨bytes, ?_, fun readDocument => ?_⟩
  · simp only [Value.write]
    exact hputs
  · have hbind := hgets.bind_pure fun value : BitVec 64 =>
      Value.bsonTimestamp (Timestamp.fromEpochTime (value.sshiftRight 32)) ((value &&& 0xFFFFFFFF).setWidth 32)
    rw [increment_back] at hbind
    exact hbind

theorem exists_puts_timestamp (h : Host) (ts : BitVec 64) :
    ∃ bytes, Puts h (fun w => (Value.timestamp ts).write h w) bytes ∧
      ∀ readDocument, Gets h ((Value.timestamp 0).read h readDocument) bytes (.timestamp
        (Timestamp.fromEpochTime ((ts.sdiv 1000).sdiv 1000) + (ts.sdiv 1000).srem 1000 * 1000)) := by
  obtain ⟨bytes, hputs, hgets⟩ := puts_longLong h (ts.sdiv 1000)
  refine ⟨bytes, ?_, fun readDocument => ?_⟩
  · simp only [Value.write]
    exact hputs
  · exact hgets.bind_pure fun value : BitVec 64 =>
      Value.timestamp (Timestamp.fromEpochTime (value.sdiv 1000) + value.srem 1000 * 1000)

mutual

theorem kept_readsBack : ∀ v : Value, v.Kept → ReadsBack h v
  | .timestamp ts, hkept => by
      rw [Value.Kept] at hkept
      obtain ⟨bytes, hputs, hgets⟩ := exists_puts_timestamp h ts
      rw [(milliseconds_back_iff ts).mpr hkept] at hgets
      exact readsBack_leaf hputs rfl fun _ => hgets
  | .bsonTimestamp ts inc, hkept => by
      rw [Value.Kept] at hkept
      obtain ⟨bytes, hputs, hgets⟩ := exists_puts_bsonTimestamp h ts inc
      rw [(seconds_kept_iff ts inc).mpr hkept] at hgets
      exact readsBack_leaf hputs rfl fun _ => hgets
  | .document elements, hkept => by
      rw [Value.Kept] at hkept
      exact readsBack_document (kept_readBack elements hkept) rfl (fun w => by rw [Value.write]) rfl fun _ => rfl
  | .array elements, hkept => by
      rw [Value.Kept] at hkept
      exact readsBack_document (kept_readBack elements hkept) rfl (fun w => by rw [Value.write]) rfl fun _ => rfl
  | .regularExpression pattern options, hkept => by
      rw [Value.Kept] at hkept
      exact readsBack _ (by rwa [Value.Legal])
  | .double _, _ | .string _, _ | .binary _ _, _ | .objectId _, _ | .bool _, _ | .null, _ | .javaScriptCode _, _
  | .int32 _, _ | .int64 _, _ | .decimal128 _ _, _ | .minKey, _ | .maxKey, _ => readsBack _ (by simp only [Value.Legal])

theorem kept_readBack : ∀ elements : Document, AllKept elements → ReadBack h elements
  | [], _ => readBack_nil
  | (name, v) :: elements, hkept => by
      rw [AllKept] at hkept
      exact ReadBack.cons hkept.1 (kept_readsBack v hkept.2.1) (kept_readBack elements hkept.2.2)

end

/-! ### What is read back is kept -/

theorem Puts.unique {put : BinaryWriter → BinaryWriter} {bytes bytes' : List UInt8} (hputs : Puts h put bytes)
    (hputs' : Puts h put bytes') : bytes = bytes' := by
  have hboth := (hputs []).symm.trans (hputs' [])
  injection hboth

theorem zero_notMem_cstring {rest val s : List UInt8} {istr : IStream} (hval : 0 ∉ val)
    (hs : cstring val rest = some (s, istr)) : 0 ∉ s := by
  induction rest generalizing val with
  | nil =>
      obtain ⟨rfl, -⟩ := Prod.mk.inj (Option.some.inj hs)
      exact hval
  | cons c rest ih =>
      rw [cstring] at hs
      split_ifs at hs with hzero hlong
      · obtain ⟨rfl, -⟩ := Prod.mk.inj (Option.some.inj hs)
        exact hval
      · apply ih ?_ hs
        rw [List.mem_append, List.mem_singleton, not_or]
        exact ⟨hval, Ne.symm hzero⟩

theorem zero_notMem_readCString {s : List UInt8} {r r' : BinaryReader} (hread : readCString r = .ok s r') : 0 ∉ s := by
  rw [readCString] at hread
  split_ifs at hread with hgood
  · cases hstring : cstring [] r._istr.rest with
    | none =>
        rw [hstring] at hread
        cases hread
    | some result =>
        rw [hstring] at hread
        cases hread
        exact zero_notMem_cstring List.not_mem_nil hstring
  · cases hread
    exact List.not_mem_nil

theorem readElements_front {fuel : ℕ} {front d : Document} {type : BitVec 8} {r r' : BinaryReader}
    (hread : readElements h fuel front type r = .ok d r') : front <+: d := by
  induction fuel generalizing front type r with
  | zero => cases hread
  | succ fuel ih =>
      rw [readElements] at hread
      split_ifs at hread with htype
      · cases hread
        exact List.prefix_rfl
      · obtain ⟨name, r₁, -, hread⟩ := exists_of_bind_ok hread
        cases hcreate : createElement type with
        | none =>
            rw [hcreate] at hread
            cases hread
        | some element =>
            rw [hcreate] at hread
            obtain ⟨value, r₂, -, hread⟩ := exists_of_bind_ok hread
            obtain ⟨type', r₃, -, hread⟩ := exists_of_bind_ok hread
            exact (List.prefix_append front _).trans (ih hread)

/-- If what is written for a value is read as this value, then it is kept. -/
def Reveals (h : Host) (v : Value) : Prop :=
  ∃ bytes, Puts h (fun w => v.write h w) bytes ∧ ((bytes.length : ℤ) ≤ BSON_MAX_DOCUMENT_SIZE →
    ∃ element, createElement v.type = some element ∧ ∀ fuel, bytes.length ≤ fuel → ∀ rest r',
      element.read h (readDocumentWith h (readElements h fuel [])) (reading h (bytes ++ rest)) = .ok v r' → v.Kept)

/-- If what is written for elements is read as these elements, behind others, then they are kept. -/
def Reveal (h : Host) (elements : Document) : Prop :=
  ∃ bytes, Puts h (fun w => writeElements h w elements) bytes ∧
    (((framed bytes).length : ℤ) ≤ BSON_MAX_DOCUMENT_SIZE → ∀ fuel, bytes.length < fuel → ∀ front old rest r',
      (readScalar h .unsignedChar old >>= readElements h fuel front) (reading h (bytes ++ rest)) =
        .ok (front ++ elements) r' → AllKept elements)

theorem reveals_of_kept {v : Value} (hkept : v.Kept) : Reveals h v := by
  obtain ⟨bytes, hputs, hgets⟩ := kept_readsBack (h := h) v hkept
  refine ⟨bytes, hputs, fun hlen => ?_⟩
  obtain ⟨element, hcreate, -⟩ := hgets hlen
  exact ⟨element, hcreate, fun _ _ _ _ _ => hkept⟩

/-- A value for which another one is read, or the same. -/
theorem reveals_of_gets {v v' element : Value} {bytes : List UInt8} (hputs : Puts h (fun w => v.write h w) bytes)
    (hcreate : createElement v.type = some element) (hgets : ∀ r, Gets h (element.read h r) bytes v')
    (hkept : v' = v → v.Kept) : Reveals h v := by
  refine ⟨bytes, hputs, fun _ => ⟨element, hcreate, fun _ _ rest _ hread => hkept ?_⟩⟩
  rw [hgets _ rest] at hread
  cases hread
  rfl

theorem reveals_regularExpression (pattern options : List UInt8) : Reveals h (.regularExpression pattern options) := by
  refine ⟨_, (puts_cstring pattern).append (puts_cstring options), fun _ => ⟨_, rfl, ?_⟩⟩
  intro fuel _ rest r' hread
  obtain ⟨pattern', r₁, hpattern, hread⟩ := exists_of_bind_ok hread
  obtain ⟨options', r₂, hoptions, hread⟩ := exists_of_bind_ok hread
  cases hread
  rw [Value.Kept]
  exact ⟨zero_notMem_readCString hpattern, zero_notMem_readCString hoptions⟩

theorem readDocumentWith_framed {elements : BitVec 8 → Reader Document} {bytes : List UInt8}
    (hlen : ((framed bytes).length : ℤ) ≤ BSON_MAX_DOCUMENT_SIZE) (rest : List UInt8) :
    readDocumentWith h elements (reading h (framed bytes ++ rest)) =
      (readNew h .unsignedChar >>= elements) (reading h (bytes ++ ([0] ++ rest))) := by
  have hmin : BSON_MIN_DOCUMENT_SIZE = 5 := rfl
  rw [length_framed] at hlen
  have hsize := toInt_ofNat hlen
  have hcheck : Gets h (checkSize BSON_MIN_DOCUMENT_SIZE "Invalid BSON document size: "
      "BSON document size exceeds 16 MB limit: " (BitVec.ofNat 32 (5 + bytes.length)).toInt) [] () := by
    rw [hsize]
    exact gets_checkSize (by omega) hlen _ _
  rw [framed, List.append_assoc, List.append_assoc]
  exact (bind_of_ok (gets_size _ _)).trans (bind_of_ok (hcheck (bytes ++ ([0] ++ rest))))

theorem reveals_document {v element : Value} {make : Document → Value} {elements : Document}
    (hreveal : Reveal h elements) (hmake : ∀ {d}, make d = v → d = elements)
    (hwrite : ∀ w, v.write h w = writeFrame h w elements.isEmpty
      (writeElements h (BinaryWriter.create h [] .littleEndianByteOrder) elements)._ostr)
    (hcreate : createElement v.type = some element) (hread : ∀ r, element.read h r = make <$> r)
    (hkept : AllKept elements → v.Kept) : Reveals h v := by
  obtain ⟨bytes, hputs, hkeeps⟩ := hreveal
  refine ⟨framed bytes, ?_, fun hlen => ⟨element, hcreate, ?_⟩⟩
  · simp only [hwrite]
    exact puts_frame hputs
  · intro fuel hfuel rest r' hvalue
    rw [length_framed] at hfuel
    rw [hread] at hvalue
    obtain ⟨d, r₁, hd, hvalue⟩ := exists_of_bind_ok (f := fun d => pure (make d)) hvalue
    obtain ⟨hsame, -⟩ := EStateM.Result.ok.inj hvalue
    obtain rfl := hmake hsame
    rw [readDocumentWith_framed hlen] at hd
    exact hkept (hkeeps hlen fuel (by omega) [] _ _ _ hd)

theorem reveal_nil : Reveal h [] :=
  ⟨[], puts_nothing, fun _ _ _ _ _ _ _ _ => by rw [AllKept]; trivial⟩

theorem Reveal.cons {name : List UInt8} {v : Value} (hv : Reveals h v) {elements : Document}
    (helements : Reveal h elements) : Reveal h ((name, v) :: elements) := by
  obtain ⟨bytes, hputs, hreveals⟩ := hv
  obtain ⟨bytes', hputs', hreveal⟩ := helements
  refine ⟨[UInt8.ofBitVec v.type] ++ (name ++ [0]) ++ bytes ++ bytes',
    (((puts_byte h v.type).append (puts_cstring name)).append hputs).append hputs', ?_⟩
  intro hlen fuel hfuel front old rest r' hread
  simp only [length_framed, List.length_append, List.length_singleton] at hlen hfuel hreveal
  obtain ⟨fuel, rfl⟩ := Nat.exists_eq_succ_of_ne_zero (Nat.ne_zero_of_lt hfuel)
  obtain ⟨element, hcreate, hkeeps⟩ := hreveals (by omega)
  have htype : v.type ≠ 0 := by
    intro hzero
    rw [hzero] at hcreate
    cases hcreate
  simp only [List.append_assoc] at hread
  replace hread := (bind_of_ok ((puts_byte h v.type).gets old _)).symm.trans hread
  rw [readElements, if_neg htype] at hread
  obtain ⟨name', r₁, hname, hread⟩ := exists_of_bind_ok hread
  rw [hcreate] at hread
  obtain ⟨v', r₂, hvalue, htail⟩ := exists_of_bind_ok hread
  obtain ⟨type', r₃, -, hlater⟩ := exists_of_bind_ok htail
  -- what has been read is the first of the elements
  obtain ⟨more, hmore⟩ := readElements_front hlater
  rw [List.append_assoc] at hmore
  obtain ⟨hfirst, -⟩ := List.cons.inj (List.append_cancel_left hmore)
  obtain ⟨rfl, rfl⟩ := Prod.mk.inj hfirst
  have hzero := zero_notMem_readCString hname
  have hstring := gets_cstring (h := h) hzero (by omega) (bytes ++ (bytes' ++ rest))
  rw [List.append_assoc] at hstring
  obtain ⟨-, rfl⟩ := EStateM.Result.ok.inj (hstring.symm.trans hname)
  have hkept := hkeeps fuel (by omega) _ _ hvalue
  obtain ⟨bytes'', hputs'', hgets⟩ := kept_readsBack (h := h) v' hkept
  obtain rfl := hputs.unique hputs''
  obtain ⟨element', hcreate', hget⟩ := hgets (by omega)
  obtain rfl := Option.some.inj (hcreate.symm.trans hcreate')
  obtain ⟨-, rfl⟩ := EStateM.Result.ok.inj ((hget fuel (by omega) (bytes' ++ rest)).symm.trans hvalue)
  rw [AllKept]
  refine ⟨hzero, hkept, hreveal (by omega) fuel (by omega) (front ++ [(name', v')]) v'.type rest r' ?_⟩
  rw [List.append_assoc, List.singleton_append]
  exact htail

mutual

theorem reveals : ∀ v : Value, Reveals h v
  | .timestamp ts => by
      obtain ⟨bytes, hputs, hgets⟩ := exists_puts_timestamp h ts
      refine reveals_of_gets hputs rfl hgets fun hsame => ?_
      rw [Value.Kept]
      injection hsame with hsame
      exact (milliseconds_back_iff ts).mp hsame
  | .bsonTimestamp ts inc => by
      obtain ⟨bytes, hputs, hgets⟩ := exists_puts_bsonTimestamp h ts inc
      refine reveals_of_gets hputs rfl hgets fun hsame => ?_
      rw [Value.Kept]
      injection hsame with hsame
      exact (seconds_kept_iff ts inc).mp hsame
  | .document elements =>
      reveals_document (reveal elements) Value.document.inj (fun w => by rw [Value.write]) rfl (fun _ => rfl)
        fun hkept => by rwa [Value.Kept]
  | .array elements =>
      reveals_document (reveal elements) Value.array.inj (fun w => by rw [Value.write]) rfl (fun _ => rfl)
        fun hkept => by rwa [Value.Kept]
  | .regularExpression pattern options => reveals_regularExpression pattern options
  | .double _ | .string _ | .binary _ _ | .objectId _ | .bool _ | .null | .javaScriptCode _
  | .int32 _ | .int64 _ | .decimal128 _ _ | .minKey | .maxKey => reveals_of_kept (by simp only [Value.Kept])

theorem reveal : ∀ elements : Document, Reveal h elements
  | [] => reveal_nil
  | (_, v) :: elements => Reveal.cons (reveals v) (reveal elements)

end

/-! ### Documents -/

namespace Document

/-- What is written for a document. -/
def bytes (h : Host) (d : Document) : List UInt8 :=
  (d.write h (BinaryWriter.create h [] .littleEndianByteOrder))._ostr

theorem exists_bytes (h : Host) (d : Document) :
    ∃ elements, Puts h (fun w => writeElements h w d) elements ∧ d.bytes h = framed elements := by
  obtain ⟨elements, hputs, -⟩ := reveal (h := h) d
  exact ⟨elements, hputs, congrArg BinaryWriter._ostr (puts_frame hputs [])⟩

theorem puts (h : Host) (d : Document) : Puts h (fun w => Document.write h w d) (d.bytes h) := by
  obtain ⟨elements, hputs, hbytes⟩ := exists_bytes h d
  rw [hbytes]
  exact puts_frame hputs

theorem bytes_ne_nil (h : Host) (d : Document) : d.bytes h ≠ [] := by
  obtain ⟨elements, -, hbytes⟩ := exists_bytes h d
  apply List.ne_nil_of_length_pos
  rw [hbytes, length_framed]
  omega

theorem gets {d : Document} (hkept : AllKept d) (hlen : ((d.bytes h).length : ℤ) ≤ BSON_MAX_DOCUMENT_SIZE) (fuel : ℕ)
    (hfuel : (d.bytes h).length ≤ fuel) : Gets h (Document.read h fuel []) (d.bytes h) d := by
  obtain ⟨elements, hputs, hgets⟩ := kept_readBack (h := h) d hkept
  have hbytes : d.bytes h = framed elements := congrArg BinaryWriter._ostr (puts_frame hputs [])
  rw [hbytes] at hlen hfuel ⊢
  rw [length_framed] at hfuel
  exact gets_document hlen (hgets hlen fuel (by omega) [])

/-- If what was written for a document is read as this document, then it is kept. -/
theorem kept_of_read {d : Document} (hlen : ((d.bytes h).length : ℤ) ≤ BSON_MAX_DOCUMENT_SIZE) (fuel : ℕ)
    (hfuel : (d.bytes h).length ≤ fuel) {rest : List UInt8} {r : BinaryReader}
    (hread : Document.read h fuel [] (reading h (d.bytes h ++ rest)) = .ok d r) : AllKept d := by
  obtain ⟨elements, hputs, hkeeps⟩ := reveal (h := h) d
  have hbytes : d.bytes h = framed elements := congrArg BinaryWriter._ostr (puts_frame hputs [])
  rw [hbytes] at hlen hfuel hread
  rw [length_framed] at hfuel
  rw [Document.read, readDocumentWith_framed hlen] at hread
  exact hkeeps hlen fuel (by omega) [] _ _ _ hread

end Document

end Poco.MongoDB
