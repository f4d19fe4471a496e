import Poco.MongoDB.DocumentRoundTrip

/-! # Documents that are cut off

A reader does not throw when its stream ends, and the loop of `read` goes on with the type of the last element,
so that a document that is cut off may be read for ever.  `scan` tells from the bytes alone whether a document is
complete, is rejected by one of the checks or is cut off, and `read` returns a whole document or throws an
exception on every host exactly if it is not cut off (`meets_iff`).

Variables without an initial value may hold anything.  On the host that is chosen for bytes that are cut off the
first of them is zero, and a size that is cut off passes its check (`Misleads`). -/

namespace Poco.MongoDB

open Poco.Lib Poco.Foundation

/-! ### The wire format -/

/-- What the front of some bytes is. -/
inductive Scan
  /-- It is complete, and `rest` follows. -/
  | done (rest : List UInt8)
  /-- A check fails. -/
  | rejected
  /-- The bytes end before it does. -/
  | truncated
deriving DecidableEq, Repr

namespace Scan

/-- One thing behind another. -/
def bind : Scan → (List UInt8 → Scan) → Scan
  | done rest, next => next rest
  | rejected, _ => rejected
  | truncated, _ => truncated

/-- `n` bytes. -/
def bytes (n : ℕ) (s : List UInt8) : Scan := if n ≤ s.length then done (s.drop n) else truncated

/-- A string with a zero at its end, of which `n` bytes are behind. -/
def cstring (n : ℕ) : List UInt8 → Scan
  | [] => truncated
  | c :: rest =>
    if c = 0 then done rest else if ((n + 1 : ℕ) : ℤ) > BSON_MAX_DOCUMENT_SIZE then rejected else cstring (n + 1) rest

/-- The number that the first four bytes stand for. -/
def size (s : List UInt8) : ℤ := (BitVec.ofNat 32 (ofBigEndian (s.take 4).reverse)).toInt

/-- A size that is at least `low`, and what it is the size of. -/
def sized (low : ℤ) (next : ℕ → List UInt8 → Scan) (s : List UInt8) : Scan :=
  if s.length < 4 then truncated
  else if size s < low ∨ size s > BSON_MAX_DOCUMENT_SIZE then rejected
  else next (size s).toNat (s.drop 4)

/-- Three bytes of a size that is too small or too large for a document, whatever the fourth is. -/
def cutSizes : List (List UInt8) := [[1, 0, 0], [2, 0, 0], [3, 0, 0], [4, 0, 0]]

/-- A document with the given elements. -/
def document (elements : List UInt8 → Scan) (s : List UInt8) : Scan :=
  if s ∈ cutSizes then rejected else sized BSON_MIN_DOCUMENT_SIZE (fun _ => elements) s

/-- A value of the same type as the given one. -/
def value (document : List UInt8 → Scan) : Value → List UInt8 → Scan
  | .double _ | .timestamp _ | .bsonTimestamp _ _ | .int64 _ => bytes 8
  | .string _ | .javaScriptCode _ => sized BSON_MIN_STRING_SIZE bytes
  | .document _ | .array _ => document
  | .binary _ _ => sized 0 fun n => bytes (n + 1)
  | .objectId _ => bytes 12
  | .bool _ => bytes 1
  | .null | .minKey | .maxKey => done
  | .regularExpression _ _ => fun s => (cstring 0 s).bind (cstring 0)
  | .int32 _ => bytes 4
  | .decimal128 _ _ => bytes 16

/-- Elements, and a zero.  An element of an unsupported type is rejected even if its name is cut off. -/
def elements : ℕ → List UInt8 → Scan
  | 0, _ => truncated
  | _ + 1, [] => truncated
  | fuel + 1, type :: s =>
    if type = 0 then done s
    else
      match createElement type.toBitVec with
      | none => rejected
      | some element => ((cstring 0 s).bind (value (document (elements fuel)) element)).bind (elements fuel)

end Scan

/-- A document; an element takes a byte. -/
def scan (s : List UInt8) : Scan := Scan.document (Scan.elements s.length) s

/-! ### What a reader does with it -/

/-- The size that is read where only `s` is left. -/
def cutSize (h : Host) (s : List UInt8) : ℤ :=
  Scan.size (s ++ ((List.range 4).map h.uninit).drop s.length)

/-- On this host a reader of `s` does not notice that a size is cut off. -/
def Misleads (h : Host) (s : List UInt8) : Prop :=
  h.uninit 0 = 0 ∧ ∀ t, t <:+ s → t.length < 4 → 1 ≤ cutSize h t ∧ cutSize h t ≤ BSON_MAX_DOCUMENT_SIZE ∧
    (t ∉ Scan.cutSizes → BSON_MIN_DOCUMENT_SIZE ≤ cutSize h t)

/-- A reader at the end of its stream. -/
def ended (h : Host) : BinaryReader := BinaryReader.create h ⟨[], false⟩ .littleEndianByteOrder

/-- Neither a whole document nor an exception. -/
inductive Bad (h : Host) {α : Type} : EStateM.Result Stop BinaryReader α → Prop
  | ok (a : α) : Bad h (.ok a (ended h))
  | undefined (r : BinaryReader) : Bad h (.error .undefined r)
  | outOfFuel (r : BinaryReader) : Bad h (.error .outOfFuel r)

/-- A reader does what the bytes let expect.  `Short` means that the fuel may not be enough. -/
inductive Follows (Short : Prop) (h : Host) (s : List UInt8) {α : Type} :
    Scan → EStateM.Result Stop BinaryReader α → Prop
  | done (a : α) (rest : List UInt8) : Follows Short h s (.done rest) (.ok a (reading h rest))
  | dataFormat (message : String) (r : BinaryReader) :
      Follows Short h s .rejected (.error (.dataFormatException message) r)
  | notImplemented (name : List UInt8) (type : BitVec 8) (r : BinaryReader) :
      Follows Short h s .rejected (.error (.notImplementedException name type) r)
  | truncated {result : EStateM.Result Stop BinaryReader α} (hbad : Misleads h s → Bad h result) :
      Follows Short h s .truncated result
  | outOfFuel (hshort : Short) (sc : Scan) (r : BinaryReader) : Follows Short h s sc (.error .outOfFuel r)

section

variable {Short : Prop} {h : Host} {s t : List UInt8} {α β : Type}

theorem Misleads.suffix (hm : Misleads h s) (ht : t <:+ s) : Misleads h t :=
  ⟨hm.1, fun u hu => hm.2 u (hu.trans ht)⟩

theorem Bad.bind {x : Reader α} {f : α → Reader β} {r : BinaryReader} (hx : Bad h (x r))
    (hf : ∀ a, Bad h (f a (ended h))) : Bad h ((x >>= f) r) := by
  generalize hres : x r = result at hx
  cases hx with
  | ok a =>
      rw [bind_of_ok hres]
      exact hf a
  | undefined r =>
      rw [bind_of_error hres]
      exact .undefined r
  | outOfFuel r =>
      rw [bind_of_error hres]
      exact .outOfFuel r

theorem Bad.map {x : Reader α} {r : BinaryReader} (hx : Bad h (x r)) (f : α → β) : Bad h ((f <$> x) r) :=
  Bad.bind (f := fun a => pure (f a)) hx fun a => .ok (f a)

theorem Bad.bind_pure {x : Reader α} {r : BinaryReader} (hx : Bad h (x r)) (f : α → β) :
    Bad h ((x >>= fun a => pure (f a)) r) := hx.map f

theorem Follows.mono {sc : Scan} {result : EStateM.Result Stop BinaryReader α} (ht : t <:+ s)
    (hf : Follows Short h t sc result) : Follows Short h s sc result := by
  cases hf with
  | done a rest => exact .done a rest
  | dataFormat message r => exact .dataFormat message r
  | notImplemented name type r => exact .notImplemented name type r
  | truncated hbad => exact .truncated fun hm => hbad (hm.suffix ht)
  | outOfFuel hshort sc r => exact .outOfFuel hshort sc r

/-- One computation behind another; what follows is also done where the stream has ended. -/
theorem Follows.bind {x : Reader α} {f : α → Reader β} {r : BinaryReader} {sc : Scan}
    {next : List UInt8 → Scan} (hx : Follows Short h s sc (x r))
    (hf : ∀ a rest, sc = .done rest → Follows Short h s (next rest) (f a (reading h rest)))
    (hend : ∀ a, Misleads h s → Bad h (f a (ended h))) : Follows Short h s (sc.bind next) ((x >>= f) r) := by
  generalize hres : x r = result at hx
  cases hx with
  | done a rest =>
      rw [bind_of_ok hres]
      exact hf a rest rfl
  | dataFormat message r =>
      rw [bind_of_error hres]
      exact .dataFormat message r
  | notImplemented name type r =>
      rw [bind_of_error hres]
      exact .notImplemented name type r
  | truncated hbad =>
      refine .truncated fun hm => Bad.bind ?_ fun a => hend a hm
      rw [hres]
      exact hbad hm
  | outOfFuel hshort sc r =>
      rw [bind_of_error hres]
      exact .outOfFuel hshort _ r

theorem Follows.map {x : Reader α} {r : BinaryReader} {sc : Scan} (hx : Follows Short h s sc (x r)) (f : α → β) :
    Follows Short h s sc ((f <$> x) r) := by
  have hbind : Follows Short h s (sc.bind .done) ((x >>= fun a => pure (f a)) r) :=
    Follows.bind hx (fun a rest _ => .done (f a) rest) fun a _ => .ok (f a)
  have hdone : sc.bind .done = sc := by cases sc <;> rfl
  rwa [hdone] at hbind

theorem Follows.bind_pure {x : Reader α} {r : BinaryReader} {sc : Scan} (hx : Follows Short h s sc (x r))
    (f : α → β) : Follows Short h s sc ((x >>= fun a => pure (f a)) r) := hx.map f

/-! ### Objects and blocks -/

theorem read_ended (old : List UInt8) : (ended h).read old = (old, ended h) := rfl

theorem read_reading (old s : List UInt8) :
    (reading h s).read old = if old.length ≤ s.length then (s.take old.length, reading h (s.drop old.length))
      else (s ++ old.drop s.length, ended h) := by
  have hread : (⟨s, true⟩ : IStream).read old = if old.length ≤ s.length
      then (s.take old.length, ⟨s.drop old.length, true⟩) else (s ++ old.drop s.length, ⟨[], false⟩) := rfl
  simp only [BinaryReader.read, reading, ended, BinaryReader.create, hread]
  split
  · rfl
  · rfl

/-- Bytes are read one by one up to the end of the stream. -/
theorem readEach_snd (old s : List UInt8) :
    ((ended h).readEach old).2 = ended h ∧
    ((reading h s).readEach old).2 =
      if old.length ≤ s.length then reading h (s.drop old.length) else ended h := by
  induction old generalizing s with
  | nil => exact ⟨rfl, by simp [BinaryReader.readEach]⟩
  | cons b old ih =>
      constructor
      · simp only [BinaryReader.readEach, read_ended, (ih s).1]
      · cases s with
        | nil =>
            have hread : (reading h []).read [b] = ([b], ended h) := rfl
            simp only [BinaryReader.readEach, hread, (ih []).1]
            rw [if_neg (by simp)]
        | cons c s =>
            have hread : (reading h (c :: s)).read [b] = ([c], reading h s) := rfl
            simp only [BinaryReader.readEach, hread, (ih s).2, List.length_cons, Nat.add_le_add_iff_right,
              List.drop_succ_cons]

/-- An arithmetic value takes its bytes, or all that are left. -/
theorem readScalar_snd (sc : Scalar) (old : BitVec (8 * sc.size h)) (s : List UInt8) :
    ((ended h).getScalar h sc old).2 = ended h ∧
    ((reading h s).getScalar h sc old).2 =
      if sc.size h ≤ s.length then reading h (s.drop (sc.size h)) else ended h := by
  have hone : ∀ {n : ℕ} (v : BitVec (8 * n)), ((reading h s).read (h.memory v)).2 =
      if n ≤ s.length then reading h (s.drop n) else ended h := by
    intro n v
    rw [read_reading, Host.length_memory]
    split
    · rfl
    · rfl
  have hfloat : ∀ {n : ℕ} (v : BitVec (8 * n)), ((ended h).getFloat h v).2 = ended h ∧
      ((reading h s).getFloat h v).2 = if n ≤ s.length then reading h (s.drop n) else ended h := by
    intro n v
    have heach := readEach_snd (h := h) (h.memory v).reverse s
    rw [List.length_reverse, Host.length_memory] at heach
    simp only [BinaryReader.getFloat]
    constructor
    · split
      · exact heach.1
      · rfl
    · split
      · exact heach.2
      · exact hone v
  cases sc with
  | char => exact ⟨rfl, hone old⟩
  | unsignedChar => exact ⟨rfl, hone old⟩
  | signedChar => exact ⟨rfl, hone old⟩
  | short => exact ⟨rfl, hone old⟩
  | unsignedShort => exact ⟨rfl, hone old⟩
  | int => exact ⟨rfl, hone old⟩
  | unsignedInt => exact ⟨rfl, hone old⟩
  | long => exact ⟨rfl, hone old⟩
  | unsignedLong => exact ⟨rfl, hone old⟩
  | longLong => exact ⟨rfl, hone old⟩
  | unsignedLongLong => exact ⟨rfl, hone old⟩
  | float => exact hfloat old
  | double => exact hfloat old

theorem follows_scalar (sc : Scalar) (old : BitVec (8 * sc.size h)) (s : List UInt8) :
    Follows Short h s (.bytes (sc.size h) s) (readScalar h sc old (reading h s)) := by
  have hread : readScalar h sc old (reading h s) =
      .ok ((reading h s).getScalar h sc old).1 ((reading h s).getScalar h sc old).2 := rfl
  rw [hread, (readScalar_snd sc old s).2, Scan.bytes]
  split
  · exact .done _ _
  · exact .truncated fun _ => .ok _

theorem bad_scalar (sc : Scalar) (old : BitVec (8 * sc.size h)) : Bad h (readScalar h sc old (ended h)) := by
  have hread : readScalar h sc old (ended h) =
      .ok ((ended h).getScalar h sc old).1 ((ended h).getScalar h sc old).2 := rfl
  rw [hread, (readScalar_snd sc old []).1]
  exact .ok _

/-- The number in an object whose bytes are in the order of a document. -/
theorem object_eq (h : Host) {bytes : List UInt8} (hlen : bytes.length = 4) :
    (if flipsBytes h .littleEndianByteOrder then ByteOrder.flipBytes 4 (h.object 4 bytes) else h.object 4 bytes) =
      (BitVec.ofNat 32 (ofBigEndian bytes.reverse) : BitVec (8 * 4)) := by
  have hflips : flipsBytes h .littleEndianByteOrder = h.archBigEndian := by
    rw [flipsBytes]
    cases h.archBigEndian <;> rfl
  rw [hflips]
  cases harch : h.archBigEndian with
  | false => simp [Host.object, harch]
  | true =>
      have hlt := ofBigEndian_lt bytes
      have hbytes := bigEndian_ofBigEndian bytes
      rw [hlen] at hlt hbytes
      have hobject : h.object 4 bytes = BitVec.ofNat 32 (ofBigEndian bytes) := by simp [Host.object, harch]
      have hnat : (BitVec.ofNat 32 (ofBigEndian bytes)).toNat = ofBigEndian bytes := by
        rw [BitVec.toNat_ofNat]
        exact Nat.mod_eq_of_lt hlt
      have hflip := bigEndian_flipBytes32 (BitVec.ofNat 32 (ofBigEndian bytes))
      rw [hnat, hbytes] at hflip
      have hlt' := (ByteOrder.flipBytes32 (BitVec.ofNat 32 (ofBigEndian bytes))).isLt
      rw [if_pos rfl, hobject, ← hflip, ofBigEndian_bigEndian hlt', BitVec.ofNat_toNat, BitVec.setWidth_eq]
      rfl

theorem memory_init (h : Host) : h.memory (n := 4) (Ty.init h (.scalar .int)) = (List.range 4).map h.uninit := by
  have := h.memory_object ((List.range 4).map h.uninit)
  exact this

/-- A size is read over a variable without an initial value. -/
theorem readSize_eq {r r' : BinaryReader} {bytes : List UInt8} (hlen : bytes.length = 4)
    (hflip : r'._flipBytes = flipsBytes h .littleEndianByteOrder)
    (hread : r.read ((List.range 4).map h.uninit) = (bytes, r')) :
    ∃ size : BitVec 32, readNew h .int r = .ok size r' ∧
      size.toInt = (BitVec.ofNat 32 (ofBigEndian bytes.reverse)).toInt := by
  have hget : ∀ old : BitVec (8 * 4), h.memory old = (List.range 4).map h.uninit →
      r.getInteger h old = ((BitVec.ofNat 32 (ofBigEndian bytes.reverse) : BitVec (8 * 4)), r') := by
    intro old hold
    rw [← object_eq h hlen]
    simp only [BinaryReader.getInteger, hold, hread, hflip]
  refine ⟨BitVec.ofNat 32 (ofBigEndian bytes.reverse), ?_, rfl⟩
  show EStateM.Result.ok (r.getInteger h (n := 4) (Ty.init h (.scalar .int))).1
    (r.getInteger h (n := 4) (Ty.init h (.scalar .int))).2 = _
  rw [hget _ (memory_init h)]
  rfl

theorem readSize_done {s : List UInt8} (hlen : 4 ≤ s.length) :
    ∃ size : BitVec 32, readNew h .int (reading h s) = .ok size (reading h (s.drop 4)) ∧ size.toInt = Scan.size s := by
  have hread := read_reading (h := h) ((List.range 4).map h.uninit) s
  rw [List.length_map, List.length_range, if_pos hlen] at hread
  exact readSize_eq (List.length_take_of_le hlen) rfl hread

theorem readSize_cut {s : List UInt8} (hlen : s.length < 4) :
    ∃ size : BitVec 32, readNew h .int (reading h s) = .ok size (ended h) ∧ size.toInt = cutSize h s := by
  have hread := read_reading (h := h) ((List.range 4).map h.uninit) s
  rw [List.length_map, List.length_range, if_neg (by omega)] at hread
  have hfour : (s ++ ((List.range 4).map h.uninit).drop s.length).length = 4 := by
    rw [List.length_append, List.length_drop, List.length_map, List.length_range]
    omega
  obtain ⟨size, hsize, hint⟩ := readSize_eq hfour rfl hread
  refine ⟨size, hsize, ?_⟩
  rw [hint, cutSize, Scan.size, List.take_of_length_le hfour.le]

theorem readSize_ended (h : Host) :
    ∃ size : BitVec 32, readNew h .int (ended h) = .ok size (ended h) ∧ size.toInt = cutSize h [] := by
  have hlen : ((List.range 4).map h.uninit).length = 4 := by rw [List.length_map, List.length_range]
  exact readSize_eq hlen rfl (read_ended _)

/-! ### Sizes and strings -/

theorem checkSize_eq (low size : ℤ) (invalid exceeds : String) (r : BinaryReader) :
    (low ≤ size ∧ size ≤ BSON_MAX_DOCUMENT_SIZE ∧ checkSize low invalid exceeds size r = .ok () r) ∨
      ((size < low ∨ size > BSON_MAX_DOCUMENT_SIZE) ∧
        ∃ message, checkSize low invalid exceeds size r = .error (.dataFormatException message) r) := by
  rw [checkSize]
  by_cases hlow : size < low
  · rw [if_pos hlow]
    exact Or.inr ⟨Or.inl hlow, _, rfl⟩
  · by_cases hmax : size > BSON_MAX_DOCUMENT_SIZE
    · rw [if_neg hlow, if_pos hmax]
      exact Or.inr ⟨Or.inr hmax, _, rfl⟩
    · rw [if_neg hlow, if_neg hmax]
      exact Or.inl ⟨not_lt.mp hlow, not_lt.mp hmax, rfl⟩

theorem checkSize_bind {low size : ℤ} (hlow : low ≤ size) (hmax : size ≤ BSON_MAX_DOCUMENT_SIZE)
    (invalid exceeds : String) (f : Unit → Reader α) (r : BinaryReader) :
    (checkSize low invalid exceeds size >>= f) r = f () r := by
  rcases checkSize_eq low size invalid exceeds r with ⟨-, -, hok⟩ | ⟨hout, -⟩
  · exact bind_of_ok hok
  · omega

section

variable {low : ℤ} {invalid exceeds : String} {f : BitVec 32 → Reader α}

theorem bind_of_size {r r' : BinaryReader} {size : BitVec 32} (hsize : readNew h .int r = .ok size r') :
    (readNew h .int >>= fun size : BitVec 32 => f size) r = f size r' := bind_of_ok hsize

theorem follows_sized {next : ℕ → List UInt8 → Scan}
    (hdone : ∀ size : BitVec 32, low ≤ size.toInt → 4 ≤ s.length →
      Follows Short h s (next size.toInt.toNat (s.drop 4)) (f size (reading h (s.drop 4))))
    (hlow : s.length < 4 → Misleads h s → low ≤ cutSize h s) (hend : ∀ size, Misleads h s → Bad h (f size (ended h))) :
    Follows Short h s (Scan.sized low next s) ((readNew h .int >>= fun size : BitVec 32 =>
      checkSize low invalid exceeds size.toInt >>= fun _ => f size) (reading h s)) := by
  rw [Scan.sized]
  by_cases hlen : s.length < 4
  · obtain ⟨size, hsize, hint⟩ := readSize_cut (h := h) hlen
    rw [if_pos hlen, bind_of_size hsize]
    refine .truncated fun hm => ?_
    obtain ⟨-, hmax, -⟩ := hm.2 s List.suffix_rfl hlen
    have hle := hlow hlen hm
    rw [← hint] at hle hmax
    rw [checkSize_bind hle hmax]
    exact hend size hm
  · obtain ⟨size, hsize, hint⟩ := readSize_done (h := h) (not_lt.mp hlen)
    rw [if_neg hlen, bind_of_size hsize, ← hint]
    rcases checkSize_eq low size.toInt invalid exceeds (reading h (s.drop 4)) with ⟨hle, hmax, hok⟩ | ⟨hout, message, herror⟩
    · rw [if_neg (by omega), bind_of_ok hok]
      exact hdone size hle (not_lt.mp hlen)
    · rw [if_pos hout, bind_of_error herror]
      exact .dataFormat message _

theorem rejected_size (hlen : s.length < 4) (hout : cutSize h s < low ∨ cutSize h s > BSON_MAX_DOCUMENT_SIZE) :
    Follows Short h s .rejected ((readNew h .int >>= fun size : BitVec 32 =>
      checkSize low invalid exceeds size.toInt >>= fun _ => f size) (reading h s)) := by
  obtain ⟨size, hsize, hint⟩ := readSize_cut (h := h) hlen
  rw [← hint] at hout
  rw [bind_of_size hsize]
  rcases checkSize_eq low size.toInt invalid exceeds (ended h) with ⟨hle, hmax, -⟩ | ⟨-, message, herror⟩
  · omega
  · rw [bind_of_error herror]
    exact .dataFormat message _

theorem bad_sized (hm : Misleads h s) (hlow : low ≤ BSON_MIN_DOCUMENT_SIZE) (hend : ∀ size, Bad h (f size (ended h))) :
    Bad h ((readNew h .int >>= fun size : BitVec 32 =>
      checkSize low invalid exceeds size.toInt >>= fun _ => f size) (ended h)) := by
  obtain ⟨size, hsize, hint⟩ := readSize_ended h
  obtain ⟨-, hmax, hmin⟩ := hm.2 [] List.nil_suffix (by decide)
  have hle := hlow.trans (hmin (by decide))
  rw [← hint] at hle hmax
  rw [bind_of_size hsize, checkSize_bind hle hmax]
  exact hend size

end

theorem cstring_scan (val s : List UInt8) :
    cstring val s = match Scan.cstring val.length s with
      | .done rest => some (val ++ s.takeWhile (· ≠ 0), ⟨rest, true⟩)
      | .rejected => none
      | .truncated => some (val ++ s, ⟨[], false⟩) := by
  induction s generalizing val with
  | nil => simp [cstring, Scan.cstring]
  | cons c s ih =>
      have hlen : (val ++ [c]).length = val.length + 1 := List.length_append
      rw [cstring, Scan.cstring, hlen]
      by_cases hzero : c = 0
      · simp [hzero]
      · rw [if_neg hzero, if_neg hzero]
        split_ifs
        · rfl
        · rw [ih, hlen]
          split <;> simp [hzero]

theorem follows_cstring (s : List UInt8) : Follows Short h s (.cstring 0 s) (readCString (reading h s)) := by
  have hscan := cstring_scan [] s
  rw [List.length_nil] at hscan
  simp only [readCString, reading, BinaryReader.create, if_true, hscan]
  cases Scan.cstring 0 s with
  | done rest => exact .done _ rest
  | rejected => exact .dataFormat _ _
  | truncated => exact .truncated fun _ => .ok _

/-- An element of an unsupported type is rejected, whatever its name. -/
theorem rejected_cstring {f : List UInt8 → Reader α} (type : BitVec 8)
    (hf : ∀ name r, f name r = .error (.notImplementedException name type) r) (r : BinaryReader) :
    Follows Short h s .rejected ((readCString >>= f) r) := by
  have hcases : (∃ name r', readCString r = .ok name r') ∨
      ∃ message, readCString r = .error (.dataFormatException message) r := by
    simp only [readCString]
    split_ifs
    · cases cstring [] r._istr.rest with
      | some val => exact Or.inl ⟨_, _, rfl⟩
      | none => exact Or.inr ⟨_, rfl⟩
    · exact Or.inl ⟨_, _, rfl⟩
  rcases hcases with ⟨name, r', hok⟩ | ⟨message, herror⟩
  · rw [bind_of_ok hok, hf]
    exact .notImplemented name type r'
  · rw [bind_of_error herror]
    exact .dataFormat message r

theorem readCString_ended : readCString (ended h) = .ok [] (ended h) := rfl

theorem getChars_scan (n : ℕ) (s value : List UInt8) :
    BinaryReader.getChars h n (reading h s) value =
      if n ≤ s.length then (value ++ s.take n, reading h (s.drop n)) else (value ++ s, ended h) := by
  induction n generalizing s value with
  | zero => simp [BinaryReader.getChars]
  | succ n ih =>
      cases s with
      | nil =>
          have hread : (reading h []).read [h.uninit 0] = ([h.uninit 0], ended h) := rfl
          simp [BinaryReader.getChars, hread, ended, BinaryReader.create]
      | cons c s =>
          have hread : (reading h (c :: s)).read [h.uninit 0] = ([c], reading h s) := rfl
          have hgood : (reading h s)._istr.good = true := rfl
          simp only [BinaryReader.getChars, hread, hgood, if_true, ih, List.length_cons, Nat.add_le_add_iff_right,
            List.take_succ_cons, List.drop_succ_cons, List.append_assoc, List.singleton_append]

theorem getChars_ended (n : ℕ) : BinaryReader.getChars h n (ended h) [] = ([], ended h) := by
  cases n with
  | zero => rfl
  | succ n => rfl

theorem follows_string (s : List UInt8) :
    Follows Short h s (Scan.sized BSON_MIN_STRING_SIZE Scan.bytes s) (readString h (reading h s)) := by
  have hmin : BSON_MIN_STRING_SIZE = 1 := rfl
  refine follows_sized (fun size hlow _ => ?_) (fun hlen hm => (hm.2 s List.suffix_rfl hlen).1) fun size _ => ?_
  · have hraw : readRaw h size.toInt.toNat (reading h (s.drop 4)) =
        .ok (BinaryReader.getChars h size.toInt.toNat (reading h (s.drop 4)) []).1
          (BinaryReader.getChars h size.toInt.toNat (reading h (s.drop 4)) []).2 := rfl
    rw [bind_of_ok hraw, getChars_scan, Scan.bytes]
    split_ifs with hle hnil hnil
    · have : size.toInt.toNat = 0 := by
        have := congrArg List.length hnil
        simp only [List.nil_append, List.length_take, List.length_nil] at this
        omega
      omega
    · exact .done _ _
    · exact .truncated fun _ => .undefined _
    · exact .truncated fun _ => .ok _
  · have hraw : readRaw h size.toInt.toNat (ended h) = .ok [] (ended h) := by
      show EStateM.Result.ok (BinaryReader.getChars h size.toInt.toNat (ended h) []).1
        (BinaryReader.getChars h size.toInt.toNat (ended h) []).2 = _
      rw [getChars_ended]
    rw [bind_of_ok hraw, if_pos rfl]
    exact .undefined _

theorem bad_string (hm : Misleads h s) : Bad h (readString h (ended h)) := by
  refine bad_sized hm (by decide) fun size => ?_
  have hraw : readRaw h size.toInt.toNat (ended h) = .ok [] (ended h) := by
    show EStateM.Result.ok (BinaryReader.getChars h size.toInt.toNat (ended h) []).1
      (BinaryReader.getChars h size.toInt.toNat (ended h) []).2 = _
    rw [getChars_ended]
  rw [bind_of_ok hraw, if_pos rfl]
  exact .undefined _

/-! ### Values -/

theorem Scan.bytes_add (m n : ℕ) (s : List UInt8) : bytes (m + n) s = (bytes m s).bind (bytes n) := by
  rw [bytes, bytes]
  by_cases hm : m ≤ s.length
  · rw [if_pos hm, bind, bytes, List.drop_drop, List.length_drop]
    by_cases hn : m + n ≤ s.length
    · rw [if_pos hn, if_pos (by omega)]
    · rw [if_neg hn, if_neg (by omega)]
  · rw [if_neg (by omega), if_neg hm]
    rfl

theorem Scan.bind_assoc (sc : Scan) (f g : List UInt8 → Scan) :
    (sc.bind f).bind g = sc.bind fun rest => (f rest).bind g := by
  cases sc <;> rfl

theorem follows_buffer (old s : List UInt8) :
    Follows Short h s (.bytes old.length s) (readBuffer old (reading h s)) := by
  have hread : readBuffer old (reading h s) = .ok ((reading h s).read old).1 ((reading h s).read old).2 := rfl
  rw [hread, read_reading, Scan.bytes]
  split
  · exact .done _ _
  · exact .truncated fun _ => .ok _

theorem follows_objectId (id : { id : List UInt8 // id.length = 12 }) (s : List UInt8) :
    Follows Short h s (.bytes 12 s) (readObjectId id (reading h s)) := by
  have hread := read_reading (h := h) id.val s
  rw [id.property] at hread
  have hsnd : ((reading h s).read id.val).2 = if 12 ≤ s.length then reading h (s.drop 12) else ended h := by
    rw [hread]
    split
    · rfl
    · rfl
  rw [readObjectId, hsnd, Scan.bytes]
  split
  · exact .done _ _
  · exact .truncated fun _ => .ok _

theorem follows_binary (s : List UInt8) :
    Follows Short h s (Scan.sized 0 (fun n => Scan.bytes (n + 1)) s) (readBinary h (reading h s)) := by
  refine follows_sized (fun size _ _ => ?_) (fun hlen hm => ?_) fun size _ => ?_
  · rw [Nat.add_comm, Scan.bytes_add]
    refine Follows.mono (List.drop_suffix 4 s)
      (Follows.bind (follows_scalar .unsignedChar _ _) (fun subtype rest hrest => ?_) fun subtype _ => ?_)
    · have hsuffix : rest <:+ s.drop 4 := by
        rw [Scan.bytes] at hrest
        split at hrest
        · cases hrest
          exact List.drop_suffix _ _
        · cases hrest
      refine Follows.mono hsuffix ?_
      split_ifs with hpos
      · have hlen : ((List.range size.toInt.toNat).map h.uninit).length = size.toInt.toNat := by
          rw [List.length_map, List.length_range]
        nth_rewrite 1 [← hlen]
        exact (follows_buffer _ rest).map _
      · have hzero : size.toInt.toNat = 0 := by omega
        rw [hzero]
        exact .done _ rest
    · split_ifs
      · exact .ok _
      · exact .ok _
  · exact (by decide : (0 : ℤ) ≤ 1).trans (hm.2 s List.suffix_rfl hlen).1
  · refine Bad.bind (bad_scalar .unsignedChar _) fun subtype => ?_
    split_ifs
    · exact .ok _
    · exact .ok _

theorem bad_binary (hm : Misleads h s) : Bad h (readBinary h (ended h)) := by
  refine bad_sized hm (by decide) fun size => Bad.bind (bad_scalar .unsignedChar _) fun subtype => ?_
  split_ifs
  · exact .ok _
  · exact .ok _

/-! ### Suffixes -/

/-- What is left is at the end of the bytes. -/
def Scan.Leaves (sc : Scan) (s : List UInt8) : Prop := ∀ rest, sc = .done rest → rest <:+ s

namespace Scan

theorem Leaves.bind {sc : Scan} {next : List UInt8 → Scan} (hsc : sc.Leaves s) (hnext : ∀ t, (next t).Leaves t) :
    (sc.bind next).Leaves s := by
  intro rest hrest
  cases sc with
  | done t => exact (hnext t rest hrest).trans (hsc t rfl)
  | rejected => cases hrest
  | truncated => cases hrest

theorem leaves_done (s : List UInt8) : (done s).Leaves s := by
  rintro rest ⟨⟩
  exact List.suffix_rfl

theorem leaves_bytes (n : ℕ) (s : List UInt8) : (bytes n s).Leaves s := by
  intro rest hrest
  rw [bytes] at hrest
  split at hrest
  · cases hrest
    exact List.drop_suffix _ _
  · cases hrest

theorem leaves_cstring (n : ℕ) (s : List UInt8) : (cstring n s).Leaves s := by
  induction s generalizing n with
  | nil => rintro rest ⟨⟩
  | cons c s ih =>
      intro rest hrest
      rw [cstring] at hrest
      split_ifs at hrest
      · cases hrest
        exact List.suffix_cons _ _
      · exact (ih (n + 1) rest hrest).trans (List.suffix_cons _ _)

theorem leaves_sized {next : ℕ → List UInt8 → Scan} (low : ℤ) (hnext : ∀ n t, (next n t).Leaves t) (s : List UInt8) :
    (sized low next s).Leaves s := by
  intro rest hrest
  rw [sized] at hrest
  split_ifs at hrest
  exact (hnext _ _ rest hrest).trans (List.drop_suffix _ _)

theorem leaves_document {elements : List UInt8 → Scan} (helements : ∀ t, (elements t).Leaves t) (s : List UInt8) :
    (document elements s).Leaves s := by
  rw [document]
  split
  · rintro rest ⟨⟩
  · exact leaves_sized _ (fun _ => helements) s

theorem leaves_value {document : List UInt8 → Scan} (hdocument : ∀ t, (document t).Leaves t) (v : Value)
    (s : List UInt8) : (value document v s).Leaves s := by
  cases v with
  | double | timestamp | bsonTimestamp | int64 | objectId | bool | int32 | decimal128 => exact leaves_bytes _ s
  | string | javaScriptCode => exact leaves_sized _ leaves_bytes s
  | document | array => exact hdocument s
  | binary => exact leaves_sized _ (fun n => leaves_bytes (n + 1)) s
  | null | minKey | maxKey => exact leaves_done s
  | regularExpression => exact (leaves_cstring 0 s).bind (leaves_cstring 0)

theorem leaves_elements (fuel : ℕ) (s : List UInt8) : (elements fuel s).Leaves s := by
  induction fuel generalizing s with
  | zero => rintro rest ⟨⟩
  | succ fuel ih =>
      cases s with
      | nil => rintro rest ⟨⟩
      | cons type s =>
          intro rest hrest
          rw [elements] at hrest
          refine List.IsSuffix.trans ?_ (List.suffix_cons type s)
          split_ifs at hrest
          · cases hrest
            exact List.suffix_rfl
          · split at hrest
            · cases hrest
            · exact ((leaves_cstring 0 s).bind (leaves_value (leaves_document ih) _)).bind ih rest hrest

end Scan

/-! ### Elements -/

theorem follows_value {r : Reader Document} {document : List UInt8 → Scan}
    (hr : ∀ t, t <:+ s → Follows Short h t (document t) (r (reading h t))) (v : Value) (ht : t <:+ s) :
    Follows Short h t (Scan.value document v t) (v.read h r (reading h t)) := by
  cases v with
  | double bits => exact (follows_scalar .double bits t).map Value.double
  | string => exact (follows_string t).map Value.string
  | document => exact (hr t ht).map Value.document
  | array => exact (hr t ht).map Value.array
  | binary => exact follows_binary t
  | objectId id => exact (follows_objectId id t).map Value.objectId
  | bool => exact (follows_scalar .unsignedChar _ t).bind_pure _
  | timestamp => exact (follows_scalar .longLong _ t).bind_pure _
  | null => exact .done _ t
  | regularExpression =>
      refine Follows.bind (follows_cstring t) (fun pattern rest hrest => ?_) fun pattern _ => .ok _
      exact Follows.mono (Scan.leaves_cstring 0 t rest hrest) ((follows_cstring rest).map (Value.regularExpression pattern))
  | javaScriptCode => exact (follows_string t).map Value.javaScriptCode
  | int32 value => exact (follows_scalar .int value t).map Value.int32
  | bsonTimestamp => exact (follows_scalar .longLong _ t).bind_pure _
  | int64 value => exact (follows_scalar .longLong value t).map Value.int64
  | decimal128 low high =>
      have hbytes : Scan.value document (.decimal128 low high) t = (Scan.bytes 8 t).bind (Scan.bytes 8) :=
        Scan.bytes_add 8 8 t
      rw [hbytes]
      refine Follows.bind (follows_scalar .unsignedLongLong _ t) (fun _ rest hrest => ?_)
        fun _ _ => (bad_scalar .unsignedLongLong _).bind_pure _
      exact Follows.mono (Scan.leaves_bytes 8 t rest hrest) ((follows_scalar .unsignedLongLong _ rest).bind_pure _)
  | minKey => exact .done _ t
  | maxKey => exact .done _ t

theorem bad_value {r : Reader Document} (hm : Misleads h s) (hr : Bad h (r (ended h))) (v : Value) :
    Bad h (v.read h r (ended h)) := by
  cases v with
  | double bits => exact (bad_scalar .double bits).map Value.double
  | string => exact (bad_string hm).map Value.string
  | document => exact hr.map Value.document
  | array => exact hr.map Value.array
  | binary => exact bad_binary hm
  | objectId id => exact .ok _
  | bool => exact (bad_scalar .unsignedChar _).bind_pure _
  | timestamp => exact (bad_scalar .longLong _).bind_pure _
  | null => exact .ok _
  | regularExpression => exact .ok _
  | javaScriptCode => exact (bad_string hm).map Value.javaScriptCode
  | int32 value => exact (bad_scalar .int value).map Value.int32
  | bsonTimestamp => exact (bad_scalar .longLong _).bind_pure _
  | int64 value => exact (bad_scalar .longLong value).map Value.int64
  | decimal128 => exact Bad.bind (bad_scalar .unsignedLongLong _) fun _ => (bad_scalar .unsignedLongLong _).bind_pure _
  | minKey => exact .ok _
  | maxKey => exact .ok _

theorem length_of_mem_cutSizes (hs : s ∈ Scan.cutSizes) : s.length < 4 := by
  have hall : ∀ t ∈ Scan.cutSizes, t.length < 4 := by decide
  exact hall s hs

/-- A size that is cut off behind three of the bytes is not the size of a document. -/
theorem cutSize_cutSizes (h : Host) (hs : s ∈ Scan.cutSizes) :
    cutSize h s < BSON_MIN_DOCUMENT_SIZE ∨ cutSize h s > BSON_MAX_DOCUMENT_SIZE := by
  have hmin : BSON_MIN_DOCUMENT_SIZE = 5 := rfl
  have hmax : BSON_MAX_DOCUMENT_SIZE = 16777216 := rfl
  have hbyte := (h.uninit 3).toNat_lt
  have hsize : ∀ b : ℕ, 1 ≤ b → b ≤ 4 →
      (BitVec.ofNat 32 ((h.uninit 3).toNat * 16777216 + b)).toInt < 5 ∨
        (BitVec.ofNat 32 ((h.uninit 3).toNat * 16777216 + b)).toInt > 16777216 := by
    intro b hlow hhigh
    rw [BitVec.toInt_eq_toNat_cond, BitVec.toNat_ofNat]
    split_ifs <;> omega
  rw [hmin, hmax]
  simp only [Scan.cutSizes, List.mem_cons, List.not_mem_nil, or_false] at hs
  have hcut : ∀ b : UInt8, 1 ≤ b.toNat → b.toNat ≤ 4 → cutSize h [b, 0, 0] < 5 ∨ cutSize h [b, 0, 0] > 16777216 := by
    intro b hlow hhigh
    have hnumber : ofBigEndian [h.uninit 3, 0, 0, b] = (h.uninit 3).toNat * 16777216 + b.toNat := by
      simp [ofBigEndian, Nat.mul_assoc]
    have hcut : cutSize h [b, 0, 0] = (BitVec.ofNat 32 (ofBigEndian [h.uninit 3, 0, 0, b])).toInt := rfl
    rw [hcut, hnumber]
    exact hsize b.toNat hlow hhigh
  rcases hs with rfl | rfl | rfl | rfl
  · exact hcut 1 (by decide) (by decide)
  · exact hcut 2 (by decide) (by decide)
  · exact hcut 3 (by decide) (by decide)
  · exact hcut 4 (by decide) (by decide)

theorem follows_document {scanElements : List UInt8 → Scan} {readElements : BitVec 8 → Reader Document}
    (helements : 4 ≤ s.length → Follows Short h (s.drop 4) (scanElements (s.drop 4))
      ((readNew h .unsignedChar >>= readElements) (reading h (s.drop 4))))
    (hend : Misleads h s → Bad h ((readNew h .unsignedChar >>= readElements) (ended h))) :
    Follows Short h s (Scan.document scanElements s) (readDocumentWith h readElements (reading h s)) := by
  rw [Scan.document]
  split_ifs with hcut
  · exact rejected_size (length_of_mem_cutSizes hcut) (cutSize_cutSizes h hcut)
  · exact follows_sized (fun size _ hlen => Follows.mono (List.drop_suffix 4 s) (helements hlen))
      (fun hlen hm => (hm.2 s List.suffix_rfl hlen).2.2 hcut) fun _ hm => hend hm

theorem bad_document {readElements : BitVec 8 → Reader Document} (hm : Misleads h s)
    (hend : Bad h ((readNew h .unsignedChar >>= readElements) (ended h))) :
    Bad h (readDocumentWith h readElements (ended h)) := bad_sized hm le_rfl fun _ => hend

/-- The type of the last element stays in its variable. -/
theorem bad_type {r : BinaryReader} (hr : r = ended h ∨ r = reading h []) {type : BitVec 8} {f : BitVec 8 → Reader α}
    (hf : Bad h (f type (ended h))) : Bad h ((readScalar h .unsignedChar type >>= f) r) := by
  have hmemory := h.length_memory (n := 1) type
  obtain ⟨b, hb⟩ := List.length_eq_one_iff.mp hmemory
  have hobject : h.object 1 [b] = type := by
    rw [← hb]
    exact h.object_memory (n := 1) type
  have hread : r.read (h.memory (n := 1) type) = ([b], ended h) := by
    rw [hb]
    rcases hr with rfl | rfl
    · rfl
    · rfl
  have hscalar : readScalar h .unsignedChar type r = .ok type (ended h) := by
    show EStateM.Result.ok (h.object 1 (r.read (h.memory (n := 1) type)).1) (r.read (h.memory (n := 1) type)).2 = _
    rw [hread, hobject]
    rfl
  have hbind : (readScalar h .unsignedChar type >>= f) r = f type (ended h) := bind_of_ok hscalar
  rw [hbind]
  exact hf

theorem follows_type {old : BitVec 8} {type : UInt8} {sc : Scan} {f : BitVec 8 → Reader α}
    (hf : Follows Short h t sc (f type.toBitVec (reading h s))) :
    Follows Short h t sc ((readScalar h .unsignedChar old >>= f) (reading h (type :: s))) := by
  have hbind : (readScalar h .unsignedChar old >>= f) (reading h (type :: s)) = f type.toBitVec (reading h s) :=
    bind_of_ok ((puts_byte h type.toBitVec).gets old s)
  rw [hbind]
  exact hf

theorem Misleads.type (hm : Misleads h s) : Ty.init h (.scalar .unsignedChar) = (0 : BitVec 8) := by
  have hinit : Ty.init h (.scalar .unsignedChar) = h.object 1 [h.uninit 0] := rfl
  rw [hinit, hm.1, Host.object]
  split <;> rfl

theorem bad_round (hm : Misleads h s) {fuel : ℕ}
    (hloop : ∀ (front : Document) (type : BitVec 8), (type = 0 ∨ (createElement type).isSome) →
      Bad h (readElements h fuel front type (ended h))) (element : Value) {type : BitVec 8}
    (htype : type = 0 ∨ (createElement type).isSome) (append : Value → Document) :
    Bad h ((element.read h (readDocumentWith h (readElements h fuel [])) >>= fun value =>
      readScalar h .unsignedChar type >>= fun type => readElements h fuel (append value) type) (ended h)) := by
  have hnested : Bad h (readDocumentWith h (readElements h fuel []) (ended h)) := by
    refine bad_document hm ?_
    rw [readNew, hm.type]
    exact bad_type (Or.inl rfl) (hloop [] 0 (Or.inl rfl))
  exact Bad.bind (bad_value hm hnested element) fun v => bad_type (Or.inl rfl) (hloop _ type htype)

/-- Where the stream has ended, the loop goes on with the type that it has. -/
theorem bad_elements (hm : Misleads h s) (fuel : ℕ) (front : Document) (type : BitVec 8)
    (htype : type = 0 ∨ (createElement type).isSome) : Bad h (readElements h fuel front type (ended h)) := by
  induction fuel generalizing front type with
  | zero => exact .outOfFuel _
  | succ fuel ih =>
      rw [readElements]
      by_cases hzero : type = 0
      · rw [if_pos hzero]
        exact .ok front
      · obtain ⟨element, helement⟩ := Option.isSome_iff_exists.mp (htype.resolve_left hzero)
        rw [if_neg hzero, bind_of_ok readCString_ended, helement]
        exact bad_round hm ih element htype _

/-- An element behind its type, and the elements that follow it. -/
theorem follows_round {n m : ℕ}
    (hloop : ∀ (t : List UInt8) (front : Document) (old : BitVec 8), t <:+ s →
      (Misleads h t → old = 0 ∨ (createElement old).isSome) → Follows Short h t (Scan.elements n t)
        ((readScalar h .unsignedChar old >>= readElements h m front) (reading h t)))
    {type : BitVec 8} {element : Value} (hcreate : createElement type = some element) (front : Document) :
    Follows Short h s
      (((Scan.cstring 0 s).bind (Scan.value (Scan.document (Scan.elements n)) element)).bind (Scan.elements n))
      ((readCString >>= fun name => element.read h (readDocumentWith h (readElements h m [])) >>= fun value =>
        readScalar h .unsignedChar type >>= fun type => readElements h m (front ++ [(name, value)]) type)
        (reading h s)) := by
  have htype : type = 0 ∨ (createElement type).isSome := Or.inr (by rw [hcreate]; rfl)
  have hnested : ∀ t, t <:+ s → Follows Short h t (Scan.document (Scan.elements n) t)
      (readDocumentWith h (readElements h m []) (reading h t)) := by
    intro t ht
    refine follows_document (fun _ => hloop _ [] _ ((List.drop_suffix 4 t).trans ht) fun hmis => Or.inl hmis.type)
      fun hmis => ?_
    rw [readNew, hmis.type]
    exact bad_type (Or.inl rfl) (bad_elements hmis m [] 0 (Or.inl rfl))
  rw [Scan.bind_assoc]
  refine Follows.bind (follows_cstring s) (fun name t ht => ?_)
    fun name hmis => bad_round hmis (bad_elements hmis m) element htype _
  have ht := Scan.leaves_cstring 0 s t ht
  refine Follows.bind (Follows.mono ht (follows_value hnested element ht)) (fun v u hu => ?_)
    fun v hmis => bad_type (Or.inl rfl) (bad_elements hmis m _ type htype)
  have hu := (Scan.leaves_value (Scan.leaves_document (Scan.leaves_elements n)) element t u hu).trans ht
  exact Follows.mono hu (hloop u _ type hu fun _ => htype)

/-- **The loop.** By induction on the fuel of the scan: each round takes the type of an element and, if it is
supported, goes on behind its name and its value. -/
theorem follows_elements (n : ℕ) : ∀ (m : ℕ) (s : List UInt8) (front : Document) (old : BitVec 8), s.length < n →
    (¬Short → s.length < m) → (Misleads h s → old = 0 ∨ (createElement old).isSome) →
      Follows Short h s (Scan.elements n s)
        ((readScalar h .unsignedChar old >>= readElements h m front) (reading h s)) := by
  induction n with
  | zero => exact fun m s front old hn => absurd hn (Nat.not_lt_zero _)
  | succ n ih =>
      intro m s front old hn hm hold
      cases s with
      | nil => exact .truncated fun hmis => bad_type (Or.inr rfl) (bad_elements hmis m front old (hold hmis))
      | cons type s =>
          rw [List.length_cons] at hn hm
          refine follows_type ?_
          cases m with
          | zero => exact .outOfFuel (by_contra fun hshort => Nat.not_lt_zero _ (hm hshort)) _ _
          | succ m =>
              rw [Scan.elements, readElements]
              by_cases hzero : type = 0
              · rw [if_pos hzero, if_pos (by rw [hzero]; rfl)]
                exact .done front s
              · have hzero' : type.toBitVec ≠ 0 := fun h0 => hzero (UInt8.toBitVec_inj.mp h0)
                rw [if_neg hzero, if_neg hzero']
                cases hcreate : createElement type.toBitVec with
                | none => exact rejected_cstring type.toBitVec (fun _ _ => rfl) _
                | some element =>
                    refine Follows.mono (List.suffix_cons type s) (follows_round (fun t front old ht => ?_) hcreate front)
                    have hlen := ht.length_le
                    exact ih m t front old (by omega) fun hshort => by have := hm hshort; omega

theorem follows_read {fuel : ℕ} {s : List UInt8} (hfuel : ¬Short → s.length < fuel) :
    Follows Short h s (scan s) (Document.read h fuel [] (reading h s)) := by
  refine follows_document (fun hlen => ?_) fun hmis => ?_
  · have hdrop : (s.drop 4).length < s.length := by
      rw [List.length_drop]
      omega
    exact follows_elements s.length fuel (s.drop 4) [] _ hdrop (fun hshort => hdrop.trans (hfuel hshort))
      fun hmis => Or.inl hmis.type
  · rw [readNew, hmis.type]
    exact bad_type (Or.inl rfl) (bad_elements hmis fuel [] 0 (Or.inl rfl))

end

/-! ### A host that misleads -/

theorem Scan.size_four (a b c d : UInt8) (hd : d.toNat < 128) :
    size [a, b, c, d] = ((d.toNat * 16777216 + c.toNat * 65536 + b.toNat * 256 + a.toNat : ℕ) : ℤ) := by
  have ha := a.toNat_lt
  have hb := b.toNat_lt
  have hc := c.toNat_lt
  have hnumber : ofBigEndian [d, c, b, a] = d.toNat * 16777216 + c.toNat * 65536 + b.toNat * 256 + a.toNat := by
    simp only [ofBigEndian, List.foldl_cons, List.foldl_nil]
    ring
  have hsize : size [a, b, c, d] = (BitVec.ofNat 32 (ofBigEndian [d, c, b, a])).toInt := rfl
  rw [hsize, hnumber, BitVec.toInt_eq_toNat_of_lt (by rw [BitVec.toNat_ofNat]; omega), BitVec.toNat_ofNat]
  omega

/-- The byte that is one makes a size of the bytes that are left. -/
def misleadingHost (s : List UInt8) : Host where
  archBigEndian := false
  longIs64Bit := true
  uninit i := if i = (if [0, 0, 0] <:+ s then 3 else 2) then 1 else 0

theorem misleads_misleadingHost (s : List UInt8) : Misleads (misleadingHost s) s := by
  have hmin : BSON_MIN_DOCUMENT_SIZE = 5 := rfl
  have hmax : BSON_MAX_DOCUMENT_SIZE = 16777216 := rfl
  by_cases hzeros : [0, 0, 0] <:+ s
  · have huninit : ∀ i, (misleadingHost s).uninit i = if i = 3 then 1 else 0 := by simp [misleadingHost, hzeros]
    refine ⟨by rw [huninit, if_neg (by decide)], fun t ht hlen => ?_⟩
    -- every suffix is a row of zeros, which is cut off before a one
    have ht : t <:+ [0, 0, 0] := List.suffix_of_suffix_length_le ht hzeros (by simpa using Nat.le_of_lt_succ hlen)
    have hcut : cutSize (misleadingHost s) t = 16777216 := by
      have hcases : t = [0, 0, 0] ∨ t = [0, 0] ∨ t = [0] ∨ t = [] := by
        simpa [List.suffix_cons_iff] using ht
      rcases hcases with rfl | rfl | rfl | rfl <;> simp [cutSize, List.range_succ, huninit, Scan.size_four]
    rw [hcut, hmin, hmax]
    omega
  · have huninit : ∀ i, (misleadingHost s).uninit i = if i = 2 then 1 else 0 := by simp [misleadingHost, hzeros]
    refine ⟨by rw [huninit, if_neg (by decide)], fun t ht hlen => ?_⟩
    have hcut : ∀ a b c : UInt8, Scan.size [a, b, c, 0] = ((c.toNat * 65536 + b.toNat * 256 + a.toNat : ℕ) : ℤ) := by
      intro a b c
      simpa using Scan.size_four a b c 0 (by decide)
    rw [hmin, hmax]
    match t with
    | [] =>
        have hsize : cutSize (misleadingHost s) [] = Scan.size [0, 0, 1, 0] := by simp [cutSize, List.range_succ, huninit]
        rw [hsize, hcut]
        decide
    | [a] =>
        have hsize : cutSize (misleadingHost s) [a] = Scan.size [a, 0, 1, 0] := by simp [cutSize, List.range_succ, huninit]
        have ha := a.toNat_lt
        have hone : (1 : UInt8).toNat = 1 := rfl
        have hzero : (0 : UInt8).toNat = 0 := rfl
        rw [hsize, hcut, hone, hzero]
        omega
    | [a, b] =>
        have hsize : cutSize (misleadingHost s) [a, b] = Scan.size [a, b, 1, 0] := by
          simp [cutSize, List.range_succ, huninit]
        have ha := a.toNat_lt
        have hb := b.toNat_lt
        have hone : (1 : UInt8).toNat = 1 := rfl
        rw [hsize, hcut, hone]
        omega
    | [a, b, c] =>
        have hsize : cutSize (misleadingHost s) [a, b, c] = Scan.size [a, b, c, 0] := by
          simp [cutSize, List.range_succ, huninit]
        have ha := a.toNat_lt
        have hb := b.toNat_lt
        have hc := c.toNat_lt
        have hzero : ∀ x : UInt8, x.toNat = 0 → x = 0 := fun x hx => UInt8.toNat_inj.mp hx
        rw [hsize, hcut]
        refine ⟨?_, by omega, fun hnot => ?_⟩
        · by_contra hsmall
          rw [hzero a (by omega), hzero b (by omega), hzero c (by omega)] at ht
          exact hzeros ht
        · by_contra hsmall
          rw [hzero b (by omega), hzero c (by omega)] at hnot ht hsmall
          have hmem : ∀ n < 5, [UInt8.ofNat n, 0, 0] ∉ Scan.cutSizes → n = 0 := by decide
          have ha0 := hmem a.toNat (by simpa using hsmall) (by simpa using hnot)
          rw [hzero a ha0] at ht
          exact hzeros ht

/-! ### The result -/

/-- An exception, and not the end of the model. -/
def Stop.IsException : Stop → Prop
  | dataFormatException _ | notImplementedException _ _ => True
  | undefined | outOfFuel => False

/-- On every host `read` ends, with a whole document, whose stream is still good, or with an exception. -/
def Meets (s : List UInt8) : Prop :=
  ∀ h : Host, ∃ fuel,
    (∃ d r, Document.read h fuel [] (reading h s) = .ok d r ∧ r._istr.good = true) ∨
      ∃ e r, Document.read h fuel [] (reading h s) = .error e r ∧ e.IsException

theorem meets_of_scan {s : List UInt8} (hscan : scan s ≠ .truncated) : Meets s := by
  intro h
  have hfollows : Follows False h s (scan s) (Document.read h (s.length + 1) [] (reading h s)) :=
    follows_read fun _ => Nat.lt_succ_self _
  refine ⟨s.length + 1, ?_⟩
  generalize Document.read h (s.length + 1) [] (reading h s) = result at hfollows
  generalize scan s = sc at hscan hfollows
  cases hfollows with
  | done d rest => exact Or.inl ⟨d, _, rfl, rfl⟩
  | dataFormat message r => exact Or.inr ⟨_, r, rfl, trivial⟩
  | notImplemented name type r => exact Or.inr ⟨_, r, rfl, trivial⟩
  | truncated hbad => exact absurd rfl hscan
  | outOfFuel hshort => exact hshort.elim

theorem not_meets_of_scan {s : List UInt8} (hscan : scan s = .truncated) : ¬Meets s := by
  intro hmeets
  obtain ⟨fuel, hresult⟩ := hmeets (misleadingHost s)
  have hfollows : Follows True (misleadingHost s) s (scan s)
      (Document.read (misleadingHost s) fuel [] (reading (misleadingHost s) s)) :=
    follows_read fun hshort => absurd trivial hshort
  have hbad : Bad (misleadingHost s) (Document.read (misleadingHost s) fuel [] (reading (misleadingHost s) s)) := by
    generalize Document.read (misleadingHost s) fuel [] (reading (misleadingHost s) s) = result at hfollows
    rw [hscan] at hfollows
    cases hfollows with
    | truncated hbad => exact hbad (misleads_misleadingHost s)
    | outOfFuel hshort sc r => exact .outOfFuel r
  rcases hresult with ⟨d, r, hok, hgood⟩ | ⟨e, r, herror, hexception⟩
  · rw [hok] at hbad
    cases hbad
    cases hgood
  · rw [herror] at hbad
    cases hbad with
    | undefined => exact hexception
    | outOfFuel => exact hexception

/-- **Main result.** `read` ends as it should, on every host, exactly if the bytes do not end before the document
does; a document that is rejected is not cut off. -/
theorem meets_iff (s : List UInt8) : Meets s ↔ scan s ≠ .truncated :=
  ⟨fun hmeets hscan => not_meets_of_scan hscan hmeets, meets_of_scan⟩

/-- Behind a null value whose document is cut off, null values are read for ever. -/
theorem not_meets_null : ¬Meets [0x08, 0, 0, 0, 0x0A, 0x61, 0] := not_meets_of_scan (by decide)

end Poco.MongoDB
