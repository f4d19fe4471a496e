import Poco.Zip.ZipFileInfo

/-! # Records of the central directory

`Compress` makes a record for a local header with its offset; `record_roundTrips_iff` says that all of it is read back,
whichever of the sizes and the offset stand in the extra field.  A modification time has a resolution of two
seconds there.  Only for an entry without a name no record is made, if it seems to be an empty one from Unix: the
constructor looks for a slash at the end of the name. -/

namespace Poco.Zip

open Poco.Foundation

/-! ### Modification times -/

namespace ZipUtil

theorem bits_eq {t k n : ℕ} (ht : t < 2 ^ 16) {m : BitVec 16} (hm : m.toNat >>> k = 2 ^ n - 1) :
    ((BitVec.ofNat 16 t &&& m) >>> k).toNat = t / 2 ^ k % 2 ^ n := by
  rw [BitVec.toNat_ushiftRight, BitVec.toNat_and, BitVec.toNat_ofNat, Nat.mod_eq_of_lt ht,
    Nat.shiftRight_and_distrib, hm, Nat.and_two_pow_sub_one_eq_mod, Nat.shiftRight_eq_div_pow]

theorem parseDateTime_bits {s mi h d mo y : ℕ} (hs : s < 32) (hmi : mi < 64) (hh : h < 32) (hd : d < 32) (hmo : mo < 16)
    (hy : y < 128) (hvalid : DateTime.isValid ⟨1980 + y, mo, d, h, mi, 2 * s, 0, 0⟩ = true) :
    parseDateTime (BitVec.ofNat 16 (s + mi * 2 ^ 5 + h * 2 ^ 11)) (BitVec.ofNat 16 (d + mo * 2 ^ 5 + y * 2 ^ 9)) =
      DateTime.create ⟨1980 + y, mo, d, h, mi, 2 * s, 0, 0⟩ := by
  have htime : s + mi * 2 ^ 5 + h * 2 ^ 11 < 2 ^ 16 := by omega
  have hdate : d + mo * 2 ^ 5 + y * 2 ^ 9 < 2 ^ 16 := by omega
  have hsecond : (BitVec.ofNat 16 (s + mi * 2 ^ 5 + h * 2 ^ 11) &&& 0x001f).toNat = s := by
    have hbits := bits_eq (k := 0) (n := 5) htime (m := 0x001f) rfl
    rw [BitVec.ushiftRight_zero] at hbits
    omega
  have hminute : ((BitVec.ofNat 16 (s + mi * 2 ^ 5 + h * 2 ^ 11) &&& 0x07e0) >>> 5).toNat = mi := by
    have hbits := bits_eq (k := 5) (n := 6) htime (m := 0x07e0) rfl
    omega
  have hhour : ((BitVec.ofNat 16 (s + mi * 2 ^ 5 + h * 2 ^ 11) &&& 0xf800) >>> 11).toNat = h := by
    have hbits := bits_eq (k := 11) (n := 5) htime (m := 0xf800) rfl
    omega
  have hday : (BitVec.ofNat 16 (d + mo * 2 ^ 5 + y * 2 ^ 9) &&& 0x001f).toNat = d := by
    have hbits := bits_eq (k := 0) (n := 5) hdate (m := 0x001f) rfl
    rw [BitVec.ushiftRight_zero] at hbits
    omega
  have hmonth : ((BitVec.ofNat 16 (d + mo * 2 ^ 5 + y * 2 ^ 9) &&& 0x01e0) >>> 5).toNat = mo := by
    have hbits := bits_eq (k := 5) (n := 4) hdate (m := 0x01e0) rfl
    omega
  have hyear : ((BitVec.ofNat 16 (d + mo * 2 ^ 5 + y * 2 ^ 9) &&& 0xfe00) >>> 9).toNat = y := by
    have hbits := bits_eq (k := 9) (n := 7) hdate (m := 0xfe00) rfl
    omega
  rw [parseDateTime, hsecond, hminute, hhour, hday, hmonth, hyear]
  exact if_pos hvalid

theorem setDateTime_bits (utcTime : ℤ) {s mi h d mo y : ℕ} {second millisecond microsecond : ℤ}
    (hsecond : 0 ≤ second) (hs : second / 2 = s) :
    setDateTime ⟨utcTime, 1980 + y, mo, d, h, mi, second, millisecond, microsecond⟩ =
      (BitVec.ofNat 16 (s + mi * 2 ^ 5 + h * 2 ^ 11), BitVec.ofNat 16 (d + mo * 2 ^ 5 + y * 2 ^ 9)) := by
  rw [setDateTime]
  simp only [Int.tdiv_eq_ediv_of_nonneg hsecond, hs, add_sub_cancel_left]
  rw [← BitVec.ofInt_natCast, ← BitVec.ofInt_natCast]
  push_cast
  rfl

/-- A time with an even number of seconds. -/
def toTwoSeconds (f : Fields) : Fields := { f with second := f.second / 2 * 2, millisecond := 0, microsecond := 0 }

theorem parseDateTime_setDateTime {dt : DateTime} (hvalid : DateTime.isValid dt._fields = true)
    (hlow : 1980 ≤ dt._fields.year) (hhigh : dt._fields.year ≤ 2107) :
    parseDateTime (setDateTime dt).1 (setDateTime dt).2 =
      .ok ⟨DateTime.utcTimeOf (toTwoSeconds dt._fields), toTwoSeconds dt._fields⟩ := by
  obtain ⟨utcTime, year, month, day, hour, minute, second, millisecond, microsecond⟩ := dt
  have hdays := DateTime.daysOfMonth_le year month
  simp only [DateTime.isValid, Bool.and_eq_true, decide_eq_true_eq] at hvalid hlow hhigh
  obtain ⟨s, hs⟩ := Int.eq_ofNat_of_zero_le (show 0 ≤ second / 2 by omega)
  obtain ⟨mi, rfl⟩ := Int.eq_ofNat_of_zero_le (show 0 ≤ minute by omega)
  obtain ⟨h, rfl⟩ := Int.eq_ofNat_of_zero_le (show 0 ≤ hour by omega)
  obtain ⟨d, rfl⟩ := Int.eq_ofNat_of_zero_le (show 0 ≤ day by omega)
  obtain ⟨mo, rfl⟩ := Int.eq_ofNat_of_zero_le (show 0 ≤ month by omega)
  obtain ⟨y, hy⟩ := Int.eq_ofNat_of_zero_le (show 0 ≤ year - 1980 by omega)
  obtain rfl : year = 1980 + y := by omega
  have hok : DateTime.isValid ⟨1980 + y, mo, d, h, mi, 2 * s, 0, 0⟩ = true := by
    simp only [DateTime.isValid, Bool.and_eq_true, decide_eq_true_eq]
    omega
  have htwo : toTwoSeconds ⟨1980 + y, mo, d, h, mi, second, millisecond, microsecond⟩ =
      ⟨1980 + y, mo, d, h, mi, 2 * s, 0, 0⟩ := by
    rw [toTwoSeconds, hs, mul_comm]
  rw [setDateTime_bits utcTime (by omega) hs, parseDateTime_bits (by omega) (by omega) (by omega) (by omega) (by omega)
    (by omega) hok, htwo]
  exact DateTime.create_of_valid hok

theorem utcTimeOf_toTwoSeconds {f : Fields} (hvalid : DateTime.isValid f = true) :
    DateTime.utcTimeOf (toTwoSeconds f) ≤ DateTime.utcTimeOf f ∧
      DateTime.utcTimeOf f + 10 ≤ DateTime.utcTimeOf (toTwoSeconds f) + 2 * 10 ^ 7 := by
  simp only [DateTime.isValid, Bool.and_eq_true, decide_eq_true_eq] at hvalid
  have hday : DateTime.dayNumberOf (toTwoSeconds f) = DateTime.dayNumberOf f := rfl
  rw [DateTime.utcTimeOf, DateTime.utcTimeOf, hday, DateTime.timeOfDay, DateTime.timeOfDay, toTwoSeconds]
  dsimp only
  omega

end ZipUtil

namespace ZipFileInfo

theorem record_values {header : ZipLocalFileHeader} {offset : ℕ} {i : ZipFileInfo}
    (h : record header offset = some i) :
    i._uncompressedSize = header._uncompressedSize ∧ i._rawInfo.crc32 = header._crc32 ∧
      i._rawInfo.comprMethod = header.getCompressionMethod ∧
      i._rawInfo.lastModFileTime = (ZipUtil.setDateTime header._lastModifiedAt).1 ∧
      i._rawInfo.lastModFileDate = (ZipUtil.setDateTime header._lastModifiedAt).2 := by
  rw [record] at h
  obtain ⟨j, hj, rfl⟩ := Option.map_eq_some_iff.mp h
  obtain ⟨attr, flags, rfl⟩ := create_eq_some hj
  rw [setZip64Data]
  split_ifs <;> exact ⟨rfl, rfl, rfl, rfl, rfl⟩

/-- A record is made for the local header, and what is parsed from it has the values of the header, the time to
two seconds; nothing of what follows is read. -/
def RoundTrips (header : ZipLocalFileHeader) (offset : ℕ) (rest : List UInt8) : Prop :=
  ∃ i p, record header offset = some i ∧ parse (i.createHeader ++ rest) = .ok (p, rest) ∧
    p._fileName = header._fileName ∧ p._crc32 = header._crc32 ∧ p._compressedSize = header._compressedSize ∧
    p._uncompressedSize = header._uncompressedSize ∧ p._localHeaderOffset = offset ∧
    p._rawInfo.comprMethod = header.getCompressionMethod ∧
    p._lastModifiedAt._fields = ZipUtil.toTwoSeconds header._lastModifiedAt._fields ∧
    (DateTime.Describes header._lastModifiedAt → p._lastModifiedAt.utcTime ≤ header._lastModifiedAt.utcTime ∧
      header._lastModifiedAt.utcTime < p._lastModifiedAt.utcTime + 2 * 10 ^ 7)

theorem roundTrips_of_record {header : ZipLocalFileHeader} (hname : header._fileName.length < 65536)
    (hcompressed : header._compressedSize < 2 ^ 64) (huncompressed : header._uncompressedSize < 2 ^ 64) {offset : ℕ}
    (hoffset : offset < 2 ^ 64) (htime : DateTime.isValid header._lastModifiedAt._fields = true)
    (hlow : 1980 ≤ header._lastModifiedAt._fields.year) (hhigh : header._lastModifiedAt._fields.year ≤ 2107)
    {i : ZipFileInfo} (hi : record header offset = some i) (rest : List UInt8) : RoundTrips header offset rest := by
  obtain ⟨hfile, hc, ho⟩ := record_frame hi
  obtain ⟨hu, hcrc, hmethod, ht, hd⟩ := record_values hi
  obtain ⟨p, hparse, ⟨hpname, hpc, hpo⟩, hpu, hpcrc, hpmethod, hptime⟩ :=
    parse_createHeader (record_sound hname hi) (by rwa [hc]) (by rwa [ho]) rest
  rw [ht, hd, ZipUtil.parseDateTime_setDateTime htime hlow hhigh] at hptime
  have hmodified := Except.ok.inj hptime
  refine ⟨i, p, hi, hparse, hpname.trans hfile, hpcrc.trans hcrc, hpc.trans hc, (hpu (by rwa [hu])).trans hu,
    hpo.trans ho, hpmethod.trans hmethod, by rw [← hmodified], ?_⟩
  intro hdescribes
  obtain ⟨hless, hmore⟩ := ZipUtil.utcTimeOf_toTwoSeconds htime
  have hdlow := hdescribes.low
  have hdhigh := hdescribes.high
  rw [← hmodified, DateTime.utcTime, DateTime.utcTime]
  dsimp only
  omega

/-- **Main result.**  What is recorded for a local header is read back, with its bytes and no others, just when
the entry has a name, or does not come from Unix, or has a size. -/
theorem record_roundTrips_iff {header : ZipLocalFileHeader} (hname : header._fileName.length < 65536)
    (hcompressed : header._compressedSize < 2 ^ 64) (huncompressed : header._uncompressedSize < 2 ^ 64) {offset : ℕ}
    (hoffset : offset < 2 ^ 64) (htime : DateTime.isValid header._lastModifiedAt._fields = true)
    (hlow : 1980 ≤ header._lastModifiedAt._fields.year) (hhigh : header._lastModifiedAt._fields.year ≤ 2107)
    (rest : List UInt8) :
    RoundTrips header offset rest ↔
      header._fileName ≠ [] ∨ header._rawHeader.hostSystem ≠ HS_UNIX ∨ header._uncompressedSize ≠ 0 := by
  rw [← isSome_create_iff]
  constructor
  · rintro ⟨i, p, hi, -⟩
    rw [record] at hi
    obtain ⟨j, hj, -⟩ := Option.map_eq_some_iff.mp hi
    exact Option.isSome_iff_exists.mpr ⟨j, hj⟩
  · intro h
    obtain ⟨j, hj⟩ := Option.isSome_iff_exists.mp h
    have hi : record header offset = some (j.setOffset offset).setZip64Data := by rw [record, hj, Option.map_some]
    exact roundTrips_of_record hname hcompressed huncompressed hoffset htime hlow hhigh hi rest

/-- A compressed size that is just the mark, and an uncompressed one that is not. -/
def markHeader : ZipLocalFileHeader where
  _lastModifiedAt := ⟨DateTime.utcTimeOf ⟨2024, 2, 29, 13, 45, 59, 7, 0⟩, ⟨2024, 2, 29, 13, 45, 59, 7, 0⟩⟩
  _fileName := [97]
  _compressedSize := 0xFFFFFFFF
  _uncompressedSize := 0xFFFFFFFE

theorem record_roundTrips_mark : RoundTrips markHeader 5 [] :=
  (record_roundTrips_iff (by decide) (by decide) (by decide) (by decide) (by decide) (by decide) (by decide) []).mpr
    (Or.inl (by decide))

/-- The bytes of a local header from Unix, without a name and without data. -/
def namelessBytes : List UInt8 := [0x50, 0x4b, 3, 4, 20, 3, 0, 0, 0, 0, 0x6f, 0x6d, 0x5d, 0x58] ++ List.replicate 16 0

/-- The header that is parsed from them. -/
def namelessHeader : ZipLocalFileHeader where
  _rawHeader := { version := 20, hostSystem := 3, lastModFileTime := 0x6d6f, lastModFileDate := 0x585d }
  _startPos := 0
  _lastModifiedAt := ⟨DateTime.utcTimeOf ⟨2024, 2, 29, 13, 43, 30, 0, 0⟩, ⟨2024, 2, 29, 13, 43, 30, 0, 0⟩⟩

/-- No record can be made for it. -/
theorem not_record_roundTrips_nameless :
    ZipLocalFileHeader.parse { _startPos := 0, _lastModifiedAt := markHeader._lastModifiedAt } namelessBytes =
        .ok (namelessHeader, []) ∧
      record namelessHeader 0 = none ∧ ¬RoundTrips namelessHeader 0 [] := by
  have hrecord : record namelessHeader 0 = none := rfl
  refine ⟨by decide +kernel, hrecord, ?_⟩
  rintro ⟨i, p, hi, -⟩
  cases hrecord.symm.trans hi

end ZipFileInfo

end Poco.Zip
