import Poco.Zip.ZipLocalFileHeader

/-! # Entries of the central directory

The central directory tells where the local headers are.  A size or an offset that does not fit into its
field stands in the extra field instead; `parse_createHeader` says that it is read back. -/

namespace Poco.Zip

open Poco.Lib Poco.Foundation

/-- The bytes `\x50`, `\x4b`, `\x01`, `\x02`. -/
def ZipFileInfo.HEADER : List UInt8 := [0x50, 0x4b, 0x01, 0x02]

/-- `ZipFileInfo::_rawInfo`. -/
structure RawInfo where
  versionMadeBy : UInt8 := 0
  hostMadeBy : UInt8 := 0
  versionNeeded : UInt8 := 0
  hostNeeded : UInt8 := 0
  generalPurpose : BitVec 16 := 0
  comprMethod : BitVec 16 := 0
  lastModFileTime : BitVec 16 := 0
  lastModFileDate : BitVec 16 := 0
  crc32 : BitVec 32 := 0
  compressedSize : BitVec 32 := 0
  uncompressedSize : BitVec 32 := 0
  filenameLength : BitVec 16 := 0
  extrafieldLength : BitVec 16 := 0
  filecommentLength : BitVec 16 := 0
  diskNumberStart : BitVec 16 := 0
  internalFileAttr : BitVec 16 := 0
  externalFileAttr : BitVec 32 := 0
  relativeOffsetLocalHeader : BitVec 32 := 0
deriving DecidableEq, Repr

namespace RawInfo

/-- The bytes of the entry. -/
def bytes (r : RawInfo) : List UInt8 :=
  [ZipFileInfo.HEADER, [r.versionMadeBy, r.hostMadeBy, r.versionNeeded, r.hostNeeded],
    ZipUtil.set16BitValue r.generalPurpose, ZipUtil.set16BitValue r.comprMethod,
    ZipUtil.set16BitValue r.lastModFileTime, ZipUtil.set16BitValue r.lastModFileDate,
    ZipUtil.set32BitValue r.crc32, ZipUtil.set32BitValue r.compressedSize,
    ZipUtil.set32BitValue r.uncompressedSize, ZipUtil.set16BitValue r.filenameLength,
    ZipUtil.set16BitValue r.extrafieldLength, ZipUtil.set16BitValue r.filecommentLength,
    ZipUtil.set16BitValue r.diskNumberStart, ZipUtil.set16BitValue r.internalFileAttr,
    ZipUtil.set32BitValue r.externalFileAttr, ZipUtil.set32BitValue r.relativeOffsetLocalHeader].flatten

/-- The fields at their positions. -/
def ofBytes (raw : List UInt8) : RawInfo where
  versionMadeBy := raw.getD 4 0
  hostMadeBy := raw.getD 5 0
  versionNeeded := raw.getD 6 0
  hostNeeded := raw.getD 7 0
  generalPurpose := ZipUtil.get16BitValue raw 8
  comprMethod := ZipUtil.get16BitValue raw 10
  lastModFileTime := ZipUtil.get16BitValue raw 12
  lastModFileDate := ZipUtil.get16BitValue raw 14
  crc32 := ZipUtil.get32BitValue raw 16
  compressedSize := ZipUtil.get32BitValue raw 20
  uncompressedSize := ZipUtil.get32BitValue raw 24
  filenameLength := ZipUtil.get16BitValue raw 28
  extrafieldLength := ZipUtil.get16BitValue raw 30
  filecommentLength := ZipUtil.get16BitValue raw 32
  diskNumberStart := ZipUtil.get16BitValue raw 34
  internalFileAttr := ZipUtil.get16BitValue raw 36
  externalFileAttr := ZipUtil.get32BitValue raw 38
  relativeOffsetLocalHeader := ZipUtil.get32BitValue raw 42

@[simp] theorem length_bytes (r : RawInfo) : r.bytes.length = 46 := rfl

theorem ofBytes_bytes (r : RawInfo) : ofBytes r.bytes = r := by
  have h16 : ∀ n val rest, r.bytes.drop n = ZipUtil.set16BitValue val ++ rest →
      ZipUtil.get16BitValue r.bytes n = val := by
    intro n val rest h
    rw [← ZipUtil.get16BitValue_drop, h, ZipUtil.get16BitValue_set]
  have h32 : ∀ n val rest, r.bytes.drop n = ZipUtil.set32BitValue val ++ rest →
      ZipUtil.get32BitValue r.bytes n = val := by
    intro n val rest h
    rw [← ZipUtil.get32BitValue_drop, h, ZipUtil.get32BitValue_set]
  have hgp := h16 8 r.generalPurpose _ rfl
  have hm := h16 10 r.comprMethod _ rfl
  have ht := h16 12 r.lastModFileTime _ rfl
  have hd := h16 14 r.lastModFileDate _ rfl
  have hcrc := h32 16 r.crc32 _ rfl
  have hcs := h32 20 r.compressedSize _ rfl
  have hus := h32 24 r.uncompressedSize _ rfl
  have hnl := h16 28 r.filenameLength _ rfl
  have hel := h16 30 r.extrafieldLength _ rfl
  have hcl := h16 32 r.filecommentLength _ rfl
  have hdn := h16 34 r.diskNumberStart _ rfl
  have hia := h16 36 r.internalFileAttr _ rfl
  have hea := h32 38 r.externalFileAttr _ rfl
  have hoff := h32 42 r.relativeOffsetLocalHeader [] rfl
  rw [ofBytes, hgp, hm, ht, hd, hcrc, hcs, hus, hnl, hel, hcl, hdn, hia, hea, hoff]
  rfl

end RawInfo

/-- The members of `ZipFileInfo`. -/
structure ZipFileInfo where
  _rawInfo : RawInfo := {}
  _crc32 : BitVec 32 := 0
  _compressedSize : ℕ := 0
  _uncompressedSize : ℕ := 0
  _localHeaderOffset : ℕ := 0
  _fileName : List UInt8 := []
  _lastModifiedAt : DateTime
  _extraField : List UInt8 := []
  _fileComment : List UInt8 := []

namespace ZipFileInfo

def FULLHEADER_SIZE : ℕ := 46

/-- `ZipCommon::HS_UNIX`. -/
def HS_UNIX : UInt8 := 3

def DEFAULT_UNIX_FILE_MODE : BitVec 32 := 0o640

def DEFAULT_UNIX_DIR_MODE : BitVec 32 := 0o755

/-- `setCRC`. -/
def setCRC (i : ZipFileInfo) (val : BitVec 32) : ZipFileInfo := { i with _crc32 := val, _rawInfo.crc32 := val }

/-- `setOffset`. -/
def setOffset (i : ZipFileInfo) (val : ℕ) : ZipFileInfo :=
  { i with _localHeaderOffset := val, _rawInfo.relativeOffsetLocalHeader := sizeField val }

/-- `setCompressedSize`. -/
def setCompressedSize (i : ZipFileInfo) (val : ℕ) : ZipFileInfo :=
  { i with _compressedSize := val, _rawInfo.compressedSize := sizeField val }

/-- `setUncompressedSize`. -/
def setUncompressedSize (i : ZipFileInfo) (val : ℕ) : ZipFileInfo :=
  { i with _uncompressedSize := val, _rawInfo.uncompressedSize := sizeField val }

/-- `setRequiredVersion`. -/
def setRequiredVersion (i : ZipFileInfo) (major minor : ℤ) : ZipFileInfo :=
  { i with
    _rawInfo.versionMadeBy := UInt8.ofInt (major * 10 + minor)
    _rawInfo.versionNeeded := UInt8.ofInt (major * 10 + minor) }

/-- `isDirectory`; nothing where it reads the last character of an empty name, which is undefined. -/
def isDirectory (i : ZipFileInfo) : Option Bool :=
  if i._uncompressedSize = 0 then i._fileName.getLast?.map (· == '/'.toUInt8) else some false

/-- `setUnixAttributes`. -/
def setUnixAttributes (i : ZipFileInfo) : Option ZipFileInfo :=
  i.isDirectory.map fun isDir =>
    let mode : BitVec 32 := if isDir then DEFAULT_UNIX_DIR_MODE else DEFAULT_UNIX_FILE_MODE
    { i with _rawInfo.externalFileAttr := (mode <<< 16) ||| if isDir then 0x10 else 0 }

/-- `needsZip64`. -/
def needsZip64 (i : ZipFileInfo) : Bool :=
  i._localHeaderOffset ≥ ZIP64_MAGIC ∨ i._compressedSize ≥ ZIP64_MAGIC ∨ i._uncompressedSize ≥ ZIP64_MAGIC

/-- A value that stands in the extra field. -/
def zip64Value (val : ℕ) : List UInt8 :=
  if val ≥ ZIP64_MAGIC then ZipUtil.set64BitValue (BitVec.ofNat 64 val) else []

/-- The values in the extra field that `setZip64Data` makes. -/
def zip64Values (i : ZipFileInfo) : List UInt8 :=
  zip64Value i._uncompressedSize ++ zip64Value i._compressedSize ++ zip64Value i._localHeaderOffset

/-- `setZip64Data`. -/
def setZip64Data (i : ZipFileInfo) : ZipFileInfo :=
  if i.needsZip64 then
    let i := i.setRequiredVersion 4 5
    let data := ZipUtil.set16BitValue ZIP64_EXTRA_ID ++
      (ZipUtil.set16BitValue (BitVec.ofNat 16 i.zip64Values.length) ++ i.zip64Values)
    { i with _extraField := data, _rawInfo.extrafieldLength := BitVec.ofNat 16 data.length }
  else i

/-- What the constructor takes over from a local header. -/
def takeOver (header : ZipLocalFileHeader) : ZipFileInfo :=
  let i : ZipFileInfo := { _lastModifiedAt := header._lastModifiedAt }
  let i := i.setCompressedSize header._compressedSize
  let i := i.setUncompressedSize header._uncompressedSize
  let i := i.setCRC header._crc32
  let i := { i with _rawInfo.comprMethod := header.getCompressionMethod }
  let i := { i with _rawInfo.generalPurpose :=
    (i._rawInfo.generalPurpose &&& 0xfff9) ||| (header.getCompressionLevel.setWidth 16 <<< 1) }
  let i := i.setRequiredVersion header.getMajorVersionNumber header.getMinorVersionNumber
  let i := { i with
    _rawInfo.hostMadeBy := header._rawHeader.hostSystem, _rawInfo.hostNeeded := header._rawHeader.hostSystem }
  let i := { i with
    _rawInfo.lastModFileTime := (ZipUtil.setDateTime header._lastModifiedAt).1
    _rawInfo.lastModFileDate := (ZipUtil.setDateTime header._lastModifiedAt).2 }
  let i := { i with _rawInfo.generalPurpose := i._rawInfo.generalPurpose &&& 0xfffe }
  { i with _fileName := header._fileName, _rawInfo.filenameLength := BitVec.ofNat 16 header._fileName.length }

/-- The flags that the constructor sets at its end. -/
def setFlags (header : ZipLocalFileHeader) (i : ZipFileInfo) : ZipFileInfo :=
  let i := { i with _rawInfo.generalPurpose := i._rawInfo.generalPurpose ||| 0x0800 }
  if header.searchCRCAndSizesAfterData then
    { i with _rawInfo.generalPurpose := i._rawInfo.generalPurpose ||| 0x0008 }
  else i

/-- The constructor from a local header. -/
def create (header : ZipLocalFileHeader) : Option ZipFileInfo :=
  let i := takeOver header
  (if i._rawInfo.hostNeeded = HS_UNIX then i.setUnixAttributes else some i).map (setFlags header)

/-- `createHeader`. -/
def createHeader (i : ZipFileInfo) : List UInt8 := i._rawInfo.bytes ++ i._fileName ++ i._extraField ++ i._fileComment

/-! ### Parsing -/

/-- A value of 64 bits for a field, if the field has the mark and the block is long enough: the value, and what
is left of the size and of the block. -/
def zip64Field (field : BitVec 32) (size : ℕ) (ptr : List UInt8) : Option ℕ × ℕ × List UInt8 :=
  if size ≥ 8 ∧ field.toNat = ZIP64_MAGIC then (some (ZipUtil.get64BitValue ptr 0).toNat, size - 8, ptr.drop 8)
  else (none, size, ptr)

/-- The branch of the loop for a block with the Zip64 tag. -/
def zip64Block (size : ℕ) (ptr : List UInt8) (i : ZipFileInfo) : ZipFileInfo × List UInt8 :=
  let (val, size, ptr) := zip64Field i._rawInfo.uncompressedSize size ptr
  let i := val.elim i i.setUncompressedSize
  let (val, size, ptr) := zip64Field i._rawInfo.compressedSize size ptr
  let i := val.elim i i.setCompressedSize
  let (val, _, ptr) := zip64Field i._rawInfo.relativeOffsetLocalHeader size ptr
  (val.elim i i.setOffset, ptr)

/-- The loop of `parse` over the extra field. -/
def parseExtra : ℕ → List UInt8 → ZipFileInfo → ZipFileInfo
  | 0, _, i => i
  | fuel + 1, ptr, i =>
    if 4 ≤ ptr.length then
      let id := ZipUtil.get16BitValue ptr 0
      let size := (ZipUtil.get16BitValue ptr 2).toNat
      let ptr := ptr.drop 4
      if id = ZIP64_EXTRA_ID then
        let (i, ptr) := zip64Block size ptr i
        parseExtra fuel ptr i
      else parseExtra fuel (ptr.drop size) i
    else i

/-- `parse`, for an entry that `inp` begins with. -/
def parse (inp : List UInt8) : Except String (ZipFileInfo × List UInt8) :=
  if inp.length < HEADER_SIZE then .error "Failed to read file info header"
  else if inp.take HEADER_SIZE ≠ HEADER then .error "Bad file info header"
  else
    let (bytes, inp) := ZipUtil.readBlock FULLHEADER_SIZE inp
    let raw := RawInfo.ofBytes bytes
    match ZipUtil.parseDateTime raw.lastModFileTime raw.lastModFileDate with
    | .error failure => .error (ZipUtil.message failure)
    | .ok lastModifiedAt =>
      let (name, inp) := ZipUtil.readBlock raw.filenameLength.toNat inp
      let (xtra, inp) := ZipUtil.readBlock raw.extrafieldLength.toNat inp
      let i := parseExtra xtra.length xtra
        { _rawInfo := raw
          _crc32 := raw.crc32
          _compressedSize := raw.compressedSize.toNat
          _uncompressedSize := raw.uncompressedSize.toNat
          _localHeaderOffset := raw.relativeOffsetLocalHeader.toNat
          _lastModifiedAt := lastModifiedAt
          _fileName := name
          _extraField := xtra }
      let (comment, inp) := ZipUtil.readBlock raw.filecommentLength.toNat inp
      .ok ({ i with _fileComment := comment }, inp)

/-- The entries of the central directory that `inp` begins with. -/
def parseAll : ℕ → List UInt8 → Except String (List ZipFileInfo × List UInt8)
  | 0, inp => .ok ([], inp)
  | n + 1, inp => do
    let (i, inp) ← parse inp
    let (is, inp) ← parseAll n inp
    .ok (i :: is, inp)

/-! ### An entry is read back -/

theorem length_zip64Value_le (val : ℕ) : (zip64Value val).length ≤ 8 := by
  rw [zip64Value]
  split_ifs
  · exact Nat.le_refl 8
  · exact Nat.zero_le 8

theorem zip64Field_value (val size : ℕ) (rest : List UInt8) :
    zip64Field (sizeField val) ((zip64Value val).length + size) (zip64Value val ++ rest) =
      (if val ≥ ZIP64_MAGIC then some (val % 2 ^ 64) else none, size, rest) := by
  rw [zip64Field, zip64Value, sizeField]
  by_cases hval : val ≥ ZIP64_MAGIC
  · have hmark : (BitVec.ofNat 32 ZIP64_MAGIC).toNat = ZIP64_MAGIC := rfl
    simp only [if_pos hval, hmark, ZipUtil.length_set64BitValue]
    rw [if_pos ⟨by omega, trivial⟩, ZipUtil.get64BitValue_set, BitVec.toNat_ofNat,
      List.drop_left' (ZipUtil.length_set64BitValue _), Nat.add_sub_cancel_left]
  · have hlt : val < 2 ^ 32 - 1 := not_le.mp hval
    have hfield : (BitVec.ofNat 32 val).toNat ≠ ZIP64_MAGIC := by
      rw [BitVec.toNat_ofNat, Nat.mod_eq_of_lt (by omega)]
      exact (not_le.mp hval).ne
    simp only [if_neg hval]
    rw [if_neg fun h => hfield h.2, List.length_nil, Nat.zero_add, List.nil_append]

theorem sizeField_of_lt {val : ℕ} (h : ¬val ≥ ZIP64_MAGIC) : (sizeField val).toNat = val := by
  have hlt : val < 2 ^ 32 - 1 := not_le.mp h
  rw [sizeField, if_neg h, BitVec.toNat_ofNat, Nat.mod_eq_of_lt (by omega)]

/-- The fields of an entry are those of its members, and its extra field is the one that `setZip64Data` makes. -/
structure Sound (i : ZipFileInfo) : Prop where
  filenameLength : i._rawInfo.filenameLength.toNat = i._fileName.length
  extrafieldLength : i._rawInfo.extrafieldLength.toNat = i._extraField.length
  filecommentLength : i._rawInfo.filecommentLength.toNat = i._fileComment.length
  compressedSize : i._rawInfo.compressedSize = sizeField i._compressedSize
  uncompressedSize : i._rawInfo.uncompressedSize = sizeField i._uncompressedSize
  offset : i._rawInfo.relativeOffsetLocalHeader = sizeField i._localHeaderOffset
  extraField : i._extraField = [] ∧ i.needsZip64 = false ∨
    i._extraField = ZipUtil.set16BitValue ZIP64_EXTRA_ID ++
      (ZipUtil.set16BitValue (BitVec.ofNat 16 i.zip64Values.length) ++ i.zip64Values)

theorem length_zip64Values_le (i : ZipFileInfo) : i.zip64Values.length ≤ 24 := by
  have hu := length_zip64Value_le i._uncompressedSize
  have hc := length_zip64Value_le i._compressedSize
  have ho := length_zip64Value_le i._localHeaderOffset
  rw [zip64Values, List.length_append, List.length_append]
  omega

/-- The values in the extra field go where they belong. -/
theorem zip64Block_values {i g : ZipFileInfo} (hs : i.Sound) (hraw : g._rawInfo = i._rawInfo) :
    (zip64Block i.zip64Values.length i.zip64Values g).2 = [] ∧
      (zip64Block i.zip64Values.length i.zip64Values g).1._fileName = g._fileName ∧
      (zip64Block i.zip64Values.length i.zip64Values g).1._compressedSize =
        (if i._compressedSize ≥ ZIP64_MAGIC then i._compressedSize % 2 ^ 64 else g._compressedSize) ∧
      (zip64Block i.zip64Values.length i.zip64Values g).1._localHeaderOffset =
        (if i._localHeaderOffset ≥ ZIP64_MAGIC then i._localHeaderOffset % 2 ^ 64 else g._localHeaderOffset) ∧
      (zip64Block i.zip64Values.length i.zip64Values g).1._uncompressedSize =
        (if i._uncompressedSize ≥ ZIP64_MAGIC then i._uncompressedSize % 2 ^ 64 else g._uncompressedSize) := by
  have hlen : i.zip64Values.length = (zip64Value i._uncompressedSize).length +
      ((zip64Value i._compressedSize).length + ((zip64Value i._localHeaderOffset).length + 0)) := by
    rw [zip64Values, List.length_append, List.length_append]
    omega
  have hvalues : i.zip64Values = zip64Value i._uncompressedSize ++ (zip64Value i._compressedSize ++
      (zip64Value i._localHeaderOffset ++ [])) := by
    rw [zip64Values, List.append_nil, List.append_assoc]
  have hu : g._rawInfo.uncompressedSize = sizeField i._uncompressedSize := by rw [hraw, hs.uncompressedSize]
  have hc : g._rawInfo.compressedSize = sizeField i._compressedSize := by rw [hraw, hs.compressedSize]
  have ho : g._rawInfo.relativeOffsetLocalHeader = sizeField i._localHeaderOffset := by rw [hraw, hs.offset]
  -- the fields of the sizes do not change before they are looked at
  have hc' : ∀ val : Option ℕ, (val.elim g g.setUncompressedSize)._rawInfo.compressedSize =
      sizeField i._compressedSize := by rintro (_ | val) <;> exact hc
  have ho' : ∀ val val' : Option ℕ, (val'.elim (val.elim g g.setUncompressedSize)
      (val.elim g g.setUncompressedSize).setCompressedSize)._rawInfo.relativeOffsetLocalHeader =
        sizeField i._localHeaderOffset := by rintro (_ | val) (_ | val') <;> exact ho
  rw [hlen, hvalues, zip64Block, hu, zip64Field_value]
  simp only [hc', zip64Field_value, ho']
  split_ifs <;> exact ⟨trivial, rfl, rfl, rfl, rfl⟩

/-- The extra field gives back what does not fit into the fields. -/
theorem parseExtra_values {i g : ZipFileInfo} (hs : i.Sound) (hraw : g._rawInfo = i._rawInfo)
    (hcsize : g._compressedSize = i._rawInfo.compressedSize.toNat)
    (hoffset : g._localHeaderOffset = i._rawInfo.relativeOffsetLocalHeader.toNat)
    (husize : g._uncompressedSize = i._rawInfo.uncompressedSize.toNat)
    (hcfits : i._compressedSize < 2 ^ 64) (hofits : i._localHeaderOffset < 2 ^ 64) :
    (parseExtra i._extraField.length i._extraField g)._fileName = g._fileName ∧
      (parseExtra i._extraField.length i._extraField g)._compressedSize = i._compressedSize ∧
      (parseExtra i._extraField.length i._extraField g)._localHeaderOffset = i._localHeaderOffset ∧
      (i._uncompressedSize < 2 ^ 64 →
        (parseExtra i._extraField.length i._extraField g)._uncompressedSize = i._uncompressedSize) := by
  rcases hs.extraField with ⟨hnil, hneeds⟩ | hextra
  · have hsmall := hneeds
    rw [needsZip64, decide_eq_false_iff_not, not_or, not_or] at hsmall
    rw [hnil]
    refine ⟨rfl, ?_, ?_, fun _ => ?_⟩
    · change g._compressedSize = _
      rw [hcsize, hs.compressedSize, sizeField_of_lt hsmall.2.1]
    · change g._localHeaderOffset = _
      rw [hoffset, hs.offset, sizeField_of_lt hsmall.1]
    · change g._uncompressedSize = _
      rw [husize, hs.uncompressedSize, sizeField_of_lt hsmall.2.2]
  · have hvalues := length_zip64Values_le i
    have hlen : i._extraField.length = 3 + i.zip64Values.length + 1 := by
      rw [hextra, List.length_append, List.length_append, ZipUtil.length_set16BitValue, ZipUtil.length_set16BitValue]
      omega
    have htag : ZipUtil.get16BitValue i._extraField 0 = ZIP64_EXTRA_ID := by
      rw [hextra, ZipUtil.get16BitValue_set]
    have hsize : (ZipUtil.get16BitValue i._extraField 2).toNat = i.zip64Values.length := by
      rw [← ZipUtil.get16BitValue_drop, hextra, List.drop_left' (ZipUtil.length_set16BitValue _),
        ZipUtil.get16BitValue_set, BitVec.toNat_ofNat, Nat.mod_eq_of_lt (by omega)]
    have hdrop : i._extraField.drop 4 = i.zip64Values := by rw [hextra]; rfl
    obtain ⟨hrest, hname, hc, ho, hu⟩ := zip64Block_values hs hraw
    have hparse : parseExtra i._extraField.length i._extraField g =
        (zip64Block i.zip64Values.length i.zip64Values g).1 := by
      rw [hlen, parseExtra, if_pos (by omega)]
      simp only [if_pos htag, hsize, hdrop, hrest]
      rw [parseExtra.eq_def]
      cases 3 + i.zip64Values.length <;> rfl
    rw [hparse]
    refine ⟨hname, ?_, ?_, fun hufits => ?_⟩
    · rw [hc]
      split_ifs with h
      · exact Nat.mod_eq_of_lt hcfits
      · rw [hcsize, hs.compressedSize, sizeField_of_lt h]
    · rw [ho]
      split_ifs with h
      · exact Nat.mod_eq_of_lt hofits
      · rw [hoffset, hs.offset, sizeField_of_lt h]
    · rw [hu]
      split_ifs with h
      · exact Nat.mod_eq_of_lt hufits
      · rw [husize, hs.uncompressedSize, sizeField_of_lt h]

/-- What the loop over the extra field does not touch. -/
structure SameRest (i i' : ZipFileInfo) : Prop where
  crc : i'._crc32 = i._crc32
  comprMethod : i'._rawInfo.comprMethod = i._rawInfo.comprMethod
  lastModifiedAt : i'._lastModifiedAt = i._lastModifiedAt

theorem SameRest.trans {i j k : ZipFileInfo} (h : SameRest i j) (h' : SameRest j k) : SameRest i k :=
  ⟨h'.crc.trans h.crc, h'.comprMethod.trans h.comprMethod, h'.lastModifiedAt.trans h.lastModifiedAt⟩

theorem zip64Block_rest (size : ℕ) (ptr : List UInt8) (i : ZipFileInfo) : SameRest i (zip64Block size ptr i).1 := by
  have hu : ∀ (i : ZipFileInfo) (val : Option ℕ), SameRest i (val.elim i i.setUncompressedSize) := by
    rintro i (_ | val) <;> exact ⟨rfl, rfl, rfl⟩
  have hc : ∀ (i : ZipFileInfo) (val : Option ℕ), SameRest i (val.elim i i.setCompressedSize) := by
    rintro i (_ | val) <;> exact ⟨rfl, rfl, rfl⟩
  have ho : ∀ (i : ZipFileInfo) (val : Option ℕ), SameRest i (val.elim i i.setOffset) := by
    rintro i (_ | val) <;> exact ⟨rfl, rfl, rfl⟩
  exact ((hu i _).trans (hc _ _)).trans (ho _ _)

theorem parseExtra_rest (fuel : ℕ) (ptr : List UInt8) (i : ZipFileInfo) : SameRest i (parseExtra fuel ptr i) := by
  induction fuel generalizing ptr i with
  | zero => exact ⟨rfl, rfl, rfl⟩
  | succ fuel ih =>
      rw [parseExtra]
      dsimp only
      split_ifs
      · exact (zip64Block_rest _ _ i).trans (ih _ _)
      · exact ih _ i
      · exact ⟨rfl, rfl, rfl⟩

theorem parse_createHeader {i : ZipFileInfo} (hs : i.Sound) (hcfits : i._compressedSize < 2 ^ 64)
    (hofits : i._localHeaderOffset < 2 ^ 64) (rest : List UInt8) :
    ∃ p, parse (i.createHeader ++ rest) = .ok (p, rest) ∧ (p._fileName = i._fileName ∧
      p._compressedSize = i._compressedSize ∧ p._localHeaderOffset = i._localHeaderOffset) ∧
      (i._uncompressedSize < 2 ^ 64 → p._uncompressedSize = i._uncompressedSize) ∧ p._crc32 = i._rawInfo.crc32 ∧
      p._rawInfo.comprMethod = i._rawInfo.comprMethod ∧
      ZipUtil.parseDateTime i._rawInfo.lastModFileTime i._rawInfo.lastModFileDate = .ok p._lastModifiedAt := by
  obtain ⟨dt, hdt⟩ := ZipUtil.parseDateTime_ok i._rawInfo.lastModFileTime i._rawInfo.lastModFileDate
  have hbytes : i.createHeader ++ rest =
      i._rawInfo.bytes ++ (i._fileName ++ (i._extraField ++ (i._fileComment ++ rest))) := by
    simp only [createHeader, List.append_assoc]
  have hlen : ¬(i.createHeader ++ rest).length < HEADER_SIZE := by
    rw [hbytes, List.length_append, RawInfo.length_bytes, HEADER_SIZE]
    omega
  have hhead : (i.createHeader ++ rest).take HEADER_SIZE = HEADER := by
    rw [hbytes]
    rfl
  have hraw := ZipUtil.readBlock_append (RawInfo.length_bytes i._rawInfo)
    (i._fileName ++ (i._extraField ++ (i._fileComment ++ rest)))
  have hname := ZipUtil.readBlock_append hs.filenameLength.symm (i._extraField ++ (i._fileComment ++ rest))
  have hxtra := ZipUtil.readBlock_append hs.extrafieldLength.symm (i._fileComment ++ rest)
  have hcomment := ZipUtil.readBlock_append hs.filecommentLength.symm rest
  rw [parse, if_neg hlen, if_neg (not_not.mpr hhead), hbytes]
  simp only [FULLHEADER_SIZE, hraw, RawInfo.ofBytes_bytes, hname, hxtra, hdt, hcomment]
  obtain ⟨g, hg⟩ : ∃ g : ZipFileInfo, g = {
      _rawInfo := i._rawInfo
      _crc32 := i._rawInfo.crc32
      _compressedSize := i._rawInfo.compressedSize.toNat
      _uncompressedSize := i._rawInfo.uncompressedSize.toNat
      _localHeaderOffset := i._rawInfo.relativeOffsetLocalHeader.toNat
      _lastModifiedAt := dt
      _fileName := i._fileName
      _extraField := i._extraField } := ⟨_, rfl⟩
  rw [← hg]
  obtain ⟨hfile, hc, ho, hu⟩ := parseExtra_values hs (g := g) (by rw [hg]) (by rw [hg]) (by rw [hg]) (by rw [hg])
    hcfits hofits
  obtain ⟨hcrc, hmethod, htime⟩ := parseExtra_rest i._extraField.length i._extraField g
  refine ⟨_, rfl, ⟨hfile.trans (by rw [hg]), hc, ho⟩, hu, hcrc.trans (by rw [hg]), hmethod.trans (by rw [hg]), ?_⟩
  exact congrArg Except.ok (htime.trans (by rw [hg])).symm

theorem parseAll_createHeader {is : List ZipFileInfo}
    (h : ∀ i ∈ is, i.Sound ∧ i._compressedSize < 2 ^ 64 ∧ i._localHeaderOffset < 2 ^ 64) (rest : List UInt8) :
    ∃ ps, parseAll is.length ((is.map createHeader).flatten ++ rest) = .ok (ps, rest) ∧
      List.Forall₂ (fun i p => p._fileName = i._fileName ∧ p._compressedSize = i._compressedSize ∧
        p._localHeaderOffset = i._localHeaderOffset) is ps := by
  induction is with
  | nil => exact ⟨[], rfl, List.Forall₂.nil⟩
  | cons i is ih =>
      obtain ⟨hs, hc, ho⟩ := h i List.mem_cons_self
      obtain ⟨ps, hps, hrel⟩ := ih fun j hj => h j (List.mem_cons_of_mem i hj)
      obtain ⟨p, hp, hsame, -⟩ := parse_createHeader hs hc ho ((is.map createHeader).flatten ++ rest)
      refine ⟨p :: ps, ?_, List.Forall₂.cons hsame hrel⟩
      rw [List.map_cons, List.flatten_cons, List.append_assoc, List.length_cons, parseAll, hp]
      simp only [Bind.bind, Except.bind, hps]

/-- What the constructor makes is what it has taken over, but for the attributes and the flags. -/
theorem create_eq_some {header : ZipLocalFileHeader} {i : ZipFileInfo} (h : create header = some i) :
    ∃ attr flags, i = { takeOver header with _rawInfo :=
      { (takeOver header)._rawInfo with externalFileAttr := attr, generalPurpose := flags } } := by
  have hflags : ∀ j : ZipFileInfo, ∃ flags, setFlags header j =
      { j with _rawInfo := { j._rawInfo with generalPurpose := flags } } := by
    intro j
    rw [setFlags]
    split_ifs <;> exact ⟨_, rfl⟩
  rw [create] at h
  obtain ⟨j, hj, rfl⟩ := Option.map_eq_some_iff.mp h
  obtain ⟨flags, hset⟩ := hflags j
  rw [hset]
  split_ifs at hj
  · rw [setUnixAttributes] at hj
    obtain ⟨isDir, -, rfl⟩ := Option.map_eq_some_iff.mp hj
    exact ⟨_, flags, rfl⟩
  · obtain rfl := Option.some.inj hj
    exact ⟨_, flags, rfl⟩

/-- The constructor reads a character that is not there for an empty name, if it sets the attributes of Unix
and the size does not say that the entry is a file. -/
theorem isSome_create_iff (header : ZipLocalFileHeader) : (create header).isSome = true ↔
    header._fileName ≠ [] ∨ header._rawHeader.hostSystem ≠ HS_UNIX ∨ header._uncompressedSize ≠ 0 := by
  have hhost : (takeOver header)._rawInfo.hostNeeded = header._rawHeader.hostSystem := rfl
  have hsize : (takeOver header)._uncompressedSize = header._uncompressedSize := rfl
  have hname : (takeOver header)._fileName = header._fileName := rfl
  rw [create, Option.isSome_map, hhost]
  by_cases hunix : header._rawHeader.hostSystem = HS_UNIX
  · rw [if_pos hunix, setUnixAttributes, Option.isSome_map, isDirectory, hsize, hname]
    by_cases hzero : header._uncompressedSize = 0
    · rw [if_pos hzero, Option.isSome_map, List.getLast?_isSome, or_iff_left]
      rintro (hhost | hsize)
      · exact hhost hunix
      · exact hsize hzero
    · rw [if_neg hzero]
      exact iff_of_true rfl (Or.inr (Or.inr hzero))
  · rw [if_neg hunix]
    exact iff_of_true rfl (Or.inr (Or.inl hunix))

/-- What `Compress` records for a header at a position. -/
def record (header : ZipLocalFileHeader) (offset : ℕ) : Option ZipFileInfo :=
  (create header).map fun i => (i.setOffset offset).setZip64Data

section Record

variable {header : ZipLocalFileHeader} {offset : ℕ} {i : ZipFileInfo}

theorem record_frame (h : record header offset = some i) :
    i._fileName = header._fileName ∧ i._compressedSize = header._compressedSize ∧ i._localHeaderOffset = offset := by
  rw [record] at h
  obtain ⟨j, hj, rfl⟩ := Option.map_eq_some_iff.mp h
  obtain ⟨attr, flags, rfl⟩ := create_eq_some hj
  rw [setZip64Data]
  split_ifs <;> exact ⟨rfl, rfl, rfl⟩

/-- What is recorded can be read back, if the name is not too long. -/
theorem record_sound (hname : header._fileName.length < 2 ^ 16) (h : record header offset = some i) : Sound i := by
  rw [record] at h
  obtain ⟨j, hj, rfl⟩ := Option.map_eq_some_iff.mp h
  obtain ⟨attr, flags, rfl⟩ := create_eq_some hj
  have hlen : (BitVec.ofNat 16 header._fileName.length).toNat = header._fileName.length := by
    rw [BitVec.toNat_ofNat, Nat.mod_eq_of_lt hname]
  rw [setZip64Data]
  split_ifs with hneeds
  · have hvalues := fun k : ZipFileInfo => length_zip64Values_le (k.setRequiredVersion 4 5)
    refine ⟨hlen, ?_, rfl, rfl, rfl, rfl, Or.inr rfl⟩
    change (BitVec.ofNat 16 (List.length _)).toNat = List.length _
    rw [BitVec.toNat_ofNat, Nat.mod_eq_of_lt]
    rw [List.length_append, List.length_append, ZipUtil.length_set16BitValue, ZipUtil.length_set16BitValue]
    exact Nat.lt_of_le_of_lt (Nat.add_le_add_left (Nat.add_le_add_left (hvalues _) 2) 2) (by decide)
  · exact ⟨hlen, rfl, rfl, rfl, rfl, rfl, Or.inl ⟨rfl, by simpa using hneeds⟩⟩

end Record

end ZipFileInfo

end Poco.Zip
