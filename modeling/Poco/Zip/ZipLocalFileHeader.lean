import Poco.Foundation.DateTime
import Poco.Foundation.PathRoundTrip
import Poco.Lib.Memory
import Poco.Zip.ZipDataInfo

/-! # Local headers

The header of an entry in an archive: thirty bytes of fields, the name and an extra field.  `createHeader`
writes it and `parse` reads it; `parse_createHeader` says what is read.  With Zip64 the extra field holds
the sizes (`setZip64Data`) and the fields for them hold a mark.

The thirty bytes are kept as the fields at their positions.  Sizes and positions are numbers, which are cut
off where they are written.  A string is a list of bytes, and a character of a path is a byte. -/

namespace Poco.Zip

open Poco.Lib Poco.Foundation

namespace ZipUtil

/-- `parseDateTime`, for the two fields. -/
def parseDateTime (time date : BitVec 16) : Except DateTime.Failure DateTime :=
  let sec : ℤ := 2 * (time &&& 0x001f).toNat
  let min : ℤ := ((time &&& 0x07e0) >>> 5).toNat
  let hour : ℤ := ((time &&& 0xf800) >>> 11).toNat
  let day : ℤ := (date &&& 0x001f).toNat
  let mon : ℤ := ((date &&& 0x01e0) >>> 5).toNat
  let year : ℤ := 1980 + ((date &&& 0xfe00) >>> 9).toNat
  if DateTime.isValid ⟨year, mon, day, hour, min, sec, 0, 0⟩ then DateTime.create ⟨year, mon, day, hour, min, sec, 0, 0⟩
  else DateTime.create ⟨1970, 1, 1, 0, 0, 0, 0, 0⟩

/-- `setDateTime`: the fields for the time and the date. -/
def setDateTime (dt : DateTime) : BitVec 16 × BitVec 16 :=
  let year := if dt._fields.year - 1980 < 0 then 0 else dt._fields.year - 1980
  (BitVec.ofInt 16 (dt._fields.second.tdiv 2 + dt._fields.minute * 2 ^ 5 + dt._fields.hour * 2 ^ 11),
    BitVec.ofInt 16 (dt._fields.day + dt._fields.month * 2 ^ 5 + year * 2 ^ 9))

/-- The text of a failure, which `parseDateTime_ok` excludes. -/
def message : DateTime.Failure → String
  | .throws e => e.text
  | .undefined => ""

theorem parseDateTime_ok (time date : BitVec 16) : ∃ dt, parseDateTime time date = .ok dt := by
  rw [parseDateTime]
  split_ifs with hvalid
  · exact ⟨_, DateTime.create_of_valid hvalid⟩
  · exact ⟨_, DateTime.create_of_valid (by decide)⟩

/-- What `read` puts into `n` bytes that are zero, and what is left of the stream. -/
def readBlock (n : ℕ) (inp : List UInt8) : List UInt8 × List UInt8 :=
  (inp.take n ++ List.replicate (n - inp.length) 0, inp.drop n)

theorem readBlock_append {n : ℕ} {block : List UInt8} (h : block.length = n) (rest : List UInt8) :
    readBlock n (block ++ rest) = (block, rest) := by
  have hle : n - (block ++ rest).length = 0 := by
    rw [List.length_append]
    omega
  rw [readBlock, hle, List.take_left' h, List.drop_left' h, List.replicate_zero, List.append_nil]

end ZipUtil

/-! ### Constants -/

/-- `ZipCommon::ZIP64_EXTRA_ID`. -/
def ZIP64_EXTRA_ID : BitVec 16 := 0x1

/-- `ZipCommon::ZIP64_MAGIC`. -/
def ZIP64_MAGIC : ℕ := 0xFFFFFFFF

/-- `ZipCommon::CompressionMethod`. -/
abbrev CompressionMethod := BitVec 16

def CM_STORE : CompressionMethod := 0

def CM_DEFLATE : CompressionMethod := 8

/-- `ZipCommon::CompressionLevel`. -/
abbrev CompressionLevel := BitVec 2

def CL_NORMAL : CompressionLevel := 0

/-- `ZipCommon::HS_FAT`. -/
def HS_FAT : UInt8 := 0

/-- `ZipCommon::HS_UNUSED`. -/
def HS_UNUSED : ℤ := 18

/-- A size as a field of 32 bits. -/
def sizeField (val : ℕ) : BitVec 32 :=
  if val ≥ ZIP64_MAGIC then BitVec.ofNat 32 ZIP64_MAGIC else BitVec.ofNat 32 val

/-- A text as bytes. -/
def bytesOf (s : List Char) : List UInt8 := s.map Char.toUInt8

/-- Bytes as a text. -/
def charsOf (bytes : List UInt8) : List Char := bytes.map fun b => Char.ofNat b.toNat

/-- The bytes `\x50`, `\x4b`, `\x03`, `\x04`. -/
def ZipLocalFileHeader.HEADER : List UInt8 := [0x50, 0x4b, 0x03, 0x04]

/-- `ZipLocalFileHeader::_rawHeader`. -/
structure RawHeader where
  version : UInt8 := 0
  hostSystem : UInt8 := 0
  generalPurpose : BitVec 16 := 0
  comprMethod : BitVec 16 := 0
  lastModFileTime : BitVec 16 := 0
  lastModFileDate : BitVec 16 := 0
  crc32 : BitVec 32 := 0
  compressedSize : BitVec 32 := 0
  uncompressedSize : BitVec 32 := 0
  fileLength : BitVec 16 := 0
  extraField : BitVec 16 := 0
deriving DecidableEq, Repr

namespace RawHeader

/-- The bytes of the header. -/
def bytes (r : RawHeader) : List UInt8 :=
  [ZipLocalFileHeader.HEADER, [r.version, r.hostSystem], ZipUtil.set16BitValue r.generalPurpose,
    ZipUtil.set16BitValue r.comprMethod, ZipUtil.set16BitValue r.lastModFileTime,
    ZipUtil.set16BitValue r.lastModFileDate, ZipUtil.set32BitValue r.crc32,
    ZipUtil.set32BitValue r.compressedSize, ZipUtil.set32BitValue r.uncompressedSize,
    ZipUtil.set16BitValue r.fileLength, ZipUtil.set16BitValue r.extraField].flatten

/-- The fields at their positions. -/
def ofBytes (raw : List UInt8) : RawHeader where
  version := raw.getD 4 0
  hostSystem := raw.getD 5 0
  generalPurpose := ZipUtil.get16BitValue raw 6
  comprMethod := ZipUtil.get16BitValue raw 8
  lastModFileTime := ZipUtil.get16BitValue raw 10
  lastModFileDate := ZipUtil.get16BitValue raw 12
  crc32 := ZipUtil.get32BitValue raw 14
  compressedSize := ZipUtil.get32BitValue raw 18
  uncompressedSize := ZipUtil.get32BitValue raw 22
  fileLength := ZipUtil.get16BitValue raw 26
  extraField := ZipUtil.get16BitValue raw 28

/-- The major version; a `char` is signed. -/
def majorVersion (r : RawHeader) : ℤ := r.version.toBitVec.toInt.tdiv 10

@[simp] theorem length_bytes (r : RawHeader) : r.bytes.length = 30 := rfl

theorem ofBytes_bytes (r : RawHeader) : ofBytes r.bytes = r := by
  have h16 : ∀ n val rest, r.bytes.drop n = ZipUtil.set16BitValue val ++ rest →
      ZipUtil.get16BitValue r.bytes n = val := by
    intro n val rest h
    rw [← ZipUtil.get16BitValue_drop, h, ZipUtil.get16BitValue_set]
  have h32 : ∀ n val rest, r.bytes.drop n = ZipUtil.set32BitValue val ++ rest →
      ZipUtil.get32BitValue r.bytes n = val := by
    intro n val rest h
    rw [← ZipUtil.get32BitValue_drop, h, ZipUtil.get32BitValue_set]
  have hgp := h16 6 r.generalPurpose _ rfl
  have hm := h16 8 r.comprMethod _ rfl
  have ht := h16 10 r.lastModFileTime _ rfl
  have hd := h16 12 r.lastModFileDate _ rfl
  have hcrc := h32 14 r.crc32 _ rfl
  have hcs := h32 18 r.compressedSize _ rfl
  have hus := h32 22 r.uncompressedSize _ rfl
  have hfl := h16 26 r.fileLength _ rfl
  have hef := h16 28 r.extraField [] rfl
  rw [ofBytes, hgp, hm, ht, hd, hcrc, hcs, hus, hfl, hef]
  rfl

end RawHeader

/-! ### The header -/

/-- The members of `ZipLocalFileHeader`. -/
structure ZipLocalFileHeader where
  _forceZip64 : Bool := false
  _rawHeader : RawHeader := {}
  _startPos : ℤ := -1
  _endPos : ℤ := -1
  _fileName : List UInt8 := []
  _lastModifiedAt : DateTime
  _extraField : List UInt8 := []
  _crc32 : BitVec 32 := 0
  _compressedSize : ℕ := 0
  _uncompressedSize : ℕ := 0
deriving DecidableEq

namespace ZipLocalFileHeader

def FULLHEADER_SIZE : ℕ := 30

/-- `getHeaderSize`. -/
def getHeaderSize (h : ZipLocalFileHeader) : ℕ :=
  FULLHEADER_SIZE + h._rawHeader.extraField.toNat + h._rawHeader.fileLength.toNat

/-- `getDataStartPos`. -/
def getDataStartPos (h : ZipLocalFileHeader) : ℤ := h._startPos + h.getHeaderSize

/-- `getCompressionMethod`. -/
def getCompressionMethod (h : ZipLocalFileHeader) : CompressionMethod := h._rawHeader.comprMethod

/-- `getCompressionLevel`. -/
def getCompressionLevel (h : ZipLocalFileHeader) : CompressionLevel :=
  (h._rawHeader.generalPurpose >>> 1).setWidth 2

/-- `isDirectory`; nothing where it reads the last character of an empty name, which is undefined. -/
def isDirectory (h : ZipLocalFileHeader) : Option Bool :=
  if h._uncompressedSize = 0 then h._fileName.getLast?.map (· == '/'.toUInt8) else some false

/-- `searchCRCAndSizesAfterData`. -/
def searchCRCAndSizesAfterData (h : ZipLocalFileHeader) : Bool := h._rawHeader.generalPurpose &&& 0x0008 ≠ 0

/-- `needsZip64`. -/
def needsZip64 (h : ZipLocalFileHeader) : Bool :=
  h._forceZip64 ∨ h._startPos ≥ ZIP64_MAGIC ∨ h._compressedSize ≥ ZIP64_MAGIC ∨ h._uncompressedSize ≥ ZIP64_MAGIC

/-- `getMajorVersionNumber`. -/
def getMajorVersionNumber (h : ZipLocalFileHeader) : ℤ := h._rawHeader.majorVersion

/-- `getMinorVersionNumber`. -/
def getMinorVersionNumber (h : ZipLocalFileHeader) : ℤ := h._rawHeader.version.toBitVec.toInt.tmod 10

/-- `setRequiredVersion`. -/
def setRequiredVersion (h : ZipLocalFileHeader) (major minor : ℤ) : ZipLocalFileHeader :=
  { h with _rawHeader.version := UInt8.ofInt (major * 10 + minor) }

/-- `setSearchCRCAndSizesAfterData`. -/
def setSearchCRCAndSizesAfterData (h : ZipLocalFileHeader) (val : Bool) : ZipLocalFileHeader :=
  { h with _rawHeader.generalPurpose :=
      if val then h._rawHeader.generalPurpose ||| 0x0008 else h._rawHeader.generalPurpose &&& 0xfff7 }

/-- `setEncryption`. -/
def setEncryption (h : ZipLocalFileHeader) (val : Bool) : ZipLocalFileHeader :=
  { h with _rawHeader.generalPurpose :=
      if val then h._rawHeader.generalPurpose ||| 0x0001 else h._rawHeader.generalPurpose &&& 0xfffe }

/-- `setCompressionMethod`. -/
def setCompressionMethod (h : ZipLocalFileHeader) (cm : CompressionMethod) : ZipLocalFileHeader :=
  { h with _rawHeader.comprMethod := cm }

/-- `setCompressionLevel`. -/
def setCompressionLevel (h : ZipLocalFileHeader) (cl : CompressionLevel) : ZipLocalFileHeader :=
  { h with _rawHeader.generalPurpose := (h._rawHeader.generalPurpose &&& 0xfff9) ||| (cl.setWidth 16 <<< 1) }

/-- `setLastModifiedAt`. -/
def setLastModifiedAt (h : ZipLocalFileHeader) (dt : DateTime) : ZipLocalFileHeader :=
  { h with
    _lastModifiedAt := dt
    _rawHeader.lastModFileTime := (ZipUtil.setDateTime dt).1
    _rawHeader.lastModFileDate := (ZipUtil.setDateTime dt).2 }

/-- `setCRC`. -/
def setCRC (h : ZipLocalFileHeader) (val : BitVec 32) : ZipLocalFileHeader :=
  { h with _crc32 := val, _rawHeader.crc32 := val }

/-- `setCompressedSize`. -/
def setCompressedSize (h : ZipLocalFileHeader) (val : ℕ) : ZipLocalFileHeader :=
  { h with _compressedSize := val, _rawHeader.compressedSize := sizeField val }

/-- `setUncompressedSize`. -/
def setUncompressedSize (h : ZipLocalFileHeader) (val : ℕ) : ZipLocalFileHeader :=
  { h with _uncompressedSize := val, _rawHeader.uncompressedSize := sizeField val }

/-- The extra field that `setZip64Data` makes. -/
def zip64Data (h : ZipLocalFileHeader) : List UInt8 :=
  ZipUtil.set16BitValue ZIP64_EXTRA_ID ++ ZipUtil.set16BitValue 16 ++
    ZipUtil.set64BitValue (BitVec.ofNat 64 h._uncompressedSize) ++
    ZipUtil.set64BitValue (BitVec.ofNat 64 h._compressedSize)

/-- `setZip64Data`. -/
def setZip64Data (h : ZipLocalFileHeader) : ZipLocalFileHeader :=
  let h := h.setRequiredVersion 4 5
  { h with
    _rawHeader.uncompressedSize := BitVec.ofNat 32 ZIP64_MAGIC
    _rawHeader.compressedSize := BitVec.ofNat 32 ZIP64_MAGIC
    _extraField := h.zip64Data
    _rawHeader.extraField := 20 }

/-- The name that `setFileName` gives to an entry, where `home` is the home directory; `none` if parsing
`home` does not end. -/
def entryName (home : List Char) (fileName : List UInt8) (isDirectory : Bool) : Option (List UInt8) :=
  (Path.parseUnix home (charsOf fileName)).map fun aPath =>
    let aPath := if isDirectory then aPath.makeDirectory else aPath.makeFile
    let name := bytesOf aPath.buildUnix
    if name.head? = some '/'.toUInt8 then name.tail else name

/-- `setFileName`. -/
def setFileName (home : List Char) (h : ZipLocalFileHeader) (fileName : List UInt8) (isDirectory : Bool) :
    Except String ZipLocalFileHeader :=
  if fileName = [] then .error "!fileName.empty()"
  else match entryName home fileName isDirectory with
    | none => .error "Path::home()"
    | some name =>
      let h :=
        if isDirectory then
          ((((h.setCRC 0).setCompressedSize 0).setUncompressedSize 0).setCompressionMethod CM_STORE).setCompressionLevel
            CL_NORMAL
        else h
      .ok { h with _fileName := name, _rawHeader.fileLength := BitVec.ofNat 16 name.length }

/-- `init`. -/
def init (home : List Char) (h : ZipLocalFileHeader) (fName : Path) (cm : CompressionMethod)
    (cl : CompressionLevel) : Except String ZipLocalFileHeader :=
  if h._fileName ≠ [] then .error "_fileName.empty()"
  else do
    let h := h.setSearchCRCAndSizesAfterData false
    let fileName := { fName with _device := [] }
    let h ← setFileName home h (bytesOf fileName.buildUnix) (fileName._name = [])
    let h := h.setRequiredVersion 2 0
    let h := if fileName._name ≠ [] then (h.setCompressionMethod cm).setCompressionLevel cl
      else h.setCompressionMethod CM_STORE
    let h := if h.needsZip64 then h.setZip64Data else h
    .ok { h with _rawHeader.generalPurpose := h._rawHeader.generalPurpose ||| 0x0800 }

/-- The constructor for a new entry. -/
def create (home : List Char) (fileName : Path) (lastModifiedAt : DateTime) (cm : CompressionMethod)
    (cl : CompressionLevel) (forceZip64 : Bool) : Except String ZipLocalFileHeader :=
  let h : ZipLocalFileHeader := { _forceZip64 := forceZip64, _lastModifiedAt := lastModifiedAt }
  let h := { h with _rawHeader.hostSystem := HS_FAT }
  let h := h.setEncryption false
  let h := { h with _rawHeader.extraField := 0 }
  init home (h.setLastModifiedAt lastModifiedAt) fileName cm cl

/-- `createHeader`. -/
def createHeader (h : ZipLocalFileHeader) : List UInt8 := h._rawHeader.bytes ++ h._fileName ++ h._extraField

/-! ### Parsing -/

/-- The branch of the loop for a block with the Zip64 tag: the header, and the place where the loop goes
on. -/
def zip64Block (size : ℕ) (ptr : List UInt8) (h : ZipLocalFileHeader) : ZipLocalFileHeader × List UInt8 :=
  let h := { h with _forceZip64 := true }
  let (h, size, ptr) :=
    if size ≥ 8 ∧ h._rawHeader.uncompressedSize.toNat = ZIP64_MAGIC then
      (h.setUncompressedSize (ZipUtil.get64BitValue ptr 0).toNat, size - 8, ptr.drop 8)
    else (h, size, ptr)
  if size ≥ 8 ∧ h._rawHeader.compressedSize.toNat = ZIP64_MAGIC then
    (h.setCompressedSize (ZipUtil.get64BitValue ptr 0).toNat, ptr.drop 8)
  else (h, ptr)

/-- The loop of `parse` over the extra field. -/
def parseExtra : ℕ → List UInt8 → ZipLocalFileHeader → ZipLocalFileHeader
  | 0, _, h => h
  | fuel + 1, ptr, h =>
    if 4 ≤ ptr.length then
      let id := ZipUtil.get16BitValue ptr 0
      let size := (ZipUtil.get16BitValue ptr 2).toNat
      let ptr := ptr.drop 4
      if id = ZIP64_EXTRA_ID then
        let (h, ptr) := zip64Block size ptr h
        parseExtra fuel ptr h
      else parseExtra fuel (ptr.drop size) h
    else h

/-- The sizes in the fields of a header, unless they stand behind the data. -/
def loadSizes (h : ZipLocalFileHeader) : ZipLocalFileHeader :=
  if h.searchCRCAndSizesAfterData then h
  else { h with
    _crc32 := h._rawHeader.crc32
    _compressedSize := h._rawHeader.compressedSize.toNat
    _uncompressedSize := h._rawHeader.uncompressedSize.toNat }

/-- `parse`, for a header that `inp` begins with; what is left of the stream is returned with it. -/
def parse (h : ZipLocalFileHeader) (inp : List UInt8) : Except String (ZipLocalFileHeader × List UInt8) :=
  if inp.length < HEADER_SIZE then .error "Failed to read local file header"
  else if inp.take HEADER_SIZE ≠ HEADER then .error "Bad local file header"
  else
    let (bytes, inp) := ZipUtil.readBlock FULLHEADER_SIZE inp
    let raw := RawHeader.ofBytes bytes
    let hostSystem := raw.hostSystem.toBitVec.toInt
    if ¬(0 ≤ hostSystem ∧ hostSystem < HS_UNUSED) then .error "_rawHeader[VERSION_POS + 1]>= ZipCommon::HS_FAT"
    else if ¬raw.majorVersion ≤ 4 then .error "getMajorVersionNumber() <= 4"
    else
      match ZipUtil.parseDateTime raw.lastModFileTime raw.lastModFileDate with
      | .error failure => .error (ZipUtil.message failure)
      | .ok lastModifiedAt =>
        let (name, inp) := ZipUtil.readBlock raw.fileLength.toNat inp
        let h := loadSizes { h with _rawHeader := raw, _lastModifiedAt := lastModifiedAt, _fileName := name }
        let (xtra, inp) := ZipUtil.readBlock raw.extraField.toNat inp
        .ok (parseExtra xtra.length xtra { h with _extraField := xtra }, inp)

/-- The constructor that reads the header of an entry at a position of a stream with these bytes, with a
callback that leaves the stream `skipped` bytes behind the header. -/
def read (bytes : List UInt8) (startPos skipped : ℕ) (now : DateTime) : Except String ZipLocalFileHeader := do
  let (h, inp) ← parse { _startPos := startPos, _lastModifiedAt := now } (bytes.drop startPos)
  let inp := inp.drop skipped
  let h :=
    if h.searchCRCAndSizesAfterData then
      let nfo := (ZipUtil.readBlock (ZipDataInfo.FULLHEADER_SIZE h._forceZip64) inp).1
      ((h.setCRC (ZipDataInfo.getCRC32 nfo)).setCompressedSize
        (ZipDataInfo.getCompressedSize h._forceZip64 nfo).toNat).setUncompressedSize
          (ZipDataInfo.getUncompressedSize h._forceZip64 nfo).toNat
    else h
  .ok { h with _endPos := h._startPos + h.getHeaderSize + h._compressedSize }

/-! ### Flags -/

theorem searchCRCAndSizesAfterData_eq (h : ZipLocalFileHeader) :
    h.searchCRCAndSizesAfterData = h._rawHeader.generalPurpose.getLsbD 3 := by
  have hbit : ∀ v : BitVec 16, (v &&& 0x0008 = 0) ↔ v.getLsbD 3 = false := by
    intro v
    constructor
    · intro hv
      have hlsb := congrArg (BitVec.getLsbD · 3) hv
      simpa using hlsb
    · intro hv
      have hmask : ∀ j < 16, j ≠ 3 → (0x0008 : BitVec 16).getLsbD j = false := by decide
      apply BitVec.eq_of_getLsbD_eq
      intro j hj
      rw [BitVec.getLsbD_and]
      by_cases hthree : j = 3
      · rw [hthree, hv]
        rfl
      · rw [hmask j hj hthree, Bool.and_false]
        exact BitVec.getLsbD_zero.symm
  rw [searchCRCAndSizesAfterData]
  cases hlsb : h._rawHeader.generalPurpose.getLsbD 3 with
  | false =>
      rw [decide_eq_false_iff_not, not_not]
      exact (hbit _).mpr hlsb
  | true =>
      rw [decide_eq_true_eq]
      intro hzero
      rw [(hbit _).mp hzero] at hlsb
      cases hlsb

@[simp] theorem search_setSearch (h : ZipLocalFileHeader) (val : Bool) :
    (h.setSearchCRCAndSizesAfterData val).searchCRCAndSizesAfterData = val := by
  rw [searchCRCAndSizesAfterData_eq, setSearchCRCAndSizesAfterData]
  cases val <;> simp

@[simp] theorem search_setCompressionLevel (h : ZipLocalFileHeader) (cl : CompressionLevel) :
    (h.setCompressionLevel cl).searchCRCAndSizesAfterData = h.searchCRCAndSizesAfterData := by
  rw [searchCRCAndSizesAfterData_eq, searchCRCAndSizesAfterData_eq, setCompressionLevel]
  simp

/-! ### A header is read back -/

/-- The lengths in a header are those of its name and its extra field, and `parse` accepts it. -/
structure Sound (h : ZipLocalFileHeader) : Prop where
  fileLength : h._rawHeader.fileLength.toNat = h._fileName.length
  extraField : h._rawHeader.extraField.toNat = h._extraField.length
  hostSystem : 0 ≤ h._rawHeader.hostSystem.toBitVec.toInt ∧ h._rawHeader.hostSystem.toBitVec.toInt < HS_UNUSED
  version : h._rawHeader.majorVersion ≤ 4

theorem Sound.length_createHeader {h : ZipLocalFileHeader} (hs : h.Sound) :
    h.createHeader.length = h.getHeaderSize := by
  rw [createHeader, getHeaderSize, List.length_append, List.length_append, RawHeader.length_bytes, hs.fileLength,
    hs.extraField, FULLHEADER_SIZE]
  omega

/-- What `parse` has read before it looks into the extra field. -/
def scanned (h₀ h : ZipLocalFileHeader) (lastModifiedAt : DateTime) : ZipLocalFileHeader :=
  { loadSizes { h₀ with
      _rawHeader := h._rawHeader, _lastModifiedAt := lastModifiedAt, _fileName := h._fileName } with
    _extraField := h._extraField }

theorem parse_createHeader {h : ZipLocalFileHeader} (hs : h.Sound) (h₀ : ZipLocalFileHeader) (rest : List UInt8) :
    ∃ dt, parse h₀ (h.createHeader ++ rest) =
      .ok (parseExtra h._extraField.length h._extraField (scanned h₀ h dt), rest) := by
  obtain ⟨dt, hdt⟩ := ZipUtil.parseDateTime_ok h._rawHeader.lastModFileTime h._rawHeader.lastModFileDate
  refine ⟨dt, ?_⟩
  have hbytes : h.createHeader ++ rest = h._rawHeader.bytes ++ (h._fileName ++ (h._extraField ++ rest)) := by
    rw [createHeader, List.append_assoc, List.append_assoc]
  have hlen : ¬(h.createHeader ++ rest).length < HEADER_SIZE := by
    rw [hbytes, List.length_append, RawHeader.length_bytes, HEADER_SIZE]
    omega
  have hhead : (h.createHeader ++ rest).take HEADER_SIZE = HEADER := by
    rw [hbytes]
    rfl
  have hraw := ZipUtil.readBlock_append (RawHeader.length_bytes h._rawHeader) (h._fileName ++ (h._extraField ++ rest))
  have hname := ZipUtil.readBlock_append hs.fileLength.symm (h._extraField ++ rest)
  have hxtra := ZipUtil.readBlock_append hs.extraField.symm rest
  rw [parse, if_neg hlen, if_neg (not_not.mpr hhead), hbytes]
  simp only [FULLHEADER_SIZE, hraw, RawHeader.ofBytes_bytes, hname, hxtra, hdt]
  rw [if_neg (not_not.mpr hs.hostSystem), if_neg (not_not.mpr hs.version)]
  rfl

/-! ### The extra field -/

/-- The extra field changes nothing but the sizes and the mark of Zip64. -/
structure SameFrame (h h' : ZipLocalFileHeader) : Prop where
  startPos : h'._startPos = h._startPos
  fileName : h'._fileName = h._fileName
  extraField : h'._extraField = h._extraField
  generalPurpose : h'._rawHeader.generalPurpose = h._rawHeader.generalPurpose
  comprMethod : h'._rawHeader.comprMethod = h._rawHeader.comprMethod
  fileLength : h'._rawHeader.fileLength = h._rawHeader.fileLength
  extraLength : h'._rawHeader.extraField = h._rawHeader.extraField
  hostSystem : h'._rawHeader.hostSystem = h._rawHeader.hostSystem
  version : h'._rawHeader.version = h._rawHeader.version

theorem SameFrame.refl (h : ZipLocalFileHeader) : SameFrame h h := ⟨rfl, rfl, rfl, rfl, rfl, rfl, rfl, rfl, rfl⟩

theorem SameFrame.trans {h h' h'' : ZipLocalFileHeader} (hfst : SameFrame h h') (hsnd : SameFrame h' h'') :
    SameFrame h h'' where
  startPos := hsnd.startPos.trans hfst.startPos
  fileName := hsnd.fileName.trans hfst.fileName
  extraField := hsnd.extraField.trans hfst.extraField
  generalPurpose := hsnd.generalPurpose.trans hfst.generalPurpose
  comprMethod := hsnd.comprMethod.trans hfst.comprMethod
  fileLength := hsnd.fileLength.trans hfst.fileLength
  extraLength := hsnd.extraLength.trans hfst.extraLength
  hostSystem := hsnd.hostSystem.trans hfst.hostSystem
  version := hsnd.version.trans hfst.version

theorem setSizes_frame (h : ZipLocalFileHeader) (crc : BitVec 32) (val val' : ℕ) :
    SameFrame h (((h.setCRC crc).setCompressedSize val).setUncompressedSize val') ∧
      (((h.setCRC crc).setCompressedSize val).setUncompressedSize val')._compressedSize = val :=
  ⟨⟨rfl, rfl, rfl, rfl, rfl, rfl, rfl, rfl, rfl⟩, rfl⟩

theorem SameFrame.getHeaderSize {h h' : ZipLocalFileHeader} (hf : SameFrame h h') :
    h'.getHeaderSize = h.getHeaderSize := by
  rw [ZipLocalFileHeader.getHeaderSize, ZipLocalFileHeader.getHeaderSize, hf.extraLength, hf.fileLength]

theorem SameFrame.getDataStartPos {h h' : ZipLocalFileHeader} (hf : SameFrame h h') :
    h'.getDataStartPos = h.getDataStartPos := by
  rw [ZipLocalFileHeader.getDataStartPos, ZipLocalFileHeader.getDataStartPos, hf.startPos, hf.getHeaderSize]

theorem SameFrame.getCompressionMethod {h h' : ZipLocalFileHeader} (hf : SameFrame h h') :
    h'.getCompressionMethod = h.getCompressionMethod := hf.comprMethod

theorem zip64Block_frame (size : ℕ) (ptr : List UInt8) (h : ZipLocalFileHeader) :
    SameFrame h (zip64Block size ptr h).1 ∧ (zip64Block size ptr h).1._forceZip64 = true := by
  have hframe : ∀ val val' : ℕ, SameFrame h ({ h with _forceZip64 := true }.setUncompressedSize val) ∧
      SameFrame h ({ h with _forceZip64 := true }.setCompressedSize val) ∧
      SameFrame h (({ h with _forceZip64 := true }.setUncompressedSize val).setCompressedSize val') := fun _ _ =>
    ⟨⟨rfl, rfl, rfl, rfl, rfl, rfl, rfl, rfl, rfl⟩, ⟨rfl, rfl, rfl, rfl, rfl, rfl, rfl, rfl, rfl⟩,
      ⟨rfl, rfl, rfl, rfl, rfl, rfl, rfl, rfl, rfl⟩⟩
  simp only [zip64Block]
  by_cases hu : size ≥ 8 ∧ h._rawHeader.uncompressedSize.toNat = ZIP64_MAGIC
  · simp only [if_pos hu]
    split_ifs
    · exact ⟨(hframe _ _).2.2, rfl⟩
    · exact ⟨(hframe _ 0).1, rfl⟩
  · simp only [if_neg hu]
    split_ifs
    · exact ⟨(hframe _ 0).2.1, rfl⟩
    · exact ⟨⟨rfl, rfl, rfl, rfl, rfl, rfl, rfl, rfl, rfl⟩, rfl⟩

theorem parseExtra_short (fuel : ℕ) {ptr : List UInt8} (hlen : ¬4 ≤ ptr.length) (h : ZipLocalFileHeader) :
    parseExtra fuel ptr h = h := by
  cases fuel with
  | zero => rfl
  | succ fuel => rw [parseExtra, if_neg hlen]

theorem parseExtra_tag {fuel : ℕ} {ptr : List UInt8} (hlen : 4 ≤ ptr.length)
    (htag : ZipUtil.get16BitValue ptr 0 = ZIP64_EXTRA_ID) (h : ZipLocalFileHeader) :
    parseExtra (fuel + 1) ptr h =
      parseExtra fuel (zip64Block (ZipUtil.get16BitValue ptr 2).toNat (ptr.drop 4) h).2
        (zip64Block (ZipUtil.get16BitValue ptr 2).toNat (ptr.drop 4) h).1 := by
  rw [parseExtra, if_pos hlen]
  simp only [if_pos htag]

theorem parseExtra_skip {fuel : ℕ} {ptr : List UInt8} (hlen : 4 ≤ ptr.length)
    (htag : ZipUtil.get16BitValue ptr 0 ≠ ZIP64_EXTRA_ID) (h : ZipLocalFileHeader) :
    parseExtra (fuel + 1) ptr h = parseExtra fuel ((ptr.drop 4).drop (ZipUtil.get16BitValue ptr 2).toNat) h := by
  rw [parseExtra, if_pos hlen]
  simp only [if_neg htag]

theorem parseExtra_frame (fuel : ℕ) (ptr : List UInt8) (h : ZipLocalFileHeader) :
    SameFrame h (parseExtra fuel ptr h) ∧ (h._forceZip64 = true → (parseExtra fuel ptr h)._forceZip64 = true) := by
  induction fuel generalizing ptr h with
  | zero => exact ⟨SameFrame.refl h, id⟩
  | succ fuel ih =>
      by_cases hlen : 4 ≤ ptr.length
      · by_cases htag : ZipUtil.get16BitValue ptr 0 = ZIP64_EXTRA_ID
        · rw [parseExtra_tag hlen htag]
          have hblock := zip64Block_frame (ZipUtil.get16BitValue ptr 2).toNat (ptr.drop 4) h
          have hrest := ih (zip64Block (ZipUtil.get16BitValue ptr 2).toNat (ptr.drop 4) h).2
            (zip64Block (ZipUtil.get16BitValue ptr 2).toNat (ptr.drop 4) h).1
          exact ⟨hblock.1.trans hrest.1, fun _ => hrest.2 hblock.2⟩
        · rw [parseExtra_skip hlen htag]
          exact ih _ h
      · rw [parseExtra_short _ hlen]
        exact ⟨SameFrame.refl h, id⟩

@[simp] theorem length_zip64Data (h : ZipLocalFileHeader) : h.zip64Data.length = 20 := rfl

/-- The sizes are read from the extra field that `setZip64Data` makes. -/
theorem parseExtra_zip64Data {h g : ZipLocalFileHeader} (hc : g._rawHeader.compressedSize.toNat = ZIP64_MAGIC)
    (hu : g._rawHeader.uncompressedSize.toNat = ZIP64_MAGIC) :
    parseExtra 20 h.zip64Data g =
      ({ g with _forceZip64 := true }.setUncompressedSize (h._uncompressedSize % 2 ^ 64)).setCompressedSize
        (h._compressedSize % 2 ^ 64) := by
  have htag : ZipUtil.get16BitValue h.zip64Data 0 = ZIP64_EXTRA_ID := by
    simp only [zip64Data, List.append_assoc]
    exact ZipUtil.get16BitValue_set _ _
  have hsize : ZipUtil.get16BitValue h.zip64Data 2 = 16 := by
    have hread := ZipUtil.get16BitValue_append (ZipUtil.set16BitValue ZIP64_EXTRA_ID)
      (ZipUtil.set16BitValue 16 ++ (ZipUtil.set64BitValue (BitVec.ofNat 64 h._uncompressedSize) ++
        ZipUtil.set64BitValue (BitVec.ofNat 64 h._compressedSize))) 0
    rw [ZipUtil.get16BitValue_set] at hread
    rw [zip64Data, List.append_assoc, List.append_assoc]
    exact hread
  have hdrop : h.zip64Data.drop 4 = ZipUtil.set64BitValue (BitVec.ofNat 64 h._uncompressedSize) ++
      ZipUtil.set64BitValue (BitVec.ofNat 64 h._compressedSize) := rfl
  have hdrop' : (h.zip64Data.drop 4).drop 8 = ZipUtil.set64BitValue (BitVec.ofNat 64 h._compressedSize) ++ [] := rfl
  rw [parseExtra_tag (by simp) htag, hsize]
  have hblock : zip64Block (16 : BitVec 16).toNat (h.zip64Data.drop 4) g =
      (({ g with _forceZip64 := true }.setUncompressedSize (h._uncompressedSize % 2 ^ 64)).setCompressedSize
        (h._compressedSize % 2 ^ 64), []) := by
    have h16 : (16 : BitVec 16).toNat = 16 := rfl
    rw [zip64Block, h16]
    simp only [if_pos (And.intro (by decide : (16 : ℕ) ≥ 8) hu)]
    have hc' : (16 - 8 : ℕ) ≥ 8 ∧ ({ g with _forceZip64 := true }.setUncompressedSize
        (ZipUtil.get64BitValue (h.zip64Data.drop 4) 0).toNat)._rawHeader.compressedSize.toNat = ZIP64_MAGIC :=
      ⟨by decide, hc⟩
    rw [if_pos hc', hdrop', ZipUtil.get64BitValue_set, hdrop, ZipUtil.get64BitValue_set]
    simp only [BitVec.toNat_ofNat]
    rfl
  rw [hblock, parseExtra_short _ (by simp)]

/-! ### An entry is read back -/

/-- The extra field is the one of `setZip64Data`. -/
structure IsZip64 (h : ZipLocalFileHeader) : Prop where
  extraField : h._extraField = h.zip64Data
  compressedSize : h._rawHeader.compressedSize.toNat = ZIP64_MAGIC
  uncompressedSize : h._rawHeader.uncompressedSize.toNat = ZIP64_MAGIC

/-- There is no block for Zip64 in the extra field. -/
def IsPlain (h : ZipLocalFileHeader) : Prop := ∀ g, parseExtra h._extraField.length h._extraField g = g

/-- The header `h` tells the size of the data behind it, or they have a descriptor in the form that the
header announces. -/
inductive Tells (h : ZipLocalFileHeader) (stored : List UInt8) : List UInt8 → Prop
  | plain (hextra : h.IsPlain) (hsearch : h.searchCRCAndSizesAfterData = false)
      (hsize : h._rawHeader.compressedSize.toNat = stored.length) : Tells h stored []
  | zip64 (hextra : h.IsZip64) (hsearch : h.searchCRCAndSizesAfterData = false)
      (hsize : h._compressedSize = stored.length) (hfits : stored.length < 2 ^ 64) : Tells h stored []
  | plainDescriptor (hextra : h.IsPlain) (hsearch : h.searchCRCAndSizesAfterData = true) (crc : BitVec 32) (usize : ℕ)
      (hfits : stored.length < 2 ^ 32) : Tells h stored (ZipDataInfo.create false crc stored.length usize)
  | zip64Descriptor (hextra : h.IsZip64) (hsearch : h.searchCRCAndSizesAfterData = true) (crc : BitVec 32) (usize : ℕ)
      (hfits : stored.length < 2 ^ 64) : Tells h stored (ZipDataInfo.create true crc stored.length usize)

theorem scanned_frame (h₀ h : ZipLocalFileHeader) (dt : DateTime) :
    (scanned h₀ h dt)._startPos = h₀._startPos ∧ (scanned h₀ h dt)._forceZip64 = h₀._forceZip64 ∧
      (scanned h₀ h dt)._fileName = h._fileName ∧ (scanned h₀ h dt)._rawHeader = h._rawHeader := by
  rw [scanned, loadSizes]
  split_ifs <;> exact ⟨rfl, rfl, rfl, rfl⟩

theorem scanned_compressedSize {h₀ h : ZipLocalFileHeader} (hsearch : h.searchCRCAndSizesAfterData = false)
    (dt : DateTime) : (scanned h₀ h dt)._compressedSize = h._rawHeader.compressedSize.toNat := by
  rw [scanned, loadSizes, if_neg (by simpa [searchCRCAndSizesAfterData] using hsearch)]

theorem Tells.parseExtra {h : ZipLocalFileHeader} {stored desc : List UInt8} (ht : Tells h stored desc)
    {h₀ : ZipLocalFileHeader} (hforce : h₀._forceZip64 = false) (dt : DateTime) {p : ZipLocalFileHeader}
    (hp : p = parseExtra h._extraField.length h._extraField (scanned h₀ h dt)) :
    (h.searchCRCAndSizesAfterData = false → desc = [] ∧ p._compressedSize = stored.length) ∧
      (h.searchCRCAndSizesAfterData = true → ∃ crc usize, desc = ZipDataInfo.create p._forceZip64 crc stored.length usize ∧
        stored.length < if p._forceZip64 then 2 ^ 64 else 2 ^ 32) := by
  obtain ⟨-, hscan, -, hraw⟩ := scanned_frame h₀ h dt
  rw [hforce] at hscan
  have hzip64 : h.IsZip64 → p._forceZip64 = true ∧ p._compressedSize = h._compressedSize % 2 ^ 64 := by
    intro hextra
    have hparse := parseExtra_zip64Data (h := h) (g := scanned h₀ h dt) (hraw ▸ hextra.compressedSize)
      (hraw ▸ hextra.uncompressedSize)
    rw [hextra.extraField] at hp
    rw [hp, length_zip64Data, hparse]
    exact ⟨rfl, rfl⟩
  cases ht with
  | plain hextra hsearch hsize =>
      rw [hextra] at hp
      refine ⟨fun _ => ⟨rfl, ?_⟩, fun h => absurd (hsearch.symm.trans h) Bool.false_ne_true⟩
      rw [hp, scanned_compressedSize hsearch, hsize]
  | zip64 hextra hsearch hsize hfits =>
      refine ⟨fun _ => ⟨rfl, ?_⟩, fun h => absurd (hsearch.symm.trans h) Bool.false_ne_true⟩
      rw [(hzip64 hextra).2, hsize, Nat.mod_eq_of_lt hfits]
  | plainDescriptor hextra hsearch crc usize hfits =>
      rw [hextra] at hp
      refine ⟨fun h => absurd (h.symm.trans hsearch) Bool.false_ne_true, fun _ => ⟨crc, usize, ?_⟩⟩
      rw [hp, hscan]
      exact ⟨rfl, hfits⟩
  | zip64Descriptor hextra hsearch crc usize hfits =>
      refine ⟨fun h => absurd (h.symm.trans hsearch) Bool.false_ne_true, fun _ => ⟨crc, usize, ?_⟩⟩
      rw [(hzip64 hextra).1]
      exact ⟨rfl, hfits⟩

/-- The entry at a position: its header gives the name and the method, and its data stand behind it. -/
def ReadsBack (bytes : List UInt8) (pos : ℕ) (name : List UInt8) (method : CompressionMethod) (stored : List UInt8) :
    Prop :=
  ∀ now, ∃ h, read bytes pos stored.length now = .ok h ∧ h._fileName = name ∧ h.getCompressionMethod = method ∧
    h._compressedSize = stored.length ∧ 0 ≤ h.getDataStartPos ∧
    slice bytes h.getDataStartPos.toNat h._compressedSize = stored

/-- An entry is read back from an archive that holds its header, its data and its descriptor one behind
the other. -/
theorem Tells.readsBack {h : ZipLocalFileHeader} {stored desc : List UInt8} (ht : Tells h stored desc) (hs : h.Sound)
    (front back : List UInt8) :
    ReadsBack (front ++ (h.createHeader ++ stored ++ desc) ++ back) front.length h._fileName h.getCompressionMethod
      stored := by
  intro now
  set h₀ : ZipLocalFileHeader := { _startPos := front.length, _lastModifiedAt := now } with hh₀
  have hdrop : (front ++ (h.createHeader ++ stored ++ desc) ++ back).drop front.length =
      h.createHeader ++ (stored ++ (desc ++ back)) := by
    rw [List.append_assoc, List.drop_left]
    simp only [List.append_assoc]
  obtain ⟨dt, hparse⟩ := parse_createHeader hs h₀ (stored ++ (desc ++ back))
  obtain ⟨p, hp⟩ : ∃ p, p = ZipLocalFileHeader.parseExtra h._extraField.length h._extraField (scanned h₀ h dt) :=
    ⟨_, rfl⟩
  rw [← hp] at hparse
  have hframe := (parseExtra_frame h._extraField.length h._extraField (scanned h₀ h dt)).1
  obtain ⟨hstart, -, hname, hraw⟩ := scanned_frame h₀ h dt
  obtain ⟨hplain, hdesc⟩ := ht.parseExtra rfl dt hp
  have hsearch : p.searchCRCAndSizesAfterData = h.searchCRCAndSizesAfterData := by
    rw [searchCRCAndSizesAfterData, searchCRCAndSizesAfterData, hp, hframe.generalPurpose, hraw]
  have hsize : p.getHeaderSize = h.createHeader.length := by
    rw [hs.length_createHeader, getHeaderSize, getHeaderSize, hp, hframe.extraLength, hframe.fileLength, hraw]
  have hpos : p.getDataStartPos = front.length + h.createHeader.length := by
    rw [getDataStartPos, hsize, hp, hframe.startPos, hstart]
  have hslice : slice (front ++ (h.createHeader ++ stored ++ desc) ++ back) (front.length + h.createHeader.length)
      stored.length = stored := by
    rw [slice, ← List.drop_drop, hdrop, List.drop_left, List.take_left]
  have hfile : p._fileName = h._fileName := by rw [hp, hframe.fileName, hname]
  have hmethod : p.getCompressionMethod = h.getCompressionMethod := by
    rw [getCompressionMethod, getCompressionMethod, hp, hframe.comprMethod, hraw]
  have hnat : p.getDataStartPos.toNat = front.length + h.createHeader.length := by
    rw [hpos]
    omega
  rw [read, hdrop, hparse]
  cases hdata : h.searchCRCAndSizesAfterData with
  | false =>
      obtain ⟨-, hlen⟩ := hplain hdata
      refine ⟨{ p with _endPos := p._startPos + p.getHeaderSize + p._compressedSize }, ?_, hfile, hmethod, hlen,
        (hpos ▸ by omega : 0 ≤ p.getDataStartPos), ?_⟩
      · simp only [Bind.bind, Except.bind, hsearch, hdata]
        rfl
      · change slice _ p.getDataStartPos.toNat p._compressedSize = stored
        rw [hnat, hlen, hslice]
  | true =>
      obtain ⟨crc, usize, rfl, hfits⟩ := hdesc hdata
      have hread := ZipDataInfo.getCompressedSize_create hfits crc usize
      set nfo := ZipDataInfo.create p._forceZip64 crc stored.length usize with hnfo
      have hblock : ZipUtil.readBlock (ZipDataInfo.FULLHEADER_SIZE p._forceZip64) ((stored ++ (nfo ++ back)).drop
          stored.length) = (nfo, back) := by
        rw [List.drop_left]
        exact ZipUtil.readBlock_append (ZipDataInfo.length_create _ crc _ usize) back
      obtain ⟨q, hq⟩ : ∃ q, q = ((p.setCRC (ZipDataInfo.getCRC32 nfo)).setCompressedSize
        (ZipDataInfo.getCompressedSize p._forceZip64 nfo).toNat).setUncompressedSize
          (ZipDataInfo.getUncompressedSize p._forceZip64 nfo).toNat := ⟨_, rfl⟩
      obtain ⟨hsame, hval⟩ := setSizes_frame p (ZipDataInfo.getCRC32 nfo)
        (ZipDataInfo.getCompressedSize p._forceZip64 nfo).toNat (ZipDataInfo.getUncompressedSize p._forceZip64 nfo).toNat
      rw [← hq] at hsame hval
      have hlen : q._compressedSize = stored.length := hval.trans hread
      have hpos' : q.getDataStartPos = p.getDataStartPos := hsame.getDataStartPos
      refine ⟨{ q with _endPos := q._startPos + q.getHeaderSize + q._compressedSize }, ?_, hsame.fileName.trans hfile,
        hsame.getCompressionMethod.trans hmethod, hlen, ?_, ?_⟩
      · simp only [Bind.bind, Except.bind, hsearch, hdata, if_true, hblock, ← hq]
      · change 0 ≤ q.getDataStartPos
        rw [hpos', hpos]
        omega
      · change slice _ q.getDataStartPos.toNat q._compressedSize = stored
        rw [hpos', hnat, hlen, hslice]

/-! ### Changes that keep the text -/

/-- Everything but the flags, the method and the sizes is the same. -/
structure SameText (h h' : ZipLocalFileHeader) : Prop where
  forceZip64 : h'._forceZip64 = h._forceZip64
  startPos : h'._startPos = h._startPos
  fileName : h'._fileName = h._fileName
  extraField : h'._extraField = h._extraField
  fileLength : h'._rawHeader.fileLength = h._rawHeader.fileLength
  extraLength : h'._rawHeader.extraField = h._rawHeader.extraField
  hostSystem : h'._rawHeader.hostSystem = h._rawHeader.hostSystem
  version : h'._rawHeader.version = h._rawHeader.version

theorem SameText.sound {h h' : ZipLocalFileHeader} (ht : SameText h h') (hs : h.Sound) : h'.Sound where
  fileLength := by rw [ht.fileLength, ht.fileName, hs.fileLength]
  extraField := by rw [ht.extraLength, ht.extraField, hs.extraField]
  hostSystem := by
    rw [ht.hostSystem]
    exact hs.hostSystem
  version := by
    rw [RawHeader.majorVersion, ht.version]
    exact hs.version

theorem SameText.getHeaderSize {h h' : ZipLocalFileHeader} (ht : SameText h h') : h'.getHeaderSize = h.getHeaderSize := by
  rw [ZipLocalFileHeader.getHeaderSize, ZipLocalFileHeader.getHeaderSize, ht.extraLength, ht.fileLength]

theorem Sound.setZip64Data {h : ZipLocalFileHeader} (hs : h.Sound) : h.setZip64Data.Sound where
  fileLength := hs.fileLength
  extraField := rfl
  hostSystem := hs.hostSystem
  version := by
    change (UInt8.ofInt (4 * 10 + 5)).toBitVec.toInt.tdiv 10 ≤ 4
    decide

end ZipLocalFileHeader

end Poco.Zip
