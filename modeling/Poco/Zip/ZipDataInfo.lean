import Poco.Lib.Bytes

/-! # Data descriptors

The size of the data of an entry may stand behind the data, in a descriptor of 16 bytes, or of 24 bytes
for Zip64.  `ZipUtil` reads and writes the fields of a header, the lowest byte first. -/

namespace Poco.Zip

namespace ZipUtil

/-- `get32BitValue`. -/
def get32BitValue (pVal : List UInt8) (pos : ℕ) : BitVec 32 :=
  (pVal.getD pos 0).toBitVec.setWidth 32 + ((pVal.getD (pos + 1) 0).toBitVec.setWidth 32 <<< 8) +
    ((pVal.getD (pos + 2) 0).toBitVec.setWidth 32 <<< 16) + ((pVal.getD (pos + 3) 0).toBitVec.setWidth 32 <<< 24)

/-- `get64BitValue`. -/
def get64BitValue (pVal : List UInt8) (pos : ℕ) : BitVec 64 :=
  ((get32BitValue pVal (pos + 4)).setWidth 64 <<< 32) ||| (get32BitValue pVal pos).setWidth 64

/-- `get16BitValue`. -/
def get16BitValue (pVal : List UInt8) (pos : ℕ) : BitVec 16 :=
  (pVal.getD pos 0).toBitVec.setWidth 16 + ((pVal.getD (pos + 1) 0).toBitVec.setWidth 16 <<< 8)

/-- The bytes that `set16BitValue` writes. -/
def set16BitValue (val : BitVec 16) : List UInt8 :=
  [UInt8.ofBitVec (val.setWidth 8), UInt8.ofBitVec ((val >>> 8).setWidth 8)]

/-- The bytes that `set32BitValue` writes. -/
def set32BitValue (val : BitVec 32) : List UInt8 :=
  [UInt8.ofBitVec (val.setWidth 8), UInt8.ofBitVec ((val >>> 8).setWidth 8),
    UInt8.ofBitVec ((val >>> 16).setWidth 8), UInt8.ofBitVec ((val >>> 24).setWidth 8)]

/-- The bytes that `set64BitValue` writes. -/
def set64BitValue (val : BitVec 64) : List UInt8 :=
  [UInt8.ofBitVec (val.setWidth 8), UInt8.ofBitVec ((val >>> 8).setWidth 8),
    UInt8.ofBitVec ((val >>> 16).setWidth 8), UInt8.ofBitVec ((val >>> 24).setWidth 8),
    UInt8.ofBitVec ((val >>> 32).setWidth 8), UInt8.ofBitVec ((val >>> 40).setWidth 8),
    UInt8.ofBitVec ((val >>> 48).setWidth 8), UInt8.ofBitVec ((val >>> 56).setWidth 8)]

/-! ### A field is read back -/

@[simp] theorem length_set16BitValue (val : BitVec 16) : (set16BitValue val).length = 2 := rfl

@[simp] theorem length_set32BitValue (val : BitVec 32) : (set32BitValue val).length = 4 := rfl

@[simp] theorem length_set64BitValue (val : BitVec 64) : (set64BitValue val).length = 8 := rfl

theorem get16BitValue_append (front bytes : List UInt8) (pos : ℕ) :
    get16BitValue (front ++ bytes) (front.length + pos) = get16BitValue bytes pos := by
  simp [get16BitValue, List.getD_eq_getElem?_getD, List.getElem?_append_right, Nat.add_assoc]

theorem get32BitValue_append (front bytes : List UInt8) (pos : ℕ) :
    get32BitValue (front ++ bytes) (front.length + pos) = get32BitValue bytes pos := by
  simp [get32BitValue, List.getD_eq_getElem?_getD, List.getElem?_append_right, Nat.add_assoc]

theorem get64BitValue_append (front bytes : List UInt8) (pos : ℕ) :
    get64BitValue (front ++ bytes) (front.length + pos) = get64BitValue bytes pos := by
  rw [get64BitValue, get64BitValue, Nat.add_assoc, get32BitValue_append, get32BitValue_append]

theorem get16BitValue_set (val : BitVec 16) (rest : List UInt8) :
    get16BitValue (set16BitValue val ++ rest) 0 = val := by
  apply BitVec.eq_of_toNat_eq
  have hlt := val.isLt
  simp only [get16BitValue, set16BitValue, List.cons_append, List.nil_append, List.getD_cons_zero,
    List.getD_cons_succ, Nat.zero_add, BitVec.toNat_add, BitVec.toNat_shiftLeft, BitVec.toNat_setWidth,
    BitVec.toNat_ushiftRight, Nat.shiftLeft_eq, Nat.shiftRight_eq_div_pow]
  omega

theorem get32BitValue_set (val : BitVec 32) (rest : List UInt8) :
    get32BitValue (set32BitValue val ++ rest) 0 = val := by
  apply BitVec.eq_of_toNat_eq
  have hlt := val.isLt
  simp only [get32BitValue, set32BitValue, List.cons_append, List.nil_append, List.getD_cons_zero,
    List.getD_cons_succ, Nat.zero_add, BitVec.toNat_add, BitVec.toNat_shiftLeft, BitVec.toNat_setWidth,
    BitVec.toNat_ushiftRight, Nat.shiftLeft_eq, Nat.shiftRight_eq_div_pow]
  omega

theorem toNat_get64BitValue (pVal : List UInt8) (pos : ℕ) :
    (get64BitValue pVal pos).toNat =
      (get32BitValue pVal pos).toNat + 2 ^ 32 * (get32BitValue pVal (pos + 4)).toNat := by
  have hlow := (get32BitValue pVal pos).isLt
  have hhigh := (get32BitValue pVal (pos + 4)).isLt
  rw [get64BitValue, BitVec.toNat_or, BitVec.toNat_shiftLeft, BitVec.toNat_setWidth, BitVec.toNat_setWidth,
    Nat.shiftLeft_eq, Nat.mod_eq_of_lt (by omega), Nat.mod_eq_of_lt (by omega), Nat.mod_eq_of_lt (by omega),
    ← Nat.shiftLeft_eq, ← Nat.shiftLeft_add_eq_or_of_lt hlow, Nat.shiftLeft_eq]
  omega

theorem get64BitValue_set (val : BitVec 64) (rest : List UInt8) :
    get64BitValue (set64BitValue val ++ rest) 0 = val := by
  apply BitVec.eq_of_toNat_eq
  have hlt := val.isLt
  have hlow : (get32BitValue (set64BitValue val ++ rest) 0).toNat = val.toNat % 2 ^ 32 := by
    simp only [get32BitValue, set64BitValue, List.cons_append, List.nil_append, List.getD_cons_zero,
      List.getD_cons_succ, Nat.zero_add, BitVec.toNat_add, BitVec.toNat_shiftLeft, BitVec.toNat_setWidth,
      BitVec.toNat_ushiftRight, Nat.shiftLeft_eq, Nat.shiftRight_eq_div_pow]
    omega
  have hhigh : (get32BitValue (set64BitValue val ++ rest) (0 + 4)).toNat = val.toNat / 2 ^ 32 := by
    simp only [get32BitValue, set64BitValue, List.cons_append, List.nil_append, List.getD_cons_zero,
      List.getD_cons_succ, Nat.zero_add, BitVec.toNat_add, BitVec.toNat_shiftLeft, BitVec.toNat_setWidth,
      BitVec.toNat_ushiftRight, Nat.shiftLeft_eq, Nat.shiftRight_eq_div_pow]
    omega
  rw [toNat_get64BitValue, hlow, hhigh]
  omega

theorem get16BitValue_drop (bytes : List UInt8) (n : ℕ) : get16BitValue (bytes.drop n) 0 = get16BitValue bytes n := by
  simp [get16BitValue, List.getD_eq_getElem?_getD]

theorem get32BitValue_drop (bytes : List UInt8) (n : ℕ) : get32BitValue (bytes.drop n) 0 = get32BitValue bytes n := by
  simp [get32BitValue, List.getD_eq_getElem?_getD]

end ZipUtil

/-- `ZipCommon::HEADER_SIZE`. -/
def HEADER_SIZE : ℕ := 4

namespace ZipDataInfo

/-- `HEADER`. -/
def HEADER : List UInt8 := [0x50, 0x4b, 0x07, 0x08]

def CRC32_SIZE : ℕ := 4

/-- `COMPRESSED_SIZE`, which is also `UNCOMPRESSED_SIZE`. -/
def COMPRESSED_SIZE (zip64 : Bool) : ℕ := if zip64 then 8 else 4

def COMPRESSED_POS : ℕ := HEADER_SIZE + CRC32_SIZE

def CRC32_POS : ℕ := HEADER_SIZE

/-- `UNCOMPRESSED_POS`. -/
def UNCOMPRESSED_POS (zip64 : Bool) : ℕ := COMPRESSED_POS + COMPRESSED_SIZE zip64

/-- `FULLHEADER_SIZE`. -/
def FULLHEADER_SIZE (zip64 : Bool) : ℕ := COMPRESSED_POS + COMPRESSED_SIZE zip64 + COMPRESSED_SIZE zip64

/-- `getCompressedSize` of `ZipDataInfo` and `ZipDataInfo64`. -/
def getCompressedSize (zip64 : Bool) (_rawInfo : List UInt8) : BitVec 64 :=
  if zip64 then ZipUtil.get64BitValue _rawInfo COMPRESSED_POS
  else (ZipUtil.get32BitValue _rawInfo COMPRESSED_POS).setWidth 64

/-- `getCRC32`. -/
def getCRC32 (_rawInfo : List UInt8) : BitVec 32 := ZipUtil.get32BitValue _rawInfo CRC32_POS

/-- `getUncompressedSize` of `ZipDataInfo` and `ZipDataInfo64`. -/
def getUncompressedSize (zip64 : Bool) (_rawInfo : List UInt8) : BitVec 64 :=
  if zip64 then ZipUtil.get64BitValue _rawInfo (UNCOMPRESSED_POS zip64)
  else (ZipUtil.get32BitValue _rawInfo (UNCOMPRESSED_POS zip64)).setWidth 64

/-- The bytes of a `ZipDataInfo` or `ZipDataInfo64` with these fields. -/
def create (zip64 : Bool) (crc : BitVec 32) (compressedSize uncompressedSize : ℕ) : List UInt8 :=
  HEADER ++ ZipUtil.set32BitValue crc ++
    if zip64 then ZipUtil.set64BitValue (BitVec.ofNat 64 compressedSize) ++
      ZipUtil.set64BitValue (BitVec.ofNat 64 uncompressedSize)
    else ZipUtil.set32BitValue (BitVec.ofNat 32 compressedSize) ++
      ZipUtil.set32BitValue (BitVec.ofNat 32 uncompressedSize)

theorem length_create (zip64 : Bool) (crc : BitVec 32) (compressedSize uncompressedSize : ℕ) :
    (create zip64 crc compressedSize uncompressedSize).length = FULLHEADER_SIZE zip64 := by
  cases zip64 <;> rfl

theorem getCompressedSize_create {zip64 : Bool} {compressedSize : ℕ} (h : compressedSize < if zip64 then 2 ^ 64 else 2 ^ 32)
    (crc : BitVec 32) (uncompressedSize : ℕ) :
    (getCompressedSize zip64 (create zip64 crc compressedSize uncompressedSize)).toNat = compressedSize := by
  cases zip64 with
  | true =>
      have hread := ZipUtil.get64BitValue_append (HEADER ++ ZipUtil.set32BitValue crc)
        (ZipUtil.set64BitValue (BitVec.ofNat 64 compressedSize) ++ ZipUtil.set64BitValue (BitVec.ofNat 64 uncompressedSize)) 0
      rw [ZipUtil.get64BitValue_set] at hread
      have hfield : ZipUtil.get64BitValue (create true crc compressedSize uncompressedSize) COMPRESSED_POS =
          BitVec.ofNat 64 compressedSize := hread
      have hlt : compressedSize < 2 ^ 64 := h
      rw [getCompressedSize, if_pos rfl, hfield, BitVec.toNat_ofNat, Nat.mod_eq_of_lt hlt]
  | false =>
      have hread := ZipUtil.get32BitValue_append (HEADER ++ ZipUtil.set32BitValue crc)
        (ZipUtil.set32BitValue (BitVec.ofNat 32 compressedSize) ++ ZipUtil.set32BitValue (BitVec.ofNat 32 uncompressedSize)) 0
      rw [ZipUtil.get32BitValue_set] at hread
      have hfield : ZipUtil.get32BitValue (create false crc compressedSize uncompressedSize) COMPRESSED_POS =
          BitVec.ofNat 32 compressedSize := hread
      have hlt : compressedSize < 2 ^ 32 := h
      rw [getCompressedSize, if_neg Bool.false_ne_true, hfield, BitVec.toNat_setWidth, BitVec.toNat_ofNat]
      omega

end ZipDataInfo

end Poco.Zip
