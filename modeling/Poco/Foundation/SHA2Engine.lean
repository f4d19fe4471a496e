import Mathlib.Data.Nat.Basic
import Mathlib.Data.BitVec
import Poco.Lib.Bytes
import Poco.Lib.Blocks

/-! # `SHA2Engine`

An engine for the six hash functions of the SHA-2 family.  The source has one context for both word
sizes: `total` and `state` are unions of 32-bit and 64-bit words, of which an engine uses one member
only (by its algorithm), so that the two are kept apart here.  The code for the two word sizes is the
same up to the word size, the length of a block and the rotations; what is the same is written once,
for words of `w` bits. -/

namespace Poco.Foundation

namespace SHA2Engine

open Poco.Lib

/-- `ALGORITHM`. -/
inductive ALGORITHM
  | SHA_224
  | SHA_256
  | SHA_384
  | SHA_512
  | SHA_512_224
  | SHA_512_256
deriving DecidableEq, Repr

/-- The value of an enumerator. -/
def ALGORITHM.value : ALGORITHM → ℕ
  | .SHA_224 => 1
  | .SHA_256 => 2
  | .SHA_384 => 3
  | .SHA_512 => 4
  | .SHA_512_224 => 5
  | .SHA_512_256 => 6

/-- The members of one word size of the unions `total` and `state`. -/
structure Words (w : ℕ) where
  total : BitVec w × BitVec w
  state : List (BitVec w)
deriving DecidableEq, Repr

/-- `HASHCONTEXT`. -/
structure HASHCONTEXT where
  words32 : Words 32
  words64 : Words 64
  buffer : List UInt8
deriving DecidableEq, Repr

/-! ### Constants -/

/-- `K32`. -/
def K32 : List (BitVec 32) := [
    0x428A2F98, 0x71374491, 0xB5C0FBCF, 0xE9B5DBA5,
    0x3956C25B, 0x59F111F1, 0x923F82A4, 0xAB1C5ED5,
    0xD807AA98, 0x12835B01, 0x243185BE, 0x550C7DC3,
    0x72BE5D74, 0x80DEB1FE, 0x9BDC06A7, 0xC19BF174,
    0xE49B69C1, 0xEFBE4786, 0x0FC19DC6, 0x240CA1CC,
    0x2DE92C6F, 0x4A7484AA, 0x5CB0A9DC, 0x76F988DA,
    0x983E5152, 0xA831C66D, 0xB00327C8, 0xBF597FC7,
    0xC6E00BF3, 0xD5A79147, 0x06CA6351, 0x14292967,
    0x27B70A85, 0x2E1B2138, 0x4D2C6DFC, 0x53380D13,
    0x650A7354, 0x766A0ABB, 0x81C2C92E, 0x92722C85,
    0xA2BFE8A1, 0xA81A664B, 0xC24B8B70, 0xC76C51A3,
    0xD192E819, 0xD6990624, 0xF40E3585, 0x106AA070,
    0x19A4C116, 0x1E376C08, 0x2748774C, 0x34B0BCB5,
    0x391C0CB3, 0x4ED8AA4A, 0x5B9CCA4F, 0x682E6FF3,
    0x748F82EE, 0x78A5636F, 0x84C87814, 0x8CC70208,
    0x90BEFFFA, 0xA4506CEB, 0xBEF9A3F7, 0xC67178F2]

/-- `K64`. -/
def K64 : List (BitVec 64) := [
    0x428A2F98D728AE22, 0x7137449123EF65CD,
    0xB5C0FBCFEC4D3B2F, 0xE9B5DBA58189DBBC,
    0x3956C25BF348B538, 0x59F111F1B605D019,
    0x923F82A4AF194F9B, 0xAB1C5ED5DA6D8118,
    0xD807AA98A3030242, 0x12835B0145706FBE,
    0x243185BE4EE4B28C, 0x550C7DC3D5FFB4E2,
    0x72BE5D74F27B896F, 0x80DEB1FE3B1696B1,
    0x9BDC06A725C71235, 0xC19BF174CF692694,
    0xE49B69C19EF14AD2, 0xEFBE4786384F25E3,
    0x0FC19DC68B8CD5B5, 0x240CA1CC77AC9C65,
    0x2DE92C6F592B0275, 0x4A7484AA6EA6E483,
    0x5CB0A9DCBD41FBD4, 0x76F988DA831153B5,
    0x983E5152EE66DFAB, 0xA831C66D2DB43210,
    0xB00327C898FB213F, 0xBF597FC7BEEF0EE4,
    0xC6E00BF33DA88FC2, 0xD5A79147930AA725,
    0x06CA6351E003826F, 0x142929670A0E6E70,
    0x27B70A8546D22FFC, 0x2E1B21385C26C926,
    0x4D2C6DFC5AC42AED, 0x53380D139D95B3DF,
    0x650A73548BAF63DE, 0x766A0ABB3C77B2A8,
    0x81C2C92E47EDAEE6, 0x92722C851482353B,
    0xA2BFE8A14CF10364, 0xA81A664BBC423001,
    0xC24B8B70D0F89791, 0xC76C51A30654BE30,
    0xD192E819D6EF5218, 0xD69906245565A910,
    0xF40E35855771202A, 0x106AA07032BBD1B8,
    0x19A4C116B8D2D0C8, 0x1E376C085141AB53,
    0x2748774CDF8EEB99, 0x34B0BCB5E19B48A8,
    0x391C0CB3C5C95A63, 0x4ED8AA4AE3418ACB,
    0x5B9CCA4F7763E373, 0x682E6FF3D6B2B8A3,
    0x748F82EE5DEFB2FC, 0x78A5636F43172F60,
    0x84C87814A1F0AB72, 0x8CC702081A6439EC,
    0x90BEFFFA23631E28, 0xA4506CEBDE82BDE9,
    0xBEF9A3F7B2C67915, 0xC67178F2E372532B,
    0xCA273ECEEA26619C, 0xD186B8C721C0C207,
    0xEADA7DD6CDE0EB1E, 0xF57D4F7FEE6ED178,
    0x06F067AA72176FBA, 0x0A637DC5A2C898A6,
    0x113F9804BEF90DAE, 0x1B710B35131C471B,
    0x28DB77F523047D84, 0x32CAAB7B40C72493,
    0x3C9EBE0A15C9BEBC, 0x431D67C49C100D4C,
    0x4CC5D4BECB3E42B6, 0x597F299CFC657E2A,
    0x5FCB6FAB3AD6FAEC, 0x6C44198C4A475817]

/-- `padding`. -/
def padding : List UInt8 := 0x80 :: List.replicate 127 0

/-! ### Functions of words -/

/-- `SHR32`. -/
def SHR32 (x : BitVec 32) (n : ℕ) : BitVec 32 := (x &&& 0xFFFFFFFF) >>> n

/-- `SHR64`. -/
def SHR64 (x : BitVec 64) (n : ℕ) : BitVec 64 := x >>> n

/-- `ROTR32`. -/
def ROTR32 (x : BitVec 32) (n : ℕ) : BitVec 32 := SHR32 x n ||| x <<< (32 - n)

/-- `ROTR64`. -/
def ROTR64 (x : BitVec 64) (n : ℕ) : BitVec 64 := SHR64 x n ||| x <<< (64 - n)

/-- `S320`. -/
def S320 (x : BitVec 32) : BitVec 32 := ROTR32 x 7 ^^^ ROTR32 x 18 ^^^ SHR32 x 3

/-- `S321`. -/
def S321 (x : BitVec 32) : BitVec 32 := ROTR32 x 17 ^^^ ROTR32 x 19 ^^^ SHR32 x 10

/-- `S322`. -/
def S322 (x : BitVec 32) : BitVec 32 := ROTR32 x 2 ^^^ ROTR32 x 13 ^^^ ROTR32 x 22

/-- `S323`. -/
def S323 (x : BitVec 32) : BitVec 32 := ROTR32 x 6 ^^^ ROTR32 x 11 ^^^ ROTR32 x 25

/-- `S640`. -/
def S640 (x : BitVec 64) : BitVec 64 := ROTR64 x 1 ^^^ ROTR64 x 8 ^^^ SHR64 x 7

/-- `S641`. -/
def S641 (x : BitVec 64) : BitVec 64 := ROTR64 x 19 ^^^ ROTR64 x 61 ^^^ SHR64 x 6

/-- `S642`. -/
def S642 (x : BitVec 64) : BitVec 64 := ROTR64 x 28 ^^^ ROTR64 x 34 ^^^ ROTR64 x 39

/-- `S643`. -/
def S643 (x : BitVec 64) : BitVec 64 := ROTR64 x 14 ^^^ ROTR64 x 18 ^^^ ROTR64 x 41

variable {w : ℕ}

/-- `F320` and `F640`. -/
def F0 (x y z : BitVec w) : BitVec w := (x &&& y) ||| (z &&& (x ||| y))

/-- `F321` and `F641`. -/
def F1 (x y z : BitVec w) : BitVec w := z ^^^ (x &&& (y ^^^ z))

/-- `P32` and `P64`: the arguments `a` to `h` are places in `temp3`. -/
def P (S2 S3 : BitVec w → BitVec w) (temp3 : List (BitVec w)) (a b c d e f g h : ℕ) (x K : BitVec w) :
    List (BitVec w) :=
  let v := fun i => temp3.getD i 0
  let temp1 := v h + S3 (v e) + F1 (v e) (v f) (v g) + K + x
  let temp2 := S2 (v a) + F0 (v a) (v b) (v c)
  (temp3.set d (v d + temp1)).set h (temp1 + temp2)

/-- The right side of `R32`, and of the loop of `_sha512_process` that extends `W`. -/
def R (S0 S1 : BitVec w → BitVec w) (W : List (BitVec w)) (t : ℕ) : BitVec w :=
  S1 (W.getD (t - 2) 0) + W.getD (t - 7) 0 + S0 (W.getD (t - 15) 0) + W.getD (t - 16) 0

/-- A byte as a word. -/
def byteAt (w : ℕ) (b : List UInt8) (i : ℕ) : BitVec w := (b.getD i 0).toBitVec.setWidth w

/-- `GET_UINT32`. -/
def GET_UINT32 (b : List UInt8) (i : ℕ) : BitVec 32 :=
  byteAt 32 b i <<< 24 ||| byteAt 32 b (i + 1) <<< 16 ||| byteAt 32 b (i + 2) <<< 8 |||
    byteAt 32 b (i + 3)

/-- `GET_UINT64`. -/
def GET_UINT64 (b : List UInt8) (i : ℕ) : BitVec 64 :=
  byteAt 64 b i <<< 56 ||| byteAt 64 b (i + 1) <<< 48 ||| byteAt 64 b (i + 2) <<< 40 |||
    byteAt 64 b (i + 3) <<< 32 ||| byteAt 64 b (i + 4) <<< 24 ||| byteAt 64 b (i + 5) <<< 16 |||
    byteAt 64 b (i + 6) <<< 8 ||| byteAt 64 b (i + 7)

/-- `(unsigned char) (n >> s)`. -/
def byteOf (n : BitVec w) (s : ℕ) : UInt8 := UInt8.ofBitVec ((n >>> s).setWidth 8)

/-- `PUT_UINT32`: the bytes that are stored. -/
def PUT_UINT32 (n : BitVec 32) : List UInt8 := [byteOf n 24, byteOf n 16, byteOf n 8, byteOf n 0]

/-- `PUT_UINT64`: the bytes that are stored. -/
def PUT_UINT64 (n : BitVec 64) : List UInt8 :=
  [byteOf n 56, byteOf n 48, byteOf n 40, byteOf n 32, byteOf n 24, byteOf n 16, byteOf n 8, byteOf n 0]

/-! ### Blocks -/

/-- One line of the loops over `P32` and `P64`: `next` is what happens to `W` in the argument `x`. -/
def line (S2 S3 : BitVec w → BitVec w) (K : List (BitVec w)) (next : List (BitVec w) → List (BitVec w))
    (t a b c d e f g h : ℕ) (st : List (BitVec w) × List (BitVec w)) :
    List (BitVec w) × List (BitVec w) :=
  let W := next st.2
  (P S2 S3 st.1 a b c d e f g h (W.getD t 0) (K.getD t 0), W)

/-- The eight lines of a loop over `P32` or `P64`. -/
def lines (S2 S3 : BitVec w → BitVec w) (K : List (BitVec w)) (next : List (BitVec w) → List (BitVec w))
    (st : List (BitVec w) × List (BitVec w)) (i : ℕ) : List (BitVec w) × List (BitVec w) :=
  let st := line S2 S3 K next (i + 0) 0 1 2 3 4 5 6 7 st
  let st := line S2 S3 K next (i + 1) 7 0 1 2 3 4 5 6 st
  let st := line S2 S3 K next (i + 2) 6 7 0 1 2 3 4 5 st
  let st := line S2 S3 K next (i + 3) 5 6 7 0 1 2 3 4 st
  let st := line S2 S3 K next (i + 4) 4 5 6 7 0 1 2 3 st
  let st := line S2 S3 K next (i + 5) 3 4 5 6 7 0 1 2 st
  let st := line S2 S3 K next (i + 6) 2 3 4 5 6 7 0 1 st
  line S2 S3 K next (i + 7) 1 2 3 4 5 6 7 0 st

/-- The assignment to `W[t]` where `t` is the first place without a word. -/
def extend (S0 S1 : BitVec w → BitVec w) (W : List (BitVec w)) : List (BitVec w) :=
  W ++ [R S0 S1 W W.length]

/-- `_sha256_process`: the state behind the block. -/
def _sha256_process (state : List (BitVec 32)) (data : List UInt8) : List (BitVec 32) :=
  let W := (List.range 16).map fun i => GET_UINT32 data (4 * i)
  let st := [0, 8].foldl (lines S322 S323 K32 id) (state, W)
  let st := [16, 24, 32, 40, 48, 56].foldl (lines S322 S323 K32 (extend S320 S321)) st
  List.zipWith (· + ·) state st.1

/-- `_sha512_process`: the state behind the block. -/
def _sha512_process (state : List (BitVec 64)) (data : List UInt8) : List (BitVec 64) :=
  let W := (List.range 16).map fun i => GET_UINT64 data (i <<< 3)
  let W := (List.range' 16 64).foldl (fun W _ => extend S640 S641 W) W
  let st := [0, 8, 16, 24, 32, 40, 48, 56, 64, 72].foldl (lines S642 S643 K64 id) (state, W)
  List.zipWith (· + ·) state st.1

/-! ### The engine -/

/-- The members of `SHA2Engine` (the result of `digest` is returned). -/
structure Engine where
  _context : HASHCONTEXT
  _algorithm : ALGORITHM
deriving DecidableEq, Repr

/-- The two branches of `updateImpl`: `size` is the length of a block. -/
def updateWords (size : ℕ) (process : List (BitVec w) → List UInt8 → List (BitVec w)) (words : Words w)
    (buffer data : List UInt8) : Words w × List UInt8 :=
  let left := (words.total.1 &&& BitVec.ofNat w (size - 1)).toNat
  let fill := size - left
  let count := BitVec.ofNat w data.length
  let total0 := words.total.1 + count
  let total1 := if total0 < count then words.total.2 + 1 else words.total.2
  if left ≠ 0 ∧ fill ≤ data.length then
    let buffer := overwrite buffer left (data.take fill)
    let (state, data) := chain process size (process words.state (buffer.take size)) (data.drop fill)
    (⟨(total0, total1), state⟩, overwrite buffer 0 data)
  else
    let (state, data) := chain process size words.state data
    (⟨(total0, total1), state⟩, overwrite buffer left data)

/-- `updateImpl`. -/
def updateImpl (e : Engine) (buffer_ : List UInt8) : Engine :=
  if buffer_.length = 0 then e
  else if e._algorithm.value > ALGORITHM.SHA_256.value then
    let (words, buffer) := updateWords 128 _sha512_process e._context.words64 e._context.buffer buffer_
    { e with _context := { e._context with words64 := words, buffer := buffer } }
  else
    let (words, buffer) := updateWords 64 _sha256_process e._context.words32 e._context.buffer buffer_
    { e with _context := { e._context with words32 := words, buffer := buffer } }

/-- `digestLength`. -/
def digestLength : ALGORITHM → ℕ
  | .SHA_224 => 224 / 8
  | .SHA_256 => 256 / 8
  | .SHA_384 => 384 / 8
  | .SHA_512 => 512 / 8
  | .SHA_512_224 => 224 / 8
  | .SHA_512_256 => 256 / 8

/-- The words that `reset` puts into `state32`. -/
def initial32 : ALGORITHM → List (BitVec 32)
  | .SHA_224 => [
      0xC1059ED8, 0x367CD507, 0x3070DD17, 0xF70E5939,
      0xFFC00B31, 0x68581511, 0x64F98FA7, 0xBEFA4FA4]
  | .SHA_256 => [
      0x6A09E667, 0xBB67AE85, 0x3C6EF372, 0xA54FF53A,
      0x510E527F, 0x9B05688C, 0x1F83D9AB, 0x5BE0CD19]
  | _ => List.replicate 8 0

/-- The words that `reset` puts into `state64`. -/
def initial64 : ALGORITHM → List (BitVec 64)
  | .SHA_224 | .SHA_256 => List.replicate 8 0
  | .SHA_384 => [
      0xCBBB9D5DC1059ED8, 0x629A292A367CD507,
      0x9159015A3070DD17, 0x152FECD8F70E5939,
      0x67332667FFC00B31, 0x8EB44A8768581511,
      0xDB0C2E0D64F98FA7, 0x47B5481DBEFA4FA4]
  | .SHA_512 => [
      0x6A09E667F3BCC908, 0xBB67AE8584CAA73B,
      0x3C6EF372FE94F82B, 0xA54FF53A5F1D36F1,
      0x510E527FADE682D1, 0x9B05688C2B3E6C1F,
      0x1F83D9ABFB41BD6B, 0x5BE0CD19137E2179]
  | .SHA_512_224 => [
      0x8C3D37C819544DA2, 0x73E1996689DCD4D6,
      0x1DFAB7AE32FF9C82, 0x679DD514582F9FCF,
      0x0F6D2B697BD44DA8, 0x77E36F7304C48942,
      0x3F9D85A86A1D36C8, 0x1112E6AD91D692A1]
  | .SHA_512_256 => [
      0x22312194FC2BF72C, 0x9F555FA3C84C64C2,
      0x2393B86B6F53B151, 0x963877195940EABD,
      0x96283EE2A88EFFE3, 0xBE5E1E2553863992,
      0x2B0199FC2C85B8AA, 0x0EB72DDC81C52CA2]

/-- `reset`, which is also what the constructor does. -/
def reset (algorithm : ALGORITHM) : Engine where
  _algorithm := algorithm
  _context :=
    { words32 := ⟨(0, 0), initial32 algorithm⟩
      words64 := ⟨(0, 0), initial64 algorithm⟩
      buffer := List.replicate 128 0 }

/-- `high` and `low` in `digest`. -/
def bitCount (total : BitVec w × BitVec w) : BitVec w × BitVec w :=
  (total.1 >>> (w - 3) ||| total.2 <<< 3, total.1 <<< 3)

/-- `digest`: the result, and the engine behind the call. -/
def digest (e : Engine) : List UInt8 × Engine :=
  let hash :=
    if e._algorithm.value > ALGORITHM.SHA_256.value then
      let total := e._context.words64.total
      let (high, low) := bitCount total
      let msglen := PUT_UINT64 high ++ PUT_UINT64 low
      let last := (total.1 &&& 0x7F).toNat
      let padn := if last < 112 then 112 - last else 240 - last
      let e := updateImpl e (padding.take padn)
      let e := updateImpl e msglen
      let put := fun i => PUT_UINT64 (e._context.words64.state.getD i 0)
      [0, 1, 2, 3, 4, 5].flatMap put ++
        if e._algorithm.value > ALGORITHM.SHA_384.value then [6, 7].flatMap put else List.replicate 16 0
    else
      let total := e._context.words32.total
      let (high, low) := bitCount total
      let msglen := PUT_UINT32 high ++ PUT_UINT32 low
      let last := (total.1 &&& 0x3F).toNat
      let padn := if last < 56 then 56 - last else 120 - last
      let e := updateImpl e (padding.take padn)
      let e := updateImpl e msglen
      let put := fun i => PUT_UINT32 (e._context.words32.state.getD i 0)
      [0, 1, 2, 3, 4, 5, 6].flatMap put ++
        (if e._algorithm.value > ALGORITHM.SHA_224.value then put 7 else List.replicate 4 0) ++
        List.replicate 32 0
  (hash.take (digestLength e._algorithm), reset e._algorithm)

end SHA2Engine

end Poco.Foundation
