import Mathlib.Data.Nat.NthRoot.Defs
import Mathlib.Data.BitVec
import Poco.Lib.Bytes
import Poco.Lib.Blocks

/-! # The Secure Hash Standard

The hash functions SHA-224 to SHA-512/256 of FIPS 180-4, for messages of whole bytes.  The words that
the standard lists in tables are given by the rules that it states beside them: the first bits of the
fractional parts of roots of primes, and for SHA-512/t the generation function for initial values. -/

namespace Poco.Foundation

namespace FIPS180

open Poco.Lib

variable {w : ℕ}

/-! ### Functions and constants (section 4) -/

/-- `Ch`. -/
def Ch (x y z : BitVec w) : BitVec w := (x &&& y) ^^^ (~~~x &&& z)

/-- `Maj`. -/
def Maj (x y z : BitVec w) : BitVec w := (x &&& y) ^^^ (x &&& z) ^^^ (y &&& z)

/-- The functions and constants of one word size. -/
structure Functions (w : ℕ) where
  Sigma0 : BitVec w → BitVec w
  Sigma1 : BitVec w → BitVec w
  sigma0 : BitVec w → BitVec w
  sigma1 : BitVec w → BitVec w
  K : List (BitVec w)

/-- The first eighty primes. -/
def primes : List ℕ := [
    2, 3, 5, 7, 11, 13, 17, 19, 23, 29, 31, 37, 41, 43, 47, 53,
    59, 61, 67, 71, 73, 79, 83, 89, 97, 101, 103, 107, 109, 113, 127, 131,
    137, 139, 149, 151, 157, 163, 167, 173, 179, 181, 191, 193, 197, 199, 211, 223,
    227, 229, 233, 239, 241, 251, 257, 263, 269, 271, 277, 281, 283, 293, 307, 311,
    313, 317, 331, 337, 347, 349, 353, 359, 367, 373, 379, 383, 389, 397, 401, 409]

/-- The first `w` bits of the fractional part of the `n`-th root of `p`. -/
def rootFraction (n w p : ℕ) : BitVec w := BitVec.ofNat w (Nat.nthRoot n (p * 2 ^ (n * w)))

/-- SHA-224 and SHA-256. -/
def functions32 : Functions 32 where
  Sigma0 x := x.rotateRight 2 ^^^ x.rotateRight 13 ^^^ x.rotateRight 22
  Sigma1 x := x.rotateRight 6 ^^^ x.rotateRight 11 ^^^ x.rotateRight 25
  sigma0 x := x.rotateRight 7 ^^^ x.rotateRight 18 ^^^ x >>> 3
  sigma1 x := x.rotateRight 17 ^^^ x.rotateRight 19 ^^^ x >>> 10
  K := (primes.take 64).map (rootFraction 3 32)

/-- SHA-384, SHA-512, SHA-512/224 and SHA-512/256. -/
def functions64 : Functions 64 where
  Sigma0 x := x.rotateRight 28 ^^^ x.rotateRight 34 ^^^ x.rotateRight 39
  Sigma1 x := x.rotateRight 14 ^^^ x.rotateRight 18 ^^^ x.rotateRight 41
  sigma0 x := x.rotateRight 1 ^^^ x.rotateRight 8 ^^^ x >>> 7
  sigma1 x := x.rotateRight 19 ^^^ x.rotateRight 61 ^^^ x >>> 6
  K := primes.map (rootFraction 3 64)

/-! ### Preprocessing (section 5) -/

/-- The padded message: a bit 1, zeros, and the length in bits, to whole blocks of `size` bytes; the
length has `len` bytes. -/
def pad (size len : ℕ) (m : List UInt8) : List UInt8 :=
  m ++ 0x80 :: List.replicate ((2 * size - len - 1 - m.length % size) % size) 0 ++
    bigEndian len (8 * m.length)

/-- Eight words: a hash value, or the working variables. -/
structure Eight (w : ℕ) where
  a : BitVec w
  b : BitVec w
  c : BitVec w
  d : BitVec w
  e : BitVec w
  f : BitVec w
  g : BitVec w
  h : BitVec w
deriving DecidableEq, Repr

/-- The words in order. -/
def Eight.toList (v : Eight w) : List (BitVec w) := [v.a, v.b, v.c, v.d, v.e, v.f, v.g, v.h]

/-- The first eight words of a list. -/
def Eight.ofList (l : List (BitVec w)) : Eight w :=
  ⟨l.getD 0 0, l.getD 1 0, l.getD 2 0, l.getD 3 0, l.getD 4 0, l.getD 5 0, l.getD 6 0, l.getD 7 0⟩

/-! ### Computation (section 6) -/

/-- The word `i` of a block. -/
def word (w : ℕ) (block : List UInt8) (i : ℕ) : BitVec w :=
  BitVec.ofNat w (ofBigEndian (slice block (w / 8 * i) (w / 8)))

/-- The message schedule of the words `M` of a block. -/
def schedule (F : Functions w) (M : ℕ → BitVec w) (t : ℕ) : BitVec w :=
  if t < 16 then M t
  else
    F.sigma1 (schedule F M (t - 2)) + schedule F M (t - 7) + F.sigma0 (schedule F M (t - 15)) +
      schedule F M (t - 16)

/-- One round, with the word `x` of the schedule and the constant `k`. -/
def round (F : Functions w) (x k : BitVec w) (v : Eight w) : Eight w :=
  let T1 := v.h + F.Sigma1 v.e + Ch v.e v.f v.g + k + x
  let T2 := F.Sigma0 v.a + Maj v.a v.b v.c
  ⟨T1 + T2, v.a, v.b, v.c, v.d + T1, v.e, v.f, v.g⟩

/-- The rounds `ts`. -/
def rounds (F : Functions w) (W : ℕ → BitVec w) (ts : List ℕ) (v : Eight w) : Eight w :=
  ts.foldl (fun v t => round F (W t) (F.K.getD t 0) v) v

/-- The next hash value. -/
def compress (F : Functions w) (H : Eight w) (block : List UInt8) : Eight w :=
  let v := rounds F (schedule F (word w block)) (List.range F.K.length) H
  ⟨H.a + v.a, H.b + v.b, H.c + v.c, H.d + v.d, H.e + v.e, H.f + v.f, H.g + v.g, H.h + v.h⟩

/-- The hash value behind the last block. -/
def value (F : Functions w) (H0 : Eight w) (m : List UInt8) : Eight w :=
  (blocks (2 * w) (pad (2 * w) (w / 4) m)).foldl (compress F) H0

/-- The bytes of a hash value. -/
def Eight.bytes (H : Eight w) : List UInt8 := H.toList.flatMap fun x => bigEndian (w / 8) x.toNat

/-! ### Initial hash values (section 5.3) -/

/-- SHA-256: the square roots of the first eight primes. -/
def H256 : Eight 32 := Eight.ofList (primes.map (rootFraction 2 32))

/-- SHA-384: the square roots of the ninth to the sixteenth prime. -/
def H384 : Eight 64 := Eight.ofList ((primes.drop 8).map (rootFraction 2 64))

/-- SHA-224: the second 32 bits of these roots. -/
def H224 : Eight 32 := Eight.ofList ((primes.drop 8).map fun p => (rootFraction 2 64 p).setWidth 32)

/-- SHA-512: the square roots of the first eight primes. -/
def H512 : Eight 64 := Eight.ofList (primes.map (rootFraction 2 64))

/-- The generation function for SHA-512/t; `name` is the text `SHA-512/t`. -/
def H512t (name : String) : Eight 64 :=
  value functions64 (Eight.ofList (H512.toList.map (· ^^^ 0xa5a5a5a5a5a5a5a5)))
    (name.toList.map Char.toUInt8)

/-! ### The hash functions -/

def sha224 (m : List UInt8) : List UInt8 := (value functions32 H224 m).bytes.take 28

def sha256 (m : List UInt8) : List UInt8 := (value functions32 H256 m).bytes

def sha384 (m : List UInt8) : List UInt8 := (value functions64 H384 m).bytes.take 48

def sha512 (m : List UInt8) : List UInt8 := (value functions64 H512 m).bytes

def sha512_224 (m : List UInt8) : List UInt8 :=
  (value functions64 (H512t "SHA-512/224") m).bytes.take 28

def sha512_256 (m : List UInt8) : List UInt8 :=
  (value functions64 (H512t "SHA-512/256") m).bytes.take 32

end FIPS180

end Poco.Foundation
