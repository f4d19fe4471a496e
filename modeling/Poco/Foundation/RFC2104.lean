import Poco.Lib.Bytes

/-! # Keyed hashing and key derivation, as their standards define them

`hmac` is the construction of RFC 2104 for a hash function with blocks of `B` bytes, and `pbkdf2` the key
derivation function of RFC 2898 for a pseudorandom function whose results have `hLen` bytes. -/

namespace Poco.Foundation.RFC2104

open Poco.Lib

/-- A key of at most `B` bytes, filled up with zeros. -/
def padKey (B : ℕ) (K : List UInt8) : List UInt8 := K ++ List.replicate (B - K.length) 0

/-- The key that is used: one that is longer than a block is hashed. -/
def effectiveKey (H : List UInt8 → List UInt8) (B : ℕ) (K : List UInt8) : List UInt8 :=
  padKey B (if K.length > B then H K else K)

/-- `K XOR pad`, for a pad of equal bytes. -/
def xorPad (K : List UInt8) (pad : UInt8) : List UInt8 := K.map (· ^^^ pad)

/-- `H(K XOR opad, H(K XOR ipad, text))`. -/
def hmac (H : List UInt8 → List UInt8) (B : ℕ) (K text : List UInt8) : List UInt8 :=
  H (xorPad (effectiveKey H B K) 0x5c ++ H (xorPad (effectiveKey H B K) 0x36 ++ text))

/-! ### RFC 2898 -/

/-- The exclusive or of two texts of the same length. -/
def xorBytes (a b : List UInt8) : List UInt8 := List.zipWith (· ^^^ ·) a b

/-- `U_(j + 1)` of the block with the number `i`. -/
def U (PRF : List UInt8 → List UInt8) (S : List UInt8) (i : ℕ) : ℕ → List UInt8
  | 0 => PRF (S ++ bigEndian 4 i)
  | j + 1 => PRF (U PRF S i j)

/-- `F`, the exclusive or of `U_1` to `U_c`. -/
def F (PRF : List UInt8 → List UInt8) (S : List UInt8) (c i : ℕ) : List UInt8 :=
  (List.range' 1 (c - 1)).foldl (fun T j => xorBytes T (U PRF S i j)) (U PRF S i 0)

/-- The first `dkLen` bytes of `T_1`, `T_2` and so on. -/
def pbkdf2 (PRF : List UInt8 → List UInt8) (hLen : ℕ) (S : List UInt8) (c dkLen : ℕ) : List UInt8 :=
  ((List.range' 1 ((dkLen + hLen - 1) / hLen)).flatMap fun i => F PRF S c i).take dkLen

end Poco.Foundation.RFC2104
