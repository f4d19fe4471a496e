import Poco.Foundation.SHA2Correct
import Poco.Foundation.RFC2104

/-! # `HMACEngine`

A digest engine whose results depend on a key.  It works with any engine: the inner hash is begun when the
engine is reset, and `digest` computes the outer one with the same engine.

An engine `Implements` a hash function if `digest` returns the hash of what was given to `update`, in any
pieces, and leaves the engine as it was made.  The engines of the SHA-2 family do (`implements_sha2`), and
with such an engine `HMACEngine` implements the construction of the standard (`implements_hmac`), so that
it can be used again and itself be the engine of another one. -/

namespace Poco.Foundation

open RFC2104 (hmac effectiveKey padKey xorPad)

/-- The constants and the virtual functions of a `DigestEngine`; `create` is what the constructor makes. -/
structure DigestEngine (ε : Type) where
  BLOCK_SIZE : ℕ
  DIGEST_SIZE : ℕ
  create : ε
  update : ε → List UInt8 → ε
  digest : ε → List UInt8 × ε
  reset : ε → ε

namespace DigestEngine

variable {ε : Type}

/-- The engine computes `H` for texts in pieces that are shorter than `short`. -/
structure Implements (E : DigestEngine ε) (H : List UInt8 → List UInt8) (short : ℕ) : Prop where
  digest_foldl : ∀ chunks : List (List UInt8), (∀ c ∈ chunks, c.length < short) →
    E.digest (chunks.foldl E.update E.create) = (H chunks.flatten, E.create)
  reset_foldl : ∀ chunks : List (List UInt8), E.reset (chunks.foldl E.update E.create) = E.create
  length_hash : ∀ m, (H m).length = E.DIGEST_SIZE
  block_lt : E.BLOCK_SIZE < short
  digest_lt : E.DIGEST_SIZE < short

theorem Implements.digest_update {E : DigestEngine ε} {H : List UInt8 → List UInt8} {short : ℕ}
    (h : E.Implements H short) {m : List UInt8} (hm : m.length < short) :
    E.digest (E.update E.create m) = (H m, E.create) := by
  have hone := h.digest_foldl [m] (List.forall_mem_singleton.mpr hm)
  rwa [List.flatten_singleton] at hone

theorem Implements.reset_create {E : DigestEngine ε} {H : List UInt8 → List UInt8} {short : ℕ}
    (h : E.Implements H short) : E.reset E.create = E.create := h.reset_foldl []

end DigestEngine

/-! ### The SHA-2 engines -/

namespace SHA2Engine

/-- `SHA2Engine224`, `SHA2Engine256`, `SHA2Engine384` and `SHA2Engine512`. -/
def engine (algorithm : ALGORITHM) : DigestEngine Engine where
  BLOCK_SIZE := if algorithm.value > ALGORITHM.SHA_256.value then 128 else 64
  DIGEST_SIZE := digestLength algorithm
  create := reset algorithm
  update := updateImpl
  digest := digest
  reset e := reset e._algorithm

theorem length_hash (algorithm : ALGORITHM) (m : List UInt8) : (hash algorithm m).length = digestLength algorithm := by
  cases algorithm <;> simp [hash, FIPS180.sha224, FIPS180.sha256, FIPS180.sha384, FIPS180.sha512, FIPS180.sha512_224,
    FIPS180.sha512_256, length_bytes, digestLength]

theorem foldl_updateImpl_algorithm (chunks : List (List UInt8)) (e : Engine) :
    (chunks.foldl updateImpl e)._algorithm = e._algorithm := by
  induction chunks generalizing e with
  | nil => rfl
  | cons c chunks ih => rw [List.foldl_cons, ih, updateImpl_algorithm]

theorem implements_sha2 (algorithm : ALGORITHM) : (engine algorithm).Implements (hash algorithm) (2 ^ 32) where
  digest_foldl chunks hchunks := by
    have hseen := (seen_reset algorithm).foldl chunks
    rw [List.nil_append, Nat.zero_add, counted_eq algorithm hchunks] at hseen
    exact hseen.digest_eq
  reset_foldl chunks := by
    show reset (chunks.foldl updateImpl (reset algorithm))._algorithm = reset algorithm
    rw [foldl_updateImpl_algorithm]
    rfl
  length_hash := length_hash algorithm
  block_lt := by cases algorithm <;> decide
  digest_lt := by cases algorithm <;> decide

theorem digest_le_block (algorithm : ALGORITHM) : (engine algorithm).DIGEST_SIZE ≤ (engine algorithm).BLOCK_SIZE := by
  cases algorithm <;> decide

end SHA2Engine

/-! ### `HMACEngine` -/

/-- The members of `HMACEngine`. -/
structure HMACEngine (ε : Type) where
  _engine : ε
  _ipad : List UInt8
  _opad : List UInt8

namespace HMACEngine

variable {ε : Type} (E : DigestEngine ε)

/-- `reset`. -/
def reset (h : HMACEngine ε) : HMACEngine ε := { h with _engine := E.update (E.reset h._engine) h._ipad }

/-- `init`, which the constructors call: the pads are zeros with the key, or its digest, at their beginning. -/
def init (passphrase : List UInt8) : HMACEngine ε :=
  let zeros := List.replicate E.BLOCK_SIZE (0 : UInt8)
  let (pad, engine) :=
    if passphrase.length > E.BLOCK_SIZE then
      let (d, engine) := E.digest (E.update (E.reset E.create) passphrase)
      let key := d.take E.BLOCK_SIZE
      (key ++ zeros.drop key.length, engine)
    else (passphrase ++ zeros.drop passphrase.length, E.create)
  reset E { _engine := engine, _ipad := pad.map (· ^^^ 0x36), _opad := pad.map (· ^^^ 0x5c) }

/-- `updateImpl`. -/
def updateImpl (h : HMACEngine ε) (data : List UInt8) : HMACEngine ε := { h with _engine := E.update h._engine data }

/-- `digest`. -/
def digest (h : HMACEngine ε) : List UInt8 × HMACEngine ε :=
  let (db, engine) := E.digest h._engine
  let engine := E.reset engine
  let engine := E.update engine h._opad
  let engine := E.update engine db
  let (result, engine) := E.digest engine
  (result, reset E { h with _engine := engine })

/-- `HMACEngine<Engine>` with a key. -/
def engine (passphrase : List UInt8) : DigestEngine (HMACEngine ε) where
  BLOCK_SIZE := E.BLOCK_SIZE
  DIGEST_SIZE := E.DIGEST_SIZE
  create := init E passphrase
  update := updateImpl E
  digest := digest E
  reset := reset E

variable {E} {H : List UInt8 → List UInt8} {short : ℕ}

theorem drop_zeros (B : ℕ) (K : List UInt8) :
    K ++ (List.replicate B (0 : UInt8)).drop K.length = padKey B K := by
  rw [List.drop_replicate, padKey]

/-- The pads of a new engine are those of the standard. -/
theorem init_eq (h : E.Implements H short) (hfits : E.DIGEST_SIZE ≤ E.BLOCK_SIZE) {passphrase : List UInt8}
    (hkey : passphrase.length < short) :
    init E passphrase =
      { _engine := E.update E.create (xorPad (effectiveKey H E.BLOCK_SIZE passphrase) 0x36)
        _ipad := xorPad (effectiveKey H E.BLOCK_SIZE passphrase) 0x36
        _opad := xorPad (effectiveKey H E.BLOCK_SIZE passphrase) 0x5c } := by
  unfold init effectiveKey
  by_cases hlong : passphrase.length > E.BLOCK_SIZE
  · have hdigest := h.digest_update hkey
    have htake : (H passphrase).take E.BLOCK_SIZE = H passphrase :=
      List.take_of_length_le ((h.length_hash passphrase).trans_le hfits)
    simp only [if_pos hlong, h.reset_create, hdigest, htake, drop_zeros]
    rw [reset, h.reset_create]
    rfl
  · simp only [if_neg hlong, drop_zeros]
    rw [reset, h.reset_create]
    rfl

theorem foldl_updateImpl (h : HMACEngine ε) (chunks : List (List UInt8)) :
    chunks.foldl (updateImpl E) h = { h with _engine := chunks.foldl E.update h._engine } := by
  induction chunks generalizing h with
  | nil => rfl
  | cons c chunks ih => rw [List.foldl_cons, ih, updateImpl, List.foldl_cons]

theorem length_effectiveKey (h : E.Implements H short) (hfits : E.DIGEST_SIZE ≤ E.BLOCK_SIZE) (K : List UInt8) :
    (effectiveKey H E.BLOCK_SIZE K).length = E.BLOCK_SIZE := by
  have hlen := h.length_hash K
  rw [effectiveKey, padKey, List.length_append, List.length_replicate]
  split_ifs <;> omega

/-- **Main result.** With an engine that implements a hash function, `HMACEngine` implements the keyed hash
function of the standard. -/
theorem implements_hmac (h : E.Implements H short) (hfits : E.DIGEST_SIZE ≤ E.BLOCK_SIZE) {passphrase : List UInt8}
    (hkey : passphrase.length < short) :
    (engine E passphrase).Implements (hmac H E.BLOCK_SIZE passphrase) short where
  digest_foldl chunks hchunks := by
    have hlen (pad : UInt8) : (xorPad (effectiveKey H E.BLOCK_SIZE passphrase) pad).length < short := by
      rw [xorPad, List.length_map, length_effectiveKey h hfits]
      exact h.block_lt
    have hinner := h.digest_foldl (xorPad (effectiveKey H E.BLOCK_SIZE passphrase) 0x36 :: chunks)
      (List.forall_mem_cons.mpr ⟨hlen _, hchunks⟩)
    have houter := h.digest_foldl [xorPad (effectiveKey H E.BLOCK_SIZE passphrase) 0x5c,
      H (xorPad (effectiveKey H E.BLOCK_SIZE passphrase) 0x36 ++ chunks.flatten)] (by
        simp only [List.forall_mem_cons]
        exact ⟨hlen _, (h.length_hash _).trans_lt h.digest_lt, by simp⟩)
    rw [List.foldl_cons, List.flatten_cons] at hinner
    show digest E (chunks.foldl (updateImpl E) (init E passphrase)) = _
    rw [init_eq h hfits hkey, foldl_updateImpl]
    simp only [List.foldl_cons, List.foldl_nil, List.flatten_cons, List.flatten_nil, List.append_nil] at houter
    simp only [digest, hinner, h.reset_create, houter, reset]
    show (_, _) = (_, init E passphrase)
    rw [init_eq h hfits hkey]
    rfl
  reset_foldl chunks := by
    have hreset := h.reset_foldl (xorPad (effectiveKey H E.BLOCK_SIZE passphrase) 0x36 :: chunks)
    rw [List.foldl_cons] at hreset
    show reset E (chunks.foldl (updateImpl E) (init E passphrase)) = init E passphrase
    rw [init_eq h hfits hkey, foldl_updateImpl]
    simp only [reset, hreset]
  length_hash m := h.length_hash _
  block_lt := h.block_lt
  digest_lt := h.digest_lt

/-- **Main result.** With an engine of the SHA-2 family, `digest` gives the keyed hash of the text that was given in
pieces, and it and `reset` leave the engine as the constructor made it. -/
theorem digest_eq_hmac (algorithm : SHA2Engine.ALGORITHM) {passphrase : List UInt8} (hkey : passphrase.length < 2 ^ 32)
    {chunks : List (List UInt8)} (hchunks : ∀ c ∈ chunks, c.length < 2 ^ 32) :
    digest (SHA2Engine.engine algorithm)
        (chunks.foldl (updateImpl (SHA2Engine.engine algorithm)) (init (SHA2Engine.engine algorithm) passphrase)) =
      (hmac (SHA2Engine.hash algorithm) (SHA2Engine.engine algorithm).BLOCK_SIZE passphrase chunks.flatten,
        init (SHA2Engine.engine algorithm) passphrase) ∧
    reset (SHA2Engine.engine algorithm)
        (chunks.foldl (updateImpl (SHA2Engine.engine algorithm)) (init (SHA2Engine.engine algorithm) passphrase)) =
      init (SHA2Engine.engine algorithm) passphrase := by
  have himpl := implements_hmac (SHA2Engine.implements_sha2 algorithm) (SHA2Engine.digest_le_block algorithm) hkey
  exact ⟨himpl.digest_foldl chunks hchunks, himpl.reset_foldl chunks⟩

/-- A key of four bytes and a text in two pieces. -/
theorem digest_eq_hmac_pieces :
    digest (SHA2Engine.engine .SHA_256)
        ([[0x77, 0x68], [0x61, 0x74]].foldl (updateImpl (SHA2Engine.engine .SHA_256))
          (init (SHA2Engine.engine .SHA_256) [0x4a, 0x65, 0x66, 0x65])) =
      (hmac (SHA2Engine.hash .SHA_256) 64 [0x4a, 0x65, 0x66, 0x65] [0x77, 0x68, 0x61, 0x74],
        init (SHA2Engine.engine .SHA_256) [0x4a, 0x65, 0x66, 0x65]) ∧
    reset (SHA2Engine.engine .SHA_256)
        ([[0x77, 0x68], [0x61, 0x74]].foldl (updateImpl (SHA2Engine.engine .SHA_256))
          (init (SHA2Engine.engine .SHA_256) [0x4a, 0x65, 0x66, 0x65])) =
      init (SHA2Engine.engine .SHA_256) [0x4a, 0x65, 0x66, 0x65] :=
  digest_eq_hmac .SHA_256 (by decide) (by decide)

end HMACEngine

end Poco.Foundation
