import Poco.Foundation.HMACEngine

/-! # `PBKDF2Engine`

The key derivation function as a digest engine: the passphrase is given to `update`, and `digest` makes
blocks of the derived key until there are enough bytes.  The result stays in the engine, and later calls of
`digest` return it again, whatever is given to `update`, until the engine is reset. -/

namespace Poco.Foundation

open Poco.Lib

open RFC2104 (F U hmac pbkdf2 xorBytes)

/-- The members of `PBKDF2Engine`. -/
structure PBKDF2Engine where
  _p : List UInt8 := []
  _s : List UInt8
  _c : ℕ
  _dkLen : ℕ
  _result : List UInt8 := []
deriving DecidableEq, Repr

namespace PBKDF2Engine

variable {ε : Type} (PRF : List UInt8 → DigestEngine ε)

/-- `updateImpl`. -/
def updateImpl (b : PBKDF2Engine) (data : List UInt8) : PBKDF2Engine := { b with _p := b._p ++ data }

/-- `reset`. -/
def reset (b : PBKDF2Engine) : PBKDF2Engine := { b with _p := [], _result := [] }

/-- One round of the loop of `f`, for `up`, `ux` and `prf`. -/
def round (E : DigestEngine ε) (s : List UInt8 × List UInt8 × ε) : List UInt8 × List UInt8 × ε :=
  let (up, ux, prf) := s
  let prf := E.reset prf
  let prf := E.update prf up
  let (u, prf) := E.digest prf
  (u, List.zipWith (· ^^^ ·) ux u, prf)

/-- `f`: another block of the result. -/
def f (b : PBKDF2Engine) (i : ℕ) : PBKDF2Engine :=
  let E := PRF b._p
  let prf := E.update E.create b._s
  let prf := E.update prf (bigEndian 4 i)
  let (up, prf) := E.digest prf
  let (_, ux, _) := (List.range' 1 (b._c - 1)).foldl (fun s _ => round E s) (up, up, prf)
  { b with _result := b._result ++ ux }

/-- The loop of `digest`; each round adds a byte at least. -/
def digestLoop : ℕ → ℕ → PBKDF2Engine → PBKDF2Engine
  | 0, _, b => b
  | fuel + 1, i, b => if b._result.length < b._dkLen then digestLoop fuel ((i + 1) % 2 ^ 32) (f PRF b i) else b

/-- `resize` of a vector of bytes. -/
def resize (n : ℕ) (bytes : List UInt8) : List UInt8 := bytes.take n ++ List.replicate (n - bytes.length) 0

/-- `digest`. -/
def digest (b : PBKDF2Engine) : List UInt8 × PBKDF2Engine :=
  let b := digestLoop PRF b._dkLen 1 b
  let result := resize b._dkLen b._result
  (result, { b with _result := result })

variable {PRF} {H : List UInt8 → List UInt8} {short : ℕ} {b : PBKDF2Engine}

theorem foldl_round {E : DigestEngine ε} (h : E.Implements H short) (S : List UInt8) (i n : ℕ) :
    (List.range' 1 n).foldl (fun s _ => round E s) (U H S i 0, U H S i 0, E.create) =
      (U H S i n, (List.range' 1 n).foldl (fun T j => xorBytes T (U H S i j)) (U H S i 0), E.create) := by
  induction n with
  | zero => rfl
  | succ n ih =>
      have hlen : (U H S i n).length < short := by
        cases n with
        | zero => exact (h.length_hash _).trans_lt h.digest_lt
        | succ n => exact (h.length_hash _).trans_lt h.digest_lt
      rw [List.range'_concat, List.foldl_append, List.foldl_append, ih]
      simp only [List.foldl_cons, List.foldl_nil, round, h.reset_create, h.digest_update hlen]
      rw [Nat.one_mul, Nat.add_comm 1 n]
      rfl

theorem f_eq (h : (PRF b._p).Implements H short) (hsalt : b._s.length < short) (hfour : 4 < short) (i : ℕ) :
    f PRF b i = { b with _result := b._result ++ F H b._s b._c i } := by
  have hfirst := h.digest_foldl [b._s, bigEndian 4 i] (by simpa using ⟨hsalt, hfour⟩)
  simp only [List.foldl_cons, List.foldl_nil, List.flatten_cons, List.flatten_nil, List.append_nil] at hfirst
  have hrounds := foldl_round h b._s i (b._c - 1)
  have hzero : U H b._s i 0 = H (b._s ++ bigEndian 4 i) := rfl
  rw [← hzero] at hfirst
  simp only [f, hfirst, hrounds]
  rfl

theorem length_F {E : DigestEngine ε} (h : E.Implements H short) (S : List UInt8) (c i : ℕ) :
    (F H S c i).length = E.DIGEST_SIZE := by
  have hU (j : ℕ) : (U H S i j).length = E.DIGEST_SIZE := by
    cases j with
    | zero => exact h.length_hash _
    | succ j => exact h.length_hash _
  have hfold (js : List ℕ) (T : List UInt8) (hT : T.length = E.DIGEST_SIZE) :
      (js.foldl (fun T j => xorBytes T (U H S i j)) T).length = E.DIGEST_SIZE := by
    induction js generalizing T with
    | nil => exact hT
    | cons j js ih =>
        refine ih _ ?_
        show (List.zipWith _ T (U H S i j)).length = _
        rw [List.length_zipWith, hT, hU, Nat.min_self]
  exact hfold _ _ (hU 0)

/-- The first blocks of the derived key. -/
def blocks (H : List UInt8 → List UInt8) (S : List UInt8) (c n : ℕ) : List UInt8 :=
  (List.range' 1 n).flatMap fun i => F H S c i

theorem blocks_succ (S : List UInt8) (c n : ℕ) : blocks H S c (n + 1) = blocks H S c n ++ F H S c (n + 1) := by
  rw [blocks, blocks, List.range'_concat, List.flatMap_append, List.flatMap_singleton, Nat.one_mul, Nat.add_comm 1 n]

theorem length_blocks {E : DigestEngine ε} (h : E.Implements H short) (S : List UInt8) (c n : ℕ) :
    (blocks H S c n).length = n * E.DIGEST_SIZE := by
  induction n with
  | zero => simp [blocks]
  | succ n ih => rw [blocks_succ, List.length_append, ih, length_F h, Nat.succ_mul]

/-- How many blocks are made for so many bytes: the last one is needed, and there is no need for another. -/
theorem count_spec {L dkLen k n : ℕ} (hpos : 0 < L) (hn : n = (dkLen + L - 1) / L) :
    (k * L < dkLen → k + 1 ≤ n) ∧ (dkLen ≤ k * L → n ≤ k) := by
  subst hn
  constructor
  · intro hlt
    rw [Nat.le_div_iff_mul_le hpos, Nat.succ_mul]
    omega
  · intro hle
    rw [← Nat.lt_succ_iff, Nat.div_lt_iff_lt_mul hpos, Nat.succ_mul]
    omega

/-- The loop ends with the first block with which there are enough bytes. -/
theorem digestLoop_eq {L n : ℕ} (h : (PRF b._p).Implements H short) (hsalt : b._s.length < short) (hfour : 4 < short)
    (hL : (PRF b._p).DIGEST_SIZE = L) (hpos : 0 < L) (hdkLen : b._dkLen < 2 ^ 32)
    (hn : n = (b._dkLen + L - 1) / L) {fuel i k : ℕ} (hk : k ≤ n) (hi : k * L < b._dkLen → i = k + 1)
    (hfuel : b._dkLen ≤ fuel + k * L) (hresult : b._result = blocks H b._s b._c k) :
    digestLoop PRF fuel i b = { b with _result := blocks H b._s b._c n } := by
  induction fuel generalizing i k b with
  | zero =>
      obtain rfl : n = k := Nat.le_antisymm ((count_spec hpos hn).2 (by omega)) hk
      rw [digestLoop, ← hresult]
  | succ fuel ih =>
      have hlen : b._result.length = k * L := by rw [hresult, length_blocks h, hL]
      rw [digestLoop, hlen]
      split_ifs with hmore
      · obtain rfl := hi hmore
        have hmul : (k + 1) * L = k * L + L := Nat.succ_mul k L
        have hsmall : k + 1 ≤ (k + 1) * L := Nat.le_mul_of_pos_right (k + 1) hpos
        rw [f_eq h hsalt hfour, hresult, ← blocks_succ]
        -- the counter does not wrap around while there are bytes to come
        refine ih (b := { b with _result := blocks H b._s b._c (k + 1) }) h hsalt hL hdkLen hn
          ((count_spec hpos hn).1 hmore) (fun hlt => Nat.mod_eq_of_lt ?_) ?_ rfl
        · dsimp only at hlt
          omega
        · dsimp only
          omega
      · obtain rfl : n = k := Nat.le_antisymm ((count_spec hpos hn).2 (by omega)) hk
        rw [← hresult]

theorem resize_of_le {n : ℕ} {bytes : List UInt8} (h : n ≤ bytes.length) : resize n bytes = bytes.take n := by
  rw [resize, Nat.sub_eq_zero_of_le h, List.replicate_zero, List.append_nil]

/-- With a result that is complete nothing is computed. -/
theorem digest_complete (h : b._result.length = b._dkLen) : digest PRF b = (b._result, b) := by
  have hloop (fuel i : ℕ) : digestLoop PRF fuel i b = b := by
    cases fuel with
    | zero => rfl
    | succ fuel => rw [digestLoop, if_neg (by omega)]
  rw [digest, hloop]
  simp only [resize_of_le h.ge, List.take_of_length_le h.le]

theorem foldl_updateImpl (b : PBKDF2Engine) (pieces : List (List UInt8)) :
    pieces.foldl updateImpl b = { b with _p := b._p ++ pieces.flatten } := by
  induction pieces generalizing b with
  | nil => simp
  | cons m pieces ih => rw [List.foldl_cons, ih, updateImpl, List.flatten_cons, List.append_assoc]

/-- For any pseudorandom function, `digest` of a new engine gives the derived key. -/
theorem digest_new {K : List UInt8 → List UInt8} {L : ℕ} {salt p : List UInt8} {c dkLen : ℕ}
    (h : (PRF p).Implements K short) (hL : (PRF p).DIGEST_SIZE = L) (hpos : 0 < L) (hsalt : salt.length < short)
    (hfour : 4 < short) (hdkLen : dkLen < 2 ^ 32) :
    digest PRF { _p := p, _s := salt, _c := c, _dkLen := dkLen } =
        (pbkdf2 K L salt c dkLen, ⟨p, salt, c, dkLen, pbkdf2 K L salt c dkLen⟩) ∧
      (pbkdf2 K L salt c dkLen).length = dkLen := by
  have hloop : digestLoop PRF dkLen 1 ⟨p, salt, c, dkLen, []⟩ = _ :=
    digestLoop_eq h hsalt hfour hL hpos hdkLen rfl (Nat.zero_le _) (fun _ => rfl) (Nat.le_add_right dkLen _) rfl
  have hlen : dkLen ≤ (blocks K salt c ((dkLen + L - 1) / L)).length := by
    rw [length_blocks h, hL]
    by_contra hlt
    have hmore := (count_spec hpos rfl).1 (not_le.mp hlt)
    omega
  have hkey : pbkdf2 K L salt c dkLen = (blocks K salt c ((dkLen + L - 1) / L)).take dkLen := rfl
  refine ⟨?_, ?_⟩
  · simp only [digest, hloop, resize_of_le hlen, hkey]
  · rw [hkey, List.length_take_of_le hlen]

/-- **Main result.** With HMAC over an engine of the SHA-2 family, `digest` of a new engine gives the derived key of
the standard, for the passphrase that was given in pieces and for any key length.  It gives the same key again,
whatever is given to `update` before, until the engine is reset; then the engine is as the constructor made it. -/
theorem digest_eq_pbkdf2 (algorithm : SHA2Engine.ALGORITHM) {pieces : List (List UInt8)} {salt : List UInt8} (c : ℕ)
    {dkLen : ℕ} (hpieces : pieces.flatten.length < 2 ^ 32) (hsalt : salt.length < 2 ^ 32) (hdkLen : dkLen < 2 ^ 32) :
    let PRF := HMACEngine.engine (SHA2Engine.engine algorithm)
    let key := pbkdf2 (hmac (SHA2Engine.hash algorithm) (SHA2Engine.engine algorithm).BLOCK_SIZE pieces.flatten)
      (SHA2Engine.digestLength algorithm) salt c dkLen
    ∃ b, digest PRF (pieces.foldl updateImpl { _s := salt, _c := c, _dkLen := dkLen }) = (key, b) ∧
      key.length = dkLen ∧
      ∀ more : List (List UInt8), (digest PRF (more.foldl updateImpl b)).1 = key ∧
        reset (more.foldl updateImpl b) = { _s := salt, _c := c, _dkLen := dkLen } := by
  intro PRF key
  have himplements : (PRF pieces.flatten).Implements
      (hmac (SHA2Engine.hash algorithm) (SHA2Engine.engine algorithm).BLOCK_SIZE pieces.flatten) (2 ^ 32) :=
    HMACEngine.implements_hmac (SHA2Engine.implements_sha2 algorithm) (SHA2Engine.digest_le_block algorithm) hpieces
  have hpos : 0 < SHA2Engine.digestLength algorithm := by cases algorithm <;> decide
  obtain ⟨hdigest, hlen⟩ : digest PRF { _p := pieces.flatten, _s := salt, _c := c, _dkLen := dkLen } =
      (key, ⟨pieces.flatten, salt, c, dkLen, key⟩) ∧ key.length = dkLen :=
    digest_new himplements rfl hpos hsalt (by decide) hdkLen
  refine ⟨⟨pieces.flatten, salt, c, dkLen, key⟩, ?_, hlen, fun more => ⟨?_, ?_⟩⟩
  · rw [foldl_updateImpl]
    exact hdigest
  · rw [foldl_updateImpl, digest_complete hlen]
  · rw [foldl_updateImpl]
    rfl

/-- A key of forty bytes, which is not a number of full blocks. -/
theorem digest_eq_pbkdf2_forty :
    let PRF := HMACEngine.engine (SHA2Engine.engine .SHA_256)
    let key := pbkdf2 (hmac (SHA2Engine.hash .SHA_256) 64 [0x70, 0x77]) 32 [0x73] 2 40
    ∃ b, digest PRF ([[0x70], [0x77]].foldl updateImpl { _s := [0x73], _c := 2, _dkLen := 40 }) = (key, b) ∧
      key.length = 40 ∧
      ∀ more : List (List UInt8), (digest PRF (more.foldl updateImpl b)).1 = key ∧
        reset (more.foldl updateImpl b) = { _s := [0x73], _c := 2, _dkLen := 40 } :=
  digest_eq_pbkdf2 .SHA_256 2 (by decide) (by decide) (by decide)

end PBKDF2Engine

end Poco.Foundation
