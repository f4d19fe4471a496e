import Poco.Foundation.SHA2Buffer
import Poco.Foundation.FIPS180
import Mathlib.Tactic.IntervalCases
import Mathlib.Data.List.Rotate
import Mathlib.Analysis.SpecialFunctions.Pow.NthRootLemmas

/-! # `SHA2Engine` computes the Secure Hash Standard

`_sha256_process` and `_sha512_process` are the compression functions of the standard
(`_sha256_process_eq`, `_sha512_process_eq`): eight lines of the loops are eight rounds, because each
line takes the working variables from places that are shifted by one, and `W` is the message schedule.
With the text that `digest` hashes and the constants of the standard, the engine computes the hash
functions of the standard (`digest_eq_hash`). -/

namespace Poco.Foundation

namespace SHA2Engine

open Poco.Lib FIPS180

variable {w : ℕ}

/-! ### Functions of words -/

theorem F0_eq (x y z : BitVec w) : F0 x y z = Maj x y z := by
  ext i hi
  simp only [F0, Maj, BitVec.getElem_or, BitVec.getElem_and, BitVec.getElem_xor]
  cases x[i] <;> cases y[i] <;> cases z[i] <;> rfl

theorem F1_eq (x y z : BitVec w) : F1 x y z = Ch x y z := by
  ext i hi
  simp only [F1, Ch, BitVec.getElem_not, BitVec.getElem_and, BitVec.getElem_xor]
  cases x[i] <;> cases y[i] <;> cases z[i] <;> rfl

theorem SHR32_eq (x : BitVec 32) (n : ℕ) : SHR32 x n = x >>> n := by
  have hmask : x &&& 0xFFFFFFFF = x := BitVec.and_allOnes
  rw [SHR32, hmask]

theorem ROTR32_eq (x : BitVec 32) {n : ℕ} (hn : n < 32) : ROTR32 x n = x.rotateRight n := by
  rw [ROTR32, SHR32_eq, BitVec.rotateRight_def, Nat.mod_eq_of_lt hn]

theorem ROTR64_eq (x : BitVec 64) {n : ℕ} (hn : n < 64) : ROTR64 x n = x.rotateRight n := by
  rw [ROTR64, SHR64, BitVec.rotateRight_def, Nat.mod_eq_of_lt hn]

theorem S320_eq : S320 = functions32.sigma0 := by
  funext x
  simp only [S320, ROTR32_eq x (show 7 < 32 by decide), ROTR32_eq x (show 18 < 32 by decide), SHR32_eq]
  rfl

theorem S321_eq : S321 = functions32.sigma1 := by
  funext x
  simp only [S321, ROTR32_eq x (show 17 < 32 by decide), ROTR32_eq x (show 19 < 32 by decide), SHR32_eq]
  rfl

theorem S322_eq : S322 = functions32.Sigma0 := by
  funext x
  simp only [S322, ROTR32_eq x (show 2 < 32 by decide), ROTR32_eq x (show 13 < 32 by decide),
    ROTR32_eq x (show 22 < 32 by decide)]
  rfl

theorem S323_eq : S323 = functions32.Sigma1 := by
  funext x
  simp only [S323, ROTR32_eq x (show 6 < 32 by decide), ROTR32_eq x (show 11 < 32 by decide),
    ROTR32_eq x (show 25 < 32 by decide)]
  rfl

theorem S640_eq : S640 = functions64.sigma0 := by
  funext x
  simp only [S640, ROTR64_eq x (show 1 < 64 by decide), ROTR64_eq x (show 8 < 64 by decide), SHR64]
  rfl

theorem S641_eq : S641 = functions64.sigma1 := by
  funext x
  simp only [S641, ROTR64_eq x (show 19 < 64 by decide), ROTR64_eq x (show 61 < 64 by decide), SHR64]
  rfl

theorem S642_eq : S642 = functions64.Sigma0 := by
  funext x
  simp only [S642, ROTR64_eq x (show 28 < 64 by decide), ROTR64_eq x (show 34 < 64 by decide),
    ROTR64_eq x (show 39 < 64 by decide)]
  rfl

theorem S643_eq : S643 = functions64.Sigma1 := by
  funext x
  simp only [S643, ROTR64_eq x (show 14 < 64 by decide), ROTR64_eq x (show 18 < 64 by decide),
    ROTR64_eq x (show 41 < 64 by decide)]
  rfl

/-! ### Words of a block -/

theorem ofNat_mul_add (hw : 8 ≤ w) (n : ℕ) (b : UInt8) :
    BitVec.ofNat w (n * 256 + b.toNat) = BitVec.ofNat w n <<< 8 ||| b.toBitVec.setWidth w := by
  obtain ⟨v, rfl⟩ := Nat.exists_eq_add_of_le' hw
  have hb : b.toBitVec.toNat < 2 ^ 8 := b.toBitVec.isLt
  have hpow : 2 ^ (v + 8) = 2 ^ v * 2 ^ 8 := Nat.pow_add 2 v 8
  have hpos : 0 < 2 ^ v := Nat.two_pow_pos v
  have hlow : n % 2 ^ v < 2 ^ v := Nat.mod_lt _ hpos
  have hmul : n * 2 ^ 8 + b.toBitVec.toNat =
      n % 2 ^ v * 2 ^ 8 + b.toBitVec.toNat + 2 ^ v * 2 ^ 8 * (n / 2 ^ v) := by
    conv_lhs => rw [← Nat.mod_add_div n (2 ^ v)]
    ring
  have hmod : n % (2 ^ v * 2 ^ 8) * 2 ^ 8 % (2 ^ v * 2 ^ 8) = n % 2 ^ v * 2 ^ 8 := by
    rw [Nat.mul_mod_mul_right, Nat.mod_mod_of_dvd _ (Dvd.intro _ rfl)]
  apply BitVec.eq_of_toNat_eq
  rw [BitVec.toNat_or, BitVec.toNat_shiftLeft, BitVec.toNat_ofNat, BitVec.toNat_ofNat,
    BitVec.toNat_setWidth, Nat.shiftLeft_eq, hpow, hmod,
    Nat.mod_eq_of_lt (show b.toBitVec.toNat < 2 ^ v * 2 ^ 8 by omega), ← Nat.shiftLeft_eq (n % 2 ^ v),
    ← Nat.shiftLeft_add_eq_or_of_lt hb, Nat.shiftLeft_eq]
  show (n * 2 ^ 8 + b.toBitVec.toNat) % (2 ^ v * 2 ^ 8) = _
  rw [hmul, Nat.add_mul_mod_self_left, Nat.mod_eq_of_lt (by omega)]

theorem slice_eq_getD {block : List UInt8} {off n : ℕ} (h : off + n ≤ block.length) :
    slice block off n = (List.range n).map fun j => block.getD (off + j) 0 := by
  apply List.ext_getElem
  · rw [slice_length h, List.length_map, List.length_range]
  · intro j hj _
    rw [slice_length h] at hj
    simp only [slice, List.getElem_take, List.getElem_drop, List.getElem_map, List.getElem_range]
    rw [List.getD_eq_getElem?_getD, List.getElem?_eq_getElem (by omega), Option.getD_some]

theorem GET_UINT32_eq {block : List UInt8} (hlen : block.length = 64) {i : ℕ} (hi : i < 16) :
    GET_UINT32 block (4 * i) = word 32 block i := by
  have hbytes : ofBigEndian (slice block (32 / 8 * i) (32 / 8)) =
      (((0 * 256 + (block.getD (4 * i) 0).toNat) * 256 + (block.getD (4 * i + 1) 0).toNat) * 256 +
        (block.getD (4 * i + 2) 0).toNat) * 256 + (block.getD (4 * i + 3) 0).toNat := by
    rw [slice_eq_getD (by omega)]
    rfl
  rw [word, hbytes, GET_UINT32]
  simp only [ofNat_mul_add (show 8 ≤ 32 by decide), byteAt, BitVec.shiftLeft_or_distrib,
    ← BitVec.shiftLeft_add]
  simp

theorem GET_UINT64_eq {block : List UInt8} (hlen : block.length = 128) {i : ℕ} (hi : i < 16) :
    GET_UINT64 block (i <<< 3) = word 64 block i := by
  have hplace : i <<< 3 = 8 * i := by rw [Nat.shiftLeft_eq, Nat.mul_comm]
  have hbytes : ofBigEndian (slice block (64 / 8 * i) (64 / 8)) =
      (((((((0 * 256 + (block.getD (8 * i) 0).toNat) * 256 + (block.getD (8 * i + 1) 0).toNat) * 256 +
        (block.getD (8 * i + 2) 0).toNat) * 256 + (block.getD (8 * i + 3) 0).toNat) * 256 +
        (block.getD (8 * i + 4) 0).toNat) * 256 + (block.getD (8 * i + 5) 0).toNat) * 256 +
        (block.getD (8 * i + 6) 0).toNat) * 256 + (block.getD (8 * i + 7) 0).toNat := by
    rw [slice_eq_getD (by omega)]
    rfl
  rw [word, hbytes, GET_UINT64, hplace]
  simp only [ofNat_mul_add (show 8 ≤ 64 by decide), byteAt, BitVec.shiftLeft_or_distrib,
    ← BitVec.shiftLeft_add]
  simp

/-! ### Rounds -/

section

variable {F : Functions w} {K : List (BitVec w)} {next : List (BitVec w) → List (BitVec w)}

/-- A line is a round on variables whose places are shifted by the number `r` of the line. -/
theorem line_eq {r : ℕ} (hr : r < 8) (t : ℕ) (v : Eight w) (W : List (BitVec w)) :
    line F.Sigma0 F.Sigma1 F.K next t ((8 - r) % 8) ((9 - r) % 8) ((10 - r) % 8) ((11 - r) % 8)
        ((12 - r) % 8) ((13 - r) % 8) ((14 - r) % 8) ((15 - r) % 8) (v.toList.rotate r, W) =
      ((round F ((next W).getD t 0) (F.K.getD t 0) v).toList.rotate ((r + 1) % 8), next W) := by
  simp only [line, P, F0_eq, F1_eq]
  interval_cases r <;> rfl

theorem foldl_line (v : Eight w) (W : List (BitVec w)) (i : ℕ) (x : ℕ → BitVec w)
    (hx : ∀ j < 8, (next^[j + 1] W).getD (i + j) 0 = x (i + j)) {k : ℕ} (hk : k ≤ 8) :
    (List.range k).foldl (fun st r => line F.Sigma0 F.Sigma1 F.K next (i + r) ((8 - r) % 8)
        ((9 - r) % 8) ((10 - r) % 8) ((11 - r) % 8) ((12 - r) % 8) ((13 - r) % 8) ((14 - r) % 8)
        ((15 - r) % 8) st) (v.toList, W) =
      ((rounds F x (List.range' i k) v).toList.rotate (k % 8), next^[k] W) := by
  induction k with
  | zero =>
      rw [Nat.zero_mod, List.rotate_zero]
      rfl
  | succ k ih =>
      have hword : (next (next^[k] W)).getD (i + k) 0 = x (i + k) := by
        rw [← Function.iterate_succ_apply' next k W]
        exact hx k (by omega)
      rw [List.range_succ, List.foldl_append, ih (by omega), Nat.mod_eq_of_lt (by omega), List.foldl_cons,
        List.foldl_nil, line_eq (by omega), hword, List.range'_1_concat, rounds, rounds,
        List.foldl_append, Function.iterate_succ_apply']
      rfl

theorem lines_eq (v : Eight w) (W : List (BitVec w)) (i : ℕ) (x : ℕ → BitVec w)
    (hx : ∀ j < 8, (next^[j + 1] W).getD (i + j) 0 = x (i + j)) :
    lines F.Sigma0 F.Sigma1 F.K next (v.toList, W) i =
      ((rounds F x (List.range' i 8) v).toList, next^[8] W) := by
  have h := foldl_line (F := F) v W i x hx le_rfl
  rw [Nat.mod_self, List.rotate_zero] at h
  exact h

/-- The words of `W` are the message schedule. -/
def Schedules (F : Functions w) (M : ℕ → BitVec w) (W : List (BitVec w)) : Prop :=
  ∀ t < W.length, W.getD t 0 = schedule F M t

theorem Schedules.extend {M : ℕ → BitVec w} {W : List (BitVec w)} (h : Schedules F M W)
    (hlen : 16 ≤ W.length) : Schedules F M (extend F.sigma0 F.sigma1 W) := by
  intro t ht
  rw [SHA2Engine.extend, List.length_append, List.length_singleton] at ht
  rw [SHA2Engine.extend, List.getD_eq_getElem?_getD]
  rcases Nat.lt_or_ge t W.length with hlt | hge
  · rw [List.getElem?_append_left hlt, ← List.getD_eq_getElem?_getD]
    exact h t hlt
  · obtain rfl : t = W.length := by omega
    rw [List.getElem?_append_right le_rfl, Nat.sub_self, schedule, if_neg (by omega), R,
      h _ (by omega), h _ (by omega), h _ (by omega), h _ (by omega)]
    rfl

theorem Schedules.iterate {M : ℕ → BitVec w} {W : List (BitVec w)} (h : Schedules F M W)
    (hlen : 16 ≤ W.length) (k : ℕ) :
    Schedules F M ((SHA2Engine.extend F.sigma0 F.sigma1)^[k] W) ∧
      ((SHA2Engine.extend F.sigma0 F.sigma1)^[k] W).length = W.length + k := by
  induction k with
  | zero => exact ⟨h, rfl⟩
  | succ k ih =>
      rw [Function.iterate_succ_apply']
      refine ⟨ih.1.extend (by omega), ?_⟩
      rw [SHA2Engine.extend, List.length_append, ih.2]
      rfl

theorem schedules_block (F : Functions w) {M : ℕ → BitVec w} {get : ℕ → BitVec w}
    (hget : ∀ i < 16, get i = M i) : Schedules F M ((List.range 16).map get) := by
  intro t ht
  rw [List.length_map, List.length_range] at ht
  rw [schedule, if_pos ht, ← hget t ht, List.getD_eq_getElem?_getD, List.getElem?_map,
    List.getElem?_range ht]
  rfl

theorem rounds_append (x : ℕ → BitVec w) (ts ts' : List ℕ) (v : Eight w) :
    rounds F x (ts ++ ts') v = rounds F x ts' (rounds F x ts v) := List.foldl_append

theorem foldl_lines_id {M : ℕ → BitVec w} {W : List (BitVec w)} (h : Schedules F M W) (v : Eight w)
    {n : ℕ} (hn : 8 * n ≤ W.length) :
    ((List.range n).map (8 * ·)).foldl (lines F.Sigma0 F.Sigma1 F.K id) (v.toList, W) =
      ((rounds F (schedule F M) (List.range (8 * n)) v).toList, W) := by
  induction n with
  | zero => rfl
  | succ n ih =>
      have hsplit : List.range (8 * (n + 1)) = List.range (8 * n) ++ List.range' (8 * n) 8 := by
        have happend := @List.range'_append_1 0 (8 * n) 8
        rw [Nat.zero_add] at happend
        rw [List.range_eq_range', List.range_eq_range', happend]
        rfl
      rw [List.range_succ, List.map_append, List.foldl_append, ih (by omega), hsplit, rounds_append]
      refine lines_eq _ W (8 * n) (schedule F M) fun j hj => ?_
      rw [Function.iterate_id]
      exact h _ (by omega)

theorem foldl_lines_extend {M : ℕ → BitVec w} {W : List (BitVec w)} (h : Schedules F M W)
    (hlen : W.length = 16) (v : Eight w) (n : ℕ) :
    ((List.range n).map (16 + 8 * ·)).foldl
        (lines F.Sigma0 F.Sigma1 F.K (SHA2Engine.extend F.sigma0 F.sigma1)) (v.toList, W) =
      ((rounds F (schedule F M) (List.range' 16 (8 * n)) v).toList,
        (SHA2Engine.extend F.sigma0 F.sigma1)^[8 * n] W) := by
  induction n with
  | zero => rfl
  | succ n ih =>
      have hsplit : List.range' 16 (8 * (n + 1)) =
          List.range' 16 (8 * n) ++ List.range' (16 + 8 * n) 8 := by
        rw [List.range'_append_1]
        rfl
      have hiter : (SHA2Engine.extend F.sigma0 F.sigma1)^[8 * (n + 1)] W =
          (SHA2Engine.extend F.sigma0 F.sigma1)^[8] ((SHA2Engine.extend F.sigma0 F.sigma1)^[8 * n] W) := by
        rw [← Function.iterate_add_apply, Nat.mul_succ, Nat.add_comm]
      rw [List.range_succ, List.map_append, List.foldl_append, ih, hsplit, hiter, rounds_append]
      refine lines_eq _ _ (16 + 8 * n) (schedule F M) fun j hj => ?_
      rw [← Function.iterate_add_apply]
      obtain ⟨hsched, hlen'⟩ := h.iterate (by omega) (j + 1 + 8 * n)
      exact hsched _ (by omega)

end

/-! ### Compression -/

/-- `k` is what the `n`-th root of `p` has behind the point, for roots below eight. -/
def isFraction (n p : ℕ) (k : BitVec w) : Bool :=
  (List.range 8).any fun d =>
    (d * 2 ^ w + k.toNat) ^ n ≤ p * 2 ^ (n * w) && p * 2 ^ (n * w) < (d * 2 ^ w + k.toNat + 1) ^ n

theorem rootFraction_eq {n p : ℕ} {k : BitVec w} (h : isFraction n p k = true) : rootFraction n w p = k := by
  obtain ⟨d, -, hd⟩ := List.any_eq_true.mp h
  rw [Bool.and_eq_true, decide_eq_true_eq, decide_eq_true_eq] at hd
  apply BitVec.eq_of_toNat_eq
  rw [rootFraction, Nat.nthRoot_eq_of_le_of_lt hd.1 hd.2, BitVec.toNat_ofNat, Nat.mul_add_mod',
    Nat.mod_eq_of_lt k.isLt]

/-- A table of fractions is checked without computing the roots. -/
theorem map_rootFraction {n : ℕ} {ps : List ℕ} {ks : List (BitVec w)}
    (h : (ps.length = ks.length ∧ (List.zipWith (isFraction n) ps ks).all id = true)) :
    ks = ps.map (rootFraction n w) := by
  induction ps generalizing ks with
  | nil =>
      obtain rfl := List.length_eq_zero_iff.mp h.1.symm
      rfl
  | cons p ps ih =>
      cases ks with
      | nil => cases h.1
      | cons k ks =>
          obtain ⟨hlen, hall⟩ := h
          rw [List.zipWith_cons_cons, List.all_cons, Bool.and_eq_true] at hall
          rw [List.map_cons, rootFraction_eq hall.1, ← ih ⟨Nat.succ.inj hlen, hall.2⟩]

/-- The tables of constants and the initial hash values of the engine, by computation. -/
theorem tables_eq :
    (((primes.take 64).length = K32.length ∧
        (List.zipWith (isFraction 3) (primes.take 64) K32).all id = true) ∧
      (primes.length = K64.length ∧ (List.zipWith (isFraction 3) primes K64).all id = true)) ∧
    (initial32 .SHA_224 = H224.toList ∧ initial32 .SHA_256 = H256.toList) ∧
      initial64 .SHA_384 = H384.toList ∧ initial64 .SHA_512 = H512.toList := by
  decide

theorem K32_eq : K32 = functions32.K := map_rootFraction tables_eq.1.1

theorem K64_eq : K64 = functions64.K := map_rootFraction tables_eq.1.2

theorem zipWith_toList (F : Functions w) (H : Eight w) (block : List UInt8) :
    List.zipWith (· + ·) H.toList
        (rounds F (schedule F (word w block)) (List.range F.K.length) H).toList =
      (compress F H block).toList := by
  rw [compress]
  generalize rounds F (schedule F (word w block)) (List.range F.K.length) H = v
  rfl

/-- `_sha256_process` is the compression function for words of 32 bits. -/
theorem _sha256_process_eq (H : Eight 32) {block : List UInt8} (hlen : block.length = 64) :
    _sha256_process H.toList block = (compress functions32 H block).toList := by
  have hW : Schedules functions32 (word 32 block)
      ((List.range 16).map fun i => GET_UINT32 block (4 * i)) :=
    schedules_block functions32 fun i hi => GET_UINT32_eq hlen hi
  have hlen16 : ((List.range 16).map fun i => GET_UINT32 block (4 * i)).length = 16 := by
    rw [List.length_map, List.length_range]
  have hfirst : [0, 8] = (List.range 2).map (8 * ·) := by decide
  have hsecond : [16, 24, 32, 40, 48, 56] = (List.range 6).map (16 + 8 * ·) := by decide
  have hrange : List.range 64 = List.range (8 * 2) ++ List.range' 16 (8 * 6) := by decide
  have hK : functions32.K.length = 64 := by
    rw [← K32_eq]
    rfl
  rw [_sha256_process, S320_eq, S321_eq, S322_eq, S323_eq, K32_eq, hfirst, hsecond,
    foldl_lines_id hW H hlen16.ge, foldl_lines_extend hW hlen16, ← zipWith_toList, hK, hrange,
    rounds_append]

/-- `_sha512_process` is the compression function for words of 64 bits. -/
theorem _sha512_process_eq (H : Eight 64) {block : List UInt8} (hlen : block.length = 128) :
    _sha512_process H.toList block = (compress functions64 H block).toList := by
  have hW : Schedules functions64 (word 64 block)
      ((List.range 16).map fun i => GET_UINT64 block (i <<< 3)) :=
    schedules_block functions64 fun i hi => GET_UINT64_eq hlen hi
  have hextend := hW.iterate (by rw [List.length_map, List.length_range]) 64
  have hlist : [0, 8, 16, 24, 32, 40, 48, 56, 64, 72] = (List.range 10).map (8 * ·) := by decide
  have hK : functions64.K.length = 80 := by
    rw [← K64_eq]
    rfl
  rw [_sha512_process, S640_eq, S641_eq, S642_eq, S643_eq, K64_eq, List.foldl_const,
    List.length_range', hlist,
    foldl_lines_id hextend.1 H (by rw [hextend.2, List.length_map, List.length_range]),
    ← zipWith_toList, hK]

theorem chain_eq_foldl_compress {F : Functions w} {size : ℕ} (hsize : 0 < size)
    {process : List (BitVec w) → List UInt8 → List (BitVec w)}
    (hprocess : ∀ (H : Eight w) {block : List UInt8}, block.length = size →
      process H.toList block = (compress F H block).toList) (H : Eight w) (text : List UInt8) :
    (chain process size H.toList text).1 = ((blocks size text).foldl (compress F) H).toList := by
  have hlen : ∀ block ∈ blocks size text, block.length = size := fun block => length_of_mem_blocks
  rw [chain_eq_foldl hsize]
  generalize blocks size text = bs at hlen ⊢
  induction bs generalizing H with
  | nil => rfl
  | cons block bs ih =>
      rw [List.foldl_cons, List.foldl_cons, hprocess H (hlen block List.mem_cons_self)]
      exact ih _ fun b hb => hlen b (List.mem_cons_of_mem _ hb)

theorem chain32_eq (H : Eight 32) (m : List UInt8) :
    (chain _sha256_process 64 H.toList (padded 64 8 m m.length)).1 = (value functions32 H m).toList :=
  chain_eq_foldl_compress (by decide) (fun H _ => _sha256_process_eq H) H _

theorem chain64_eq (H : Eight 64) (m : List UInt8) :
    (chain _sha512_process 128 H.toList (padded 128 16 m m.length)).1 = (value functions64 H m).toList :=
  chain_eq_foldl_compress (by decide) (fun H _ => _sha512_process_eq H) H _

theorem wordBytes_toList {put : BitVec w → List UInt8} (hput : ∀ x, put x = bigEndian (w / 8) x.toNat)
    (H : Eight w) : wordBytes put H.toList = H.bytes := by
  rw [wordBytes, Eight.bytes, funext hput]
  rfl

/-! ### Initial hash values -/

/-- The generation function runs the engine's own compression function on one block. -/
theorem H512t_toList {name : String} (h : name.length = 11) :
    (H512t name).toList = _sha512_process (H512.toList.map (· ^^^ 0xa5a5a5a5a5a5a5a5))
      ((name.toList.map Char.toUInt8) ++ 0x80 :: List.replicate 100 0 ++ bigEndian 16 88) := by
  have hlen : (name.toList.map Char.toUInt8).length = 11 := by
    rw [List.length_map, String.length_toList, h]
  have htext : padded 128 16 (name.toList.map Char.toUInt8) (name.toList.map Char.toUInt8).length =
      (name.toList.map Char.toUInt8) ++ 0x80 :: List.replicate 100 0 ++ bigEndian 16 88 := by
    rw [padded, hlen]
  have hblock : ((name.toList.map Char.toUInt8) ++ 0x80 :: List.replicate 100 0 ++
      bigEndian 16 88).length = 128 := by
    rw [List.length_append, List.length_append, hlen]
    rfl
  have hinitial : (Eight.ofList (H512.toList.map (· ^^^ 0xa5a5a5a5a5a5a5a5))).toList =
      H512.toList.map (· ^^^ 0xa5a5a5a5a5a5a5a5) := rfl
  rw [H512t, ← chain64_eq, htext, hinitial, ← List.append_nil (_ ++ bigEndian 16 88),
    chain_block (by decide) hblock, chain_of_lt (by decide), List.append_nil]

theorem initial64_truncated : initial64 .SHA_512_224 = (H512t "SHA-512/224").toList ∧
    initial64 .SHA_512_256 = (H512t "SHA-512/256").toList := by
  rw [H512t_toList rfl, H512t_toList rfl, ← tables_eq.2.2.2]
  decide +kernel

/-! ### The hash functions -/

/-- The hash function of the standard that an algorithm stands for. -/
def hash : ALGORITHM → List UInt8 → List UInt8
  | .SHA_224 => sha224
  | .SHA_256 => sha256
  | .SHA_384 => sha384
  | .SHA_512 => sha512
  | .SHA_512_224 => sha512_224
  | .SHA_512_256 => sha512_256

/-- Pieces that are shorter than `2 ^ 32` bytes are counted in full. -/
theorem counted_eq (algorithm : ALGORITHM) {chunks : List (List UInt8)}
    (h : ∀ c ∈ chunks, c.length < 2 ^ 32) : counted algorithm chunks = chunks.flatten.length := by
  have hword : 2 ^ 32 ≤ 2 ^ wordSize algorithm := by
    unfold wordSize
    split_ifs <;> decide
  rw [counted, List.length_flatten]
  congr 1
  apply List.map_congr_left
  intro c hc
  exact Nat.mod_eq_of_lt ((h c hc).trans_le hword)

theorem length_bytes (H : Eight w) : H.bytes.length = 8 * (w / 8) := by
  rw [Eight.bytes, List.length_flatMap]
  simp only [length_bigEndian]
  rw [List.map_const', List.sum_replicate_nat]
  rfl

theorem Seen.digest32_eq {algorithm : ALGORITHM} (hsize : ¬algorithm.value > ALGORITHM.SHA_256.value)
    {m : List UInt8} {e : Engine} (h : Seen algorithm m m.length e) {H : Eight 32}
    (hinitial : initial32 algorithm = H.toList) :
    digest e = ((value functions32 H m).bytes.take (digestLength algorithm), reset algorithm) := by
  rw [h.digest32 hsize, hinitial, chain32_eq, wordBytes_toList PUT_UINT32_eq]

theorem Seen.digest64_eq {algorithm : ALGORITHM} (hsize : algorithm.value > ALGORITHM.SHA_256.value)
    {m : List UInt8} {e : Engine} (h : Seen algorithm m m.length e) {H : Eight 64}
    (hinitial : initial64 algorithm = H.toList) :
    digest e = ((value functions64 H m).bytes.take (digestLength algorithm), reset algorithm) := by
  rw [h.digest64 hsize, hinitial, chain64_eq, wordBytes_toList PUT_UINT64_eq]

/-- An engine that has seen and counted the whole text. -/
theorem Seen.digest_eq {algorithm : ALGORITHM} {m : List UInt8} {e : Engine}
    (h : Seen algorithm m m.length e) : digest e = (hash algorithm m, reset algorithm) := by
  cases algorithm with
  | SHA_224 => exact h.digest32_eq (by decide) tables_eq.2.1.1
  | SHA_256 =>
      have hall := List.take_of_length_le (length_bytes (value functions32 H256 m)).le
      rw [h.digest32_eq (by decide) tables_eq.2.1.2]
      exact congrArg (·, reset .SHA_256) hall
  | SHA_384 => exact h.digest64_eq (by decide) tables_eq.2.2.1
  | SHA_512 =>
      have hall := List.take_of_length_le (length_bytes (value functions64 H512 m)).le
      rw [h.digest64_eq (by decide) tables_eq.2.2.2]
      exact congrArg (·, reset .SHA_512) hall
  | SHA_512_224 => exact h.digest64_eq (by decide) initial64_truncated.1
  | SHA_512_256 => exact h.digest64_eq (by decide) initial64_truncated.2

/-- **Main result.**  Whatever the pieces of a text are, as long as each is shorter than `2 ^ 32` bytes,
`digest` gives the hash of the text that the standard says, and leaves the engine as it was at the
beginning. -/
theorem digest_eq_hash (algorithm : ALGORITHM) (chunks : List (List UInt8))
    (h : ∀ c ∈ chunks, c.length < 2 ^ 32) :
    digest (chunks.foldl updateImpl (reset algorithm)) =
      (hash algorithm chunks.flatten, reset algorithm) := by
  have hseen := (seen_reset algorithm).foldl chunks
  rw [List.nil_append, Nat.zero_add, counted_eq algorithm h] at hseen
  exact hseen.digest_eq

/-- The text `abc` in two pieces. -/
theorem digest_eq_hash_abc :
    digest ([[0x61], [0x62, 0x63]].foldl updateImpl (reset .SHA_512_256)) =
      (hash .SHA_512_256 [0x61, 0x62, 0x63], reset .SHA_512_256) :=
  digest_eq_hash .SHA_512_256 [[0x61], [0x62, 0x63]] (by simp)

end SHA2Engine

end Poco.Foundation
