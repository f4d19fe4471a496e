import Poco.Lib.IPv6
import Poco.Foundation.NumberFormatter
import Poco.Net.MessageHeader

/-! # `IPv6AddressImpl`: text and back

`toString` writes an address with a compressed sequence of zeros, and IPv4 addresses that are embedded in
it in dotted decimal form; `parse` hands the text to `inet_pton`.  The text is read back as the address
(`parse_toString_iff`), unless it is that of an embedded IPv4 address which begins with a zero byte:
`toString` then leaves the IPv4 address out. -/

namespace Poco.Net

open Poco.Lib Poco.Lib.IPv6 Poco.Foundation Poco.Foundation.NumericString

/-- The members of `IPv6AddressImpl`. -/
structure IPv6AddressImpl where
  _addr : in6_addr
  _scope : UInt32 := 0
deriving DecidableEq

namespace IPv6AddressImpl

/-- The wildcard address, which the constructor without arguments makes. -/
def wildcard : IPv6AddressImpl where
  _addr := ⟨List.replicate 16 0, rfl⟩

/-- The numbers of the words of the address, from network byte order; a word is zero in either order if
it is zero in the other. -/
def wordsOf : List UInt8 → List ℕ
  | hi :: lo :: s => (256 * hi.toNat + lo.toNat) :: wordsOf s
  | _ => []

/-- `ByteOrder::fromNetwork(words[i])`. -/
def words (a : in6_addr) (i : ℕ) : ℕ := (wordsOf a.val).getD i 0

/-- `bytes[i]`. -/
def bytes (a : in6_addr) (i : ℕ) : UInt8 := a.val.getD i 0

/-- `isIPv4Compatible()`. -/
def isIPv4Compatible (a : in6_addr) : Bool :=
  words a 0 = 0 ∧ words a 1 = 0 ∧ words a 2 = 0 ∧ words a 3 = 0 ∧ words a 4 = 0 ∧ words a 5 = 0

/-- `isIPv4Mapped()`. -/
def isIPv4Mapped (a : in6_addr) : Bool :=
  words a 0 = 0 ∧ words a 1 = 0 ∧ words a 2 = 0 ∧ words a 3 = 0 ∧ words a 4 = 0 ∧ words a 5 = 0xFFFF

/-- `isLoopback()`. -/
def isLoopback (a : in6_addr) : Bool :=
  if isIPv4Mapped a then words a 6 &&& 0xFF00 = 0x7F00
  else words a 0 = 0 ∧ words a 1 = 0 ∧ words a 2 = 0 ∧ words a 3 = 0 ∧ words a 4 = 0 ∧ words a 5 = 0 ∧
    words a 6 = 0 ∧ words a 7 = 1

/-- The loop of `toString`, with the words from `i` on; every round takes a word. -/
def wordLoop : ℕ → ℕ → Bool → List ℕ → List UInt8 → List UInt8
  | 0, _, _, _, result => result
  | _, _, _, [], result => result
  | fuel + 1, i, zeroSequence, w :: ws, result =>
      let zi := i + ((w :: ws).takeWhile (· = 0)).length
      if !zeroSequence ∧ w = 0 ∧ zi > i + 1 then
        let result := result ++ [':'.toUInt8] ++ [':'.toUInt8]
        match (w :: ws).dropWhile (· = 0) with
        | [] => result
        | w :: ws => wordLoop fuel (zi + 1) true ws (NumberFormatter.appendHex result w)
      else
        let result := if i > 0 then result ++ [':'.toUInt8] else result
        wordLoop fuel (i + 1) zeroSequence ws (NumberFormatter.appendHex result w)

/-- The part of `toString` for addresses with an IPv4 address. -/
def toStringIPv4 (a : in6_addr) : List UInt8 :=
  let result := if words a 5 = 0 then "::".toList.map Char.toUInt8 else "::ffff:".toList.map Char.toUInt8
  if bytes a 12 ≠ 0 then
    let result := NumberFormatter.append result (bytes a 12).toNat ++ ['.'.toUInt8]
    let result := NumberFormatter.append result (bytes a 13).toNat ++ ['.'.toUInt8]
    let result := NumberFormatter.append result (bytes a 14).toNat ++ ['.'.toUInt8]
    NumberFormatter.append result (bytes a 15).toNat
  else result

/-- The text of a scope: the name of the interface, if it has one. -/
def scopeText (if_indextoname : UInt32 → Option (List UInt8)) (scope : UInt32) : List UInt8 :=
  if scope > 0 then
    '%'.toUInt8 ::
      match if_indextoname scope with
      | some name => name
      | none => appended unsignedType scope.toNat 10
  else []

/-- `toString()`. -/
def toString (if_indextoname : UInt32 → Option (List UInt8)) (address : IPv6AddressImpl) : List UInt8 :=
  let a := address._addr
  if (isIPv4Compatible a ∧ !isLoopback a) ∨ isIPv4Mapped a then toStringIPv4 a
  else
    (wordLoop 8 0 false (wordsOf a.val) [] ++ scopeText if_indextoname address._scope).map toLower

/-- `c_str()`. -/
def c_str (s : List UInt8) : List UInt8 := s.takeWhile (· ≠ 0)

/-- `parse(addr)`. -/
def parse (if_nametoindex : List UInt8 → UInt32) (addr : List UInt8) : IPv6AddressImpl :=
  if addr = [] then wildcard
  else if '%'.toUInt8 ∈ addr then
    let pos := addr.idxOf '%'.toUInt8
    let start := if addr.head? = some '['.toUInt8 then 1 else 0
    let unscopedAddr := (addr.drop start).take (pos - start)
    let scope := (addr.drop (pos + 1)).take (addr.length - 2 * start - pos)
    let scopeId := if_nametoindex (c_str scope)
    if scopeId = 0 then wildcard
    else
      match inet_pton (c_str unscopedAddr) with
      | some ia => { _addr := ia, _scope := scopeId }
      | none => wildcard
  else
    match inet_pton (c_str addr) with
    | some ia => { _addr := ia }
    | none => wildcard

/-! ### Numbers -/

theorem mapM_eq_some {α β : Type} (f : β → Option α) (g : α → β) {l : List α} (h : ∀ a ∈ l, f (g a) = some a) :
    (l.map g).mapM f = some l := by
  induction l with
  | nil => rfl
  | cons a l ih =>
      rw [List.forall_mem_cons] at h
      rw [List.map_cons, List.mapM_cons, h.1, ih h.2]
      rfl

theorem numeral_eq (base n : ℕ) (lowercase : Bool) :
    numeral base n 0 lowercase = (places base n).reverse.map (digitChar lowercase) := by
  rw [numeral, if_neg (fun h => h.2 rfl), List.map_reverse]

theorem digits?_numeral {base k n : ℕ} (hone : 1 < base) (hle : base ≤ 16) (hk : 0 < k) (hn : n < base ^ k)
    (lowercase : Bool) : digits? base k (numeral base n 0 lowercase) = some n := by
  have hpos : 0 < (places base n).length := List.length_pos_iff.mpr (places_ne_nil hone n)
  have hvalue : (places base n).reverse.foldl (fun n d => n * base + d) 0 = n := by
    have hplaces : Nat.ofDigits base (places base n) = n := by
      unfold places
      split_ifs with hzero
      · rw [hzero]
        rfl
      · exact Nat.ofDigits_digits base n
    rw [List.foldl_reverse]
    conv_rhs => rw [← hplaces, Nat.ofDigits_eq_foldr]
    congr 1
    funext d n
    rw [Nat.add_comm, Nat.mul_comm]
    rfl
  have hdigits : ((places base n).reverse.map (digitChar lowercase)).mapM
      (fun ch => (hexDigit? ch).filter (· < base)) = some (places base n).reverse := by
    refine mapM_eq_some _ _ fun d hd => ?_
    have hlt := lt_of_mem_places hone d (List.mem_reverse.mp hd)
    rw [(digitValue_digitChar lowercase d (by omega)).2, Option.filter_some, if_pos (decide_eq_true hlt)]
  rw [numeral_eq, digits?, if_pos, hdigits, Option.map_some, hvalue]
  rw [List.length_map, List.length_reverse]
  exact ⟨hpos, length_places_le hone hk hn⟩

/-! ### The words in hexadecimal form -/

/-- The text of a word. -/
def hexText (w : ℕ) : List UInt8 := numeral 16 w 0 false

theorem appendHex_eq (result : List UInt8) {w : ℕ} (hw : w < 2 ^ 16) :
    NumberFormatter.appendHex result w = result ++ hexText w := by
  have hmod : (w : ℤ) % 2 ^ 32 = w := by omega
  have hmax : unsignedType.max = 2 ^ 32 - 1 := rfl
  rw [NumberFormatter.appendHex, hmod, appended_natCast (by omega) (by decide), hexText]

/-- A sequence of at least two zeros stands out of the words, and `text` is the text with `::` in its place;
or there is no such sequence, and `text` is that of all words. -/
inductive Printed (lead : List ℕ → List UInt8) (ws : List ℕ) (text : List UInt8) : Prop
  | all : text = lead ws → Printed lead ws text
  | compressed (front back : List ℕ) {k : ℕ} : 2 ≤ k → ws = front ++ List.replicate k 0 ++ back →
      text = lead front ++ (':'.toUInt8 :: ':'.toUInt8 :: joinPieces (back.map hexText)) → Printed lead ws text

/-- The text of words at position `i`. -/
def textAt (i : ℕ) (ws : List ℕ) : List UInt8 :=
  if i > 0 then (ws.map hexText).flatMap (':'.toUInt8 :: ·) else joinPieces (ws.map hexText)

theorem textAt_cons (i w : ℕ) (ws : List ℕ) :
    textAt i (w :: ws) = (if i > 0 then [':'.toUInt8] else []) ++ hexText w ++ textAt (i + 1) ws := by
  unfold textAt
  split_ifs <;> first | omega | rfl

theorem textAt_nil (i : ℕ) : textAt i [] = [] := by
  unfold textAt
  split_ifs <;> rfl

/-- Once a sequence is compressed, the other words are written one by one. -/
theorem wordLoop_true {fuel i : ℕ} (hi : 0 < i) {ws : List ℕ} (hws : ∀ w ∈ ws, w < 2 ^ 16)
    (hfuel : ws.length ≤ fuel) (result : List UInt8) : wordLoop fuel i true ws result = result ++ textAt i ws := by
  induction ws generalizing fuel i result with
  | nil =>
      rw [textAt_nil, List.append_nil]
      cases fuel <;> rfl
  | cons w ws ih =>
      rw [List.forall_mem_cons] at hws
      rw [List.length_cons] at hfuel
      obtain ⟨fuel, rfl⟩ : ∃ k, fuel = k + 1 := ⟨fuel - 1, by omega⟩
      rw [wordLoop]
      simp only [Bool.not_true, Bool.false_eq_true, false_and, if_false, if_pos hi]
      rw [appendHex_eq _ hws.1, ih (Nat.succ_pos i) hws.2 (by omega), textAt_cons, if_pos hi]
      simp only [List.append_assoc]

/-- The loop of `toString` writes the words with the first sequence of zeros compressed. -/
theorem wordLoop_false {fuel i : ℕ} {ws : List ℕ} (hws : ∀ w ∈ ws, w < 2 ^ 16) (hfuel : ws.length ≤ fuel)
    (result : List UInt8) :
    ∃ text, wordLoop fuel i false ws result = result ++ text ∧ Printed (textAt i) ws text := by
  induction ws generalizing fuel i result with
  | nil =>
      refine ⟨[], ?_, .all (textAt_nil i).symm⟩
      rw [List.append_nil]
      cases fuel <;> rfl
  | cons w ws ih =>
      rw [List.length_cons] at hfuel
      obtain ⟨fuel, rfl⟩ : ∃ k, fuel = k + 1 := ⟨fuel - 1, by omega⟩
      rw [wordLoop]
      dsimp only
      by_cases hrun : !false ∧ w = 0 ∧ i + ((w :: ws).takeWhile (· = 0)).length > i + 1
      · rw [if_pos hrun]
        have hzeros : (w :: ws).takeWhile (· = 0) = List.replicate ((w :: ws).takeWhile (· = 0)).length 0 := by
          rw [List.eq_replicate_iff]
          exact ⟨rfl, fun b hb => by simpa using List.mem_takeWhile_imp hb⟩
        have hsplit : (w :: ws).takeWhile (· = 0) ++ (w :: ws).dropWhile (· = 0) = w :: ws :=
          List.takeWhile_append_dropWhile
        have htwo : 2 ≤ ((w :: ws).takeWhile (· = 0)).length := by omega
        generalize hk : ((w :: ws).takeWhile (· = 0)).length = k at hzeros htwo ⊢
        rw [hzeros] at hsplit
        cases hback : (w :: ws).dropWhile (· = 0) with
        | nil =>
            rw [hback] at hsplit
            refine ⟨[':'.toUInt8, ':'.toUInt8], ?_, .compressed [] [] htwo hsplit.symm ?_⟩
            · simp
            · rw [textAt_nil]
              rfl
        | cons v back =>
            rw [hback] at hsplit
            have hmem : ∀ u ∈ v :: back, u < 2 ^ 16 := fun u hu =>
              hws u (hsplit ▸ List.mem_append_right _ hu)
            have hlen := congrArg List.length hsplit
            rw [List.length_append, List.length_replicate, List.length_cons, List.length_cons] at hlen
            rw [List.forall_mem_cons] at hmem
            dsimp only
            rw [appendHex_eq _ hmem.1, wordLoop_true (Nat.succ_pos _) hmem.2 (by omega)]
            refine ⟨':'.toUInt8 :: ':'.toUInt8 :: (hexText v ++ textAt (i + k + 1) back), ?_,
              .compressed [] (v :: back) htwo hsplit.symm ?_⟩
            · simp
            · rw [textAt_nil, textAt, if_pos (Nat.succ_pos _)]
              rfl
      · rw [List.forall_mem_cons] at hws
        rw [if_neg hrun, appendHex_eq _ hws.1]
        obtain ⟨text, htext, hprinted⟩ := ih (i := i + 1) hws.2 (Nat.le_of_succ_le_succ hfuel)
          ((if i > 0 then result ++ [':'.toUInt8] else result) ++ hexText w)
        refine ⟨(if i > 0 then [':'.toUInt8] else []) ++ hexText w ++ text, ?_, ?_⟩
        · rw [htext]
          split_ifs <;> simp
        · cases hprinted with
          | all h => exact .all (by rw [h, textAt_cons])
          | compressed front back hk hsplit h =>
              refine .compressed (w :: front) back hk (by rw [hsplit]; rfl) ?_
              rw [h, textAt_cons]
              simp only [List.append_assoc]

/-! ### The text is decoded -/

/-- The two bytes of a word. -/
def wordBytes (w : ℕ) : List UInt8 := [UInt8.ofNat (w / 256), UInt8.ofNat w]

theorem wordsOf_lt (l : List UInt8) : ∀ w ∈ wordsOf l, w < 2 ^ 16 := by
  fun_induction wordsOf l with
  | case1 hi lo s ih =>
      have hhi := hi.toNat_lt
      have hlo := lo.toNat_lt
      rw [List.forall_mem_cons]
      exact ⟨by omega, ih⟩
  | case2 s h => simp

/-- The words of a whole number of words have the same bytes. -/
theorem flatMap_wordsOf {l : List UInt8} {k : ℕ} (h : l.length = 2 * k) : (wordsOf l).flatMap wordBytes = l := by
  induction k generalizing l with
  | zero =>
      obtain rfl := List.length_eq_zero_iff.mp h
      rfl
  | succ k ih =>
      match l, h with
      | hi :: lo :: s, h =>
          have hhi := hi.toNat_lt
          have hlo := lo.toNat_lt
          rw [List.length_cons, List.length_cons] at h
          have hhigh : UInt8.ofNat ((256 * hi.toNat + lo.toNat) / 256) = hi := by
            rw [← UInt8.toNat_inj, UInt8.toNat_ofNat']
            omega
          have hlow : UInt8.ofNat (256 * hi.toNat + lo.toNat) = lo := by
            rw [← UInt8.toNat_inj, UInt8.toNat_ofNat']
            omega
          rw [wordsOf, List.flatMap_cons, ih (by omega), wordBytes, hhigh, hlow]
          rfl

theorem length_flatMap_wordBytes (ws : List ℕ) : (ws.flatMap wordBytes).length = 2 * ws.length := by
  rw [List.length_flatMap]
  simp [wordBytes, Nat.mul_comm]

theorem length_wordsOf {l : List UInt8} {k : ℕ} (h : l.length = 2 * k) : (wordsOf l).length = k := by
  have hlen := congrArg List.length (flatMap_wordsOf h)
  rw [length_flatMap_wordBytes, h] at hlen
  omega

/-- The text of a word, in small letters. -/
def lowText (w : ℕ) : List UInt8 := numeral 16 w 0 true

theorem map_toLower_hexText (w : ℕ) : (hexText w).map toLower = lowText w := by
  have hlower : ∀ d < 16, toLower (digitChar false d) = digitChar true d := by decide
  rw [hexText, lowText, numeral_eq, numeral_eq, List.map_map]
  apply List.map_congr_left
  intro d hd
  exact hlower d (lt_of_mem_places (by decide) d (List.mem_reverse.mp hd))

theorem map_toLower_joinPieces (ws : List ℕ) : (joinPieces (ws.map hexText)).map toLower = joinPieces (ws.map lowText) := by
  cases ws with
  | nil => rfl
  | cons w ws =>
      rw [List.map_cons, List.map_cons, joinPieces, joinPieces, List.map_append, map_toLower_hexText, List.map_flatMap,
        List.flatMap_map, List.flatMap_map]
      congr 2
      funext v
      rw [List.map_cons, map_toLower_hexText]
      rfl

theorem hexPiece?_lowText {w : ℕ} (hw : w < 2 ^ 16) : hexPiece? (lowText w) = some (wordBytes w) := by
  rw [hexPiece?, lowText, digits?_numeral (by decide) le_rfl (by decide) (by omega)]
  rfl

/-- No character that `parse` treats in a special way. -/
def Plain (s : List UInt8) : Prop := ∀ ch ∈ s, ch ≠ 0 ∧ ch ≠ '%'.toUInt8

theorem isDigitOf_numeral {base : ℕ} (hone : 1 < base) (hle : base ≤ 16) (n : ℕ) (lowercase : Bool) :
    ∀ ch ∈ numeral base n 0 lowercase, isDigitOf base ch = true := by
  intro ch hch
  rw [numeral_eq, List.map_reverse, List.mem_reverse] at hch
  exact isDigitOf_places hone hle lowercase n ch hch

theorem plain_numeral {base : ℕ} (hone : 1 < base) (hle : base ≤ 16) (n : ℕ) (lowercase : Bool) :
    Plain (numeral base n 0 lowercase) := by
  intro ch hch
  have hdigit := isDigitOf_numeral hone hle n lowercase ch hch
  constructor
  · rintro rfl
    cases hdigit
  · rintro rfl
    cases hdigit

theorem numeral_ne_nil {base : ℕ} (hone : 1 < base) (n : ℕ) (lowercase : Bool) :
    numeral base n 0 lowercase ≠ [] := by
  rw [numeral_eq, ne_eq, List.map_eq_nil_iff, List.reverse_eq_nil_iff]
  exact places_ne_nil hone n

theorem isPiece_numeral {base : ℕ} (hone : 1 < base) (hle : base ≤ 16) (n : ℕ) (lowercase : Bool) :
    IsPiece (numeral base n 0 lowercase) := by
  refine ⟨numeral_ne_nil hone n lowercase, fun h => ?_⟩
  cases isDigitOf_numeral hone hle n lowercase _ h

theorem isPiece_lowText (ws : List ℕ) : ∀ p ∈ ws.map lowText, IsPiece p := by
  rw [List.forall_mem_map]
  exact fun w _ => isPiece_numeral (by decide) le_rfl w true

theorem plain_joinPieces {ps : List (List UInt8)} (h : ∀ p ∈ ps, Plain p) : Plain (joinPieces ps) := by
  cases ps with
  | nil =>
      intro ch hch
      cases hch
  | cons p ps =>
      intro ch hch
      rw [joinPieces, List.mem_append, List.mem_flatMap] at hch
      rcases hch with hch | ⟨q, hq, hch⟩
      · exact h p List.mem_cons_self ch hch
      · rcases List.mem_cons.mp hch with rfl | hch
        · decide
        · exact h q (List.mem_cons_of_mem _ hq) ch hch

theorem plain_lowText (ws : List ℕ) : Plain (joinPieces (ws.map lowText)) := by
  apply plain_joinPieces
  rw [List.forall_mem_map]
  exact fun w _ => plain_numeral (by decide) le_rfl w true

theorem Plain.append {s t : List UInt8} (hs : Plain s) (ht : Plain t) : Plain (s ++ t) := by
  intro ch hch
  rcases List.mem_append.mp hch with h | h
  · exact hs ch h
  · exact ht ch h

theorem plain_of_all {s : List UInt8} (h : (s.all fun ch => decide (ch ≠ 0 ∧ ch ≠ '%'.toUInt8)) = true) :
    Plain s := by
  rw [List.all_eq_true] at h
  exact fun ch hch => of_decide_eq_true (h ch hch)

theorem plain_colons {s : List UInt8} (hs : Plain s) : Plain (':'.toUInt8 :: ':'.toUInt8 :: s) := by
  have hcolons : Plain [':'.toUInt8, ':'.toUInt8] := plain_of_all (by decide)
  exact hcolons.append hs

theorem parse_of_plain (if_nametoindex : List UInt8 → UInt32) {text : List UInt8} (hne : text ≠ [])
    (hplain : Plain text) :
    parse if_nametoindex text =
      match inet_pton text with
      | some ia => { _addr := ia }
      | none => wildcard := by
  have hmem : '%'.toUInt8 ∉ text := fun h => (hplain _ h).2 rfl
  have hstr : c_str text = text := by
    rw [c_str, List.takeWhile_eq_self_iff]
    exact fun ch hch => decide_eq_true (hplain ch hch).1
  rw [parse, if_neg hne, if_neg hmem, hstr]

theorem ofBytes_val (a : in6_addr) : ofBytes a.val = some a := by
  rw [ofBytes, dif_pos a.property]
  rfl

theorem inet_pton_words (a : in6_addr) :
    (wordLoop 8 0 false (wordsOf a.val) []).map toLower ≠ [] ∧
      Plain ((wordLoop 8 0 false (wordsOf a.val) []).map toLower) ∧
      inet_pton ((wordLoop 8 0 false (wordsOf a.val) []).map toLower) = some a := by
  have hlt := wordsOf_lt a.val
  have hlen := length_wordsOf (k := 8) a.property
  have hbytes := flatMap_wordsOf (k := 8) a.property
  obtain ⟨text, htext, hprinted⟩ := wordLoop_false (i := 0) hlt hlen.le []
  rw [htext, List.nil_append]
  generalize wordsOf a.val = ws at hlt hlen hbytes hprinted
  have hvalue : ∀ (quad : Bool) (l : List ℕ), (∀ w ∈ l, w < 2 ^ 16) →
      pieces? quad (l.map lowText) = some (l.flatMap wordBytes) :=
    fun quad l hl => pieces?_map quad fun w hw => hexPiece?_lowText (hl w hw)
  cases hprinted with
  | all h =>
      have hne : ws.map lowText ≠ [] := by
        rw [ne_eq, List.map_eq_nil_iff]
        rintro rfl
        cases hlen
      have hlow : text.map toLower = joinPieces (ws.map lowText) := by
        rw [h]
        exact map_toLower_joinPieces ws
      rw [hlow]
      refine ⟨?_, plain_lowText ws, ?_⟩
      · obtain ⟨w, ws, rfl⟩ := List.exists_cons_of_ne_nil (l := ws) (by rintro rfl; cases hlen)
        rw [List.map_cons, joinPieces, ne_eq, List.append_eq_nil_iff]
        exact fun h => numeral_ne_nil (by decide) w true h.1
      · rw [inet_pton_joinPieces (isPiece_lowText ws) hne, hvalue true ws hlt, hbytes]
        exact ofBytes_val a
  | compressed front back hk hsplit h =>
      rename_i k
      have hlow : text.map toLower =
          joinPieces (front.map lowText) ++ (':'.toUInt8 :: ':'.toUInt8 :: joinPieces (back.map lowText)) := by
        rw [h, List.map_append, List.map_cons, List.map_cons, map_toLower_joinPieces back]
        show (joinPieces (front.map hexText)).map toLower ++ _ = _
        rw [map_toLower_joinPieces front]
        rfl
      have hzeros : ∀ k, (List.replicate k 0).flatMap wordBytes = List.replicate (2 * k) 0 := by
        intro k
        induction k with
        | zero => rfl
        | succ k ih =>
            rw [List.replicate_succ, List.flatMap_cons, ih]
            rfl
      have hwords := congrArg List.length hsplit
      rw [hlen, List.length_append, List.length_append, List.length_replicate] at hwords
      subst hsplit
      rw [hlow]
      refine ⟨by simp, (plain_lowText front).append (plain_colons (plain_lowText back)), ?_⟩
      rw [inet_pton_double _ _ (isPiece_lowText front) (isPiece_lowText back)
        (hvalue false front fun w hw => hlt w (by simp [hw])) (hvalue true back fun w hw => hlt w (by simp [hw]))
        (by rw [length_flatMap_wordBytes, length_flatMap_wordBytes]; omega), length_flatMap_wordBytes,
        length_flatMap_wordBytes]
      have hk : 16 - (2 * front.length + 2 * back.length) = 2 * k := by omega
      rw [hk, ← hzeros, ← List.flatMap_append, ← List.flatMap_append, hbytes]
      exact ofBytes_val a

/-! ### Embedded IPv4 addresses -/

/-- The dotted decimal form of four bytes. -/
def quadText (l : List UInt8) : List UInt8 :=
  ['.'.toUInt8].intercalate (l.map fun b => numeral 10 b.toNat 0 false)

theorem append_eq (result : List UInt8) (b : UInt8) :
    NumberFormatter.append result b.toNat = result ++ numeral 10 b.toNat 0 false := by
  have hb := b.toNat_lt
  have hmax : intType.max = 2 ^ 31 - 1 := rfl
  rw [NumberFormatter.append, appended_natCast (by omega) (by decide)]

theorem dottedQuad?_quadText {l : List UInt8} (hl : l.length = 4) : dottedQuad? (quadText l) = some l := by
  have hne : l.map (fun b => numeral 10 b.toNat 0 false) ≠ [] := by
    rw [ne_eq, List.map_eq_nil_iff]
    rintro rfl
    cases hl
  have hdots : ∀ p ∈ l.map (fun b => numeral 10 b.toNat 0 false), '.'.toUInt8 ∉ p := by
    rw [List.forall_mem_map]
    intro b _ h
    cases isDigitOf_numeral (by decide) (by decide) _ _ _ h
  have hbytes : ∀ b ∈ l,
      ((digits? 10 3 (numeral 10 b.toNat 0 false)).filter (· < 256)).map UInt8.ofNat = some b := by
    intro b _
    have hb : b.toNat < 256 := b.toNat_lt
    rw [digits?_numeral (by decide) (by decide) (by decide) (by omega), Option.filter_some,
      if_pos (decide_eq_true hb), Option.map_some, UInt8.ofNat_toNat]
  have hall := mapM_eq_some (fun d => ((digits? 10 3 d).filter (· < 256)).map UInt8.ofNat)
    (fun b => numeral 10 b.toNat 0 false) hbytes
  rw [dottedQuad?, quadText, List.splitOn_intercalate _ hdots hne, hall, Option.filter_some,
    if_pos (decide_eq_true hl)]

theorem plain_quadText (l : List UInt8) : Plain (quadText l) := by
  unfold quadText
  induction l with
  | nil =>
      intro ch hch
      cases hch
  | cons b l ih =>
      have hb : Plain (numeral 10 b.toNat 0 false) := plain_numeral (by decide) (by decide) _ _
      cases l with
      | nil => simpa using hb
      | cons c l =>
          rw [List.map_cons, List.map_cons, List.intercalate_cons_cons]
          refine (hb.append ?_).append ih
          intro ch hch
          rw [List.mem_singleton.mp hch]
          decide

theorem piece_quadText {b c d e : UInt8} :
    IsPiece (quadText [b, c, d, e]) ∧ hexPiece? (quadText [b, c, d, e]) = none := by
  have htext : quadText [b, c, d, e] = numeral 10 b.toNat 0 false ++ ['.'.toUInt8] ++
      (numeral 10 c.toNat 0 false ++ ['.'.toUInt8] ++ (numeral 10 d.toNat 0 false ++ ['.'.toUInt8] ++ numeral 10 e.toNat 0 false)) := by
    simp [quadText]
  have hpos : ∀ x : UInt8, 0 < (numeral 10 x.toNat 0 false).length := fun x =>
    List.length_pos_iff.mpr (numeral_ne_nil (by decide) _ _)
  have hcolon : ∀ x : UInt8, ':'.toUInt8 ∉ numeral 10 x.toNat 0 false := fun x =>
    (isPiece_numeral (by decide) (by decide) _ _).2
  rw [htext]
  refine ⟨⟨by simp, ?_⟩, ?_⟩
  · simp only [List.mem_append, List.mem_singleton, hcolon, false_or, or_false]
    decide
  · have hb := hpos b
    have hc := hpos c
    have hd := hpos d
    have he := hpos e
    rw [hexPiece?, digits?, if_neg]
    · rfl
    · simp only [List.length_append, List.length_singleton]
      omega

theorem exists_words (a : in6_addr) : ∃ w₀ w₁ w₂ w₃ w₄ w₅ w₆ w₇ : ℕ,
    wordsOf a.val = [w₀, w₁, w₂, w₃, w₄, w₅, w₆, w₇] ∧ w₆ < 2 ^ 16 ∧
      a.val = [w₀, w₁, w₂, w₃, w₄, w₅].flatMap wordBytes ++ [bytes a 12, bytes a 13, bytes a 14, bytes a 15] := by
  have hlen := length_wordsOf (k := 8) a.property
  have hbytes := flatMap_wordsOf (k := 8) a.property
  have hlt := wordsOf_lt a.val
  unfold bytes
  generalize wordsOf a.val = ws at hlen hbytes hlt
  match ws, hlen with
  | [w₀, w₁, w₂, w₃, w₄, w₅, w₆, w₇], _ =>
      refine ⟨w₀, w₁, w₂, w₃, w₄, w₅, w₆, w₇, rfl, hlt w₆ (by simp), ?_⟩
      rw [← hbytes]
      rfl

theorem toStringIPv4_cases {a : in6_addr} (h : (isIPv4Compatible a ∧ !isLoopback a) ∨ isIPv4Mapped a) :
    ∃ front, (front = List.replicate 12 0 ∧ words a 5 = 0 ∨
        front = List.replicate 10 0 ++ [0xFF, 0xFF] ∧ words a 5 ≠ 0) ∧
      a.val = front ++ [bytes a 12, bytes a 13, bytes a 14, bytes a 15] := by
  obtain ⟨w₀, w₁, w₂, w₃, w₄, w₅, w₆, w₇, hwords, -, hval⟩ := exists_words a
  refine ⟨_, ?_, hval⟩
  simp only [isIPv4Compatible, isIPv4Mapped, words, hwords, List.getD_cons_zero, List.getD_cons_succ,
    decide_eq_true_eq] at h ⊢
  rcases h with ⟨⟨rfl, rfl, rfl, rfl, rfl, rfl⟩, -⟩ | ⟨rfl, rfl, rfl, rfl, rfl, rfl⟩
  · exact Or.inl ⟨rfl, rfl⟩
  · exact Or.inr ⟨rfl, by decide⟩

theorem toStringIPv4_eq {a : in6_addr} (h : bytes a 12 ≠ 0) :
    toStringIPv4 a =
      (if words a 5 = 0 then "::".toList.map Char.toUInt8 else "::ffff:".toList.map Char.toUInt8) ++
      quadText [bytes a 12, bytes a 13, bytes a 14, bytes a 15] := by
  rw [toStringIPv4, if_pos h, append_eq, append_eq, append_eq, append_eq]
  generalize (if words a 5 = 0 then _ else _) = front
  simp [quadText]

/-- With the IPv4 address in it, the text is that of the address. -/
theorem inet_pton_toStringIPv4 {a : in6_addr} (h : (isIPv4Compatible a ∧ !isLoopback a) ∨ isIPv4Mapped a)
    (hbyte : bytes a 12 ≠ 0) : Plain (toStringIPv4 a) ∧ inet_pton (toStringIPv4 a) = some a := by
  obtain ⟨front, hfront, hval⟩ := toStringIPv4_cases h
  have hquad := dottedQuad?_quadText (l := [bytes a 12, bytes a 13, bytes a 14, bytes a 15]) rfl
  have hplain := plain_quadText [bytes a 12, bytes a 13, bytes a 14, bytes a 15]
  obtain ⟨hpiece, hhex⟩ := piece_quadText (b := bytes a 12) (c := bytes a 13) (d := bytes a 14) (e := bytes a 15)
  rw [toStringIPv4_eq hbyte]
  generalize quadText [bytes a 12, bytes a 13, bytes a 14, bytes a 15] = text at hquad hplain hpiece hhex
  rcases hfront with ⟨rfl, hzero⟩ | ⟨rfl, hffff⟩
  · rw [if_pos hzero]
    refine ⟨plain_colons hplain, ?_⟩
    have hback : pieces? true [text] = some [bytes a 12, bytes a 13, bytes a 14, bytes a 15] := by
      rw [pieces?, if_pos rfl, hhex, Option.none_or, hquad]
    have hdecode := inet_pton_double [] [text] (by simp) (by simpa using hpiece) rfl hback (by simp)
    have htext : "::".toList.map Char.toUInt8 ++ text =
        joinPieces [] ++ (':'.toUInt8 :: ':'.toUInt8 :: joinPieces [text]) := by
      rw [joinPieces, joinPieces, List.flatMap_nil, List.append_nil]
      rfl
    rw [htext, hdecode, ← ofBytes_val a, hval]
    rfl
  · rw [if_neg hffff]
    have hfour : Plain ("ffff:".toList.map Char.toUInt8) := plain_of_all (by decide)
    refine ⟨plain_colons (hfour.append hplain), ?_⟩
    have hpieces : ∀ p ∈ ["ffff".toList.map Char.toUInt8, text], IsPiece p := by
      rw [List.forall_mem_cons, List.forall_mem_singleton]
      exact ⟨⟨by decide, by decide⟩, hpiece⟩
    have hback : pieces? true ["ffff".toList.map Char.toUInt8, text] =
        some ([0xFF, 0xFF] ++ [bytes a 12, bytes a 13, bytes a 14, bytes a 15]) := by
      have hffff : hexPiece? ("ffff".toList.map Char.toUInt8) = some [0xFF, 0xFF] := by decide
      rw [pieces?, hffff, pieces?, if_pos rfl, hhex, Option.none_or, hquad]
      · rfl
      · simp
    have hdecode := inet_pton_double [] ["ffff".toList.map Char.toUInt8, text] (by simp) hpieces rfl hback
      (by simp)
    have htext : "::ffff:".toList.map Char.toUInt8 ++ text =
        joinPieces [] ++ (':'.toUInt8 :: ':'.toUInt8 :: joinPieces ["ffff".toList.map Char.toUInt8, text]) := by
      rw [joinPieces, joinPieces, List.flatMap_singleton]
      rfl
    rw [htext, hdecode, ← ofBytes_val a, hval]
    rfl

/-- Without the IPv4 address in it, the text is that of the wildcard address or of none. -/
theorem parse_toStringIPv4 {a : in6_addr} (hbyte : bytes a 12 = 0) (if_nametoindex : List UInt8 → UInt32) :
    parse if_nametoindex (toStringIPv4 a) = wildcard := by
  have htext : toStringIPv4 a =
      if words a 5 = 0 then "::".toList.map Char.toUInt8 else "::ffff:".toList.map Char.toUInt8 := by
    rw [toStringIPv4, if_neg (not_not.mpr hbyte)]
  rw [htext]
  split_ifs
  · have hnone : inet_pton ("::".toList.map Char.toUInt8) = some wildcard._addr := by decide
    rw [parse_of_plain if_nametoindex (by decide) (plain_of_all (by decide)), hnone]
    rfl
  · have hnone : inet_pton ("::ffff:".toList.map Char.toUInt8) = none := by decide
    rw [parse_of_plain if_nametoindex (by decide) (plain_of_all (by decide)), hnone]

/-- **Main result.**  The text of an address is read back as the address if and only if it is not that of an
embedded IPv4 address which begins with a zero byte; the wildcard address is read back in any case. -/
theorem parse_toString_iff (if_indextoname : UInt32 → Option (List UInt8))
    (if_nametoindex : List UInt8 → UInt32) (a : in6_addr) :
    parse if_nametoindex (toString if_indextoname { _addr := a }) = { _addr := a } ↔
      bytes a 12 ≠ 0 ∨ a = wildcard._addr ∨ ¬((isIPv4Compatible a ∧ !isLoopback a) ∨ isIPv4Mapped a) := by
  by_cases hIPv4 : (isIPv4Compatible a ∧ !isLoopback a) ∨ isIPv4Mapped a
  · have htext : toString if_indextoname { _addr := a } = toStringIPv4 a := if_pos hIPv4
    rw [htext]
    by_cases hbyte : bytes a 12 = 0
    · rw [parse_toStringIPv4 hbyte]
      constructor
      · intro h
        exact Or.inr (Or.inl (congrArg _addr h).symm)
      · rintro (h | h | h)
        · exact absurd hbyte h
        · rw [h]
          rfl
        · exact absurd hIPv4 h
    · obtain ⟨hplain, hdecode⟩ := inet_pton_toStringIPv4 hIPv4 hbyte
      have hne : toStringIPv4 a ≠ [] := by
        rw [toStringIPv4_eq hbyte]
        split_ifs <;> simp
      rw [parse_of_plain _ hne hplain, hdecode]
      exact iff_of_true rfl (Or.inl hbyte)
  · obtain ⟨hne, hplain, hdecode⟩ := inet_pton_words a
    have htext : toString if_indextoname { _addr := a } =
        (wordLoop 8 0 false (wordsOf a.val) []).map toLower := by
      rw [toString, if_neg hIPv4]
      show (_ ++ []).map toLower = _
      rw [List.append_nil]
    rw [htext, parse_of_plain _ hne hplain, hdecode]
    exact iff_of_true rfl (Or.inr (Or.inr hIPv4))

/-- The address `::0.1.2.3` is written as `::`. -/
theorem not_parse_toString :
    ¬∀ (if_indextoname : UInt32 → Option (List UInt8)) (if_nametoindex : List UInt8 → UInt32) (a : in6_addr),
      parse if_nametoindex (toString if_indextoname { _addr := a }) = { _addr := a } := by
  intro h
  have hbad := h (fun _ => none) (fun _ => 0) ⟨List.replicate 12 0 ++ [0, 1, 2, 3], rfl⟩
  revert hbad
  decide

end IPv6AddressImpl

end Poco.Net
