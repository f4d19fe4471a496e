import Poco.Foundation.NumericString
import Poco.Foundation.UTF8Encoding
import Mathlib.Data.List.TakeWhile

/-! # `UTF8::escape` and `UTF8::unescape`

`escape` reads a character as it finds its bytes, without a table of lengths, and writes it as itself,
with a short escape or as one or two `\uXXXX`.  `unescape` recognises these escapes, and passes on every
other byte, a backslash before any other character included.

So the two characters that `escape` writes with a backslash and that `unescape` does not know, the
quotation mark and the slash, do not come back (`unescape_escape`). -/

namespace Poco.Foundation

open Poco.Lib

namespace UTF8

/-- The bytes of a literal. -/
def text (s : String) : List UInt8 := s.toList.map Char.toUInt8

/-! ### `escape` -/

/-- `offsetsFromUTF8`. -/
def offsetsFromUTF8 : List UInt32 :=
  [0x00000000, 0x00003080, 0x000E2080, 0x03C82080, 0xFA082080, 0x82082080]

/-- The `do` loop after `sz` rounds: the bytes that continue the character. -/
def gather (ch : UInt32) (sz : ℕ) : List UInt8 → UInt32 × ℕ × List UInt8
  | [] => (ch, sz, [])
  | b :: it =>
      if b &&& 0xC0 = 0x80 ∧ sz < 6 then gather ((ch <<< 6) + b.toUInt32) (sz + 1) it
      else (ch, sz, b :: it)

/-- `"\\u"` and the four digits that `NumberFormatter::appendHex` writes. -/
def appendHex4 (value : ℕ) (lowerCaseHex : Bool) : List UInt8 :=
  text "\\u" ++ Hex.intToStr value 4 lowerCaseHex

/-- What is appended for a character. -/
def escapeChar (strictJSON lowerCaseHex : Bool) (ch : UInt32) : List UInt8 :=
  if ch = 0x0A then text "\\n"
  else if ch = 0x09 then text "\\t"
  else if ch = 0x0D then text "\\r"
  else if ch = 0x08 then text "\\b"
  else if ch = 0x0C then text "\\f"
  else if ch = 0x0B then
    if strictJSON then (if lowerCaseHex then text "\\u000b" else text "\\u000B") else text "\\v"
  else if ch = 0x07 then (if strictJSON then text "\\u0007" else text "\\a")
  else if ch = 0x5C then text "\\\\"
  else if ch = 0x22 then text "\\\""
  else if ch = 0x2F then text "\\/"
  else if ch = 0 then text "\\u0000"
  else if ch < 32 ∨ ch = 0x7F then appendHex4 ch.toUInt16.toNat lowerCaseHex
  else if ch > 0xFFFF then
    let ch := ch - 0x10000
    appendHex4 (((ch >>> 10) &&& 0x03FF).toUInt16.toNat + 0xD800) lowerCaseHex ++
      appendHex4 ((ch &&& 0x03FF).toUInt16.toNat + 0xDC00) lowerCaseHex
  else if ch ≥ 0x80 ∧ ch ≤ 0xFFFF then appendHex4 ch.toUInt16.toNat lowerCaseHex
  else [ch.toUInt8]

/-- The loop of `escape`; every round takes a byte. -/
def escapeLoop (strictJSON lowerCaseHex : Bool) : ℕ → List UInt8 → List UInt8
  | 0, _ => []
  | _, [] => []
  | fuel + 1, b :: it =>
      let (ch, sz, it) := gather b.toUInt32 1 it
      escapeChar strictJSON lowerCaseHex (ch - offsetsFromUTF8.getD (sz - 1) 0) ++
        escapeLoop strictJSON lowerCaseHex fuel it

/-- `escape(begin, end, strictJSON, lowerCaseHex)`. -/
def escapeRange (s : List UInt8) (strictJSON lowerCaseHex : Bool) : List UInt8 :=
  escapeLoop strictJSON lowerCaseHex s.length s

/-- `escape(s, strictJSON)`. -/
def escape (s : List UInt8) (strictJSON : Bool) : List UInt8 := escapeRange s strictJSON false

/-! ### `unescape` -/

/-- `(UInt32) *it` for a signed `char`. -/
def charToUInt32 (b : UInt8) : UInt32 := if b < 0x80 then b.toUInt32 else b.toUInt32 ||| 0xFFFFFF00

/-- At most `k` hexadecimal digits: their value, if there are any, and what follows them. -/
def readHex (k : ℕ) (it : List UInt8) : Option UInt32 × List UInt8 :=
  let digs := (it.take k).takeWhile Hex.isHexDigit
  (if digs = [] then none else some (UInt32.ofNat (Hex.hexNumber digs)), it.drop digs.length)

/-- The other half of a surrogate pair: the text behind a `\\u`, or what there is of it. -/
def skipOther (it : List UInt8) : List UInt8 :=
  if it.head? = some 0x5C then
    if it.tail.head? = some 0x75 then it.tail.tail else it.tail
  else it

/-- `case 'u'`, behind the `u`: a character or a surrogate pair. -/
def readUnicode (it : List UInt8) : UInt32 × List UInt8 :=
  let (value, it) := readHex 4 it
  let ch := value.getD 0x5C
  if ch ≥ 0xD800 ∧ ch ≤ 0xDBFF then
    let (value, it) := readHex 4 (skipOther it)
    match value with
    | some temp =>
        if temp ≥ 0xDC00 ∧ temp ≤ 0xDFFF then
          ((((ch - 0xD800) <<< 10) ||| (temp - 0xDC00)) + 0x10000, it)
        else (ch, it)
    | none => (ch, it)
  else (ch, it)

/-- The cases of the `switch` that stand for one character. -/
def shortEscape (c : UInt8) : Option UInt32 :=
  if c = 0x5C then some 0x5C
  else if c = 0x6E then some 0x0A
  else if c = 0x74 then some 0x09
  else if c = 0x72 then some 0x0D
  else if c = 0x62 then some 0x08
  else if c = 0x66 then some 0x0C
  else if c = 0x76 then some 0x0B
  else if c = 0x61 then some 0x07
  else none

/-- The `switch` behind a backslash; at the end of the text `*it` is the terminating zero.  By default
the backslash is kept and nothing is skipped. -/
def readEscape (it : List UInt8) : UInt32 × List UInt8 :=
  match it with
  | [] => (0x5C, [])
  | c :: rest =>
      if c = 0x55 then
        let (value, it) := readHex 8 rest
        (value.getD 0x5C, it)
      else if c = 0x75 then readUnicode rest
      else
        match shortEscape c with
        | some ch => (ch, rest)
        | none => (0x5C, it)

/-- What is appended for a character: its UTF-8 bytes. -/
def putChar (ch : UInt32) : List UInt8 := (UTF8Encoding.convertChar ch.toInt32.toInt 4).2

/-- The loop of `unescape`; every round takes a byte. -/
def unescapeLoop : ℕ → List UInt8 → List UInt8
  | 0, _ => []
  | _, [] => []
  | fuel + 1, b :: it =>
      let (ch, it) := if charToUInt32 b = 0x5C then readEscape it else (charToUInt32 b, it)
      putChar ch ++ unescapeLoop fuel it

/-- `unescape(s)`. -/
def unescape (s : List UInt8) : List UInt8 := unescapeLoop s.length s

/-! ### What `escape` reads

The bytes of a character are its first byte and the bytes that continue it. -/

theorem continues_iff (b : UInt8) : b &&& 0xC0 = 0x80 ↔ 0x80 ≤ b.toNat ∧ b.toNat ≤ 0xBF := by
  have hall : ∀ b : UInt8, decide (b &&& 0xC0 = 0x80 ↔ 0x80 ≤ b.toNat ∧ b.toNat ≤ 0xBF) = true := by
    apply forall_byte
    decide +kernel
  exact of_decide_eq_true (hall b)

/-- The text does not continue a character. -/
def Fresh (s : List UInt8) : Prop := ∀ b ∈ s.head?, ¬(0x80 ≤ b.toNat ∧ b.toNat ≤ 0xBF)

section

variable {ch : UInt32} {sz : ℕ} {it : List UInt8} {b : UInt8}

theorem gather_of_fresh (h : Fresh it) : gather ch sz it = (ch, sz, it) := by
  cases it with
  | nil => rfl
  | cons b it =>
      have hb : ¬(b &&& 0xC0 = 0x80) := by
        rw [continues_iff]
        exact h b rfl
      rw [gather, if_neg (fun h => hb h.1)]

theorem gather_cons (hb : 0x80 ≤ b.toNat ∧ b.toNat ≤ 0xBF) (hsz : sz < 6) :
    gather ch sz (b :: it) = gather ((ch <<< 6) + b.toUInt32) (sz + 1) it := by
  rw [gather, if_pos ⟨(continues_iff b).mpr hb, hsz⟩]

/-- Another byte is another digit, as long as nothing is shifted out. -/
theorem toNat_shiftLeft_add (ch : UInt32) (b : UInt8) (h : ch.toNat < 2 ^ 25) :
    ((ch <<< 6) + b.toUInt32).toNat = ch.toNat * 64 + b.toNat := by
  have hb := b.toNat_lt
  rw [UInt32.toNat_add, UInt32.toNat_shiftLeft, UInt8.toNat_toUInt32]
  have hsix : (6 : UInt32).toNat % 32 = 6 := rfl
  rw [hsix, Nat.shiftLeft_eq]
  omega

theorem sub_offset {v : ℕ} {offset : UInt32} (h : ch.toNat = v + offset.toNat) :
    ch - offset = UInt32.ofNat v := by
  have hch := ch.toNat_lt
  rw [← UInt32.toNat_inj, UInt32.toNat_sub_of_le _ _ (UInt32.le_iff_toNat_le.mpr (by omega)),
    UInt32.toNat_ofNat']
  omega

end

/-- `escape` reads the character whose bytes come first. -/
theorem gather_of_encodes {v : ℕ} {a : UInt8} {bs it : List UInt8} (h : Encodes v (a :: bs))
    (hit : Fresh it) :
    ∃ ch, gather a.toUInt32 1 (bs ++ it) = (ch, bs.length + 1, it) ∧
      ch - offsetsFromUTF8.getD bs.length 0 = UInt32.ofNat v := by
  have ha : a.toUInt32.toNat = a.toNat := UInt8.toNat_toUInt32 a
  cases h with
  | one hv hav =>
      exact ⟨_, gather_of_fresh hit, sub_offset (by rw [ha, hav]; rfl)⟩
  | @two _ b hlo hhi hav hb =>
      refine ⟨(a.toUInt32 <<< 6) + b.toUInt32, ?_, sub_offset ?_⟩
      · rw [List.cons_append, gather_cons (by omega) (by decide)]
        exact gather_of_fresh hit
      · rw [toNat_shiftLeft_add _ _ (by omega), ha]
        show _ = v + 0x3080
        omega
  | @three _ b c hlo hhi hsur hav hb hc =>
      have h₁ := toNat_shiftLeft_add a.toUInt32 b (by omega)
      refine ⟨(((a.toUInt32 <<< 6) + b.toUInt32) <<< 6) + c.toUInt32, ?_, sub_offset ?_⟩
      · rw [List.cons_append, List.cons_append, gather_cons (by omega) (by decide),
          gather_cons (by omega) (by decide)]
        exact gather_of_fresh hit
      · rw [toNat_shiftLeft_add _ _ (by omega), h₁, ha]
        show _ = v + 0xE2080
        omega
  | @four _ b c d hlo hhi hav hb hc hd =>
      have h₁ := toNat_shiftLeft_add a.toUInt32 b (by omega)
      have h₂ := toNat_shiftLeft_add ((a.toUInt32 <<< 6) + b.toUInt32) c (by omega)
      refine ⟨(((((a.toUInt32 <<< 6) + b.toUInt32) <<< 6) + c.toUInt32) <<< 6) + d.toUInt32, ?_, sub_offset ?_⟩
      · rw [List.cons_append, List.cons_append, List.cons_append, gather_cons (by omega) (by decide),
          gather_cons (by omega) (by decide), gather_cons (by omega) (by decide)]
        exact gather_of_fresh hit
      · rw [toNat_shiftLeft_add _ _ (by omega), h₂, h₁, ha]
        show _ = v + 0x3C82080
        omega

/-- The UTF-8 text of characters. -/
def utf8 (cs : List Char) : List UInt8 := cs.flatMap String.utf8EncodeChar

theorem utf8_cons (c : Char) (cs : List Char) : utf8 (c :: cs) = String.utf8EncodeChar c ++ utf8 cs := rfl

theorem fresh_utf8 (cs : List Char) : Fresh (utf8 cs) := by
  intro b hb
  cases cs with
  | nil => simp [utf8] at hb
  | cons c cs =>
      rw [utf8_cons] at hb
      have henc := encodes_utf8EncodeChar c
      generalize String.utf8EncodeChar c = bs at hb henc
      cases henc <;>
      · obtain rfl := Option.some.inj hb
        omega

theorem escapeLoop_utf8 (strictJSON lowerCaseHex : Bool) {fuel : ℕ} {cs : List Char}
    (hfuel : (utf8 cs).length ≤ fuel) :
    escapeLoop strictJSON lowerCaseHex fuel (utf8 cs) =
      cs.flatMap fun c => escapeChar strictJSON lowerCaseHex (UInt32.ofNat c.toNat) := by
  induction cs generalizing fuel with
  | nil => cases fuel <;> rfl
  | cons c cs ih =>
      rw [utf8_cons, List.length_append] at hfuel
      have henc := encodes_utf8EncodeChar c
      have hne : String.utf8EncodeChar c ≠ [] := String.utf8EncodeChar_ne_nil
      rw [utf8_cons, List.flatMap_cons]
      generalize String.utf8EncodeChar c = bs at *
      obtain ⟨a, bs, rfl⟩ := List.exists_cons_of_ne_nil hne
      rw [List.length_cons] at hfuel
      obtain ⟨fuel, rfl⟩ : ∃ n, fuel = n + 1 := ⟨fuel - 1, by omega⟩
      obtain ⟨ch, hgather, hch⟩ := gather_of_encodes henc (fresh_utf8 cs)
      rw [List.cons_append, escapeLoop, hgather]
      dsimp only
      rw [Nat.add_sub_cancel, hch, ih (by omega)]

theorem escape_utf8 (strictJSON : Bool) (cs : List Char) :
    escape (utf8 cs) strictJSON =
      cs.flatMap fun c => escapeChar strictJSON false (UInt32.ofNat c.toNat) :=
  escapeLoop_utf8 strictJSON false le_rfl

/-! ### What `unescape` reads -/

theorem length_readHex_le (k : ℕ) (it : List UInt8) : (readHex k it).2.length ≤ it.length := by
  rw [readHex, List.length_drop]
  exact Nat.sub_le _ _

theorem length_skipOther_le (it : List UInt8) : (skipOther it).length ≤ it.length := by
  unfold skipOther
  split_ifs
  · rw [List.length_tail, List.length_tail]
    omega
  · rw [List.length_tail]
    omega
  · exact le_rfl

theorem length_readUnicode_le (it : List UInt8) : (readUnicode it).2.length ≤ it.length := by
  have h₁ := length_readHex_le 4 it
  have h₂ := length_skipOther_le (readHex 4 it).2
  have h₃ := length_readHex_le 4 (skipOther (readHex 4 it).2)
  unfold readUnicode
  dsimp only
  split_ifs
  · split
    · split_ifs <;> dsimp only <;> omega
    · dsimp only
      omega
  · dsimp only
    omega

theorem length_readEscape_le (it : List UInt8) : (readEscape it).2.length ≤ it.length := by
  cases it with
  | nil => exact le_rfl
  | cons c rest =>
      have hhex := length_readHex_le 8 rest
      have hunicode := length_readUnicode_le rest
      have hcons : (c :: rest).length = rest.length + 1 := rfl
      unfold readEscape
      dsimp only
      split_ifs
      · exact le_trans hhex (by omega)
      · omega
      · split <;> dsimp only <;> omega

/-- Each round takes a byte, so more rounds than bytes make no difference. -/
theorem unescapeLoop_eq {fuel : ℕ} {s : List UInt8} (h : s.length ≤ fuel) :
    unescapeLoop fuel s = unescape s := by
  suffices hmore : ∀ n m s, s.length ≤ n → s.length ≤ m → unescapeLoop n s = unescapeLoop m s from
    hmore fuel s.length s h le_rfl
  intro n
  induction n with
  | zero =>
      intro m s hn _
      obtain rfl : s = [] := List.length_eq_zero_iff.mp (by omega)
      cases m <;> rfl
  | succ n ih =>
      intro m s hn hm
      cases s with
      | nil => cases m <;> rfl
      | cons b it =>
          rw [List.length_cons] at hn hm
          obtain ⟨m, rfl⟩ : ∃ k, m = k + 1 := ⟨m - 1, by omega⟩
          have hle := length_readEscape_le it
          rw [unescapeLoop, unescapeLoop]
          split_ifs
          · dsimp only
            rw [ih m _ (by omega) (by omega)]
          · dsimp only
            rw [ih m _ (by omega) (by omega)]

theorem unescape_cons {b : UInt8} (hlt : b < 0x80) (hb : b ≠ 0x5C) (it : List UInt8) :
    unescape (b :: it) = putChar b.toUInt32 ++ unescape it := by
  have hch : charToUInt32 b = b.toUInt32 := by rw [charToUInt32, if_pos hlt]
  have hne : ¬(b.toUInt32 = 0x5C) := by
    intro h
    exact hb (UInt8.toUInt32_inj.mp h)
  rw [unescape, List.length_cons, unescapeLoop, hch, if_neg hne]
  dsimp only
  rw [unescapeLoop_eq le_rfl]

theorem unescape_backslash {it it' : List UInt8} {ch : UInt32} (h : readEscape it = (ch, it')) :
    unescape (0x5C :: it) = putChar ch ++ unescape it' := by
  have hch : charToUInt32 0x5C = 0x5C := rfl
  have hle := length_readEscape_le it
  rw [h] at hle
  rw [unescape, List.length_cons, unescapeLoop, if_pos hch, h]
  dsimp only
  rw [unescapeLoop_eq hle]

theorem readHex_intToStr {v : ℕ} (hv : v < 2 ^ 16) (lowerCaseHex : Bool) (it : List UInt8) :
    readHex 4 (Hex.intToStr v 4 lowerCaseHex ++ it) = (some (UInt32.ofNat v), it) := by
  have hlen : (Hex.intToStr v 4 lowerCaseHex).length = 4 :=
    Hex.length_intToStr_width (n := 3) (show v < 16 ^ 4 by omega) lowerCaseHex
  have htake : (Hex.intToStr v 4 lowerCaseHex ++ it).take 4 = Hex.intToStr v 4 lowerCaseHex :=
    List.take_left' hlen
  have hwhile : (Hex.intToStr v 4 lowerCaseHex).takeWhile Hex.isHexDigit =
      Hex.intToStr v 4 lowerCaseHex :=
    List.takeWhile_eq_self_iff.mpr (Hex.isHexDigit_intToStr v 4 lowerCaseHex)
  rw [readHex, htake, hwhile, if_neg (Hex.intToStr_ne_nil v 4 lowerCaseHex),
    Hex.hexNumber_intToStr (by omega), List.drop_left]

theorem appendHex4_append (v : ℕ) (lowerCaseHex : Bool) (it : List UInt8) :
    appendHex4 v lowerCaseHex ++ it = 0x5C :: 0x75 :: (Hex.intToStr v 4 lowerCaseHex ++ it) := by
  have htext : text "\\u" = [0x5C, 0x75] := by decide
  rw [appendHex4, htext]
  rfl

theorem between_ofNat {v : ℕ} (hv : v < 2 ^ 32) (lo hi : UInt32) :
    (UInt32.ofNat v ≥ lo ∧ UInt32.ofNat v ≤ hi) ↔ lo.toNat ≤ v ∧ v ≤ hi.toNat := by
  rw [ge_iff_le, UInt32.le_iff_toNat_le, UInt32.le_iff_toNat_le, UInt32.toNat_ofNat',
    Nat.mod_eq_of_lt hv]

theorem readEscape_unicode (it : List UInt8) : readEscape (0x75 :: it) = readUnicode it := rfl

/-- A `\uXXXX` that is not the first half of a surrogate pair. -/
theorem unescape_appendHex4 {v : ℕ} (hv : v < 2 ^ 16) (hsur : ¬(0xD800 ≤ v ∧ v ≤ 0xDBFF))
    (lowerCaseHex : Bool) (it : List UInt8) :
    unescape (appendHex4 v lowerCaseHex ++ it) = putChar (UInt32.ofNat v) ++ unescape it := by
  rw [appendHex4_append]
  apply unescape_backslash
  rw [readEscape_unicode, readUnicode, readHex_intToStr hv]
  dsimp only [Option.getD_some]
  rw [if_neg ((between_ofNat (by omega) _ _).not.mpr hsur)]

theorem pair_eq {hi lo : ℕ} (hhi : hi < 2 ^ 10) (hlo : lo < 2 ^ 10) :
    (((UInt32.ofNat (hi + 0xD800) - 0xD800) <<< 10) ||| (UInt32.ofNat (lo + 0xDC00) - 0xDC00)) +
      0x10000 = UInt32.ofNat (hi * 1024 + lo + 0x10000) := by
  have h₁ : UInt32.ofNat (hi + 0xD800) - 0xD800 = UInt32.ofNat hi := by
    refine sub_offset ?_
    rw [UInt32.toNat_ofNat', Nat.mod_eq_of_lt (by omega)]
    rfl
  have h₂ : UInt32.ofNat (lo + 0xDC00) - 0xDC00 = UInt32.ofNat lo := by
    refine sub_offset ?_
    rw [UInt32.toNat_ofNat', Nat.mod_eq_of_lt (by omega)]
    rfl
  have hten : (10 : UInt32).toNat % 32 = 10 := rfl
  have hoffset : (0x10000 : UInt32).toNat = 0x10000 := rfl
  have hshift : (hi <<< 10) % 2 ^ 32 = hi <<< 10 := by
    rw [Nat.shiftLeft_eq]
    omega
  rw [h₁, h₂, ← UInt32.toNat_inj, UInt32.toNat_add, UInt32.toNat_or, UInt32.toNat_shiftLeft, hten,
    hoffset, UInt32.toNat_ofNat', UInt32.toNat_ofNat', UInt32.toNat_ofNat', Nat.mod_eq_of_lt (by omega : hi < 2 ^ 32),
    Nat.mod_eq_of_lt (by omega : lo < 2 ^ 32), hshift, ← Nat.shiftLeft_add_eq_or_of_lt hlo,
    Nat.shiftLeft_eq]

theorem readUnicode_pair {v w : ℕ} (hv : 0xD800 ≤ v ∧ v ≤ 0xDBFF) (hw : 0xDC00 ≤ w ∧ w ≤ 0xDFFF)
    (lowerCaseHex : Bool) (it : List UInt8) :
    readUnicode (Hex.intToStr v 4 lowerCaseHex ++ 0x5C :: 0x75 :: (Hex.intToStr w 4 lowerCaseHex ++ it)) =
      ((((UInt32.ofNat v - 0xD800) <<< 10) ||| (UInt32.ofNat w - 0xDC00)) + 0x10000, it) := by
  have hskip : ∀ it, skipOther (0x5C :: 0x75 :: it) = it := fun _ => rfl
  rw [readUnicode, readHex_intToStr (by omega)]
  dsimp only [Option.getD_some]
  rw [if_pos ((between_ofNat (by omega) _ _).mpr hv), hskip, readHex_intToStr (by omega)]
  dsimp only
  rw [if_pos ((between_ofNat (by omega) _ _).mpr hw)]

theorem unescape_surrogates {hi lo : ℕ} (hhi : hi < 2 ^ 10) (hlo : lo < 2 ^ 10)
    (lowerCaseHex : Bool) (it : List UInt8) :
    unescape (appendHex4 (hi + 0xD800) lowerCaseHex ++ appendHex4 (lo + 0xDC00) lowerCaseHex ++ it) =
      putChar (UInt32.ofNat (hi * 1024 + lo + 0x10000)) ++ unescape it := by
  rw [List.append_assoc, appendHex4_append, appendHex4_append]
  apply unescape_backslash
  rw [readEscape_unicode, readUnicode_pair (by omega) (by omega), pair_eq hhi hlo]

/-! ### Round trip -/

theorem unescape_short {d : UInt8} {ch : UInt32} (h : shortEscape d = some ch) (it : List UInt8) :
    unescape (0x5C :: d :: it) = putChar ch ++ unescape it := by
  apply unescape_backslash
  have hU : ¬(d = 0x55) := by
    rintro rfl
    cases h
  have hu : ¬(d = 0x75) := by
    rintro rfl
    cases h
  rw [readEscape, if_neg hU, if_neg hu, h]

/-- What `unescape` takes for the character `ch`: the character itself, a short escape or its number. -/
def standsFor (ch : UInt32) : List UInt8 → Bool
  | [b] => b < 0x80 && b ≠ 0x5C && b.toUInt32 = ch
  | [b, d] => b = 0x5C && shortEscape d = some ch
  | s => s = appendHex4 ch.toNat false

theorem unescape_of_standsFor {s : List UInt8} {n : ℕ} (hn : n < 0x80)
    (h : standsFor (UInt32.ofNat n) s = true) (it : List UInt8) :
    unescape (s ++ it) = putChar (UInt32.ofNat n) ++ unescape it := by
  have hnat : (UInt32.ofNat n).toNat = n := by
    rw [UInt32.toNat_ofNat']
    omega
  fun_cases standsFor (UInt32.ofNat n) s with
  | case1 b =>
      simp only [standsFor, Bool.and_eq_true, decide_eq_true_eq] at h
      obtain ⟨⟨hlt, hne⟩, hb⟩ := h
      rw [← hb]
      exact unescape_cons hlt hne it
  | case2 b d =>
      simp only [standsFor, Bool.and_eq_true, decide_eq_true_eq] at h
      obtain ⟨rfl, hd⟩ := h
      exact unescape_short hd it
  | case3 s h₁ h₂ =>
      rw [standsFor] at h
      · rw [of_decide_eq_true h, hnat]
        exact unescape_appendHex4 (by omega) (by omega) false it
      · exact h₁
      · exact h₂

/-- Most of the ASCII characters are written as they are. -/
theorem escapeChar_printable (strictJSON lowerCaseHex : Bool) {n : ℕ} (hlow : 0x20 ≤ n) (hhigh : n < 0x7F)
    (hquote : n ≠ 0x22) (hslash : n ≠ 0x2F) (hback : n ≠ 0x5C) :
    escapeChar strictJSON lowerCaseHex (UInt32.ofNat n) = [UInt8.ofNat n] := by
  have hnat : (UInt32.ofNat n).toNat = n := by
    rw [UInt32.toNat_ofNat']
    omega
  have hne : ∀ k : UInt32, n ≠ k.toNat → ¬(UInt32.ofNat n = k) := by
    rintro k hk rfl
    exact hk hnat.symm
  have hlt : ∀ k : UInt32, k.toNat ≤ n → ¬(UInt32.ofNat n < k) := by
    intro k hk
    rw [UInt32.lt_iff_toNat_lt, hnat]
    omega
  have hascii : ¬(UInt32.ofNat n > 0xFFFF) ∧ ¬(UInt32.ofNat n ≥ 0x80 ∧ UInt32.ofNat n ≤ 0xFFFF) := by
    rw [gt_iff_lt, ge_iff_le, UInt32.lt_iff_toNat_lt, UInt32.le_iff_toNat_le, hnat]
    show ¬(0xFFFF < n) ∧ ¬(0x80 ≤ n ∧ _)
    omega
  have hcontrol : ¬(UInt32.ofNat n < 32 ∨ UInt32.ofNat n = 0x7F) := by
    rintro (h | h)
    · exact hlt 32 hlow h
    · exact hne 0x7F (by show n ≠ 0x7F; omega) h
  have hbyte : (UInt32.ofNat n).toUInt8 = UInt8.ofNat n := by
    rw [← UInt8.toNat_inj, UInt32.toNat_toUInt8, hnat, UInt8.toNat_ofNat']
  rw [escapeChar, if_neg (hne _ (by show n ≠ 0x0A; omega)), if_neg (hne _ (by show n ≠ 0x09; omega)),
    if_neg (hne _ (by show n ≠ 0x0D; omega)), if_neg (hne _ (by show n ≠ 0x08; omega)),
    if_neg (hne _ (by show n ≠ 0x0C; omega)), if_neg (hne _ (by show n ≠ 0x0B; omega)),
    if_neg (hne _ (by show n ≠ 0x07; omega)), if_neg (hne 0x5C hback),
    if_neg (hne 0x22 hquote), if_neg (hne 0x2F hslash),
    if_neg (hne _ (by show n ≠ 0; omega)), if_neg hcontrol, if_neg hascii.1, if_neg hascii.2, hbyte]

/-- Every ASCII character but the quotation mark and the slash is written in a form that is read back. -/
theorem standsFor_escapeChar (strictJSON : Bool) {n : ℕ} (hn : n < 0x80) (hquote : n ≠ 0x22) (hslash : n ≠ 0x2F) :
    standsFor (UInt32.ofNat n) (escapeChar strictJSON false (UInt32.ofNat n)) = true := by
  have hcontrol : ∀ n < 0x20,
      standsFor (UInt32.ofNat n) (escapeChar strictJSON false (UInt32.ofNat n)) = true := by
    cases strictJSON
    · decide
    · decide
  have hother : n < 0x20 ∨ n = 0x5C ∨ n = 0x7F ∨ 0x20 ≤ n ∧ n < 0x7F ∧ n ≠ 0x5C := by omega
  rcases hother with h | rfl | rfl | ⟨hlow, hhigh, hback⟩
  · exact hcontrol n h
  · cases strictJSON <;> decide
  · cases strictJSON <;> decide
  · have hbyte : (UInt8.ofNat n).toNat = n := by
      rw [UInt8.toNat_ofNat']
      omega
    rw [escapeChar_printable _ _ hlow hhigh hquote hslash hback]
    simp only [standsFor, Bool.and_eq_true, decide_eq_true_eq, UInt8.lt_iff_toNat_lt, ne_eq, ← UInt8.toNat_inj,
      ← UInt32.toNat_inj, UInt8.toNat_toUInt32, UInt32.toNat_ofNat', hbyte]
    show (n < 0x80 ∧ ¬(n = 0x5C)) ∧ n = n % 2 ^ 32
    omega

theorem toUInt16_and (x : UInt32) : (x &&& 0x03FF).toUInt16.toNat = x.toNat % 1024 := by
  rw [UInt32.toNat_toUInt16, UInt32.toNat_and]
  have hmask : x.toNat &&& (0x03FF : UInt32).toNat = x.toNat % 1024 :=
    Nat.and_two_pow_sub_one_eq_mod x.toNat 10
  rw [hmask]
  omega

/-- The other characters are written by their number, or as a surrogate pair. -/
theorem escapeChar_of_ge (strictJSON lowerCaseHex : Bool) {ch : UInt32} (h : 0x80 ≤ ch.toNat) :
    escapeChar strictJSON lowerCaseHex ch =
      if ch.toNat ≤ 0xFFFF then appendHex4 ch.toNat lowerCaseHex
      else appendHex4 ((ch.toNat - 0x10000) / 1024 % 1024 + 0xD800) lowerCaseHex ++
        appendHex4 ((ch.toNat - 0x10000) % 1024 + 0xDC00) lowerCaseHex := by
  have hne : ∀ k : UInt32, k.toNat < 0x80 → ¬(ch = k) := by
    rintro k hk rfl
    omega
  rw [escapeChar, if_neg (hne _ (by decide)), if_neg (hne _ (by decide)), if_neg (hne _ (by decide)),
    if_neg (hne _ (by decide)), if_neg (hne _ (by decide)), if_neg (hne _ (by decide)),
    if_neg (hne _ (by decide)), if_neg (hne _ (by decide)), if_neg (hne _ (by decide)),
    if_neg (hne _ (by decide)), if_neg (hne _ (by decide))]
  have hlow : ¬(ch < 32 ∨ ch = 0x7F) := by
    rintro (hlt | heq)
    · have := UInt32.lt_iff_toNat_lt.mp hlt
      have h32 : (32 : UInt32).toNat = 32 := rfl
      omega
    · exact hne _ (by decide) heq
  have hgt : ch > 0xFFFF ↔ ¬(ch.toNat ≤ 0xFFFF) := by
    rw [gt_iff_lt, UInt32.lt_iff_toNat_lt, Nat.not_le]
    rfl
  rw [if_neg hlow]
  by_cases hle : ch.toNat ≤ 0xFFFF
  · have hshort : ch.toUInt16.toNat = ch.toNat := by
      rw [UInt32.toNat_toUInt16]
      omega
    have hrange : ch ≥ 0x80 ∧ ch ≤ 0xFFFF := ⟨UInt32.le_iff_toNat_le.mpr h, UInt32.le_iff_toNat_le.mpr hle⟩
    rw [if_neg (hgt.not.mpr (not_not.mpr hle)), if_pos hrange, if_pos hle, hshort]
  · have hsub : (ch - 0x10000).toNat = ch.toNat - 0x10000 :=
      UInt32.toNat_sub_of_le _ _ (UInt32.le_iff_toNat_le.mpr (by show 0x10000 ≤ ch.toNat; omega))
    rw [if_pos (hgt.mpr hle), if_neg hle]
    dsimp only
    have hten : (10 : UInt32).toNat % 32 = 10 := rfl
    rw [toUInt16_and, toUInt16_and, UInt32.toNat_shiftRight, hsub, hten, Nat.shiftRight_eq_div_pow]

/-- Whatever is written for a character other than the quotation mark and the slash is read back. -/
theorem unescape_escapeChar (strictJSON : Bool) {n : ℕ} (hle : n ≤ 0x10FFFF)
    (hsur : ¬(0xD800 ≤ n ∧ n ≤ 0xDFFF)) (hquote : n ≠ 0x22) (hslash : n ≠ 0x2F) (it : List UInt8) :
    unescape (escapeChar strictJSON false (UInt32.ofNat n) ++ it) =
      putChar (UInt32.ofNat n) ++ unescape it := by
  have hnat : (UInt32.ofNat n).toNat = n := by
    rw [UInt32.toNat_ofNat']
    omega
  by_cases hascii : n < 0x80
  · exact unescape_of_standsFor hascii (standsFor_escapeChar strictJSON hascii hquote hslash) it
  · rw [escapeChar_of_ge _ _ (by omega), hnat]
    split_ifs with hbmp
    · exact unescape_appendHex4 (by omega) (by omega) false it
    · rw [unescape_surrogates (by omega) (by omega)]
      congr 3
      omega

/-- A backslash before a character that is no escape is kept, and so is the character. -/
theorem unescape_kept {d : UInt8} (hlt : d < 0x80) (hU : d ≠ 0x55) (hu : d ≠ 0x75)
    (hnone : shortEscape d = none) (it : List UInt8) :
    unescape (0x5C :: d :: it) = 0x5C :: (putChar d.toUInt32 ++ unescape it) := by
  have hread : readEscape (d :: it) = (0x5C, d :: it) := by
    rw [readEscape, if_neg hU, if_neg hu, hnone]
  have hne : d ≠ 0x5C := by
    rintro rfl
    cases hnone
  have hput : putChar 0x5C = [0x5C] := by decide
  rw [unescape_backslash hread, unescape_cons hlt hne, hput]
  rfl

theorem putChar_toNat (c : Char) : putChar (UInt32.ofNat c.toNat) = String.utf8EncodeChar c := by
  have hle := (toNat_scalar c).1
  have hint : (UInt32.ofNat c.toNat).toInt32.toInt = c.toNat :=
    Int32.toInt_ofNat_of_lt (by omega)
  rw [putChar, hint, UTF8Encoding.convertChar_toNat]

/-- What becomes of a character. -/
def restored (c : Char) : List UInt8 :=
  if c = '"' ∨ c = '/' then 0x5C :: String.utf8EncodeChar c else String.utf8EncodeChar c

theorem unescape_restored (strictJSON : Bool) (c : Char) (it : List UInt8) :
    unescape (escapeChar strictJSON false (UInt32.ofNat c.toNat) ++ it) = restored c ++ unescape it := by
  obtain ⟨hle, hsur⟩ := toNat_scalar c
  by_cases hkept : c = '"' ∨ c = '/'
  · rw [restored, if_pos hkept, ← putChar_toNat]
    rcases hkept with rfl | rfl
    · have hesc : escapeChar strictJSON false (UInt32.ofNat '"'.toNat) = [0x5C, 0x22] := by
        cases strictJSON <;> decide
      rw [hesc]
      exact unescape_kept (by decide) (by decide) (by decide) (by decide) it
    · have hesc : escapeChar strictJSON false (UInt32.ofNat '/'.toNat) = [0x5C, 0x2F] := by
        cases strictJSON <;> decide
      rw [hesc]
      exact unescape_kept (by decide) (by decide) (by decide) (by decide) it
  · rw [restored, if_neg hkept, ← putChar_toNat]
    rw [not_or] at hkept
    exact unescape_escapeChar strictJSON hle hsur (fun h => hkept.1 (Char.toNat_inj.mp h))
      (fun h => hkept.2 (Char.toNat_inj.mp h)) it

/-- The whole text comes back, with a backslash before the quotation marks and slashes. -/
theorem unescape_escape_eq (cs : List Char) (strictJSON : Bool) :
    unescape (escape (utf8 cs) strictJSON) = cs.flatMap restored := by
  rw [escape_utf8]
  induction cs with
  | nil => rfl
  | cons c cs ih => rw [List.flatMap_cons, List.flatMap_cons, unescape_restored, ih]

theorem length_utf8_le (cs : List Char) : (utf8 cs).length ≤ (cs.flatMap restored).length := by
  induction cs with
  | nil => exact le_rfl
  | cons c cs ih =>
      have hc : (String.utf8EncodeChar c).length ≤ (restored c).length := by
        unfold restored
        split_ifs <;> simp
      rw [utf8_cons, List.flatMap_cons, List.length_append, List.length_append]
      omega

theorem flatMap_restored_eq_iff (cs : List Char) :
    cs.flatMap restored = utf8 cs ↔ '"' ∉ cs ∧ '/' ∉ cs := by
  induction cs with
  | nil => simp [utf8]
  | cons c cs ih =>
      rw [List.flatMap_cons, utf8_cons, restored]
      by_cases hkept : c = '"' ∨ c = '/'
      · rw [if_pos hkept]
        refine iff_of_false (fun h => ?_) ?_
        · have hlen := congrArg List.length h
          have hle := length_utf8_le cs
          simp only [List.length_append, List.length_cons] at hlen
          omega
        · rcases hkept with rfl | rfl <;> simp
      · rw [if_neg hkept, List.append_cancel_left_eq, ih]
        rw [not_or] at hkept
        simp [hkept.1, hkept.2, Ne.symm]

/-- **Main result.**  Unescaping gives an escaped text back if and only if it contains neither a
quotation mark nor a slash. -/
theorem unescape_escape (cs : List Char) (strictJSON : Bool) :
    unescape (escape (utf8 cs) strictJSON) = utf8 cs ↔ '"' ∉ cs ∧ '/' ∉ cs := by
  rw [unescape_escape_eq]
  exact flatMap_restored_eq_iff cs

/-- A quotation mark comes back with its backslash. -/
theorem unescape_escape_quote :
    unescape (escape (utf8 ['"']) false) = [0x5C, 0x22] ∧
      unescape (escape (utf8 ['"']) false) ≠ utf8 ['"'] := by
  decide

end UTF8

end Poco.Foundation
