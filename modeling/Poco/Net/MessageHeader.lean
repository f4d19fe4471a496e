import Poco.Lib.Streams
import Poco.Foundation.Ascii
import Mathlib.Data.List.Infix
import Mathlib.Data.Int.Notation

/-! # `NameValueCollection` and `MessageHeader`

A `NameValueCollection` is a list of fields in which fields with equal names (in any case) stand
together; `MessageHeader` writes it as lines `name: value` and reads it back, with the folded
lines, the limits and the errors of the source.  Strings are lists of bytes.

The loops of `read` that have no limit of their own take fuel; as each round reads a byte, the
number of bytes that are there is enough.  `decodeRFC2047`, which decodes one encoded word and
converts its character set, is a parameter. -/

namespace Poco.Net

open Poco.Lib

export Poco.Foundation.Ascii (chr ascii isSpace toLower)

/-- `Poco::icompare(s1, s2) == 0`. -/
def iequal (s1 s2 : List UInt8) : Bool := s1.map toLower == s2.map toLower

/-- `Poco::trimRight`. -/
def trimRight (s : List UInt8) : List UInt8 := (s.reverse.dropWhile isSpace).reverse

/-- A field of a header. -/
structure Field where
  name : List UInt8
  value : List UInt8
deriving DecidableEq, Repr

namespace NameValueCollection

/-- `ListMap::find`. -/
def find (m : List Field) (name : List UInt8) : Option Field := m.find? fun f => iequal f.name name

/-- The second half of `ListMap::insert`: behind the block of fields with the same name. -/
def insertAfterBlock (f : Field) : List Field → List Field
  | [] => [f]
  | g :: m => if iequal g.name f.name then g :: insertAfterBlock f m else f :: g :: m

/-- `NameValueCollection::add`, which is `ListMap::insert`. -/
def add (m : List Field) (f : Field) : List Field :=
  match m with
  | [] => [f]
  | g :: m => if iequal g.name f.name then g :: insertAfterBlock f m else g :: add m f

/-- `NameValueCollection::has`. -/
def has (m : List Field) (name : List UInt8) : Bool := (find m name).isSome

/-- Fields with equal names stand together. -/
def Grouped (m : List Field) : Prop :=
  ∀ xs g ys f zs, m = xs ++ g :: ys ++ f :: zs → iequal g.name f.name → ∀ h ∈ ys,
    iequal g.name h.name

theorem iequal_comm (s1 s2 : List UInt8) : iequal s1 s2 = iequal s2 s1 := by
  simp only [iequal]
  exact Bool.beq_comm

theorem iequal_trans {s1 s2 s3 : List UInt8} (h : iequal s1 s2) (h' : iequal s2 s3) :
    iequal s1 s3 := by
  simp only [iequal, beq_iff_eq] at *
  exact h.trans h'

theorem insertAfterBlock_all {f : Field} {m : List Field}
    (h : ∀ g ∈ m, iequal g.name f.name = true) : insertAfterBlock f m = m ++ [f] := by
  induction m with
  | nil => rfl
  | cons g m ih =>
      rw [insertAfterBlock, if_pos (h g List.mem_cons_self),
        ih fun g hg => h g (List.mem_cons_of_mem _ hg), List.cons_append]

/-- In the order in which they stand, grouped fields are added at the end. -/
theorem add_of_grouped {f : Field} {m zs : List Field} (h : Grouped (m ++ f :: zs)) :
    add m f = m ++ [f] := by
  induction m with
  | nil => rfl
  | cons g m ih =>
      rw [add]
      split
      · rename_i hg
        rw [insertAfterBlock_all, List.cons_append]
        intro k hk
        -- what stands between `g` and `f` has their name
        rw [iequal_comm]
        have hgk := h [] g m f zs rfl hg k hk
        rw [iequal_comm] at hg
        exact iequal_trans hg hgk
      · rw [ih, List.cons_append]
        intro xs k ys f' zs' heq
        exact h (g :: xs) k ys f' zs' (by rw [List.cons_append, heq]; rfl)

/-- Behind the fields that have the name of `g`, there are none with that name. -/
def Block (g : Field) : List Field → Prop
  | [] => True
  | k :: m => if iequal g.name k.name then Block g m else ∀ f ∈ m, iequal g.name f.name = false

theorem Block.of_equal {g k : Field} {m : List Field} (hgk : iequal g.name k.name = true)
    (h : Block k m) : Block g m := by
  have hname (f : Field) : iequal g.name f.name = iequal k.name f.name := by
    simp only [iequal, beq_iff_eq] at hgk ⊢
    rw [hgk]
  induction m with
  | nil => trivial
  | cons f m ih =>
      rw [Block] at h ⊢
      simp only [hname]
      split_ifs at h ⊢ with hkf
      · exact ih h
      · exact h

theorem block_iff {g : Field} {m : List Field} :
    Block g m ↔ ∀ ys f zs, m = ys ++ f :: zs → iequal g.name f.name = true →
      ∀ k ∈ ys, iequal g.name k.name = true := by
  induction m with
  | nil => simp [Block]
  | cons k m ih =>
      rw [Block]
      split
      · rename_i hgk
        rw [ih]
        constructor
        · rintro h ys f zs heq hgf l hl
          cases ys with
          | nil => cases hl
          | cons k' ys =>
              obtain ⟨rfl, hm⟩ := List.cons.inj heq
              rcases List.mem_cons.mp hl with rfl | hl
              · exact hgk
              · exact h ys f zs hm hgf l hl
        · rintro h ys f zs rfl hgf l hl
          exact h (k :: ys) f zs rfl hgf l (List.mem_cons_of_mem _ hl)
      · rename_i hgk
        constructor
        · rintro h ys f zs heq hgf l hl
          cases ys with
          | nil => cases hl
          | cons k' ys =>
              obtain ⟨rfl, rfl⟩ := List.cons.inj heq
              rw [h f (by simp)] at hgf
              cases hgf
        · intro h f hf
          obtain ⟨ys, zs, rfl⟩ := List.append_of_mem hf
          rw [← Bool.not_eq_true]
          intro hgf
          exact hgk (h (k :: ys) f zs rfl hgf k List.mem_cons_self)

theorem grouped_cons {g : Field} {m : List Field} : Grouped (g :: m) ↔ Block g m ∧ Grouped m := by
  rw [block_iff]
  constructor
  · intro h
    refine ⟨fun ys f zs heq hgf => h [] g ys f zs (by rw [heq]; rfl) hgf, ?_⟩
    intro xs k ys f zs heq
    exact h (g :: xs) k ys f zs (by rw [heq]; rfl)
  · rintro ⟨hblock, h⟩ xs k ys f zs heq
    cases xs with
    | nil =>
        obtain ⟨rfl, rfl⟩ := List.cons.inj heq
        exact hblock ys f zs rfl
    | cons g' xs =>
        obtain ⟨-, rfl⟩ := List.cons.inj heq
        exact h xs k ys f zs rfl

theorem grouped_nil : Grouped [] := by simp [Grouped]

theorem grouped_singleton (f : Field) : Grouped [f] := grouped_cons.mpr ⟨trivial, grouped_nil⟩

theorem insertAfterBlock_perm (f : Field) (m : List Field) : (insertAfterBlock f m).Perm (f :: m) := by
  induction m with
  | nil => exact List.Perm.refl _
  | cons g m ih =>
      rw [insertAfterBlock]
      split
      · exact (ih.cons g).trans (List.Perm.swap f g m)
      · exact List.Perm.refl _

theorem add_perm (m : List Field) (f : Field) : (add m f).Perm (f :: m) := by
  induction m with
  | nil => exact List.Perm.refl _
  | cons g m ih =>
      rw [add]
      split
      · exact ((insertAfterBlock_perm f m).cons g).trans (List.Perm.swap f g m)
      · exact (ih.cons g).trans (List.Perm.swap f g m)

theorem Grouped.insertAfterBlock {g f : Field} {m : List Field} (h : Grouped (g :: m))
    (hgf : iequal g.name f.name = true) : Grouped (g :: insertAfterBlock f m) := by
  induction m generalizing g with
  | nil =>
      refine grouped_cons.mpr ⟨?_, grouped_singleton f⟩
      rw [NameValueCollection.insertAfterBlock, Block, if_pos hgf]
      trivial
  | cons k m ih =>
      obtain ⟨hblock, hm⟩ := grouped_cons.mp h
      rw [NameValueCollection.insertAfterBlock]
      split
      · rename_i hkf
        have hgk : iequal g.name k.name = true := iequal_trans hgf (by rwa [iequal_comm])
        have hrest := ih hm hkf
        refine grouped_cons.mpr ⟨?_, hrest⟩
        rw [Block, if_pos hgk]
        exact (grouped_cons.mp hrest).1.of_equal hgk
      · refine grouped_cons.mpr ⟨?_, grouped_cons.mpr ⟨?_, hm⟩⟩
        · rw [Block, if_pos hgf]
          exact hblock
        · rw [iequal_comm] at hgf
          exact hblock.of_equal hgf

/-- A field with another name does not get into the block. -/
theorem Block.add {g f : Field} {m : List Field} (h : Block g m) (hgf : iequal g.name f.name = false) :
    Block g (add m f) := by
  induction m with
  | nil => simp [NameValueCollection.add, Block, hgf]
  | cons k m ih =>
      rw [Block] at h
      rw [NameValueCollection.add]
      split at h
      · rename_i hgk
        have hkf : ¬iequal k.name f.name = true := by
          intro hkf
          rw [iequal_trans hgk hkf] at hgf
          cases hgf
        rw [if_neg hkf, Block, if_pos hgk]
        exact ih h
      · rename_i hgk
        split
        · rw [Block, if_neg hgk]
          intro l hl
          rcases List.mem_cons.mp ((insertAfterBlock_perm f m).subset hl) with rfl | hl
          · exact hgf
          · exact h l hl
        · rw [Block, if_neg hgk]
          intro l hl
          rcases List.mem_cons.mp ((add_perm m f).subset hl) with rfl | hl
          · exact hgf
          · exact h l hl

theorem Grouped.add {m : List Field} (h : Grouped m) (f : Field) : Grouped (add m f) := by
  induction m with
  | nil => exact grouped_singleton f
  | cons g m ih =>
      obtain ⟨hblock, hm⟩ := grouped_cons.mp h
      rw [NameValueCollection.add]
      split
      · rename_i hgf
        exact h.insertAfterBlock hgf
      · rename_i hgf
        rw [Bool.not_eq_true] at hgf
        exact grouped_cons.mpr ⟨hblock.add hgf, ih hm⟩

/-- The collection that fields make when they are added one after another. -/
def addAll (fs : List Field) : List Field := fs.foldl add []

theorem grouped_addAll (fs : List Field) : Grouped (addAll fs) := by
  have h (m : List Field) (hm : Grouped m) : Grouped (fs.foldl NameValueCollection.add m) := by
    induction fs generalizing m with
    | nil => exact hm
    | cons f fs ih => exact ih _ (hm.add f)
  exact h [] grouped_nil

theorem addAll_perm (fs : List Field) : (addAll fs).Perm fs := by
  have h (m : List Field) : (fs.foldl NameValueCollection.add m).Perm (fs ++ m) := by
    induction fs generalizing m with
    | nil => exact List.Perm.refl _
    | cons f fs ih =>
        refine (ih _).trans (((add_perm m f).append_left fs).trans ?_)
        exact List.perm_middle
  rw [addAll]
  simpa using h []

theorem grouped_of_pairwise {m : List Field}
    (h : m.Pairwise fun g f => iequal g.name f.name = false) : Grouped m := by
  rintro xs g ys f zs rfl hequal
  rw [List.append_assoc, List.pairwise_append] at h
  have hg := (List.pairwise_cons.mp h.2.1).1 f (by simp)
  rw [hequal] at hg
  cases hg

end NameValueCollection

/-- The exceptions of reading a message. -/
inductive MessageError
  | messageException (text : String)
  /-- A loop has not ended yet. -/
  | outOfFuel
deriving DecidableEq, Repr

/-- `std::string::find` from `pos` on. -/
def findFrom (text pat : List UInt8) (pos : ℕ) : Option ℕ :=
  (List.range (text.length + 1)).find? fun i => pos ≤ i && (text.drop i).take pat.length == pat

/-- The loop of `decodeWord`; `tmp` is the text that is left and `pos` where `=?` stands in it. -/
def decodeWords (decodeRFC2047 : List UInt8 → List UInt8) :
    ℕ → List UInt8 → Option ℕ → List UInt8
  | _, tmp, none => tmp
  | 0, tmp, _ => tmp
  | fuel + 1, tmp, some pos =>
      let before := tmp.take pos
      let tmp := tmp.drop (pos + 2)
      let found := do
        let pos1 ← findFrom tmp (ascii "?") 0
        let pos2 ← findFrom tmp (ascii "?") (pos1 + 1)
        findFrom tmp (ascii "?=") (pos2 + 1)
      match found with
      | none => before ++ tmp
      | some pos3 =>
          let word := decodeRFC2047 (tmp.take pos3)
          let tmp := tmp.drop (pos3 + 2)
          match findFrom tmp (ascii "=?") 0 with
          | some pos =>
              -- white space between two encoded words is dropped
              if (tmp.take pos).all fun c => ascii " \t\x0b\n" |>.contains c then
                before ++ word ++ decodeWords decodeRFC2047 fuel (tmp.drop pos) (some 0)
              else
                before ++ word ++ decodeWords decodeRFC2047 fuel tmp (some pos)
          | none => before ++ word ++ tmp

/-- `MessageHeader::decodeWord`; each round takes bytes away. -/
def decodeWord (decodeRFC2047 : List UInt8 → List UInt8) (text : List UInt8) : List UInt8 :=
  decodeWords decodeRFC2047 text.length text (findFrom text (ascii "=?") 0)

/-- The members of `MessageHeader`, with the values of the constructor. -/
structure MessageHeader where
  _map : List Field := []
  _fieldLimit : ℕ := 100
  _nameLengthLimit : ℕ := 256
  _valueLengthLimit : ℕ := 8192
  _autoDecode : Bool := true

namespace MessageHeader

/-- `MessageHeader::write`. -/
def write (m : List Field) : List UInt8 :=
  m.flatMap fun f => f.name ++ ascii ": " ++ f.value ++ ascii "\r\n"

section Read

variable {σ : Type} [Source σ] (decodeRFC2047 : List UInt8 → List UInt8) (h : MessageHeader)

/-- The end of a line, and the first byte of the next one. -/
def endOfLine (text : String) (ch : Option UInt8) : EStateM MessageError σ (Option UInt8) := do
  let ch ← if ch = some (chr '\r') then bump else pure ch
  if ch = some (chr '\n') then bump
  else if ch ≠ none then throw (.messageException text)
  else pure ch

/-- A byte of a value. -/
def isValueByte (c : UInt8) : Bool := c != chr '\r' && c != chr '\n'

/-- The loop over the folded lines of a value. -/
def unfold : ℕ → List UInt8 → Option UInt8 → EStateM MessageError σ (List UInt8 × Option UInt8)
  | 0, _, _ => throw .outOfFuel
  | fuel + 1, value, ch => do
      if ch = some (chr ' ') ∨ ch = some (chr '\t') then
        let (more, ch) ← collect isValueByte (h._valueLengthLimit - value.length) ch
        let ch ← endOfLine "Folded field value too long/no CRLF found" ch
        unfold fuel (value ++ more) ch
      else
        return (value, ch)

/-- The value of a field, from the byte after the colon on. -/
def readValue (fuel : ℕ) (ch : Option UInt8) :
    EStateM MessageError σ (List UInt8 × Option UInt8) := do
  let (_, ch) ← collect (fun c => isSpace c && isValueByte c) fuel ch
  let (value, ch) ← collect isValueByte h._valueLengthLimit ch
  let ch ← endOfLine "Field value too long/no CRLF found" ch
  let (value, ch) ← unfold h fuel value ch
  let value := trimRight value
  return (if h._autoDecode then decodeWord decodeRFC2047 value else value, ch)

/-- The loop over the fields: the fields that were read and the byte they end with. -/
def readFields (fuel : ℕ) :
    ℕ → ℕ → List Field → Option UInt8 → EStateM MessageError σ (List Field × Option UInt8)
  | 0, _, _, _ => throw .outOfFuel
  | rounds + 1, fields, m, ch => do
      if ch = none ∨ ch = some (chr '\r') ∨ ch = some (chr '\n') then
        return (m, ch)
      else if 0 < h._fieldLimit ∧ fields = h._fieldLimit then
        throw (.messageException "Too many header fields")
      else
        let (name, ch) ← collect (fun c => c != chr ':' && c != chr '\n') h._nameLengthLimit ch
        if ch = some (chr '\n') then
          -- invalid header lines are ignored
          let ch ← bump
          readFields fuel rounds fields m ch
        else if ch ≠ some (chr ':') then
          throw (.messageException "Field name too long/no colon found")
        else
          let ch ← bump
          let (value, ch) ← readValue decodeRFC2047 h fuel ch
          readFields fuel rounds (fields + 1) (NameValueCollection.add m ⟨name, value⟩) ch

/-- `MessageHeader::read`. -/
def read (fuel : ℕ) : EStateM MessageError σ MessageHeader := do
  let ch ← bump
  let (m, ch) ← readFields decodeRFC2047 h fuel fuel 0 h._map ch
  if let some c := ch then
    modify (Source.sputbackc c)
  return { h with _map := m }

end Read

/-! ### What is written is read back -/

/-- A field that `h` can read: the name has no colon and does not begin like a folded or an
empty line, the value is one line without white space at its ends and without an encoded
word, and both are within the limits. -/
structure Readable (h : MessageHeader) (f : Field) : Prop where
  name_bytes : ∀ c ∈ f.name, c ≠ chr ':' ∧ c ≠ chr '\n'
  name_start : ∀ c ∈ f.name.head?, c ≠ chr '\r' ∧ c ≠ chr ' ' ∧ c ≠ chr '\t'
  name_length : f.name.length ≤ h._nameLengthLimit
  value_bytes : ∀ c ∈ f.value, isValueByte c = true
  value_start : ∀ c ∈ f.value.head?, isSpace c = false
  value_end : ∀ c ∈ f.value.getLast?, isSpace c = false
  value_length : f.value.length ≤ h._valueLengthLimit
  value_plain : h._autoDecode = true → findFrom f.value (ascii "=?") 0 = none

/-- `Readable` as a test. -/
def readable (h : MessageHeader) (f : Field) : Bool :=
  f.name.all (fun c => c != chr ':' && c != chr '\n') &&
    f.name.head?.all (fun c => c != chr '\r' && (c != chr ' ' && c != chr '\t')) &&
    decide (f.name.length ≤ h._nameLengthLimit) && f.value.all isValueByte &&
    f.value.head?.all (fun c => !isSpace c) && f.value.getLast?.all (fun c => !isSpace c) &&
    decide (f.value.length ≤ h._valueLengthLimit) &&
    (!h._autoDecode || (findFrom f.value (ascii "=?") 0).isNone)

theorem readable_iff {h : MessageHeader} {f : Field} : readable h f = true ↔ Readable h f := by
  have hoption : ∀ (o : Option UInt8) (p : UInt8 → Bool), o.all p = true ↔ ∀ c ∈ o, p c = true := by
    intro o p
    cases o <;> simp
  simp only [readable, Bool.and_eq_true, List.all_eq_true, hoption, decide_eq_true_eq,
    Bool.or_eq_true, Bool.not_eq_true', bne_iff_ne, Option.isNone_iff_eq_none]
  constructor
  · rintro ⟨⟨⟨⟨⟨⟨⟨h1, h2⟩, h3⟩, h4⟩, h5⟩, h6⟩, h7⟩, h8⟩
    exact ⟨h1, h2, h3, h4, h5, h6, h7, fun hauto => h8.resolve_left (by simp [hauto])⟩
  · rintro ⟨h1, h2, h3, h4, h5, h6, h7, h8⟩
    refine ⟨⟨⟨⟨⟨⟨⟨h1, h2⟩, h3⟩, h4⟩, h5⟩, h6⟩, h7⟩, ?_⟩
    cases hauto : h._autoDecode with
    | false => exact .inl rfl
    | true => exact .inr (h8 hauto)

instance (h : MessageHeader) (f : Field) : Decidable (Readable h f) :=
  decidable_of_iff _ readable_iff

theorem trimRight_of_end {s : List UInt8} (h : ∀ c ∈ s.getLast?, isSpace c = false) :
    trimRight s = s := by
  unfold trimRight
  cases hs : s.reverse with
  | nil => rw [List.reverse_eq_nil_iff] at hs; simp [hs]
  | cons c cs =>
      have hc : isSpace c = false := by
        apply h
        rw [List.getLast?_eq_head?_reverse, hs]
        rfl
      rw [List.dropWhile_cons, hc, ← hs]
      simp

theorem decodeWord_of_plain {decodeRFC2047 : List UInt8 → List UInt8} {s : List UInt8}
    (h : findFrom s (ascii "=?") 0 = none) : decodeWord decodeRFC2047 s = s := by
  rw [decodeWord, h, decodeWords]

section RoundTrip

variable {σ : Type} [Source σ] {decodeRFC2047 : List UInt8 → List UInt8} {h : MessageHeader}
  {s s' : σ} {ch : Option UInt8}

theorem endOfLine_spec (text : String) {rest : List UInt8} {c : UInt8}
    (ha : Ahead ch s (chr '\r' :: chr '\n' :: c :: rest) s') :
    ∃ t, endOfLine text ch s = .ok (some c) t ∧ Ahead (some c) t (c :: rest) s' := by
  obtain rfl := ha.eq_some
  obtain ⟨t, hbump, ht⟩ := ha.bump (ε := MessageError)
  obtain ⟨u, hbump', hu⟩ := ht.bump (ε := MessageError)
  refine ⟨u, ?_, hu⟩
  rw [endOfLine, if_pos rfl, bind_of_ok hbump]
  exact hbump'

/-- The value of a field is read up to the first byte of the next line. -/
theorem readValue_spec {fuel : ℕ} {f : Field} (hf : Readable h f) {rest : List UInt8} {c : UInt8}
    (hfuel : 0 < fuel) (hc : c ≠ chr ' ' ∧ c ≠ chr '\t')
    (ha : Ahead ch s (chr ' ' :: (f.value ++ chr '\r' :: chr '\n' :: c :: rest)) s') :
    ∃ t, readValue decodeRFC2047 h fuel ch s = .ok (f.value, some c) t ∧
      Ahead (some c) t (c :: rest) s' := by
  -- the blank after the colon is skipped, and nothing else
  obtain ⟨d, tl, hd, hstop⟩ : ∃ d tl, f.value ++ chr '\r' :: chr '\n' :: c :: rest = d :: tl ∧
      (isSpace d && isValueByte d) = false := by
    cases hv : f.value with
    | nil => exact ⟨_, _, rfl, by decide⟩
    | cons d tl =>
        refine ⟨d, _, rfl, ?_⟩
        rw [hf.value_start d (by rw [hv]; rfl), Bool.false_and]
  have ha' : Ahead ch s ([chr ' '] ++ d :: tl) s' := by rwa [hd] at ha
  obtain ⟨t₁, hskip, ha₁⟩ := Ahead.collect (ε := MessageError)
    (p := fun c => isSpace c && isValueByte c) ha'
    (fun b hb => by rw [List.mem_singleton.mp hb]; decide) hstop hfuel
  rw [← hd] at ha₁
  obtain ⟨t₂, hvalue, ha₂⟩ := Ahead.collect (ε := MessageError) ha₁ hf.value_bytes (by decide)
    hf.value_length
  obtain ⟨t₃, hend, ha₃⟩ := endOfLine_spec "Field value too long/no CRLF found" ha₂
  have hfold : unfold h fuel f.value (some c) t₃ = .ok (f.value, some c) t₃ := by
    obtain ⟨n, rfl⟩ : ∃ n, fuel = n + 1 := ⟨fuel - 1, by omega⟩
    rw [unfold, if_neg (by simpa using hc)]
    rfl
  refine ⟨t₃, ?_, ha₃⟩
  rw [readValue, bind_of_ok hskip]
  dsimp only
  rw [bind_of_ok hvalue]
  dsimp only
  rw [bind_of_ok hend, bind_of_ok hfold]
  dsimp only
  rw [trimRight_of_end hf.value_end]
  split
  · rw [decodeWord_of_plain (hf.value_plain ‹_›)]
    rfl
  · rfl

theorem write_start {m : List Field} (hm : ∀ f ∈ m, Readable h f) :
    ∃ c rest, write m ++ [chr '\r'] = c :: rest ∧ (c ≠ chr ' ' ∧ c ≠ chr '\t') ∧
      (m ≠ [] → c ≠ chr '\r' ∧ c ≠ chr '\n') := by
  cases m with
  | nil => exact ⟨_, _, rfl, by decide, fun hne => absurd rfl hne⟩
  | cons f m =>
      have hf := hm f List.mem_cons_self
      cases hn : f.name with
      | nil =>
          refine ⟨chr ':', _, by rw [write, List.flatMap_cons, hn]; rfl, by decide, fun _ => ?_⟩
          decide
      | cons c cs =>
          obtain ⟨h1, h2, h3⟩ := hf.name_start c (by rw [hn]; rfl)
          have h4 := (hf.name_bytes c (by rw [hn]; exact List.mem_cons_self)).2
          exact ⟨c, _, by rw [write, List.flatMap_cons, hn]; rfl, ⟨h2, h3⟩, fun _ => ⟨h1, h4⟩⟩

theorem readFields_spec {fuel : ℕ} (hfuel : 0 < fuel) (done : List Field) {m : List Field}
    {rounds : ℕ}
    (hm : ∀ f ∈ m, Readable h f) (hgrouped : NameValueCollection.Grouped (done ++ m))
    (hlimit : 0 < h._fieldLimit → (done ++ m).length ≤ h._fieldLimit) (hrounds : m.length < rounds)
    (ha : Ahead ch s (write m ++ [chr '\r']) s') :
    readFields decodeRFC2047 h fuel rounds done.length done ch s =
      .ok (done ++ m, some (chr '\r')) s' := by
  induction m generalizing done rounds ch s with
  | nil =>
      obtain ⟨n, rfl⟩ : ∃ n, rounds = n + 1 := ⟨rounds - 1, by simp at hrounds; omega⟩
      obtain rfl := ha.eq_some
      obtain ⟨_, tl, hcons, -, hr⟩ := ha
      obtain ⟨-, rfl⟩ := List.cons.inj hcons
      obtain rfl : s' = s := hr
      rw [readFields, if_pos (.inr (.inl rfl)), List.append_nil]
      rfl
  | cons f m ih =>
      rw [List.length_cons] at hrounds
      obtain ⟨n, rfl⟩ : ∃ n, rounds = n + 1 := ⟨rounds - 1, by omega⟩
      have hf := hm f List.mem_cons_self
      obtain ⟨c₀, rest₀, hstart₀, -, hne⟩ := write_start hm
      obtain ⟨c, rest, hstart, hc, -⟩ :=
        write_start (m := m) fun g hg => hm g (List.mem_cons_of_mem _ hg)
      have hline : write (f :: m) ++ [chr '\r'] = f.name ++ chr ':' :: (chr ' ' ::
          (f.value ++ chr '\r' :: chr '\n' :: c :: rest)) := by
        rw [← hstart]
        simp [write, ascii]
      rw [hstart₀] at ha hline
      obtain rfl := ha.eq_some
      obtain ⟨hcr, hlf⟩ := hne (by simp)
      rw [hline] at ha
      obtain ⟨t₁, hname, ha₁⟩ := Ahead.collect (ε := MessageError)
        (p := fun c => c != chr ':' && c != chr '\n') ha
        (fun c hc => by simpa using hf.name_bytes c hc) (by decide) hf.name_length
      obtain ⟨t₂, hbump, ha₂⟩ := ha₁.bump (ε := MessageError)
      obtain ⟨t₃, hvalue, ha₃⟩ := readValue_spec hf hfuel hc ha₂
      have hadd : NameValueCollection.add done f = done ++ [f] :=
        NameValueCollection.add_of_grouped hgrouped
      have hcount : ¬ (0 < h._fieldLimit ∧ done.length = h._fieldLimit) := by
        rintro ⟨hpos, heq⟩
        have := hlimit hpos
        simp at this
        omega
      rw [readFields, if_neg (by simp [hcr, hlf]), if_neg hcount, bind_of_ok hname]
      dsimp only
      rw [if_neg (by decide), if_neg (by decide), bind_of_ok hbump, bind_of_ok hvalue]
      dsimp only
      rw [← hstart] at ha₃
      have hrest := ih (done ++ [f]) (fun g hg => hm g (List.mem_cons_of_mem _ hg))
        (by simpa using hgrouped) (by simpa using hlimit) (by omega : m.length < n) ha₃
      rw [List.length_append, List.length_singleton, List.append_assoc] at hrest
      rw [hadd]
      exact hrest

/-- **A header block is read back**, up to the first byte of the line after it. -/
theorem read_write {fuel : ℕ} {m : List Field} (hempty : h._map = [])
    (hm : ∀ f ∈ m, Readable h f) (hgrouped : NameValueCollection.Grouped m)
    (hlimit : 0 < h._fieldLimit → m.length ≤ h._fieldLimit) (hfuel : m.length < fuel)
    (hr : Reads s (write m ++ [chr '\r']) s') :
    read decodeRFC2047 h fuel s = .ok { h with _map := m } (Source.sputbackc (chr '\r') s') := by
  obtain ⟨ch, t, hbump, ha⟩ := bump_ahead (ε := MessageError) hr (by simp)
  have hfields : readFields decodeRFC2047 h fuel fuel 0 [] ch t = .ok (m, some (chr '\r')) s' :=
    readFields_spec (by omega : 0 < fuel) [] hm hgrouped hlimit hfuel ha
  rw [read, bind_of_ok hbump, hempty, bind_of_ok hfields]
  rfl

/-- **Main result.** The fields of a collection are written and read back, in the order they have in
the collection, and the stream is left at the empty line. -/
theorem read_write_fields (fs : List Field) (rest : List UInt8) {fuel : ℕ} (hempty : h._map = [])
    (hfs : ∀ f ∈ fs, Readable h f) (hlimit : 0 < h._fieldLimit → fs.length ≤ h._fieldLimit)
    (hfuel : fs.length < fuel) :
    (NameValueCollection.addAll fs).Perm fs ∧
      read decodeRFC2047 h fuel (write (NameValueCollection.addAll fs) ++ ascii "\r\n" ++ rest) =
        .ok { h with _map := NameValueCollection.addAll fs } (ascii "\r\n" ++ rest) := by
  have hperm := NameValueCollection.addAll_perm fs
  refine ⟨hperm, ?_⟩
  have hreads : Reads (write (NameValueCollection.addAll fs) ++ ascii "\r\n" ++ rest)
      (write (NameValueCollection.addAll fs) ++ [chr '\r']) (chr '\n' :: rest) := by
    have h := reads_append (write (NameValueCollection.addAll fs) ++ [chr '\r']) (chr '\n' :: rest)
    rw [List.append_assoc] at h ⊢
    exact h
  exact read_write hempty (fun f hf => hfs f (hperm.subset hf))
    (NameValueCollection.grouped_addAll fs) (by rwa [hperm.length_eq]) (by rwa [hperm.length_eq]) hreads

/-- Three fields at the limits of a header; two of them have the same name. -/
def limitFields : List Field :=
  [⟨ascii "A", ascii "x"⟩, ⟨ascii "B", []⟩, ⟨ascii "a", ascii "y"⟩]

def limitHeader : MessageHeader :=
  { _fieldLimit := 3, _nameLengthLimit := 1, _valueLengthLimit := 1, _autoDecode := false }

theorem read_write_limitFields :
    NameValueCollection.addAll limitFields = [⟨ascii "A", ascii "x"⟩, ⟨ascii "a", ascii "y"⟩, ⟨ascii "B", []⟩] ∧
      (NameValueCollection.addAll limitFields).Perm limitFields ∧
      read id limitHeader 4 (write (NameValueCollection.addAll limitFields) ++ ascii "\r\n" ++ ascii "x") =
        .ok { limitHeader with _map := NameValueCollection.addAll limitFields }
          (ascii "\r\n" ++ ascii "x") :=
  ⟨by decide, read_write_fields limitFields (ascii "x") rfl (by decide) (by decide) (by decide)⟩

end RoundTrip

end MessageHeader

end Poco.Net
