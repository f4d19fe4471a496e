import Poco.Lib.Segments
import Poco.Net.MessageHeader
import Mathlib.Algebra.BigOperators.Group.List.Basic
import Mathlib.Data.List.DropRight

/-! # Parameters of header fields

`MessageHeader::quote` puts a value in quotes where a byte of it asks for them, and
`MessageHeader::splitParameters` takes a text of parameters `name=value` apart, with its quotes and
escapes.  `quote` escapes nothing, so what comes back is the value only when it has no quote and no
backslash, and no white space that the splitting trims (`splitParameters_quote_iff`).

The loop over the parameters takes fuel; each round takes a byte, so the length of the text is
enough.  Splitting invents no byte and keeps their order (`parameterList_sublist`), which is why a
value that swallows the beginning of the next parameter cannot be made up for later. -/

namespace Poco.Net

open Poco.Lib

namespace NameValueCollection

theorem filter_insertAfterBlock {name : List UInt8} {g f : Field} {m : List Field} (hblock : Block g m)
    (hgf : iequal g.name f.name = true) :
    (insertAfterBlock f m).filter (iequal name ·.name) = (m ++ [f]).filter (iequal name ·.name) := by
  induction m with
  | nil => rfl
  | cons k m ih =>
      rw [insertAfterBlock]
      by_cases hkf : iequal k.name f.name = true
      · have hgk : iequal g.name k.name = true := iequal_trans hgf (by rwa [iequal_comm])
        rw [Block, if_pos hgk] at hblock
        rw [if_pos hkf, List.cons_append, List.filter_cons, List.filter_cons, ih hblock]
      · have hgk : ¬iequal g.name k.name = true := by
          intro hgk
          rw [iequal_comm] at hgk
          exact hkf (iequal_trans hgk hgf)
        rw [Block, if_neg hgk] at hblock
        rw [if_neg hkf]
        by_cases hname : iequal name f.name = true
        · -- no field behind the block has this name
          have hnone : (k :: m).filter (iequal name ·.name) = [] := by
            rw [List.filter_eq_nil_iff]
            intro l hl hnl
            rw [iequal_comm] at hname
            have hgl : iequal g.name l.name = true := iequal_trans hgf (iequal_trans hname hnl)
            rcases List.mem_cons.mp hl with rfl | hl
            · exact hgk hgl
            · rw [hblock l hl] at hgl
              cases hgl
          rw [List.filter_append, hnone, List.filter_cons, hnone]
          simp [hname]
        · simp [List.filter_cons, hname]

theorem filter_add {name : List UInt8} {m : List Field} (h : Grouped m) (f : Field) :
    (add m f).filter (iequal name ·.name) = (m ++ [f]).filter (iequal name ·.name) := by
  induction m with
  | nil => rfl
  | cons g m ih =>
      obtain ⟨hblock, hm⟩ := grouped_cons.mp h
      rw [add, List.cons_append]
      by_cases hgf : iequal g.name f.name = true
      · rw [if_pos hgf, List.filter_cons, List.filter_cons, filter_insertAfterBlock hblock hgf]
      · rw [if_neg hgf, List.filter_cons, List.filter_cons, ih hm]

/-- The fields with one name stay in the order in which they are added. -/
theorem filter_addAll (name : List UInt8) (fs : List Field) :
    (addAll fs).filter (iequal name ·.name) = fs.filter (iequal name ·.name) := by
  have h (m : List Field) (hm : Grouped m) :
      (fs.foldl add m).filter (iequal name ·.name) = (m ++ fs).filter (iequal name ·.name) := by
    induction fs generalizing m with
    | nil => rw [List.append_nil, List.foldl_nil]
    | cons f fs ih =>
        rw [List.foldl_cons, ih _ (hm.add f), List.filter_append, filter_add hm f, ← List.filter_append,
          List.append_assoc, List.singleton_append]
  exact h [] grouped_nil

end NameValueCollection

namespace MessageHeader

/-- `Ascii::isAlphaNumeric`. -/
def isAlphaNumeric (c : UInt8) : Bool :=
  (chr '0' ≤ c && c ≤ chr '9') || (chr 'A' ≤ c && c ≤ chr 'Z') || (chr 'a' ≤ c && c ≤ chr 'z')

/-- The test of `quote`. -/
def mustQuote (allowSpace : Bool) (c : UInt8) : Bool :=
  !isAlphaNumeric c && c != chr '.' && c != chr '_' && c != chr '-' && !(isSpace c && allowSpace)

/-- `MessageHeader::quote`: what is appended to the result. -/
def quote (value : List UInt8) (allowSpace : Bool) : List UInt8 :=
  if value.any (mustQuote allowSpace) then chr '"' :: value ++ [chr '"'] else value

/-- The loop over the value of a parameter, `quoted` behind an opening quote: what is appended to `pvalue`,
and the rest of the text. -/
def scanValue : Bool → List UInt8 → List UInt8 × List UInt8
  | _, [] => ([], [])
  | quoted, c :: s =>
      if c = chr ';' ∧ quoted = false then ([], c :: s)
      else if c = chr '"' then scanValue (!quoted) s
      else if c = chr '\\' then
        match s with
        | [] => ([], [])
        | d :: s => (d :: (scanValue quoted s).1, (scanValue quoted s).2)
      else (c :: (scanValue quoted s).1, (scanValue quoted s).2)

/-- The bytes of a name. -/
def isNameByte (c : UInt8) : Bool := c != chr '=' && c != chr ';'

/-- A round of the loop of `splitParameters`: the name and the value of a parameter, and what is left. -/
def nextParameter (s : List UInt8) : Field × List UInt8 :=
  let s := s.dropWhile isSpace
  let pname := s.takeWhile isNameByte
  let s := s.dropWhile isNameByte
  let s := if s.head? = some (chr ';') then s else s.drop 1
  let (pvalue, s) := scanValue false (s.dropWhile isSpace)
  (⟨trimRight pname, trimRight pvalue⟩, s.drop 1)

/-- The loop of `splitParameters`. -/
def parametersLoop : ℕ → List UInt8 → List Field → List Field
  | 0, _, parameters => parameters
  | fuel + 1, s, parameters =>
      if s = [] then parameters
      else
        let (f, s) := nextParameter s
        parametersLoop fuel s (if f.name = [] then parameters else NameValueCollection.add parameters f)

/-- `MessageHeader::splitParameters(begin, end, parameters)`. -/
def splitParametersFrom (s : List UInt8) : List Field := parametersLoop s.length s []

/-- `MessageHeader::splitParameters(s, value, parameters)`. -/
def splitParameters (s : List UInt8) : List UInt8 × List Field :=
  let s := s.dropWhile isSpace
  let value := s.takeWhile (· != chr ';')
  let s := s.dropWhile (· != chr ';')
  (trimRight value, splitParametersFrom (s.drop 1))

/-! ### The loop over a value -/

theorem scanValue_sublist (quoted : Bool) (s : List UInt8) :
    List.Sublist ((scanValue quoted s).1 ++ (scanValue quoted s).2) s := by
  fun_induction scanValue quoted s with
  | case1 => exact List.Sublist.refl _
  | case2 => exact List.Sublist.refl _
  | case3 quoted s _ ih => exact ih.cons _
  | case4 => exact List.nil_sublist _
  | case5 quoted d s _ _ ih => exact (ih.cons_cons d).cons _
  | case6 quoted c s _ _ _ ih => exact ih.cons_cons c

theorem scanValue_suffix (quoted : Bool) (s : List UInt8) : (scanValue quoted s).2 <:+ s := by
  fun_induction scanValue quoted s with
  | case1 => exact List.suffix_refl _
  | case2 => exact List.suffix_refl _
  | case3 quoted s _ ih => exact ih.trans (List.suffix_cons _ s)
  | case4 => exact List.nil_suffix
  | case5 quoted d s _ _ ih => exact ih.trans ((List.suffix_cons d s).trans (List.suffix_cons _ _))
  | case6 quoted c s _ _ _ ih => exact ih.trans (List.suffix_cons c s)

/-- A value ends with the text or in front of a semicolon. -/
theorem scanValue_rest (quoted : Bool) (s : List UInt8) :
    (scanValue quoted s).2 = [] ∨ (scanValue quoted s).2.head? = some (chr ';') := by
  fun_induction scanValue quoted s with
  | case1 => exact .inl rfl
  | case2 quoted c s h => exact .inr (congrArg some h.1)
  | case3 _ _ _ ih => exact ih
  | case4 => exact .inl rfl
  | case5 _ _ _ _ _ ih => exact ih
  | case6 _ _ _ _ _ _ ih => exact ih

/-- A byte that `scanValue` does not copy. -/
def Special (c : UInt8) : Prop := c = chr '"' ∨ c = chr '\\'

instance (c : UInt8) : Decidable (Special c) := inferInstanceAs (Decidable (_ ∨ _))

/-- Where nothing is lost, there is no quote and no backslash. -/
theorem not_special_of_lossless {quoted : Bool} {s : List UInt8}
    (h : s.length ≤ (scanValue quoted s).1.length + (scanValue quoted s).2.length) :
    ∀ c ∈ (scanValue quoted s).1, ¬Special c := by
  fun_induction scanValue quoted s with
  | case1 => simp
  | case2 => simp
  | case3 quoted s _ ih =>
      have := (scanValue_sublist (!quoted) s).length_le
      rw [List.length_append] at this
      rw [List.length_cons] at h
      omega
  | case4 => simp
  | case5 quoted d s _ _ ih =>
      have := (scanValue_sublist quoted s).length_le
      rw [List.length_append] at this
      simp only [List.length_cons] at h
      omega
  | case6 quoted c s _ hquote hback ih =>
      simp only [List.length_cons] at h
      intro d hd
      rcases List.mem_cons.mp hd with rfl | hd
      · exact fun hspecial => hspecial.elim hquote hback
      · exact ih (by omega) d hd

theorem scanValue_semicolon (s : List UInt8) : scanValue false (chr ';' :: s) = ([], chr ';' :: s) := by
  rw [scanValue.eq_def]
  exact if_pos ⟨rfl, rfl⟩

theorem scanValue_quote (quoted : Bool) (s : List UInt8) :
    scanValue quoted (chr '"' :: s) = scanValue (!quoted) s := by
  have hsemi : ¬(chr '"' = chr ';' ∧ quoted = false) := fun h => absurd h.1 (by decide)
  rw [scanValue.eq_def]
  dsimp only
  rw [if_neg hsemi, if_pos rfl]

theorem scanValue_escape (quoted : Bool) (d : UInt8) (s : List UInt8) :
    scanValue quoted (chr '\\' :: d :: s) = (d :: (scanValue quoted s).1, (scanValue quoted s).2) := by
  have hsemi : ¬(chr '\\' = chr ';' ∧ quoted = false) := fun h => absurd h.1 (by decide)
  rw [scanValue.eq_def]
  dsimp only
  rw [if_neg hsemi, if_neg (by decide), if_pos rfl]

theorem scanValue_cons {quoted : Bool} {c : UInt8} (s : List UInt8) (hc : ¬Special c)
    (hsemi : ¬(c = chr ';' ∧ quoted = false)) :
    scanValue quoted (c :: s) = (c :: (scanValue quoted s).1, (scanValue quoted s).2) := by
  rw [scanValue.eq_def]
  dsimp only
  rw [if_neg hsemi, if_neg fun h => hc (.inl h), if_neg fun h => hc (.inr h)]

theorem scanValue_append {quoted : Bool} {u : List UInt8} (s : List UInt8) (hu : ∀ c ∈ u, ¬Special c)
    (hsemi : quoted = false → chr ';' ∉ u) :
    scanValue quoted (u ++ s) = (u ++ (scanValue quoted s).1, (scanValue quoted s).2) := by
  induction u with
  | nil => rfl
  | cons c u ih =>
      have hstop : ¬(c = chr ';' ∧ quoted = false) := by
        rintro ⟨rfl, hq⟩
        exact hsemi hq List.mem_cons_self
      rw [List.cons_append, scanValue_cons _ (hu c List.mem_cons_self) hstop, ih (fun d hd => hu d (List.mem_cons_of_mem _ hd)) fun hq hmem => hsemi hq (List.mem_cons_of_mem _ hmem)]
      rfl

/-- In front of a semicolon and at the end of the text, the value is empty. -/
theorem scanValue_end {tail : List UInt8} (htail : tail = [] ∨ tail.head? = some (chr ';')) :
    scanValue false tail = ([], tail) := by
  cases tail with
  | nil => rfl
  | cons c tail =>
      obtain rfl : c = chr ';' := by simpa using htail
      exact scanValue_semicolon tail

/-- A closing quote is lost, or another byte in its place. -/
theorem length_scanValue_le {quoted : Bool} {w tail : List UInt8}
    (h : (scanValue quoted (w ++ chr '"' :: tail)).2 = tail) :
    (scanValue quoted (w ++ chr '"' :: tail)).1.length ≤ w.length := by
  have hsub := scanValue_sublist quoted (w ++ chr '"' :: tail)
  have hkept := @not_special_of_lossless quoted (w ++ chr '"' :: tail)
  rw [h] at hsub hkept
  generalize (scanValue quoted (w ++ chr '"' :: tail)).1 = o at hsub hkept ⊢
  have hlen := hsub.length_le
  simp only [List.length_append, List.length_cons] at hlen hkept
  by_contra hlong
  have heq : o ++ tail = w ++ [chr '"'] ++ tail := by
    rw [List.append_assoc]
    apply hsub.eq_of_length
    simp only [List.length_append, List.length_cons]
    omega
  obtain rfl := List.append_cancel_right heq
  exact hkept (by omega) (chr '"') (by simp) (.inl rfl)

/-! ### White space at the end -/

theorem trimRight_eq (s : List UInt8) : trimRight s = s.rdropWhile isSpace := rfl

theorem trimRight_front (s : List UInt8) : trimRight s <+: s := List.rdropWhile_prefix isSpace s

theorem trimRight_eq_self {s : List UInt8} (h : trimRight s = s) : ∀ c ∈ s.getLast?, isSpace c = false := by
  rw [trimRight_eq, List.rdropWhile_eq_self_iff] at h
  intro c hc
  have hne : s ≠ [] := by
    rintro rfl
    cases hc
  rw [List.getLast?_eq_some_getLast hne] at hc
  obtain rfl := Option.some.inj hc
  simpa using h hne

/-! ### A round of the loop -/

/-- The bytes of a name that are not copied into values only. -/
def ordinary (c : UInt8) : Bool := isNameByte c && !decide (Special c)

/-- A name of a parameter. -/
def Token (name : List UInt8) : Prop :=
  name ≠ [] ∧ ∀ c ∈ name, isSpace c = false ∧ ordinary c = true

instance (name : List UInt8) : Decidable (Token name) := inferInstanceAs (Decidable (_ ∧ _))

theorem nextParameter_name {name : List UInt8} (hname : Token name) (s : List UInt8) :
    nextParameter (name ++ chr '=' :: s) =
      (⟨name, trimRight (scanValue false (s.dropWhile isSpace)).1⟩,
        (scanValue false (s.dropWhile isSpace)).2.drop 1) := by
  have hfront : NoHead isSpace (name ++ chr '=' :: s) := by
    obtain ⟨c, name, rfl⟩ := List.exists_cons_of_ne_nil hname.1
    exact noHead_cons (hname.2 c List.mem_cons_self).1
  have hbytes : ∀ c ∈ name, isNameByte c = true := by
    intro c hc
    have := (hname.2 c hc).2
    simp only [ordinary, Bool.and_eq_true] at this
    exact this.1
  have hstop : NoHead isNameByte (chr '=' :: s) := noHead_cons (by decide)
  have htrim : trimRight name = name := by
    apply trimRight_of_end
    intro c hc
    exact (hname.2 c (List.mem_of_getLast? hc)).1
  unfold nextParameter
  dsimp only
  rw [hfront.dropWhile, takeWhile_append_of_noHead hbytes hstop, dropWhile_append_of_noHead hbytes hstop, htrim]
  have hhead : (chr '=' :: s).head? ≠ some (chr ';') := by
    rw [List.head?_cons]
    decide
  rw [if_neg hhead, List.drop_one, List.tail_cons]

/-- The values that come back. -/
structure Kept (allowSpace : Bool) (value : List UInt8) : Prop where
  plain : ∀ c ∈ value, ¬Special c
  last : ∀ c ∈ value.getLast?, isSpace c = false
  /-- A value that is not put in quotes. -/
  first : value.any (mustQuote allowSpace) = false → NoHead isSpace value

theorem plain_of_not_mustQuote {allowSpace : Bool} {c : UInt8} (h : mustQuote allowSpace c = false) :
    ¬Special c ∧ c ≠ chr ';' := by
  refine ⟨?_, ?_⟩
  · rintro (rfl | rfl) <;> cases allowSpace <;> exact absurd h (by decide)
  · rintro rfl
    cases allowSpace <;> exact absurd h (by decide)

section Tail

variable {allowSpace : Bool} {value tail : List UInt8}

theorem noHead_tail (htail : tail = [] ∨ tail.head? = some (chr ';')) : NoHead isSpace tail := by
  intro c hc
  rcases htail with rfl | htail
  · cases hc
  · obtain rfl : chr ';' = c := by simpa [htail] using hc
    decide

/-- The value of a parameter that is not put in quotes. -/
theorem scanValue_bare (hany : value.any (mustQuote allowSpace) = false)
    (htail : tail = [] ∨ tail.head? = some (chr ';')) :
    scanValue false ((value ++ tail).dropWhile isSpace) = (value.dropWhile isSpace, tail) := by
  have hplain : ∀ c ∈ value.dropWhile isSpace, ¬Special c ∧ c ≠ chr ';' := by
    intro c hc
    have := List.any_eq_false.mp hany c ((List.dropWhile_sublist _).subset hc)
    exact plain_of_not_mustQuote (by simpa using this)
  have hskip : (value ++ tail).dropWhile isSpace = value.dropWhile isSpace ++ tail := by
    rw [List.dropWhile_append]
    split
    · rename_i hempty
      rw [List.isEmpty_iff.mp hempty, (noHead_tail htail).dropWhile, List.nil_append]
    · rfl
  rw [hskip, scanValue_append tail (fun c hc => (hplain c hc).1) fun _ hmem => (hplain _ hmem).2 rfl,
    scanValue_end htail, List.append_nil]

theorem scanValue_quotes (value tail : List UInt8) :
    scanValue false ((chr '"' :: value ++ [chr '"'] ++ tail).dropWhile isSpace) =
      scanValue true (value ++ chr '"' :: tail) := by
  have hquote : NoHead isSpace (chr '"' :: value ++ [chr '"'] ++ tail) := noHead_cons (by decide)
  rw [hquote.dropWhile, List.append_assoc, List.cons_append, List.singleton_append]
  exact scanValue_quote false _

theorem scanValue_plain (hplain : ∀ c ∈ value, ¬Special c)
    (htail : tail = [] ∨ tail.head? = some (chr ';')) :
    scanValue true (value ++ chr '"' :: tail) = (value, tail) := by
  have hclose : scanValue true (chr '"' :: tail) = scanValue false tail := scanValue_quote true tail
  rw [scanValue_append _ hplain (fun h => by cases h), hclose, scanValue_end htail, List.append_nil]

theorem nextParameter_quote {name : List UInt8} (hname : Token name) (hkept : Kept allowSpace value)
    (htail : tail = [] ∨ tail.head? = some (chr ';')) :
    nextParameter (name ++ chr '=' :: quote value allowSpace ++ tail) = (⟨name, value⟩, tail.drop 1) := by
  rw [List.append_assoc, List.cons_append, nextParameter_name hname]
  unfold quote
  cases hany : value.any (mustQuote allowSpace) with
  | false =>
      rw [if_neg (by simp), scanValue_bare hany htail, (hkept.first hany).dropWhile, trimRight_of_end hkept.last]
  | true =>
      rw [if_pos rfl, scanValue_quotes, scanValue_plain hkept.plain htail, trimRight_of_end hkept.last]

end Tail

/-! ### A value that comes back -/

/-- The value between quotes, when the loop ends where the parameter does. -/
theorem plain_of_scanValue {value tail : List UInt8}
    (hrest : (scanValue true (value ++ chr '"' :: tail)).2 = tail)
    (hvalue : trimRight (scanValue true (value ++ chr '"' :: tail)).1 = value) :
    ∀ c ∈ value, ¬Special c := by
  -- the text up to the first quote or backslash is copied
  have hfront : ∀ c ∈ value.takeWhile fun c => !decide (Special c), ¬Special c := by
    intro c hc
    simpa using List.mem_takeWhile_imp hc
  have hsplit := List.takeWhile_append_dropWhile (p := fun c => !decide (Special c)) (l := value)
  have hhead := List.head?_dropWhile_not (fun c => !decide (Special c)) value
  generalize value.takeWhile (fun c => !decide (Special c)) = u at hfront hsplit
  generalize value.dropWhile (fun c => !decide (Special c)) = w at hsplit hhead
  have hlong : value.length ≤ (scanValue true (value ++ chr '"' :: tail)).1.length := by
    have := (trimRight_front (scanValue true (value ++ chr '"' :: tail)).1).length_le
    rwa [hvalue] at this
  subst hsplit
  cases w with
  | nil => rwa [List.append_nil]
  | cons c w =>
      exfalso
      rw [List.append_assoc, scanValue_append _ hfront (fun h => by cases h), List.cons_append]
        at hrest hvalue hlong
      have hspecial : Special c := by simpa using hhead
      rcases hspecial with rfl | rfl
      · rw [scanValue_quote] at hrest hlong
        have := length_scanValue_le hrest
        simp only [List.length_append, List.length_cons] at hlong
        omega
      · cases w with
        | nil =>
            -- the backslash takes the closing quote
            rw [List.nil_append, scanValue_escape] at hrest hvalue
            have hlen := (scanValue_sublist true tail).length_le
            rw [List.length_append, show (scanValue true tail).2 = tail from hrest] at hlen
            have hnil : (scanValue true tail).1 = [] := List.eq_nil_of_length_eq_zero (by omega)
            rw [hnil, trimRight_of_end] at hvalue
            · have hlast : [chr '"'] = [chr '\\'] := List.append_cancel_left hvalue
              exact absurd hlast (by decide)
            · intro c hc
              obtain rfl : chr '"' = c := by simpa using hc
              decide
        | cons d w =>
            rw [List.cons_append, scanValue_escape] at hrest hlong
            have := length_scanValue_le hrest
            simp only [List.length_append, List.length_cons] at hlong
            omega

/-- The byte behind a semicolon, when there is one. -/
def Follows (tail : List UInt8) : Prop :=
  tail = [] ∨ ∃ c text, tail = chr ';' :: c :: text ∧ ordinary c = true

theorem Follows.head {tail : List UInt8} (h : Follows tail) : tail = [] ∨ tail.head? = some (chr ';') := by
  rcases h with rfl | ⟨c, text, rfl, -⟩
  · exact .inl rfl
  · exact .inr rfl

/-- Nothing of what follows is swallowed, and nothing of the value is left over. -/
theorem scanValue_rest_eq {value tail : List UInt8} (htail : Follows tail)
    (hvalue : trimRight (scanValue true (value ++ chr '"' :: tail)).1 = value)
    (hcount : tail.countP ordinary ≤ ((scanValue true (value ++ chr '"' :: tail)).2.drop 1).countP ordinary) :
    (scanValue true (value ++ chr '"' :: tail)).2 = tail := by
  have hsub := (scanValue_sublist true (value ++ chr '"' :: tail)).length_le
  have hsuffix := scanValue_suffix true (value ++ chr '"' :: tail)
  have hend := scanValue_rest true (value ++ chr '"' :: tail)
  have hlong := (trimRight_front (scanValue true (value ++ chr '"' :: tail)).1).length_le
  rw [hvalue] at hlong
  generalize (scanValue true (value ++ chr '"' :: tail)).1 = o at hsub hlong
  generalize (scanValue true (value ++ chr '"' :: tail)).2 = rest at hcount hsub hsuffix hend ⊢
  have htext : tail <:+ value ++ chr '"' :: tail := ⟨value ++ [chr '"'], by simp⟩
  rcases List.suffix_or_suffix_of_suffix hsuffix htext with ⟨y, rfl⟩ | ⟨z, rfl⟩
  · -- what was swallowed would be missing
    cases y with
    | nil => rfl
    | cons b y =>
        exfalso
        rw [List.countP_append] at hcount
        have hdrop := ((List.drop_sublist 1 rest).countP_le (p := ordinary))
        rcases htail with hnil | ⟨c, text, heq, hc⟩
        · cases hnil
        · rw [List.cons_append] at heq
          obtain ⟨rfl, htail⟩ := List.cons.inj heq
          clear heq
          cases y with
          | nil =>
              rw [List.nil_append] at htail
              subst htail
              rcases hend with hend | hend
              · cases hend
              · obtain rfl := Option.some.inj hend
                exact absurd hc (by decide)
          | cons d y =>
              obtain ⟨rfl, -⟩ := List.cons.inj htail
              simp only [List.countP_cons, hc, if_true] at hcount
              omega
  · -- what was left over would begin with a semicolon
    obtain ⟨x, hx⟩ := hsuffix
    have hcut : x ++ z = value ++ [chr '"'] := by
      refine @List.append_cancel_right _ _ tail _ ?_
      rw [List.append_assoc, hx, List.append_assoc, List.singleton_append]
    cases hz : z.reverse with
    | nil =>
        rw [List.reverse_eq_nil_iff] at hz
        rw [hz, List.nil_append]
    | cons c y =>
        exfalso
        obtain rfl : z = y.reverse ++ [c] := by
          rw [← List.reverse_reverse z, hz, List.reverse_cons]
        rw [← List.append_assoc] at hcut
        obtain ⟨-, hc⟩ := List.append_inj' hcut rfl
        obtain rfl := List.cons.inj hc |>.1
        cases hy : y.reverse with
        | nil =>
            rw [hy] at hend
            rcases hend with hend | hend
            · cases hend
            · exact absurd (Option.some.inj hend) (by decide)
        | cons d y' =>
            rw [hy] at hsub
            simp only [List.length_append, List.length_cons] at hsub
            omega

theorem kept_of_nextParameter {allowSpace : Bool} {name value tail : List UInt8} (hname : Token name)
    (htail : Follows tail)
    (hvalue : (nextParameter (name ++ chr '=' :: quote value allowSpace ++ tail)).1.value = value)
    (hcount : tail.countP ordinary ≤
      (nextParameter (name ++ chr '=' :: quote value allowSpace ++ tail)).2.countP ordinary) :
    Kept allowSpace value := by
  rw [List.append_assoc, List.cons_append, nextParameter_name hname] at hvalue hcount
  unfold quote at hvalue hcount
  cases hany : value.any (mustQuote allowSpace) with
  | false =>
      rw [hany, if_neg (by simp), scanValue_bare hany htail.head] at hvalue
      dsimp only at hvalue
      have htrim := (trimRight_front (value.dropWhile isSpace)).length_le
      rw [hvalue] at htrim
      have hskip : value.dropWhile isSpace = value :=
        (List.dropWhile_suffix isSpace).eq_of_length_le htrim
      rw [hskip] at hvalue
      have hplain : ∀ c ∈ value, ¬Special c := by
        intro c hc
        exact (plain_of_not_mustQuote (by simpa using List.any_eq_false.mp hany c hc)).1
      refine ⟨hplain, trimRight_eq_self hvalue, fun _ => ?_⟩
      intro c hc
      rw [← hskip] at hc
      have := List.head?_dropWhile_not isSpace value
      rw [hc] at this
      simpa using this
  | true =>
      rw [hany, if_pos rfl, scanValue_quotes] at hvalue hcount
      have hrest := scanValue_rest_eq htail hvalue hcount
      have hplain := plain_of_scanValue hrest hvalue
      rw [scanValue_plain hplain htail.head] at hvalue
      exact ⟨hplain, trimRight_eq_self hvalue, fun h => absurd (hany.symm.trans h) (by simp)⟩

/-! ### Runs -/

/-- The fields that the loop of `splitParameters` adds, in order. -/
def parameterList : ℕ → List UInt8 → List Field
  | 0, _ => []
  | fuel + 1, s =>
      if s = [] then []
      else if (nextParameter s).1.name = [] then parameterList fuel (nextParameter s).2
      else (nextParameter s).1 :: parameterList fuel (nextParameter s).2

theorem parametersLoop_eq (fuel : ℕ) (s : List UInt8) (m : List Field) :
    parametersLoop fuel s m = (parameterList fuel s).foldl NameValueCollection.add m := by
  induction fuel generalizing s m with
  | zero => rfl
  | succ fuel ih =>
      rw [parametersLoop, parameterList]
      by_cases hs : s = []
      · rw [if_pos hs, if_pos hs]
        rfl
      · rw [if_neg hs, if_neg hs]
        dsimp only
        rw [ih]
        by_cases hname : (nextParameter s).1.name = []
        · rw [if_pos hname, if_pos hname]
        · rw [if_neg hname, if_neg hname, List.foldl_cons]

theorem splitParametersFrom_eq (s : List UInt8) :
    splitParametersFrom s = NameValueCollection.addAll (parameterList s.length s) :=
  parametersLoop_eq s.length s []

/-- The bytes of a parameter stand in the text, in this order. -/
theorem nextParameter_sublist (s : List UInt8) :
    List.Sublist ((nextParameter s).1.name ++ (nextParameter s).1.value ++ (nextParameter s).2) s := by
  unfold nextParameter
  dsimp only
  refine List.Sublist.trans ?_ (List.dropWhile_sublist isSpace)
  generalize s.dropWhile isSpace = s
  conv_rhs => rw [← List.takeWhile_append_dropWhile (p := isNameByte) (l := s)]
  rw [List.append_assoc]
  refine (trimRight_front _).sublist.append ?_
  generalize s.dropWhile isNameByte = s
  generalize hvalue : (if s.head? = some (chr ';') then s else s.drop 1).dropWhile isSpace = t
  have hts : List.Sublist t s := by
    rw [← hvalue]
    refine (List.dropWhile_sublist isSpace).trans ?_
    split
    · exact List.Sublist.refl s
    · exact List.drop_sublist 1 s
  refine List.Sublist.trans ?_ hts
  exact ((trimRight_front _).sublist.append (List.drop_sublist 1 _)).trans (scanValue_sublist false t)

theorem parameterList_sublist (fuel : ℕ) (s : List UInt8) :
    List.Sublist ((parameterList fuel s).flatMap fun f => f.name ++ f.value) s := by
  induction fuel generalizing s with
  | zero => exact List.nil_sublist s
  | succ fuel ih =>
      rw [parameterList]
      split_ifs with hs hname
      · exact List.nil_sublist s
      · exact (ih _).trans ((List.sublist_append_right _ _).trans (nextParameter_sublist s))
      · rw [List.flatMap_cons]
        exact ((List.Sublist.refl _).append (ih _)).trans (nextParameter_sublist s)

theorem length_nextParameter_lt {s : List UInt8} (hs : s ≠ []) : (nextParameter s).2.length < s.length := by
  unfold nextParameter
  dsimp only
  have hskip := (List.dropWhile_sublist (l := s) isSpace).length_le
  generalize s.dropWhile isSpace = s' at hskip ⊢
  have hname := (List.dropWhile_sublist (l := s') isNameByte).length_le
  generalize s'.dropWhile isNameByte = t at hname ⊢
  by_cases hsemi : t.head? = some (chr ';')
  · -- in front of a semicolon, the round takes the semicolon
    obtain ⟨text, rfl⟩ := List.head?_eq_some_iff.mp hsemi
    have hstop : NoHead isSpace (chr ';' :: text) := noHead_cons (by decide)
    rw [if_pos hsemi, hstop.dropWhile, scanValue_semicolon]
    simp only [List.drop_one, List.tail_cons, List.length_cons] at hname ⊢
    omega
  · rw [if_neg hsemi]
    have hscan := (scanValue_suffix false ((t.drop 1).dropWhile isSpace)).length_le
    have hspace := (List.dropWhile_sublist (l := t.drop 1) isSpace).length_le
    have hpos := List.length_pos_of_ne_nil hs
    simp only [List.length_drop] at hspace ⊢
    omega

/-- The fuel does not matter when there is enough of it. -/
theorem parametersLoop_eq_of_le {fuel fuel' : ℕ} {s : List UInt8} (h : s.length ≤ fuel) (h' : s.length ≤ fuel')
    (m : List Field) : parametersLoop fuel s m = parametersLoop fuel' s m := by
  induction fuel generalizing fuel' s m with
  | zero =>
      obtain rfl := List.eq_nil_of_length_eq_zero (Nat.le_zero.mp h)
      cases fuel' <;> rfl
  | succ fuel ih =>
      by_cases hs : s = []
      · subst hs
        cases fuel' <;> rfl
      · have hlt := length_nextParameter_lt hs
        cases fuel' with
        | zero => omega
        | succ fuel' =>
            rw [parametersLoop, parametersLoop, if_neg hs, if_neg hs]
            have hfuel : (nextParameter s).2.length ≤ fuel := by omega
            have hfuel' : (nextParameter s).2.length ≤ fuel' := by omega
            exact ih hfuel hfuel' _

/-! ### The text of parameters -/

/-- `name=quote(value)`. -/
def parameterText (allowSpace : Bool) (p : Field) : List UInt8 :=
  p.name ++ chr '=' :: quote p.value allowSpace

/-- Parameters joined by semicolons. -/
def parametersText (allowSpace : Bool) (ps : List Field) : List UInt8 :=
  [chr ';'].intercalate (ps.map (parameterText allowSpace))

/-- The text behind a parameter. -/
def restText (allowSpace : Bool) : List Field → List UInt8
  | [] => []
  | ps => chr ';' :: parametersText allowSpace ps

/-- How many bytes of names and values are not copied into values only. -/
def weight (fs : List Field) : ℕ := (fs.map fun f => (f.name ++ f.value).countP ordinary).sum

theorem weight_perm {fs gs : List Field} (h : fs.Perm gs) : weight fs = weight gs := (h.map _).sum_eq

theorem weight_le (fuel : ℕ) (s : List UInt8) : weight (parameterList fuel s) ≤ s.countP ordinary := by
  have h := (parameterList_sublist fuel s).countP_le (p := ordinary)
  rwa [List.countP_flatMap] at h

section Text

variable {allowSpace : Bool} {ps : List Field}

theorem parametersText_cons (p : Field) :
    parametersText allowSpace (p :: ps) = parameterText allowSpace p ++ restText allowSpace ps := by
  unfold parametersText
  cases ps with
  | nil => simp [restText]
  | cons p' ps =>
      rw [List.map_cons, List.map_cons, List.intercalate_cons_cons, List.append_assoc]
      rfl

theorem drop_restText : (restText allowSpace ps).drop 1 = parametersText allowSpace ps := by
  cases ps <;> rfl

theorem restText_follows (hnames : ∀ p ∈ ps, Token p.name) : Follows (restText allowSpace ps) := by
  cases ps with
  | nil => exact .inl rfl
  | cons p ps =>
      have hname := hnames p List.mem_cons_self
      obtain ⟨c, name, hc⟩ := List.exists_cons_of_ne_nil hname.1
      refine .inr ⟨c, name ++ chr '=' :: quote p.value allowSpace ++ restText allowSpace ps, ?_, ?_⟩
      · rw [restText, parametersText_cons, parameterText, hc]
        · simp
        · simp
      · exact (hname.2 c (by rw [hc]; exact List.mem_cons_self)).2

theorem countP_quote (value : List UInt8) :
    (quote value allowSpace).countP ordinary = value.countP ordinary := by
  have hquote : ordinary (chr '"') = false := by decide
  unfold quote
  split
  · simp [List.countP_append, hquote]
  · rfl

theorem countP_restText : (restText allowSpace ps).countP ordinary = weight ps := by
  induction ps with
  | nil => rfl
  | cons p ps ih =>
      have hsemi : ordinary (chr ';') = false := by decide
      have hequal : ordinary (chr '=') = false := by decide
      rw [restText, parametersText_cons, parameterText]
      · simp only [List.countP_cons, List.countP_append, hsemi, hequal, countP_quote, ih, weight, List.map_cons,
          List.sum_cons]
        simp
      · simp

/-- The parameters whose values are kept are found, one in each round. -/
theorem parameterList_parametersText (hnames : ∀ p ∈ ps, Token p.name)
    (hkept : ∀ p ∈ ps, Kept allowSpace p.value) {fuel : ℕ}
    (hfuel : (parametersText allowSpace ps).length ≤ fuel) :
    parameterList fuel (parametersText allowSpace ps) = ps := by
  induction ps generalizing fuel with
  | nil => cases fuel <;> rfl
  | cons p ps ih =>
      have htail := @restText_follows allowSpace ps fun q hq => hnames q (List.mem_cons_of_mem _ hq)
      have hname := hnames p List.mem_cons_self
      have hlen : (parametersText allowSpace ps).length ≤ (restText allowSpace ps).length := by
        rw [← drop_restText]
        exact (List.drop_sublist 1 _).length_le
      rw [parametersText_cons] at hfuel ⊢
      have hround := nextParameter_quote hname (hkept p List.mem_cons_self) htail.head
      rw [drop_restText] at hround
      cases fuel with
      | zero =>
          simp [parameterText] at hfuel
      | succ fuel =>
          have hne : parameterText allowSpace p ++ restText allowSpace ps ≠ [] := by simp [parameterText]
          rw [parameterList, if_neg hne, parameterText, hround, if_neg hname.1]
          simp only [parameterText, List.length_append, List.length_cons] at hfuel
          rw [ih (fun q hq => hnames q (List.mem_cons_of_mem _ hq))
            (fun q hq => hkept q (List.mem_cons_of_mem _ hq)) (by omega)]

/-- When the same fields are found, each value was kept. -/
theorem kept_of_parameterList (hnames : ∀ p ∈ ps, Token p.name) {fuel : ℕ}
    (hperm : (parameterList fuel (parametersText allowSpace ps)).Perm ps)
    (horder : ∀ name, (parameterList fuel (parametersText allowSpace ps)).filter (iequal name ·.name) =
      ps.filter (iequal name ·.name)) : ∀ p ∈ ps, Kept allowSpace p.value := by
  induction ps generalizing fuel with
  | nil => simp
  | cons p ps ih =>
      have hname := hnames p List.mem_cons_self
      have hrest := fun q hq => hnames q (List.mem_cons_of_mem p hq)
      have htail := @restText_follows allowSpace ps hrest
      have hne : parameterText allowSpace p ++ restText allowSpace ps ≠ [] := by simp [parameterText]
      rw [parametersText_cons] at hperm horder
      cases fuel with
      | zero => exact absurd hperm.length_eq (by simp [parameterList])
      | succ fuel =>
          have hfirst := nextParameter_name hname (quote p.value allowSpace ++ restText allowSpace ps)
          rw [parameterList, if_neg hne] at hperm horder
          have htext : parameterText allowSpace p ++ restText allowSpace ps =
              p.name ++ chr '=' :: (quote p.value allowSpace ++ restText allowSpace ps) := by
            rw [parameterText, List.append_assoc, List.cons_append]
          have hfound : (nextParameter (parameterText allowSpace p ++ restText allowSpace ps)).1.name = p.name := by
            rw [htext, hfirst]
          rw [if_neg (by rw [hfound]; exact hname.1)] at hperm horder
          -- of the fields with this name, the first one is the first one
          have hsame : nextParameter (parameterText allowSpace p ++ restText allowSpace ps) =
              (p, (nextParameter (parameterText allowSpace p ++ restText allowSpace ps)).2) := by
            have hfilter := horder p.name
            have hself : iequal p.name p.name = true := by simp [iequal]
            rw [List.filter_cons, List.filter_cons, hfound, hself, if_pos rfl, if_pos rfl] at hfilter
            exact Prod.ext (List.cons.inj hfilter).1 rfl
          generalize hnext : (nextParameter (parameterText allowSpace p ++ restText allowSpace ps)).2 = rest
            at hperm horder hsame
          rw [hsame] at hperm horder
          have hperm' := hperm.cons_inv
          have hcount : (restText allowSpace ps).countP ordinary ≤ rest.countP ordinary := by
            rw [countP_restText, ← weight_perm hperm']
            exact weight_le fuel rest
          have hkept : Kept allowSpace p.value := by
            refine kept_of_nextParameter hname htail ?_ ?_
            · exact congrArg (·.1.value) hsame
            · exact hcount.trans_eq (congrArg (·.2.countP ordinary) hsame).symm
          have hstep := nextParameter_quote hname hkept htail.head
          have hsync : rest = parametersText allowSpace ps := by
            rw [← drop_restText, ← hnext]
            exact congrArg Prod.snd hstep
          subst hsync
          intro q hq
          rcases List.mem_cons.mp hq with rfl | hq
          · exact hkept
          · refine ih hrest hperm' (fun name => ?_) q hq
            have hfilter := horder name
            rw [List.filter_cons, List.filter_cons] at hfilter
            split at hfilter
            · exact (List.cons.inj hfilter).2
            · exact hfilter

theorem splitParameters_append {value : List UInt8} (hvalue : chr ';' ∉ value) (text : List UInt8) :
    splitParameters (value ++ chr ';' :: text) =
      (trimRight (value.dropWhile isSpace), splitParametersFrom text) := by
  have hsemi : NoHead isSpace (chr ';' :: text) := noHead_cons (by decide)
  have hskip : (value ++ chr ';' :: text).dropWhile isSpace = value.dropWhile isSpace ++ chr ';' :: text := by
    rw [List.dropWhile_append]
    split
    · rename_i hempty
      rw [List.isEmpty_iff.mp hempty, hsemi.dropWhile, List.nil_append]
    · rfl
  have hbytes : ∀ c ∈ value.dropWhile isSpace, (c != chr ';') = true := by
    intro c hc
    rw [bne_iff_ne]
    rintro rfl
    exact hvalue ((List.dropWhile_sublist _).subset hc)
  have hstop : NoHead (· != chr ';') (chr ';' :: text) := noHead_cons (by decide)
  unfold splitParameters
  dsimp only
  rw [hskip, takeWhile_append_of_noHead hbytes hstop, dropWhile_append_of_noHead hbytes hstop, List.drop_one,
    List.tail_cons]

/-- What `quote` writes is split into the same parameters, with and without a value in front of them. -/
def RoundTrips (allowSpace : Bool) (ps : List Field) : Prop :=
  splitParametersFrom (parametersText allowSpace ps) = NameValueCollection.addAll ps ∧
    ∀ value, chr ';' ∉ value → splitParameters (value ++ chr ';' :: parametersText allowSpace ps) =
      (trimRight (value.dropWhile isSpace), NameValueCollection.addAll ps)

/-- **Parameters come back** exactly when no value has a quote or a backslash, or white space that is trimmed. -/
theorem splitParameters_quote_iff (allowSpace : Bool) {ps : List Field} (hnames : ∀ p ∈ ps, Token p.name) :
    RoundTrips allowSpace ps ↔ ∀ p ∈ ps, Kept allowSpace p.value := by
  constructor
  · rintro ⟨h, -⟩
    rw [splitParametersFrom_eq] at h
    have hperm := (NameValueCollection.addAll_perm _).symm.trans (h ▸ NameValueCollection.addAll_perm ps)
    refine kept_of_parameterList hnames hperm fun name => ?_
    rw [← NameValueCollection.filter_addAll, h, NameValueCollection.filter_addAll]
  · intro hkept
    have h : splitParametersFrom (parametersText allowSpace ps) = NameValueCollection.addAll ps := by
      rw [splitParametersFrom_eq, parameterList_parametersText hnames hkept le_rfl]
    exact ⟨h, fun value hvalue => by rw [splitParameters_append hvalue, h]⟩

end Text

/-- Two parameters as a browser sends them. -/
theorem splitParameters_quote_upload :
    RoundTrips false [⟨ascii "name", ascii "up load"⟩, ⟨ascii "filename", ascii "a;b=c"⟩] := by
  refine (splitParameters_quote_iff false ?_).mpr ?_
  · decide +kernel
  · intro p hp
    have hkept : ∀ v ∈ [ascii "up load", ascii "a;b=c"], (∀ c ∈ v, ¬Special c) ∧
        (∀ c ∈ v.getLast?, isSpace c = false) ∧ v.any (mustQuote false) = true := by
      decide +kernel
    have hmem : p.value ∈ [ascii "up load", ascii "a;b=c"] := by
      simp only [List.mem_cons, List.not_mem_nil, or_false] at hp ⊢
      exact hp.imp (congrArg Field.value) (congrArg Field.value)
    obtain ⟨hplain, hlast, hany⟩ := hkept p.value hmem
    exact ⟨hplain, hlast, fun h => absurd (hany.symm.trans h) (by simp)⟩

/-- A quote in a value ends it. -/
theorem not_roundTrips_quote : ¬∀ ps : List Field,
    (∀ p ∈ ps, Token p.name ∧ ∀ c ∈ p.value, c ≠ chr '\r' ∧ c ≠ chr '\n') → RoundTrips false ps := by
  intro h
  have hps := h [⟨ascii "filename", [chr 'a', chr '"', chr 'b']⟩] (by decide +kernel)
  exact absurd hps.1 (by decide)

end MessageHeader

end Poco.Net
