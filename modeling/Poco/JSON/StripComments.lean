import Mathlib.Data.List.Infix
import Mathlib.Tactic.ByContra

/-! # `ParserImpl::stripComments`

With `_allowComments` the comments are erased from the text before it goes to the parser.  The loop has a
flag for a string literal, but sets it from the character at hand only, so the flag is never up at a `/`
and a `/*` inside a literal is erased with what follows.  The look-behind for the end of a comment counts
from the `/*` itself, so `/*/` is a whole comment to the loop.

A text is given as a list of pieces; the comments are exactly what is erased when every piece is
`Piece.Harmless` (`strips_exactly_iff`). -/

namespace Poco.JSON

namespace StripComments

/-! ### The function -/

/-- The loop of `stripComments` from `it` on, with `inString`, `inComment` and `prevChar`. -/
def stripLoop : Bool → Bool → Char → List Char → List Char
  | _, _, _, [] => []
  | inString, inComment, prevChar, c :: rest =>
      let inString := c == '"' && !inString
      let inComment := (!inString && (c == '/' && rest.head? == some '*')) || inComment
      if inComment then
        if prevChar == '*' && c == '/' then stripLoop inString false '\x00' rest
        else stripLoop inString inComment c rest
      else c :: stripLoop inString inComment prevChar rest

/-- `ParserImpl::stripComments`. -/
def stripComments (allowComments : Bool) (json : List Char) : List Char :=
  if allowComments then stripLoop false false '\x00' json else json

/-- Which characters the loop of `stripComments` leaves in the text. -/
def keptLoop : Bool → Bool → Char → List Char → List Bool
  | _, _, _, [] => []
  | inString, inComment, prevChar, c :: rest =>
      let inString := c == '"' && !inString
      let inComment := (!inString && (c == '/' && rest.head? == some '*')) || inComment
      if inComment then
        if prevChar == '*' && c == '/' then false :: keptLoop inString false '\x00' rest
        else false :: keptLoop inString inComment c rest
      else true :: keptLoop inString inComment prevChar rest

/-- Which characters `stripComments` leaves in the text. -/
def kept (json : List Char) : List Bool := keptLoop false false '\x00' json

/-- The characters with their flag up. -/
def select (flags : List Bool) (s : List Char) : List Char := ((s.zip flags).filter Prod.snd).map Prod.fst

/-! ### Texts with comments -/

/-- A character of a string literal as it is written. -/
inductive LiteralChar where
  | plain (c : {c : Char // c ≠ '"' ∧ c ≠ '\\'})
  | escaped (c : Char)

/-- The text of a character of a literal. -/
def LiteralChar.text : LiteralChar → List Char
  | plain c => [c.val]
  | escaped c => ['\\', c]

/-- A piece of a text: a string literal, another character of the JSON text or a comment. -/
inductive Piece where
  | literal (body : List LiteralChar)
  | other (c : {c : Char // c ≠ '"' ∧ c ≠ '/'})
  | comment (body : {b : List Char // ¬['*', '/'] <:+: b})

namespace Piece

/-- How the piece is written. -/
def text : Piece → List Char
  | literal body => '"' :: body.flatMap LiteralChar.text ++ ['"']
  | other c => [c.val]
  | comment body => '/' :: '*' :: body.val ++ ['*', '/']

/-- The piece is part of the JSON text. -/
def isToken : Piece → Bool
  | comment _ => false
  | _ => true

/-- The flags of the piece: all up for a part of the JSON text and all down for a comment. -/
def flags (p : Piece) : List Bool := List.replicate p.text.length p.isToken

/-- No literal has a `/*`, and no comment begins with `/*/`, but it may begin with `/*//*`. -/
def Harmless (p : Piece) : Prop :=
  match p with
  | literal _ => ¬['/', '*'] <:+: p.text
  | other _ => True
  | comment _ => ['/', '*', '/'] <+: p.text → ['/', '*', '/', '/', '*'] <+: p.text

end Piece

/-- A text from its pieces. -/
def textOf (ps : List Piece) : List Char := ps.flatMap Piece.text

/-- The same text without its comments. -/
def tokensOf (ps : List Piece) : List Char := textOf (ps.filter Piece.isToken)

/-- The comments, and no other character, are erased from the text. -/
structure StripsExactly (ps : List Piece) : Prop where
  positions : kept (textOf ps) = ps.flatMap Piece.flags
  result : stripComments true (textOf ps) = tokensOf ps

/-! ### The two loops -/

theorem stripLoop_eq_select (i b : Bool) (p : Char) (s : List Char) :
    stripLoop i b p s = select (keptLoop i b p s) s := by
  induction s generalizing i b p with
  | nil => rfl
  | cons c s ih =>
      unfold stripLoop keptLoop
      dsimp only
      split
      · split
        · rw [ih]; rfl
        · rw [ih]; rfl
      · rw [ih]; rfl

theorem select_append {fs gs : List Bool} {s t : List Char} (h : fs.length = s.length) :
    select (fs ++ gs) (s ++ t) = select fs s ++ select gs t := by
  unfold select
  rw [List.zip_append h.symm, List.filter_append, List.map_append]

theorem select_true (s : List Char) : select (List.replicate s.length true) s = s := by
  induction s with
  | nil => rfl
  | cons c s ih => exact congrArg (c :: ·) ih

theorem select_false (s : List Char) : select (List.replicate s.length false) s = [] := by
  induction s with
  | nil => rfl
  | cons c s ih => exact ih

theorem select_flags (ps : List Piece) : select (ps.flatMap Piece.flags) (textOf ps) = tokensOf ps := by
  induction ps with
  | nil => rfl
  | cons p ps ih =>
      have happend : select ((p :: ps).flatMap Piece.flags) (textOf (p :: ps)) =
          select p.flags p.text ++ select (ps.flatMap Piece.flags) (textOf ps) := by
        apply select_append
        exact List.length_replicate
      rw [happend, ih]
      unfold tokensOf Piece.flags
      cases hp : p.isToken with
      | true =>
          rw [select_true, List.filter_cons_of_pos hp]
          rfl
      | false =>
          rw [select_false, List.filter_cons_of_neg (by rw [hp]; exact Bool.false_ne_true)]
          rfl

/-- The flag for a string literal is down at every `/`, whatever it was before. -/
theorem keptLoop_inString (i j b : Bool) (p : Char) (s : List Char) :
    keptLoop i b p s = keptLoop j b p s := by
  induction s generalizing i j b p with
  | nil => rfl
  | cons c s ih =>
      have htest : ∀ k : Bool, ((!(c == '"' && !k) && (c == '/' && s.head? == some '*')) || b) =
          ((c == '/' && s.head? == some '*') || b) := by
        intro k
        by_cases hc : c = '/'
        · subst hc; rfl
        · rw [beq_eq_false_iff_ne.mpr hc, Bool.false_and, Bool.and_false]
      unfold keptLoop
      dsimp only
      rw [htest i, htest j, ih _ (c == '"' && !j), ih (c == '"' && !i) (c == '"' && !j),
        ih (c == '"' && !i) (c == '"' && !j)]

theorem kept_cons (c : Char) (s : List Char) :
    kept (c :: s) = if c = '/' ∧ s.head? = some '*' then false :: keptLoop false true '/' s
      else true :: kept s := by
  unfold kept
  conv_lhs => unfold keptLoop
  dsimp only
  by_cases hc : c = '/' ∧ s.head? = some '*'
  · rw [if_pos hc, hc.1, hc.2]
    rfl
  · have htest : (c == '/' && s.head? == some '*') = false := by
      rw [← Bool.not_eq_true, Bool.and_eq_true, beq_iff_eq, beq_iff_eq]
      exact hc
    rw [if_neg hc, htest, Bool.and_false, Bool.or_false, if_neg Bool.false_ne_true]
    exact congrArg (true :: ·) (keptLoop_inString _ _ _ _ _)

theorem starts_of_kept {s : List Char} {l : List Bool} (h : kept s = false :: l) :
    ∃ u, s = '/' :: '*' :: u := by
  cases s with
  | nil => exact (nomatch h)
  | cons c s =>
      rw [kept_cons] at h
      split at h
      next hc =>
          obtain ⟨rfl, hs⟩ := hc
          obtain ⟨u, rfl⟩ := List.head?_eq_some_iff.mp hs
          exact ⟨u, rfl⟩
      · exact absurd (List.head_eq_of_cons_eq h).symm Bool.false_ne_true

theorem keptLoop_comment (p c : Char) (s : List Char) :
    keptLoop false true p (c :: s) =
      false :: if p = '*' ∧ c = '/' then kept s else keptLoop false true c s := by
  conv_lhs => unfold keptLoop
  dsimp only
  rw [Bool.or_true, if_pos rfl]
  by_cases hc : p = '*' ∧ c = '/'
  · rw [if_pos hc, hc.1, hc.2]
    rfl
  · have htest : ¬(p == '*' && c == '/') = true := by
      rw [Bool.and_eq_true, beq_iff_eq, beq_iff_eq]
      exact hc
    rw [if_neg hc, if_neg htest]
    exact congrArg (false :: ·) (keptLoop_inString _ _ _ _ _)

/-! ### Pieces of the JSON text -/

theorem not_start_of_not_infix {c : Char} {s : List Char} (h : ¬['/', '*'] <:+: c :: s) :
    ¬(c = '/' ∧ s.head? = some '*') := by
  rintro ⟨rfl, hs⟩
  apply h
  obtain ⟨t, rfl⟩ := List.head?_eq_some_iff.mp hs
  exact ⟨[], t, rfl⟩

theorem kept_append (s : List Char) {t : List Char} (h : ¬['/', '*'] <:+: s)
    (hlast : s.getLast? ≠ some '/') :
    kept (s ++ t) = List.replicate s.length true ++ kept t := by
  induction s with
  | nil => rfl
  | cons c s ih =>
      have htail : ¬['/', '*'] <:+: s := fun hs => h (List.infix_cons hs)
      have hstart : ¬(c = '/' ∧ (s ++ t).head? = some '*') := by
        cases s with
        | nil =>
            rintro ⟨rfl, -⟩
            exact hlast rfl
        | cons d s => exact fun hc => not_start_of_not_infix h ⟨hc.1, hc.2⟩
      have hlast' : s.getLast? ≠ some '/' := by
        cases s with
        | nil => exact nofun
        | cons d s => rwa [List.getLast?_cons_cons] at hlast
      rw [List.cons_append, kept_cons, if_neg hstart, ih htail hlast']
      rfl

theorem not_infix_of_kept (s : List Char) {t : List Char} {l : List Bool}
    (h : kept (s ++ t) = List.replicate s.length true ++ l) : ¬['/', '*'] <:+: s := by
  induction s with
  | nil => exact fun hs => nomatch List.infix_nil.mp hs
  | cons c s ih =>
      rw [List.cons_append, kept_cons] at h
      split at h
      · exact absurd (List.head_eq_of_cons_eq h) Bool.false_ne_true
      next hstart =>
          intro hs
          rcases List.infix_cons_iff.mp hs with hpre | htail
          · obtain ⟨u, hu⟩ := hpre
            obtain ⟨rfl, rfl⟩ := List.cons_eq_cons.mp hu
            exact hstart ⟨rfl, rfl⟩
          · exact ih (List.tail_eq_of_cons_eq h) htail

/-! ### Comments -/

/-- A comment is over with its first `*/`, where the character before counts. -/
theorem keptLoop_body (p : Char) (b t : List Char) (h : ¬['*', '/'] <:+: p :: b) :
    keptLoop false true p (b ++ '*' :: '/' :: t) = List.replicate (b.length + 2) false ++ kept t := by
  induction b generalizing p with
  | nil =>
      rw [List.nil_append, keptLoop_comment, if_neg (fun hc => absurd hc.2 (by decide)),
        keptLoop_comment, if_pos ⟨rfl, rfl⟩]
      rfl
  | cons c b ih =>
      have hclose : ¬(p = '*' ∧ c = '/') := by
        rintro ⟨rfl, rfl⟩
        exact h ⟨[], b, rfl⟩
      rw [List.cons_append, keptLoop_comment, if_neg hclose, ih c fun hb => h (List.infix_cons hb)]
      rfl

theorem kept_open (s : List Char) :
    kept ('/' :: '*' :: s) = false :: false :: keptLoop false true '*' s := by
  rw [kept_cons, if_pos ⟨rfl, rfl⟩, keptLoop_comment, if_neg fun hc => absurd hc.2 (by decide)]

theorem kept_open_slash (s : List Char) :
    kept ('/' :: '*' :: '/' :: s) = false :: false :: false :: kept s := by
  rw [kept_open, keptLoop_comment, if_pos ⟨rfl, rfl⟩]

/-- The `*` of `/*` is no end of the comment when no `/` follows it. -/
theorem not_infix_star {b : List Char} (h : ¬['*', '/'] <:+: b) (hb : b.head? ≠ some '/') :
    ¬['*', '/'] <:+: '*' :: b := by
  intro hi
  rcases List.infix_cons_iff.mp hi with hpre | hin
  · obtain ⟨u, hu⟩ := hpre
    apply hb
    rw [← List.tail_eq_of_cons_eq hu]
    rfl
  · exact h hin

/-- A comment that does not begin with `/*/` is erased as a whole. -/
theorem kept_comment {b : List Char} (t : List Char) (h : ¬['*', '/'] <:+: b) (hb : b.head? ≠ some '/') :
    kept ('/' :: '*' :: (b ++ '*' :: '/' :: t)) = List.replicate (b.length + 4) false ++ kept t := by
  rw [kept_open, keptLoop_body '*' b t (not_infix_star h hb)]
  rfl

/-! ### Pieces -/

theorem Piece.text_append_comment (body : {b : List Char // ¬['*', '/'] <:+: b}) (t : List Char) :
    (Piece.comment body).text ++ t = '/' :: '*' :: (body.val ++ '*' :: '/' :: t) := by
  unfold Piece.text
  rw [List.append_assoc]
  rfl

theorem Piece.flags_comment (body : {b : List Char // ¬['*', '/'] <:+: b}) :
    (Piece.comment body).flags = List.replicate (body.val.length + 4) false := by
  unfold Piece.flags
  congr 1
  show (body.val ++ ['*', '/']).length + 2 = _
  rw [List.length_append]
  rfl

/-- A comment that begins with `/*/` is erased as a whole if another comment begins right there. -/
theorem kept_comment_slash {b : List Char} (t : List Char) (h : ¬['*', '/'] <:+: '/' :: b)
    (hb : ['/', '*'] <+: b ++ ['*', '/']) :
    kept ('/' :: '*' :: '/' :: (b ++ '*' :: '/' :: t)) =
      List.replicate (b.length + 5) false ++ kept t := by
  rw [kept_open_slash]
  match b with
  | [] => exact absurd (List.head_eq_of_cons_eq hb.choose_spec) (by decide)
  | [c] =>
      obtain ⟨u, hu⟩ := hb
      obtain rfl : '/' = c := List.head_eq_of_cons_eq hu
      rw [List.cons_append, List.nil_append, kept_open_slash]
      rfl
  | c :: d :: b =>
      obtain ⟨u, hu⟩ := hb
      obtain rfl : '/' = c := List.head_eq_of_cons_eq hu
      obtain rfl : '*' = d := List.head_eq_of_cons_eq (List.tail_eq_of_cons_eq hu)
      have hstar : ¬['*', '/'] <:+: '*' :: b := fun hi => h (List.infix_cons (List.infix_cons hi))
      have hhead : b.head? ≠ some '/' := by
        intro hs
        obtain ⟨v, rfl⟩ := List.head?_eq_some_iff.mp hs
        exact hstar ⟨[], v, rfl⟩
      have hbody : ¬['*', '/'] <:+: b := fun hi => hstar (List.infix_cons hi)
      rw [List.cons_append, List.cons_append, kept_comment t hbody hhead]
      rfl

theorem Piece.Harmless.kept {p : Piece} (h : p.Harmless) (t : List Char) :
    StripComments.kept (p.text ++ t) = p.flags ++ StripComments.kept t := by
  cases p with
  | literal body =>
      apply kept_append _ h
      unfold Piece.text
      rw [List.getLast?_concat]
      decide
  | other c =>
      apply kept_append [c.val]
      · intro hi
        exact absurd hi.length_le (Nat.not_le.mpr (Nat.lt_succ_self 1))
      · exact fun hc => c.property.2 (Option.some.inj hc)
  | comment body =>
      obtain ⟨b, hb⟩ := body
      rw [Piece.text_append_comment, Piece.flags_comment]
      cases b with
      | nil => exact kept_comment t hb nofun
      | cons c b =>
          by_cases hc : c = '/'
          · subst hc
            have hopen : ['/', '*', '/', '/', '*'] <+: '/' :: '*' :: '/' :: (b ++ ['*', '/']) :=
              h ⟨b ++ ['*', '/'], rfl⟩
            apply kept_comment_slash t hb
            rwa [List.prefix_cons_inj, List.prefix_cons_inj, List.prefix_cons_inj] at hopen
          · exact kept_comment t hb fun hs => hc (Option.some.inj hs)

theorem Piece.harmless_of_kept {p : Piece} {t : List Char} {l : List Bool}
    (h : StripComments.kept (p.text ++ t) = p.flags ++ l) : p.Harmless := by
  cases p with
  | literal body => exact not_infix_of_kept _ h
  | other c => trivial
  | comment body =>
      obtain ⟨b, hb⟩ := body
      intro hpre
      obtain ⟨u, hu⟩ := hpre
      match b with
      | [] =>
          exact absurd (List.head_eq_of_cons_eq (List.tail_eq_of_cons_eq (List.tail_eq_of_cons_eq hu)))
            (by decide)
      | c :: b =>
          obtain rfl : '/' = c :=
            List.head_eq_of_cons_eq (List.tail_eq_of_cons_eq (List.tail_eq_of_cons_eq hu))
          rw [Piece.text_append_comment, Piece.flags_comment] at h
          show ['/', '*', '/', '/', '*'] <+: '/' :: '*' :: '/' :: (b ++ ['*', '/'])
          rw [List.prefix_cons_inj, List.prefix_cons_inj, List.prefix_cons_inj]
          have hrest : StripComments.kept (b ++ '*' :: '/' :: t) =
              false :: (List.replicate (b.length + 1) false ++ l) := by
            rw [List.cons_append, kept_open_slash] at h
            exact List.tail_eq_of_cons_eq (List.tail_eq_of_cons_eq (List.tail_eq_of_cons_eq h))
          obtain ⟨v, hv⟩ := starts_of_kept hrest
          match b with
          | [] => exact absurd (List.head_eq_of_cons_eq hv) (by decide)
          | [c] =>
              obtain rfl : c = '/' := List.head_eq_of_cons_eq hv
              exact ⟨['/'], rfl⟩
          | c :: d :: b =>
              obtain rfl : c = '/' := List.head_eq_of_cons_eq hv
              obtain rfl : d = '*' := List.head_eq_of_cons_eq (List.tail_eq_of_cons_eq hv)
              exact ⟨b ++ ['*', '/'], rfl⟩

/-! ### Exactness -/

theorem kept_textOf_iff (ps : List Piece) :
    kept (textOf ps) = ps.flatMap Piece.flags ↔ ∀ p ∈ ps, p.Harmless := by
  induction ps with
  | nil => exact ⟨fun _ p hp => (nomatch hp), fun _ => rfl⟩
  | cons p ps ih =>
      rw [List.forall_mem_cons]
      constructor
      · intro h
        have hp : p.Harmless := Piece.harmless_of_kept h
        refine ⟨hp, ih.mp ?_⟩
        rw [textOf, List.flatMap_cons, hp.kept, List.flatMap_cons] at h
        exact List.append_cancel_left h
      · rintro ⟨hp, hps⟩
        rw [textOf, List.flatMap_cons, hp.kept, List.flatMap_cons, ← ih.mpr hps]
        rfl

/-- Exactly the comments are erased if and only if no literal has a `/*` and no comment begins with
`/*/`, other than with `/*//*`. -/
theorem strips_exactly_iff (ps : List Piece) : StripsExactly ps ↔ ∀ p ∈ ps, p.Harmless := by
  rw [← kept_textOf_iff]
  constructor
  · exact StripsExactly.positions
  · intro h
    refine ⟨h, ?_⟩
    unfold stripComments
    rw [if_pos rfl, stripLoop_eq_select]
    exact (congrArg (select · (textOf ps)) h).trans (select_flags ps)

/-- The literal `"a/*b*/c"` is cut. -/
theorem not_strips_exactly : ∃ ps : List Piece, ps.all Piece.isToken = true ∧ ¬StripsExactly ps ∧
    textOf ps = "\"a/*b*/c\"".toList ∧ stripComments true (textOf ps) = "\"ac\"".toList := by
  refine ⟨[.literal (['a', '/', '*', 'b', '*', '/', 'c'].pmap (fun c hc => .plain ⟨c, hc⟩) ?_)], rfl, ?_, rfl, rfl⟩
  · simp only [List.mem_cons, List.not_mem_nil, or_false, forall_eq_or_imp, forall_eq]
    decide
  · intro h
    exact absurd h.result (by decide)

end StripComments

end Poco.JSON
