import Poco.JSON.JSONStream

/-! # The tokens of a text

`json_next`, called again and again, returns the tokens of a text.  Every one of them is allowed at its place, and a
text that ends without an error ends behind its root value (`legal_tokens`).  Each token takes bytes of the
source, so the tokens end. -/

namespace Poco.JSON.Pdjson

open Poco.Lib Poco.Foundation

/-! ### Places of tokens -/

/-- What a token stands for: the root value, an element or the end of an array, a name or the end of an object, or
the value of a member. -/
inductive Place
  | root
  | element
  | name
  | value
deriving DecidableEq, Repr

/-- The place behind a value. -/
def Place.behind : Place → List Place
  | .root => []
  | .element => [.element]
  | .name => [.name]
  | .value => [.name]

/-- The places behind a value that begins with a token. -/
def opened (ps : List Place) : Token → List Place
  | .object => .name :: ps
  | .array => .element :: ps
  | _ => ps

/-- A token ends a container. -/
def Token.IsEnd (t : Token) : Prop := t = .objectEnd ∨ t = .arrayEnd

instance (t : Token) : Decidable t.IsEnd := inferInstanceAs (Decidable (_ ∨ _))

/-- The places behind a token that stands at the first of the places. -/
inductive Step : List Place → Token → List Place → Prop
  | arrayEnd {ps : List Place} : Step (.element :: ps) .arrayEnd ps
  | objectEnd {ps : List Place} : Step (.name :: ps) .objectEnd ps
  | name {ps : List Place} {str : List UInt8} : Step (.name :: ps) (.string str) (.value :: ps)
  | value {p : Place} {ps : List Place} {t : Token} : p ≠ .name → ¬t.IsEnd →
      Step (p :: ps) t (opened (p.behind ++ ps) t)

/-- The place that the top of the stack of `json_stream` stands for. -/
def placeOf : ContainerType × ℕ → Place
  | (.array, _) => .element
  | (.object, count) => if count % 2 = 0 then .name else .value

namespace JSONStream

/-! ### What is left of the source -/

section Source

variable {α β : Type} {r : Except (List UInt8) (α × List UInt8)} {n : ℕ}

/-- At most `n` bytes are left. -/
def Leaves (n : ℕ) (r : Except (List UInt8) (α × List UInt8)) : Prop :=
  ∀ a source, r = .ok (a, source) → source.length ≤ n

theorem leaves_error (errmsg : List UInt8) : Leaves n (.error errmsg : Except (List UInt8) (α × List UInt8)) :=
  fun _ _ h => nomatch h

theorem leaves_ok {a : α} {source : List UInt8} (h : source.length ≤ n) : Leaves n (.ok (a, source)) := by
  intro a' source' heq
  obtain ⟨rfl, rfl⟩ := Prod.mk.inj (Except.ok.inj heq)
  exact h

theorem Leaves.mono {m : ℕ} (h : Leaves m r) (hle : m ≤ n) : Leaves n r :=
  fun a source hr => (h a source hr).trans hle

theorem Leaves.bind {f : α × List UInt8 → Except (List UInt8) (β × List UInt8)} (h : Leaves n r)
    (hf : ∀ a source, source.length ≤ n → Leaves n (f (a, source))) : Leaves n (r >>= f) := by
  cases r with
  | error errmsg => exact leaves_error errmsg
  | ok p => exact hf p.1 p.2 (h p.1 p.2 rfl)

theorem leaves_readUnicodeCp (left cp : ℕ) (source : List UInt8) :
    Leaves source.length (readUnicodeCp left cp source) := by
  fun_induction readUnicodeCp left cp source with
  | case1 cp source => exact leaves_ok le_rfl
  | case2 => exact leaves_error _
  | case3 => exact leaves_error _
  | case4 left cp c source hc hdigit ih => exact ih.mono (Nat.le_succ _)

theorem leaves_readSurrogate (h : ℕ) (source : List UInt8) : Leaves source.length (readSurrogate h source) := by
  cases source with
  | nil => exact leaves_error _
  | cons c source =>
      unfold readSurrogate
      dsimp only
      split_ifs with hc
      · exact leaves_error _
      · cases source with
        | nil => exact leaves_error _
        | cons d source =>
            dsimp only
            split_ifs with hd
            · exact leaves_error _
            · refine ((leaves_readUnicodeCp 4 0 source).bind fun l rest hrest => ?_).mono
                ((Nat.le_succ _).trans (Nat.le_succ _))
              dsimp only
              split_ifs
              · exact leaves_error _
              · exact leaves_ok hrest

theorem leaves_readCodepoint (source : List UInt8) : Leaves source.length (readCodepoint source) := by
  refine (leaves_readUnicodeCp 4 0 source).bind fun cp rest hrest => ?_
  dsimp only
  split_ifs
  · exact (leaves_readSurrogate cp rest).mono hrest
  · exact leaves_error _
  · exact leaves_ok hrest

theorem leaves_readUnicode (source : List UInt8) : Leaves source.length (readUnicode source) := by
  refine (leaves_readCodepoint source).bind fun cp rest hrest => ?_
  dsimp only
  cases encodeUtf8 cp with
  | error errmsg => exact leaves_error errmsg
  | ok bytes => exact leaves_ok hrest

theorem leaves_readEscaped (source : List UInt8) : Leaves source.length (readEscaped source) := by
  cases source with
  | nil => exact leaves_error _
  | cons c source =>
      rw [readEscaped]
      split_ifs
      · exact (leaves_readUnicode source).mono (Nat.le_succ _)
      · cases codes.lookup c with
        | none => exact leaves_error _
        | some b => exact leaves_ok (Nat.le_succ _)

theorem leaves_readUtf8 (c : UInt8) (source : List UInt8) : Leaves source.length (readUtf8 c source) := by
  unfold readUtf8
  dsimp only
  split_ifs
  · exact leaves_error _
  · exact leaves_ok (by simp)
  · exact leaves_error _

theorem leaves_readCharacter (c : UInt8) (source : List UInt8) : Leaves source.length (readCharacter c source) := by
  unfold readCharacter
  split_ifs
  · exact leaves_readEscaped source
  · exact leaves_readUtf8 c source
  · exact leaves_error _
  · exact leaves_ok le_rfl

theorem leaves_readStringLoop (left : ℕ) (source : List UInt8) :
    Leaves source.length (readStringLoop left source) := by
  induction left generalizing source with
  | zero => cases source <;> exact leaves_error _
  | succ left ih =>
      cases source with
      | nil => exact leaves_error _
      | cons c source =>
          rw [readStringLoop]
          split_ifs with hquote
          · exact leaves_ok (Nat.le_succ _)
          · refine ((leaves_readCharacter c source).bind fun bytes rest hrest => ?_).mono (Nat.le_succ _)
            exact ((ih rest).mono hrest).bind fun string rest' hrest' => leaves_ok hrest'

theorem leaves_readDigits (source : List UInt8) : Leaves source.length (readDigits source) := by
  unfold readDigits
  split
  · exact leaves_error _
  · exact leaves_error _
  · exact leaves_ok (List.length_dropWhile_le _ _)

theorem leaves_readDecimals (source : List UInt8) : Leaves source.length (readDecimals source) := by
  cases source with
  | nil => exact leaves_ok le_rfl
  | cons c source =>
      rw [readDecimals]
      split_ifs
      · refine Leaves.mono ?_ (Nat.le_succ _)
        exact (leaves_readDigits source).bind fun digits rest hrest => leaves_ok hrest
      · exact leaves_ok le_rfl

theorem leaves_readExponentDigits (source : List UInt8) : Leaves source.length (readExponentDigits source) := by
  cases source with
  | nil => exact leaves_error _
  | cons c source =>
      rw [readExponentDigits]
      split_ifs
      · refine Leaves.mono ?_ (Nat.le_succ _)
        exact (leaves_readDigits source).bind fun digits rest hrest => leaves_ok hrest
      · exact leaves_readDigits _
      · exact leaves_error _

theorem leaves_readExponent (source : List UInt8) : Leaves source.length (readExponent source) := by
  cases source with
  | nil => exact leaves_ok le_rfl
  | cons c source =>
      rw [readExponent]
      split_ifs
      · refine Leaves.mono ?_ (Nat.le_succ _)
        exact (leaves_readExponentDigits source).bind fun digits rest hrest => leaves_ok hrest
      · exact leaves_ok le_rfl

theorem leaves_readUnsigned (c : UInt8) (source : List UInt8) : Leaves source.length (readUnsigned c source) := by
  unfold readUnsigned
  split_ifs
  · refine ((leaves_readDecimals _).mono (List.length_dropWhile_le _ _)).bind fun decimals rest hrest => ?_
    exact ((leaves_readExponent rest).mono hrest).bind fun exponent rest' hrest' => leaves_ok hrest'
  · refine ((leaves_readDecimals source).mono le_rfl).bind fun decimals rest hrest => ?_
    exact ((leaves_readExponent rest).mono hrest).bind fun exponent rest' hrest' => leaves_ok hrest'

theorem leaves_readNumber (c : UInt8) (source : List UInt8) : Leaves source.length (readNumber c source) := by
  unfold readNumber
  split_ifs
  · cases source with
    | nil => exact leaves_error _
    | cons d source =>
        dsimp only
        split_ifs
        · refine Leaves.mono ?_ (Nat.le_succ _)
          exact (leaves_readUnsigned d source).bind fun number rest hrest => leaves_ok hrest
        · exact leaves_error _
  · exact leaves_readUnsigned c source

end Source

/-- The places that are open. -/
def places (json : JSONStream) : List Place :=
  if json.stack = [] ∧ json.ntokens = 0 then [.root] else json.stack.map placeOf

/-- A token has been read where containers are open. -/
def Counted (json : JSONStream) : Prop := json.stack ≠ [] → 0 < json.ntokens

theorem places_of_pos {json : JSONStream} (h : 0 < json.ntokens) : json.places = json.stack.map placeOf :=
  if_neg fun hand => Nat.ne_of_gt h hand.2

theorem places_of_stack {json : JSONStream} (h : json.stack ≠ []) : json.places = json.stack.map placeOf :=
  if_neg fun hand => h hand.1

theorem isMatch_length {pattern source rest : List UInt8} (h : isMatch pattern source = .ok rest) :
    rest.length ≤ source.length := by
  fun_induction isMatch pattern source with
  | case1 source =>
      cases h
      exact le_rfl
  | case2 p pattern source ih => exact (ih h).trans (Nat.le_succ _)
  | case3 => cases h
  | case4 => cases h

theorem literal_token {json json' : JSONStream} {pattern : String} {t t' : Token} {source : List UInt8}
    (h : json.literal pattern t source = .token t' json') :
    t' = t ∧ json'.source.length ≤ source.length ∧ json'.ntokens = json.ntokens ∧ json'.stack = json.stack := by
  unfold literal at h
  cases hmatch : isMatch (UTF8.text pattern) source with
  | error errmsg =>
      rw [hmatch] at h
      cases h
  | ok rest =>
      rw [hmatch] at h
      cases h
      exact ⟨rfl, isMatch_length hmatch, rfl, rfl⟩

theorem scalar_token {json json' : JSONStream} {f : List UInt8 → Token} {t : Token} {r : Reads} {n : ℕ}
    (hr : Leaves n r) (h : json.scalar f r = .token t json') :
    (∃ str, t = f str) ∧ json'.source.length ≤ n ∧ json'.ntokens = json.ntokens ∧ json'.stack = json.stack := by
  cases r with
  | error errmsg => cases h
  | ok p =>
      cases h
      exact ⟨⟨p.1, rfl⟩, hr p.1 p.2 rfl, rfl, rfl⟩

theorem length_of_dropWhile {source rest : List UInt8} {c : UInt8} (h : source.dropWhile isSpace = c :: rest) :
    rest.length < source.length := by
  have hdrop := List.length_dropWhile_le isSpace source
  rw [h] at hdrop
  exact hdrop

/-- What `read_value` does: it takes bytes, and opens the container that the token begins. -/
theorem readValue_token {json json' : JSONStream} {t : Token} (h : json.readValue = .token t json') :
    json'.source.length < json.source.length ∧ 0 < json'.ntokens ∧ ¬t.IsEnd ∧
      json'.stack.map placeOf = opened (json.stack.map placeOf) t := by
  unfold readValue at h
  dsimp only at h
  cases hsource : json.source.dropWhile isSpace with
  | nil =>
      rw [hsource] at h
      cases h
  | cons c source =>
      have hlt := length_of_dropWhile hsource
      -- a token that opens no container
      have hplain : json'.source.length ≤ source.length ∧ json'.ntokens = json.ntokens + 1 ∧
          json'.stack = json.stack → ¬t.IsEnd ∧ (∀ ps, opened ps t = ps) →
          json'.source.length < json.source.length ∧ 0 < json'.ntokens ∧ ¬t.IsEnd ∧
            json'.stack.map placeOf = opened (json.stack.map placeOf) t := by
        rintro ⟨hle, hntokens, hstack⟩ ⟨hend, hopened⟩
        refine ⟨lt_of_le_of_lt hle hlt, by omega, hend, ?_⟩
        rw [hstack, hopened]
      rw [hsource] at h
      dsimp only at h
      split_ifs at h
      · cases h
        exact ⟨hlt, Nat.succ_pos _, by decide, rfl⟩
      · cases h
        exact ⟨hlt, Nat.succ_pos _, by decide, rfl⟩
      · obtain ⟨⟨str, rfl⟩, hjson⟩ := scalar_token (leaves_readStringLoop _ _) h
        exact hplain hjson ⟨by simp [Token.IsEnd], fun _ => rfl⟩
      · obtain ⟨rfl, hjson⟩ := literal_token h
        exact hplain hjson ⟨by decide, fun _ => rfl⟩
      · obtain ⟨rfl, hjson⟩ := literal_token h
        exact hplain hjson ⟨by decide, fun _ => rfl⟩
      · obtain ⟨rfl, hjson⟩ := literal_token h
        exact hplain hjson ⟨by decide, fun _ => rfl⟩
      · obtain ⟨⟨str, rfl⟩, hjson⟩ := scalar_token (leaves_readNumber _ _) h
        exact hplain hjson ⟨by simp [Token.IsEnd], fun _ => rfl⟩

theorem readName_token {json json' : JSONStream} {count : ℕ} {stack : List (ContainerType × ℕ)}
    {errmsg : List UInt8} {t : Token} (hcount : count % 2 = 0) (h : json.readName count stack errmsg = .token t json') :
    json'.source.length < json.source.length ∧ 0 < json'.ntokens ∧ json'.stack ≠ [] ∧
      Step (.name :: stack.map placeOf) t (json'.stack.map placeOf) := by
  unfold readName at h
  split at h
  · next str json'' hread =>
      obtain ⟨hlt, hpos, -, -⟩ := readValue_token hread
      cases h
      refine ⟨hlt, hpos, List.cons_ne_nil _ _, ?_⟩
      have hodd : ¬(count + 1) % 2 = 0 := by omega
      rw [List.map_cons, placeOf, if_neg hodd]
      exact .name
  · cases h
  · cases h

/-- What `json_next` does: it takes bytes, and the token may stand at its place. -/
theorem jsonNext_token {json json' : JSONStream} {t : Token} (hcounted : json.Counted)
    (h : json.jsonNext = .token t json') :
    json'.source.length < json.source.length ∧ json'.Counted ∧ Step json.places t json'.places := by
  unfold jsonNext at h
  cases hstack : json.stack with
  | nil =>
      rw [hstack] at h
      dsimp only at h
      split_ifs at h with hpos
      · split at h <;> cases h
      · obtain ⟨hlt, hpos', hend, hplaces⟩ := readValue_token h
        refine ⟨hlt, fun _ => hpos', ?_⟩
        have hroot : json.places = [.root] := if_pos ⟨hstack, Nat.eq_zero_of_not_pos hpos⟩
        rw [places_of_pos hpos', hplaces, hroot, hstack]
        exact .value (by decide) hend
  | cons top stack =>
      have hne : json.stack ≠ [] := by
        rw [hstack]
        exact List.cons_ne_nil _ _
      have hpos := hcounted hne
      rw [places_of_stack hne, hstack, List.map_cons]
      rw [hstack] at h
      -- the container ends
      have hpop : ∀ {source : List UInt8} {c : UInt8}, json.source.dropWhile isSpace = c :: source →
          json' = { json with source := source, stack := stack } →
          json'.source.length < json.source.length ∧ json'.Counted ∧ json'.places = stack.map placeOf := by
        rintro source c hsource rfl
        exact ⟨length_of_dropWhile hsource, fun _ => hpos, places_of_pos hpos⟩
      -- a value is read in it
      have hvalue : ∀ {json₁ : JSONStream} {p : Place}, json₁.source.length ≤ json.source.length → p ≠ .name →
          json₁.stack.map placeOf = p.behind ++ stack.map placeOf → json₁.readValue = .token t json' →
          json'.source.length < json.source.length ∧ json'.Counted ∧
            Step (p :: stack.map placeOf) t json'.places := by
        intro json₁ p hle hp hplaces hread
        obtain ⟨hlt, hpos', hend, hopened⟩ := readValue_token hread
        refine ⟨lt_of_lt_of_le hlt hle, fun _ => hpos', ?_⟩
        rw [places_of_pos hpos', hopened, hplaces]
        exact .value hp hend
      obtain ⟨type, count⟩ := top
      cases type with
      | array =>
          dsimp only at h
          rw [placeOf]
          unfold nextInArray at h
          cases hsource : json.source.dropWhile isSpace with
          | nil =>
              rw [hsource] at h
              cases h
          | cons c source =>
              rw [hsource] at h
              dsimp only at h
              split_ifs at h
              · cases h
                obtain ⟨hlt, hcounted', hplaces⟩ := hpop hsource rfl
                refine ⟨hlt, hcounted', ?_⟩
                rw [hplaces]
                exact .arrayEnd
              · refine hvalue ?_ (by decide) ?_ h
                · exact le_rfl
                · rfl
              · refine hvalue ?_ (by decide) ?_ h
                · exact (length_of_dropWhile hsource).le
                · rfl
      | object =>
          dsimp only at h
          unfold nextInObject at h
          -- the end of the object, or the name of a member
          have hend : ∀ {source : List UInt8} {c : UInt8}, count % 2 = 0 →
              json.source.dropWhile isSpace = c :: source →
              Next.token .objectEnd { json with source := source, stack := stack } = Next.token t json' →
              json'.source.length < json.source.length ∧ json'.Counted ∧
                Step (placeOf (.object, count) :: stack.map placeOf) t json'.places := by
            intro source c heven hsource heq
            cases heq
            obtain ⟨hlt, hcounted', hplaces⟩ := hpop hsource rfl
            refine ⟨hlt, hcounted', ?_⟩
            rw [hplaces, placeOf, if_pos heven]
            exact .objectEnd
          have hname : ∀ {json₁ : JSONStream} {errmsg : List UInt8}, count % 2 = 0 →
              json₁.source.length ≤ json.source.length → json₁.readName count stack errmsg = .token t json' →
              json'.source.length < json.source.length ∧ json'.Counted ∧
                Step (placeOf (.object, count) :: stack.map placeOf) t json'.places := by
            intro json₁ errmsg heven hle hread
            obtain ⟨hlt, hpos', hne', hstep⟩ := readName_token heven hread
            refine ⟨lt_of_lt_of_le hlt hle, fun _ => hpos', ?_⟩
            rw [places_of_stack hne', placeOf, if_pos heven]
            exact hstep
          by_cases hzero : count = 0
          · subst hzero
            rw [if_pos rfl] at h
            cases hsource : json.source.dropWhile isSpace with
            | nil =>
                rw [hsource] at h
                cases h
            | cons c source =>
                rw [hsource] at h
                dsimp only at h
                split_ifs at h
                · exact hend rfl hsource h
                · exact hname rfl le_rfl h
          · rw [if_neg hzero] at h
            by_cases heven : count % 2 = 0
            · rw [if_pos heven] at h
              cases hsource : json.source.dropWhile isSpace with
              | nil =>
                  rw [hsource] at h
                  cases h
              | cons c source =>
                  rw [hsource] at h
                  dsimp only at h
                  split_ifs at h
                  · exact hend heven hsource h
                  · exact hname heven (length_of_dropWhile hsource).le h
            · rw [if_neg heven] at h
              cases hsource : json.source.dropWhile isSpace with
              | nil =>
                  rw [hsource] at h
                  cases h
              | cons c source =>
                  rw [hsource] at h
                  dsimp only at h
                  split_ifs at h
                  have hodd : (count + 1) % 2 = 0 := by omega
                  rw [placeOf, if_neg heven]
                  refine hvalue (length_of_dropWhile hsource).le (by decide) ?_ h
                  rw [List.map_cons, placeOf, if_pos hodd]
                  rfl

theorem readValue_ne_done (json : JSONStream) : json.readValue ≠ .done := by
  have hliteral : ∀ (json : JSONStream) (pattern : String) (t : Token) (source : List UInt8),
      json.literal pattern t source ≠ .done := by
    intro json pattern t source
    unfold literal
    split <;> exact nofun
  have hscalar : ∀ (json : JSONStream) (f : List UInt8 → Token) (r : Reads), json.scalar f r ≠ .done := by
    intro json f r
    cases r <;> exact nofun
  unfold readValue
  dsimp only
  split
  · exact nofun
  · split_ifs
    · exact nofun
    · exact nofun
    · exact hscalar _ _ _
    · exact hliteral _ _ _ _
    · exact hliteral _ _ _ _
    · exact hliteral _ _ _ _
    · exact hscalar _ _ _
    · exact nofun

/-- A text that ends without an error ends behind its root value. -/
theorem places_of_done {json : JSONStream} (h : json.jsonNext = .done) : json.places = [] := by
  unfold jsonNext at h
  split at h
  · next hstack =>
      split_ifs at h with hpos
      · rw [places_of_pos hpos, hstack]
        rfl
      · exact absurd h (readValue_ne_done json)
  · unfold nextInArray at h
    split at h
    · cases h
    · split_ifs at h
      · exact absurd h (readValue_ne_done _)
      · exact absurd h (readValue_ne_done _)
  · have hname : ∀ (json : JSONStream) (count : ℕ) (stack : List (ContainerType × ℕ)) (errmsg : List UInt8),
        json.readName count stack errmsg ≠ .done := by
      intro json count stack errmsg
      unfold readName
      split <;> exact nofun
    unfold nextInObject at h
    split_ifs at h
    · split at h
      · cases h
      · split_ifs at h
        exact absurd h (hname _ _ _ _)
    · split at h
      · cases h
      · split_ifs at h
        exact absurd h (hname _ _ _ _)
    · split at h
      · cases h
      · split_ifs at h
        exact absurd h (readValue_ne_done _)

/-- The tokens up to the error that ends the text, or up to `JSON_DONE`. -/
def tokens (json : JSONStream) (hcounted : json.Counted) : List Token × Option (List UInt8) :=
  match h : json.jsonNext with
  | .done => ([], none)
  | .error errmsg => ([], some errmsg)
  | .token t json' =>
      let rest := tokens json' (jsonNext_token hcounted h).2.1
      (t :: rest.1, rest.2)
termination_by json.source.length
decreasing_by exact (jsonNext_token hcounted h).1

theorem tokens_token {json json' : JSONStream} {hcounted : json.Counted} {t : Token}
    (h : json.jsonNext = .token t json') :
    json.tokens hcounted = (t :: (json'.tokens (jsonNext_token hcounted h).2.1).1,
      (json'.tokens (jsonNext_token hcounted h).2.1).2) := by
  rw [tokens]
  split
  · next h' => cases h'.symm.trans h
  · next h' => cases h'.symm.trans h
  · next t' json'' h' =>
      cases h'.symm.trans h
      rfl

theorem tokens_error {json : JSONStream} {hcounted : json.Counted} {errmsg : List UInt8}
    (h : json.jsonNext = .error errmsg) : json.tokens hcounted = ([], some errmsg) := by
  rw [tokens]
  split
  · next h' => cases h'.symm.trans h
  · next h' =>
      cases h'.symm.trans h
      rfl
  · next h' => cases h'.symm.trans h

theorem tokens_done {json : JSONStream} {hcounted : json.Counted} (h : json.jsonNext = .done) :
    json.tokens hcounted = ([], none) := by
  rw [tokens]
  split
  · rfl
  · next h' => cases h'.symm.trans h
  · next h' => cases h'.symm.trans h

/-- `json_open_buffer`.  The byte of `EOF` ends the text. -/
def openBuffer (text : List UInt8) : JSONStream := ⟨text.takeWhile (· ≠ 0xFF), 0, []⟩

theorem openBuffer_counted (text : List UInt8) : (openBuffer text).Counted := fun h => absurd rfl h

end JSONStream

/-- The tokens may stand where they do, and the places are used up if there is no error. -/
def Legal : List Place → List Token → Option (List UInt8) → Prop
  | ps, [], errmsg => errmsg = none → ps = []
  | ps, t :: ts, errmsg => ∃ ps', Step ps t ps' ∧ Legal ps' ts errmsg

/-- What `json_next` returns, call by call: tokens, and then an error or `JSON_DONE`. -/
structure TokenSequence where
  tokens : List Token
  errmsg : Option (List UInt8)
  legal : Legal [.root] tokens errmsg

theorem JSONStream.legal_tokens (json : JSONStream) (hcounted : json.Counted) :
    Legal json.places (json.tokens hcounted).1 (json.tokens hcounted).2 := by
  fun_induction JSONStream.tokens json hcounted with
  | case1 json hcounted h => exact fun _ => places_of_done h
  | case2 json hcounted errmsg h => exact fun h => nomatch h
  | case3 json hcounted t json' h rest ih => exact ⟨_, (jsonNext_token hcounted h).2.2, ih⟩

/-- The tokens of a text. -/
def TokenSequence.ofText (text : List UInt8) : TokenSequence where
  tokens := ((JSONStream.openBuffer text).tokens (JSONStream.openBuffer_counted text)).1
  errmsg := ((JSONStream.openBuffer text).tokens (JSONStream.openBuffer_counted text)).2
  legal := by
    have hlegal := JSONStream.legal_tokens _ (JSONStream.openBuffer_counted text)
    rwa [JSONStream.places, if_pos ⟨rfl, rfl⟩] at hlegal

end Poco.JSON.Pdjson
