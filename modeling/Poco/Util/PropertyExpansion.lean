import Poco.Lib.Segments
import Mathlib.Data.List.TakeWhile
import Mathlib.Data.Int.Notation

/-! # Expanding references to properties

`AbstractConfiguration::expand` replaces the references `${name}` and `${name:-default}` of a text.  The
value of a property is expanded in turn, and a counter in the configuration stops references that nest
too deeply, as those of a cycle do.

`Expands` says what the result is, without the scanner: the text is cut at its references, from the
left.  Only the treatment of a reference without a closing brace is open there.  The scanner reads such
a reference as if the brace stood at the end of the text (`expand_expands`), and so adds the brace to one
that is undefined. -/

namespace Poco.Util

open Poco.Lib

namespace AbstractConfiguration

/-- `CircularReferenceException`. -/
structure CircularReferenceException where
  message : String
deriving DecidableEq, Repr

/-- What an expansion leaves: a text or an exception, and the counter `_depth`. -/
abbrev Outcome := Except CircularReferenceException (List Char) × ℤ

/-! ### The scanner -/

/-- The loop over a reference behind `${`: the name, the default value if there is one, and the rest. -/
def scanReference (prop : List Char) : List Char → List Char × Option (List Char) × List Char
  | [] => (prop, none, [])
  | '}' :: it => (prop, none, it)
  | ':' :: '-' :: it => (prop, some (it.takeWhile (· != '}')), (it.dropWhile (· != '}')).tail)
  | c :: it => scanReference (prop ++ [c]) it

theorem length_scanReference (prop it : List Char) : (scanReference prop it).2.2.length ≤ it.length := by
  induction prop, it using scanReference.induct with
  | case1 prop => exact Nat.le_refl _
  | case2 prop it => simp [scanReference]
  | case3 prop it =>
      have hdrop := (List.dropWhile_suffix (l := it) (· != '}')).length_le
      simp only [scanReference, List.length_tail, List.length_cons]
      omega
  | case4 prop c it hbrace hdash ih =>
      rw [scanReference]
      · rw [List.length_cons]
        omega
      · exact hbrace
      · exact hdash

/-- The loop of `uncheckedExpand`.  `getRaw` finds the value of a property, `internalExpand` is the call
for such a value. -/
def uncheckedExpand (getRaw : List Char → Option (List Char)) (internalExpand : List Char → ℤ → Option Outcome)
    (result it : List Char) (depth : ℤ) : Option Outcome :=
  match it with
  | [] => some (.ok result, depth)
  | '$' :: '{' :: it =>
    let reference := scanReference [] it
    match getRaw reference.1 with
    | some propValue =>
      match internalExpand propValue depth with
      | none => none
      | some (.error e, depth) => some (.error e, depth)
      | some (.ok text, depth) => uncheckedExpand getRaw internalExpand (result ++ text) reference.2.2 depth
    | none =>
      match reference.2.1 with
      | some deflt => uncheckedExpand getRaw internalExpand (result ++ deflt) reference.2.2 depth
      | none =>
        uncheckedExpand getRaw internalExpand (result ++ ['$', '{'] ++ reference.1 ++ ['}']) reference.2.2 depth
  | c :: it => uncheckedExpand getRaw internalExpand (result ++ [c]) it depth
termination_by it.length
decreasing_by
  all_goals
    have := length_scanReference [] it
    simp only [List.length_cons]
    omega

/-- `internalExpand`, whose `AutoCounter` counts `_depth` up and, however the call ends, down again.
The fuel bounds how deeply calls nest. -/
def internalExpand (getRaw : List Char → Option (List Char)) : ℕ → List Char → ℤ → Option Outcome
  | 0, _, _ => none
  | fuel + 1, value, depth =>
    let depth := depth + 1
    if depth > 10 then some (.error ⟨"Too many property references encountered"⟩, depth - 1)
    else
      (uncheckedExpand getRaw (internalExpand getRaw fuel) [] value depth).map fun outcome =>
        (outcome.1, outcome.2 - 1)

/-- `expand`. -/
def expand (getRaw : List Char → Option (List Char)) (fuel : ℕ) (value : List Char) (depth : ℤ) :
    Option Outcome :=
  internalExpand getRaw fuel value depth

/-! ### What is promised -/

/-- What stands between the braces: a name, and behind the first `:-` a default value. -/
inductive Body : List Char → Option (List Char) → List Char → Prop
  | plain {name : List Char} : ¬[':', '-'] <:+: name → Body name none name
  | withDefault {name deflt : List Char} : ¬[':', '-'] <:+: name → Body name (some deflt) (name ++ ':' :: '-' :: deflt)

/-- The text with its references replaced.  `closes` says whether a reference that is not terminated is
read as if it were, or left as written. -/
inductive Expands (getRaw : List Char → Option (List Char)) (closes : Bool) : List Char → List Char → Prop
  | nil : Expands getRaw closes [] []
  | char {c : Char} {it result : List Char} :
      ¬['$', '{'] <+: c :: it → Expands getRaw closes it result → Expands getRaw closes (c :: it) (c :: result)
  | defined {name body it value text result : List Char} {deflt : Option (List Char)} :
      Body name deflt body → '}' ∉ body → getRaw name = some value → Expands getRaw closes value text →
      Expands getRaw closes it result →
      Expands getRaw closes ('$' :: '{' :: (body ++ '}' :: it)) (text ++ result)
  | withDefault {name body it deflt result : List Char} :
      Body name (some deflt) body → '}' ∉ body → getRaw name = none → Expands getRaw closes it result →
      Expands getRaw closes ('$' :: '{' :: (body ++ '}' :: it)) (deflt ++ result)
  | undefined {name body it result : List Char} :
      Body name none body → '}' ∉ body → getRaw name = none → Expands getRaw closes it result →
      Expands getRaw closes ('$' :: '{' :: (body ++ '}' :: it)) ('$' :: '{' :: (body ++ '}' :: result))
  | closed {body result : List Char} :
      closes = true → '}' ∉ body → Expands getRaw closes ('$' :: '{' :: (body ++ ['}'])) result →
      Expands getRaw closes ('$' :: '{' :: body) result
  | asWritten {body : List Char} :
      closes = false → '}' ∉ body → Expands getRaw closes ('$' :: '{' :: body) ('$' :: '{' :: body)

/-- A call ends, with an exception or with a text that is expanded, and leaves the counter as it was. -/
def Answers (getRaw : List Char → Option (List Char)) (closes : Bool) (value : List Char) (depth : ℤ)
    (outcome : Option Outcome) : Prop :=
  ∃ returned, outcome = some (returned, depth) ∧
    ((∃ e, returned = .error e) ∨ ∃ result, returned = .ok result ∧ Expands getRaw closes value result)

/-! ### The scanner reads a reference -/

theorem not_infix_cons {c : Char} {name : List Char} (h : ¬[':', '-'] <:+: name)
    (hc : c = ':' → name.head? ≠ some '-') : ¬[':', '-'] <:+: c :: name := by
  rw [List.infix_cons_iff, not_or]
  refine ⟨?_, h⟩
  rintro ⟨rest, hrest⟩
  rw [List.cons_append, List.cons.injEq] at hrest
  apply hc hrest.1.symm
  rw [← hrest.2]
  rfl

theorem Body.cons {c : Char} {name body : List Char} {deflt : Option (List Char)} (h : Body name deflt body)
    (hc : c = ':' → body.head? ≠ some '-') : Body (c :: name) deflt (c :: body) := by
  cases h with
  | plain hname => exact .plain (not_infix_cons hname hc)
  | withDefault hname =>
      refine .withDefault (not_infix_cons hname fun hcolon => ?_)
      have hne := hc hcolon
      cases name with
      | nil => simp
      | cons a name => exact hne

/-- The text between the braces, and what is behind it. -/
theorem scanReference_spec (prop it : List Char) :
    ∃ name deflt body rest, scanReference prop it = (prop ++ name, deflt, rest) ∧ Body name deflt body ∧
      '}' ∉ body ∧ (it = body ++ '}' :: rest ∨ it = body ∧ rest = []) := by
  induction prop, it using scanReference.induct with
  | case1 prop =>
      refine ⟨[], none, [], [], ?_, .plain (by simp), by simp, Or.inr ⟨rfl, rfl⟩⟩
      rw [scanReference, List.append_nil]
  | case2 prop it =>
      refine ⟨[], none, [], it, ?_, .plain (by simp), by simp, Or.inl rfl⟩
      rw [scanReference, List.append_nil]
  | case3 prop it =>
      have hbody : '}' ∉ it.takeWhile (· != '}') := by
        intro hmem
        simpa using List.mem_takeWhile_imp hmem
      refine ⟨[], some (it.takeWhile (· != '}')), [':', '-'] ++ it.takeWhile (· != '}'),
        (it.dropWhile (· != '}')).tail, ?_, .withDefault (by simp), by simp [hbody], ?_⟩
      · rw [scanReference, List.append_nil]
      · have hcut := List.takeWhile_append_dropWhile (p := (· != '}')) (l := it)
        cases hdrop : it.dropWhile (· != '}') with
        | nil =>
            rw [hdrop, List.append_nil] at hcut
            exact Or.inr ⟨by rw [hcut]; rfl, rfl⟩
        | cons c rest =>
            have hc : c = '}' := by
              have hhead := List.head_dropWhile_not (· != '}') (by simp [hdrop] : it.dropWhile (· != '}') ≠ [])
              simpa [hdrop] using hhead
            rw [hdrop, hc] at hcut
            exact Or.inl (by rw [List.tail_cons, List.append_assoc, hcut]; rfl)
  | case4 prop c it hbrace hdash ih =>
      obtain ⟨name, deflt, body, rest, hscan, hbody, hnot, hit⟩ := ih
      have hcolon : c = ':' → body.head? ≠ some '-' := by
        intro hc hhead
        obtain ⟨body', rfl⟩ := List.head?_eq_some_iff.mp hhead
        rcases hit with rfl | ⟨rfl, -⟩
        · exact hdash _ hc rfl
        · exact hdash _ hc rfl
      refine ⟨c :: name, deflt, c :: body, rest, ?_, hbody.cons hcolon, ?_, ?_⟩
      · rw [scanReference]
        · rw [hscan, List.append_assoc]
          rfl
        · exact hbrace
        · exact hdash
      · rw [List.mem_cons, not_or]
        exact ⟨fun hc => hbrace hc.symm, hnot⟩
      · rcases hit with rfl | ⟨rfl, rfl⟩
        · exact Or.inl rfl
        · exact Or.inr ⟨rfl, rfl⟩

/-! ### The expansion -/

section

variable {getRaw : List Char → Option (List Char)}

/-- A reference that may not be terminated is read as if it were. -/
theorem Expands.of_closed {body rest it text : List Char} (hnot : '}' ∉ body)
    (hit : it = body ++ '}' :: rest ∨ it = body ∧ rest = [])
    (h : Expands getRaw true ('$' :: '{' :: (body ++ '}' :: rest)) text) :
    Expands getRaw true ('$' :: '{' :: it) text := by
  rcases hit with rfl | ⟨rfl, rfl⟩
  · exact h
  · exact .closed rfl hnot h

/-- The scanner expands a text, if the calls for values do. -/
theorem uncheckedExpand_answers {inner : List Char → ℤ → Option Outcome} {depth : ℤ}
    (hinner : ∀ value, Answers getRaw true value depth (inner value depth)) (result it : List Char) :
    ∃ returned, uncheckedExpand getRaw inner result it depth = some (returned, depth) ∧
      ((∃ e, returned = .error e) ∨ ∃ text, returned = .ok (result ++ text) ∧ Expands getRaw true it text) := by
  induction hlen : it.length using Nat.strong_induction_on generalizing it result with
  | _ len ih =>
      unfold uncheckedExpand
      split
      · exact ⟨_, rfl, Or.inr ⟨[], by rw [List.append_nil], .nil⟩⟩
      · rename_i it
        obtain ⟨name, deflt, body, rest, hscan, hbody, hnot, hit⟩ := scanReference_spec [] it
        have hrest := length_scanReference [] it
        rw [hscan] at hrest
        dsimp only at hrest
        simp only [List.length_cons] at hlen
        rw [hscan]
        dsimp only [List.nil_append]
        -- what is put in the place of the reference, and what stands behind it
        have hgo (text : List Char) (hexpands : ∀ t, Expands getRaw true rest t →
            Expands getRaw true ('$' :: '{' :: (body ++ '}' :: rest)) (text ++ t)) :
            ∃ returned, uncheckedExpand getRaw inner (result ++ text) rest depth = some (returned, depth) ∧
              ((∃ e, returned = .error e) ∨ ∃ t, returned = .ok (result ++ t) ∧
                Expands getRaw true ('$' :: '{' :: it) t) := by
          obtain ⟨returned, heq, hreturned⟩ := ih rest.length (by omega) (result ++ text) rest rfl
          refine ⟨returned, heq, hreturned.imp_right ?_⟩
          rintro ⟨t, rfl, ht⟩
          exact ⟨text ++ t, by rw [List.append_assoc], (hexpands t ht).of_closed hnot hit⟩
        cases hraw : getRaw name with
        | some value =>
            obtain ⟨returned, hcall, hreturned⟩ := hinner value
            dsimp only
            rw [hcall]
            rcases hreturned with ⟨e, rfl⟩ | ⟨text, rfl, htext⟩
            · exact ⟨_, rfl, Or.inl ⟨e, rfl⟩⟩
            · exact hgo text fun t ht => .defined hbody hnot hraw htext ht
        | none =>
            cases deflt with
            | some deflt => exact hgo deflt fun t ht => .withDefault hbody hnot hraw ht
            | none =>
                obtain rfl : name = body := by cases hbody; rfl
                dsimp only
                rw [List.append_assoc, List.append_assoc]
                apply hgo
                intro t ht
                have hundefined := Expands.undefined hbody hnot hraw ht
                simpa using hundefined
      · rename_i c it hreference
        rw [List.length_cons] at hlen
        obtain ⟨returned, heq, hreturned⟩ := ih it.length (by omega) (result ++ [c]) it rfl
        refine ⟨returned, heq, hreturned.imp_right ?_⟩
        rintro ⟨text, rfl, htext⟩
        refine ⟨c :: text, by rw [List.append_assoc]; rfl, .char ?_ htext⟩
        rintro ⟨rest, hrest⟩
        obtain ⟨rfl, rfl⟩ := List.cons.inj hrest
        exact hreference _ rfl rfl

/-- Calls that may nest as deeply as the counter allows are answered. -/
theorem internalExpand_answers {fuel : ℕ} (value : List Char) {depth : ℤ} (hpos : 0 < fuel)
    (hfuel : 10 < depth + fuel) :
    Answers getRaw true value depth (internalExpand getRaw fuel value depth) := by
  induction fuel generalizing value depth with
  | zero => exact absurd hpos (by omega)
  | succ fuel ih =>
      rw [internalExpand]
      split_ifs with hdeep
      · exact ⟨_, by rw [Int.add_sub_cancel], Or.inl ⟨_, rfl⟩⟩
      · have hinner : ∀ value, Answers getRaw true value (depth + 1) (internalExpand getRaw fuel value (depth + 1)) :=
          fun value => ih value (by omega) (by omega)
        obtain ⟨returned, heq, hreturned⟩ := uncheckedExpand_answers hinner [] value
        refine ⟨returned, ?_, ?_⟩
        · rw [heq, Option.map_some, Int.add_sub_cancel]
        · simpa using hreturned

/-- An expansion that has enough fuel ends with a circular reference or with the expanded text, and leaves
the counter as it was. -/
theorem expand_answers (getRaw : List Char → Option (List Char)) (value : List Char) (depth : ℤ) :
    ∃ bound, ∀ fuel ≥ bound, Answers getRaw true value depth (expand getRaw fuel value depth) := by
  refine ⟨(11 - depth).toNat + 1, ?_⟩
  intro fuel hfuel
  exact internalExpand_answers value (by omega) (by omega)

end

/-- Two properties that refer to each other. -/
def cycle : List Char → Option (List Char)
  | ['a'] => some "${b}".toList
  | ['b'] => some "${a}".toList
  | _ => none

theorem expand_answers_cycle :
    ∃ bound, ∀ fuel ≥ bound, Answers cycle true "${a}".toList 0 (expand cycle fuel "${a}".toList 0) :=
  expand_answers cycle "${a}".toList 0

/-- What a reference that is not terminated is expanded to. -/
theorem Expands.of_unterminated {getRaw : List Char → Option (List Char)} {closes : Bool} {body text : List Char}
    (hnot : '}' ∉ body) (h : Expands getRaw closes ('$' :: '{' :: body) text) :
    closes = true ∧ Expands getRaw closes ('$' :: '{' :: (body ++ ['}'])) text ∨
      closes = false ∧ text = '$' :: '{' :: body := by
  generalize hvalue : '$' :: '{' :: body = value at h
  cases h with
  | nil => cases hvalue
  | char hchar =>
      rw [← hvalue] at hchar
      exact absurd ⟨body, rfl⟩ hchar
  | closed hcloses _ h =>
      obtain rfl := (List.cons.inj (List.cons.inj hvalue).2).2
      exact Or.inl ⟨hcloses, h⟩
  | asWritten hcloses => exact Or.inr ⟨hcloses, rfl⟩
  | _ =>
      obtain rfl := (List.cons.inj (List.cons.inj hvalue).2).2
      simp at hnot

/-- The brace is added to an undefined reference that is not terminated. -/
theorem not_expand_asWritten :
    ¬∃ bound, ∀ fuel ≥ bound,
      Answers (fun _ => none) false "$\x7brefx".toList 0 (expand (fun _ => none) fuel "$\x7brefx".toList 0) := by
  rintro ⟨bound, hall⟩
  obtain ⟨returned, heq, hreturned⟩ := hall (bound + 1) (Nat.le_succ bound)
  have hexpand : expand (fun _ => none) (bound + 1) "$\x7brefx".toList 0 = some (.ok "$\x7brefx\x7d".toList, 0) := by
    simp [expand, internalExpand, uncheckedExpand, scanReference]
  rw [hexpand, Option.some.injEq, Prod.mk.injEq] at heq
  obtain ⟨rfl, -⟩ := heq
  rcases hreturned with ⟨e, he⟩ | ⟨text, htext, hexpands⟩
  · cases he
  · obtain rfl := Except.ok.inj htext
    rcases hexpands.of_unterminated (by decide) with ⟨hcloses, -⟩ | ⟨-, hsame⟩
    · cases hcloses
    · exact absurd hsame (by decide)

/-! ### The promise is unambiguous -/

theorem first_dash_unique {name name' deflt deflt' : List Char} (h : ¬[':', '-'] <:+: name)
    (h' : ¬[':', '-'] <:+: name') (heq : name ++ ':' :: '-' :: deflt = name' ++ ':' :: '-' :: deflt') :
    name = name' ∧ deflt = deflt' := by
  induction name generalizing name' with
  | nil =>
      rcases name' with _ | ⟨c, _ | ⟨c', name'⟩⟩
      · simpa using heq
      · simp at heq
      · simp only [List.nil_append, List.cons_append, List.cons.injEq] at heq
        obtain ⟨rfl, rfl, -⟩ := heq
        exact absurd ⟨[], name', rfl⟩ h'
  | cons c name ih =>
      have hname : ¬[':', '-'] <:+: name := fun hinfix => h (List.infix_cons hinfix)
      cases name' with
      | nil =>
          cases name with
          | nil => simp at heq
          | cons c' name =>
              simp only [List.nil_append, List.cons_append, List.cons.injEq] at heq
              obtain ⟨rfl, rfl, -⟩ := heq
              exact absurd ⟨[], name, rfl⟩ h
      | cons c' name' =>
          have hname' : ¬[':', '-'] <:+: name' := fun hinfix => h' (List.infix_cons hinfix)
          simp only [List.cons_append, List.cons.injEq] at heq
          obtain ⟨rfl, hrest⟩ := heq
          obtain ⟨rfl, rfl⟩ := ih hname hname' hrest
          exact ⟨rfl, rfl⟩

theorem Body.unique {name name' body : List Char} {deflt deflt' : Option (List Char)} (h : Body name deflt body)
    (h' : Body name' deflt' body) : name = name' ∧ deflt = deflt' := by
  have hdash (name deflt : List Char) : [':', '-'] <:+: name ++ ':' :: '-' :: deflt :=
    ⟨name, deflt, by simp⟩
  generalize hbody : body = body' at h'
  cases h with
  | plain hname =>
      cases h' with
      | plain => exact ⟨hbody, rfl⟩
      | withDefault => exact absurd (hbody ▸ hdash _ _) hname
  | withDefault hname =>
      cases h' with
      | plain hname' => exact absurd (hbody ▸ hdash _ _) hname'
      | withDefault hname' =>
          obtain ⟨rfl, rfl⟩ := first_dash_unique hname hname' hbody
          exact ⟨rfl, rfl⟩

theorem reference_unique {body body' it it' : List Char} (hnot : '}' ∉ body) (hnot' : '}' ∉ body')
    (heq : body ++ '}' :: it = body' ++ '}' :: it') : body = body' ∧ it = it' := by
  have hsep {w : List Char} (hw : '}' ∉ w) : ∀ a ∈ w, (a == '}') = false := by
    intro a ha
    rw [beq_eq_false_iff_ne]
    rintro rfl
    exact hw ha
  have hsplit := congrArg (split (· == '}')) heq
  rw [split_append_sep (hsep hnot) (by rfl), split_append_sep (hsep hnot') (by rfl)] at hsplit
  obtain ⟨hsegments, -⟩ := Prod.mk.inj hsplit
  obtain ⟨rfl, -⟩ := List.cons.inj hsegments
  exact ⟨rfl, (List.cons.inj (List.append_cancel_left heq)).2⟩

theorem Expands.of_terminated {getRaw : List Char → Option (List Char)} {closes : Bool} {body it text : List Char}
    (hnot : '}' ∉ body) (h : Expands getRaw closes ('$' :: '{' :: (body ++ '}' :: it)) text) :
    ∃ name deflt result, Body name deflt body ∧ Expands getRaw closes it result ∧
      ((∃ value t, getRaw name = some value ∧ Expands getRaw closes value t ∧ text = t ++ result) ∨
        getRaw name = none ∧ text = (deflt.getD ('$' :: '{' :: (body ++ ['}']))) ++ result) := by
  generalize hvalue : '$' :: '{' :: (body ++ '}' :: it) = value at h
  cases h with
  | nil => cases hvalue
  | char hchar =>
      rw [← hvalue] at hchar
      exact absurd ⟨_, rfl⟩ hchar
  | defined hbody hnot' hraw htext hrest =>
      obtain ⟨rfl, rfl⟩ := reference_unique hnot hnot' (List.cons.inj (List.cons.inj hvalue).2).2
      exact ⟨_, _, _, hbody, hrest, Or.inl ⟨_, _, hraw, htext, rfl⟩⟩
  | withDefault hbody hnot' hraw hrest =>
      obtain ⟨rfl, rfl⟩ := reference_unique hnot hnot' (List.cons.inj (List.cons.inj hvalue).2).2
      exact ⟨_, _, _, hbody, hrest, Or.inr ⟨hraw, rfl⟩⟩
  | undefined hbody hnot' hraw hrest =>
      obtain ⟨rfl, rfl⟩ := reference_unique hnot hnot' (List.cons.inj (List.cons.inj hvalue).2).2
      exact ⟨_, _, _, hbody, hrest, Or.inr ⟨hraw, by simp⟩⟩
  | closed _ hnot' =>
      obtain rfl := (List.cons.inj (List.cons.inj hvalue).2).2
      simp at hnot'
  | asWritten _ hnot' =>
      obtain rfl := (List.cons.inj (List.cons.inj hvalue).2).2
      simp at hnot'

theorem Expands.unique {getRaw : List Char → Option (List Char)} {closes : Bool} {value text text' : List Char}
    (h : Expands getRaw closes value text) (h' : Expands getRaw closes value text') : text = text' := by
  induction h generalizing text' with
  | nil => cases h'; rfl
  | @char c it result hchar h ih =>
      generalize hvalue : c :: it = value at h'
      cases h' with
      | nil => cases hvalue
      | char hchar' h' =>
          obtain ⟨rfl, rfl⟩ := List.cons.inj hvalue
          rw [ih h']
      | _ =>
          obtain ⟨rfl, rfl⟩ := List.cons.inj hvalue
          exact absurd ⟨_, rfl⟩ hchar
  | defined hbody hnot hraw h hrest ih ihrest =>
      obtain ⟨name', deflt', result', hbody', hrest', hcase⟩ := h'.of_terminated hnot
      obtain ⟨rfl, rfl⟩ := hbody.unique hbody'
      rcases hcase with ⟨value', t, hraw', htext, rfl⟩ | ⟨hraw', -⟩
      · obtain rfl := Option.some.inj (hraw.symm.trans hraw')
        rw [ih htext, ihrest hrest']
      · rw [hraw] at hraw'
        cases hraw'
  | withDefault hbody hnot hraw hrest ih =>
      obtain ⟨name', deflt', result', hbody', hrest', hcase⟩ := h'.of_terminated hnot
      obtain ⟨rfl, rfl⟩ := hbody.unique hbody'
      rcases hcase with ⟨value', t, hraw', -, -⟩ | ⟨-, rfl⟩
      · rw [hraw] at hraw'
        cases hraw'
      · rw [ih hrest', Option.getD_some]
  | undefined hbody hnot hraw hrest ih =>
      obtain ⟨name', deflt', result', hbody', hrest', hcase⟩ := h'.of_terminated hnot
      obtain ⟨rfl, rfl⟩ := hbody.unique hbody'
      rcases hcase with ⟨value', t, hraw', -, -⟩ | ⟨-, rfl⟩
      · rw [hraw] at hraw'
        cases hraw'
      · rw [ih hrest', Option.getD_none]
        simp
  | closed hcloses hnot h ih =>
      rcases h'.of_unterminated hnot with ⟨-, h'⟩ | ⟨hopen, -⟩
      · exact ih h'
      · rw [hcloses] at hopen
        cases hopen
  | asWritten hcloses hnot =>
      rcases h'.of_unterminated hnot with ⟨hopen, -⟩ | ⟨-, h'⟩
      · rw [hcloses] at hopen
        cases hopen
      · exact h'.symm

end AbstractConfiguration

end Poco.Util
