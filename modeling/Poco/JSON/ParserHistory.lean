import Poco.JSON.ParserCalls

/-! # One parser for many texts

A parser is not reset between calls.  `parsesOwnText_iff` says for which sequences of texts every call that returns
yields the value of its own text: those where no complete text comes after one that was given up inside a
container. -/

namespace Poco.JSON.Parser

open Poco.Foundation Pdjson

variable {φ : Type} {p : ParserImpl φ} {h : ParseHandler φ} {s : TokenSequence}

namespace ParserImpl

/-! ### The tokens of a text -/

/-- The tokens of a text are those of a value. -/
def Complete (p : ParserImpl φ) (s : TokenSequence) : Prop := s.errmsg = none ∧ ∃ v, Spells p 0 s.tokens v

/-- A text begins with a container, and no value ends in it. -/
def Abandoned (p : ParserImpl φ) (s : TokenSequence) : Prop :=
  (∃ ts, s.tokens = .array :: ts ∨ s.tokens = .object :: ts) ∧
    ∀ us rest v, s.tokens = us ++ rest → ¬Spells p 0 us v

/-- The value of a text: that of its tokens, which is an array or an object. -/
def Denotes (p : ParserImpl φ) (s : TokenSequence) (v : Value φ) : Prop :=
  s.errmsg = none ∧ Spells p 0 s.tokens v ∧ v.IsContainer

theorem Spells.unique {d : ℕ} {us : List Pdjson.Token} {v v' : Value φ} (hs : Spells p d us v) (hs' : Spells p d us v') :
    v = v' := by
  obtain ⟨t, us', hus, -⟩ := hs.head
  let h : ParseHandler φ := ⟨[⟨[], .array []⟩], [], .empty, p._preserveObjectOrder⟩
  have hne : h._stack ≠ [] := List.cons_ne_nil _ _
  obtain ⟨k, hk⟩ : ∃ k, (p.handleToken [] d t (us' ++ []) h).result = .ok ([], h.add v k) :=
    hs.reads [] h rfl (Or.inl hne) t us' hus
  obtain ⟨k', hk'⟩ : ∃ k, (p.handleToken [] d t (us' ++ []) h).result = .ok ([], h.add v' k) :=
    hs'.reads [] h rfl (Or.inl hne) t us' hus
  rw [hk] at hk'
  have hadd := (Prod.mk.inj (Except.ok.inj hk')).2
  have hstack := congrArg ParseHandler._stack hadd
  exact (List.cons.inj (Container.array.inj (Level.mk.inj (List.cons.inj hstack).1).2)).1

theorem Spells.isContainer {d : ℕ} {t : Pdjson.Token} {us : List Pdjson.Token} {v : Value φ} (hs : Spells p d (t :: us) v)
    (ht : t = .array ∨ t = .object) : v.IsContainer := by
  rcases ht with rfl | rfl
  · cases hs
    exact trivial
  · cases hs
    exact trivial

/-- What `handle(json)` makes of the call on the first token. -/
theorem handle_eq {t : Pdjson.Token} {ts : List Pdjson.Token} (htokens : s.tokens = t :: ts) :
    p.handle s h =
      match (p.handleToken (s.errmsg.getD []) 0 t ts h).result with
      | .error (e, h) => (.error e, h)
      | .ok (rest, h) =>
          if rest = [] ∧ s.errmsg = none then (.ok (), h)
          else (.error (.jsonException (UTF8.text "Excess characters found after JSON end.")), h) := by
  unfold handle
  rw [htokens]
  dsimp only
  cases p.handleToken (s.errmsg.getD []) 0 t ts h with
  | thrown e h => rfl
  | returned rest le h =>
      cases rest with
      | nil => simp [Outcome.result]
      | cons t rest => simp [Outcome.result]

/-- A complete text is added as a value, where this has a place. -/
theorem handle_of_complete (herrmsg : s.errmsg = none) {v : Value φ} (hs : Spells p 0 s.tokens v)
    (hpreserve : h._preserveObjectOrder = p._preserveObjectOrder) (hplace : h._stack ≠ [] ∨ v.IsContainer) :
    ∃ k, p.handle s h = (.ok (), h.add v k) := by
  obtain ⟨t, ts, htokens, -⟩ := hs.head
  obtain ⟨k, hk⟩ := hs.reads [] h hpreserve hplace t ts htokens
  rw [List.append_nil] at hk
  refine ⟨k, ?_⟩
  rw [handle_eq htokens, hk]
  exact if_pos ⟨rfl, herrmsg⟩

/-- On any other text an exception is thrown, and no container is open only if none was and the text is not given up
inside one. -/
theorem handle_throws (hpreserve : h._preserveObjectOrder = p._preserveObjectOrder)
    (hincomplete : ∀ v, s.errmsg = none → Spells p 0 s.tokens v → h._stack = [] ∧ ¬v.IsContainer) :
    ∃ e h', p.handle s h = (.error e, h') ∧ h'._preserveObjectOrder = p._preserveObjectOrder ∧
      (h'._stack = [] ↔ h._stack = [] ∧ ¬Abandoned p s) := by
  cases htokens : s.tokens with
  | nil =>
      refine ⟨.jsonException (s.errmsg.getD []), h, ?_, hpreserve, ?_⟩
      · rw [handle, htokens]
      · have hnot : ¬Abandoned p s := by
          rintro ⟨⟨ts, hts⟩, -⟩
          rw [htokens] at hts
          rcases hts with hts | hts <;> cases hts
        exact ⟨fun hnil => ⟨hnil, hnot⟩, fun hand => hand.1⟩
  | cons t ts =>
      have hlegal := s.legal
      rw [htokens] at hlegal
      obtain ⟨ps, hstep, hlegal⟩ := hlegal
      have hends : t.IsEnd = False ∧ ps = opened [] t := by
        cases hstep with
        | value _ hend => exact ⟨eq_false hend, rfl⟩
      obtain ⟨hend, rfl⟩ := hends
      have hspecs := arraySpec_and_objectSpec p (s.errmsg.getD []) s.errmsg ts
      have hvalue := valueSpec hspecs.1 hspecs.2 0 t h .root [] hpreserve (by decide) (of_eq_false hend) hlegal
      rw [handle_eq htokens]
      cases hresult : (p.handleToken (s.errmsg.getD []) 0 t ts h).result with
      | ok q =>
          rw [hresult] at hvalue
          obtain ⟨-, us, v, hus, hs, hplace⟩ := hvalue
          obtain ⟨k, hadd⟩ := hs.handler_eq hus hpreserve hplace hresult
          -- a value that is all of the text would have had a place
          have hexcess : ¬(q.1 = [] ∧ s.errmsg = none) := by
            rintro ⟨hrest, herrmsg⟩
            rw [hrest, List.append_nil, ← htokens] at hus
            rw [← hus] at hs
            obtain ⟨hnil, hscalar⟩ := hincomplete v herrmsg hs
            exact hplace.elim (fun hne => hne hnil) hscalar
          have hnot : ¬Abandoned p s := fun habandoned => habandoned.2 us q.1 v (htokens.trans hus) hs
          refine ⟨.jsonException (UTF8.text "Excess characters found after JSON end."), q.2, if_neg hexcess, ?_, ?_⟩
          · rw [hadd, ParseHandler.add_preserveObjectOrder, hpreserve]
          · rw [hadd, ParseHandler.add_stack_eq_nil]
            exact ⟨fun hnil => ⟨hnil, hnot⟩, fun hand => hand.1⟩
      | error q =>
          rw [hresult] at hvalue
          refine ⟨q.1, q.2, rfl, hvalue.1, hvalue.2.trans (and_congr_right fun hnil => ?_)⟩
          constructor
          · rintro hne ⟨⟨ts', hts'⟩, -⟩
            rw [htokens] at hts'
            rcases hts' with hts' | hts'
            · exact hne.1 (List.cons.inj hts').1
            · exact hne.2 (List.cons.inj hts').1
          · intro hnot
            by_contra hcontainer
            have ht : t = .array ∨ t = .object := by
              rw [← not_or] at hcontainer
              exact not_not.mp hcontainer
            refine hnot ⟨⟨ts, ?_⟩, fun us rest v hus hs => ?_⟩
            · rw [htokens]
              exact ht.imp (fun h => by rw [h]) fun h => by rw [h]
            · -- the parser would have read this value
              obtain ⟨t', us', rfl, -⟩ := hs.head
              rw [htokens, List.cons_append] at hus
              obtain ⟨rfl, rfl⟩ := List.cons.inj hus
              obtain ⟨k, hk⟩ := hs.reads rest h hpreserve (Or.inr (hs.isContainer ht)) t us' rfl
              rw [hk] at hresult
              cases hresult

/-! ### One call -/

/-- A text that is complete, to a parser with these options. -/
def CompleteText (p : ParserImpl φ) (text : List UInt8) : Prop := ∃ s, p.read text = .ok s ∧ Complete p s

/-- A text that is given up inside a container. -/
def AbandonedText (p : ParserImpl φ) (text : List UInt8) : Prop := ∃ s, p.read text = .ok s ∧ Abandoned p s

/-- The value of a text. -/
def DenotedBy (p : ParserImpl φ) (text : List UInt8) (v : Value φ) : Prop :=
  ∃ s, p.read text = .ok s ∧ Denotes p s v

/-- Where a container is open, a complete text yields another value than its own. -/
theorem parse_open_complete {text : List UInt8} (hpreserve : h._preserveObjectOrder = p._preserveObjectOrder)
    (hstack : h._stack ≠ []) (hcomplete : CompleteText p text) :
    ∃ v, (p.parse text h).1 = .ok v ∧ ¬DenotedBy p text v := by
  obtain ⟨s, hread, herrmsg, v, hs⟩ := hcomplete
  obtain ⟨k, hhandle⟩ := handle_of_complete herrmsg hs hpreserve (Or.inl hstack)
  refine ⟨(h.add v k).asVar, by rw [parse, hread]; dsimp only; rw [hhandle], ?_⟩
  rintro ⟨s', hread', -, hs', -⟩
  rw [hread] at hread'
  obtain rfl := Except.ok.inj hread'
  have hlt := ParseHandler.sizeOf_lt_asVar_add hstack v k
  rw [← hs.unique hs'] at hlt
  exact Nat.lt_irrefl _ hlt

/-- Where a container is open, any other text throws, and a container stays open. -/
theorem parse_open_incomplete {text : List UInt8} (hpreserve : h._preserveObjectOrder = p._preserveObjectOrder)
    (hstack : h._stack ≠ []) (hincomplete : ¬CompleteText p text) :
    ∃ e h', p.parse text h = (.error e, h') ∧ h'._preserveObjectOrder = p._preserveObjectOrder ∧ h'._stack ≠ [] := by
  unfold parse
  cases hread : p.read text with
  | error e => exact ⟨e, h, rfl, hpreserve, hstack⟩
  | ok s =>
      have hnever : ∀ v, s.errmsg = none → Spells p 0 s.tokens v → h._stack = [] ∧ ¬v.IsContainer :=
        fun v herrmsg hs => absurd ⟨s, hread, herrmsg, v, hs⟩ hincomplete
      obtain ⟨e, h', hhandle, hpreserve', hiff⟩ := handle_throws hpreserve hnever
      refine ⟨e, h', ?_, hpreserve', fun hnil => hstack (hiff.mp hnil).1⟩
      dsimp only
      rw [hhandle]

/-- Where no container is open, a text with a value yields it, and no container is open. -/
theorem parse_closed_denoted {text : List UInt8} {v : Value φ}
    (hpreserve : h._preserveObjectOrder = p._preserveObjectOrder) (hstack : h._stack = [])
    (hdenoted : DenotedBy p text v) :
    ∃ h', p.parse text h = (.ok v, h') ∧ h'._preserveObjectOrder = p._preserveObjectOrder ∧ h'._stack = [] := by
  obtain ⟨s, hread, herrmsg, hs, hcontainer⟩ := hdenoted
  obtain ⟨k, hhandle⟩ := handle_of_complete herrmsg hs hpreserve (Or.inr hcontainer)
  refine ⟨h.add v k, ?_, ?_, (ParseHandler.add_stack_eq_nil h v k).mpr hstack⟩
  · rw [parse, hread]
    dsimp only
    rw [hhandle]
    dsimp only
    rw [ParseHandler.asVar_add_of_nil hstack]
  · rw [ParseHandler.add_preserveObjectOrder, hpreserve]

/-- Where no container is open, any other text throws, and leaves a container open if it is given up inside one. -/
theorem parse_closed_throws {text : List UInt8} (hpreserve : h._preserveObjectOrder = p._preserveObjectOrder)
    (hstack : h._stack = []) (hdenoted : ∀ v, ¬DenotedBy p text v) :
    ∃ e h', p.parse text h = (.error e, h') ∧ h'._preserveObjectOrder = p._preserveObjectOrder ∧
      (h'._stack = [] ↔ ¬AbandonedText p text) := by
  unfold parse
  cases hread : p.read text with
  | error e =>
      refine ⟨e, h, rfl, hpreserve, fun _ => ?_, fun _ => hstack⟩
      rintro ⟨s, hread', -⟩
      rw [hread] at hread'
      cases hread'
  | ok s =>
      have hnever : ∀ v, s.errmsg = none → Spells p 0 s.tokens v → h._stack = [] ∧ ¬v.IsContainer :=
        fun v herrmsg hs => ⟨hstack, fun hcontainer => hdenoted v ⟨s, hread, herrmsg, hs, hcontainer⟩⟩
      obtain ⟨e, h', hhandle, hpreserve', hiff⟩ := handle_throws hpreserve hnever
      refine ⟨e, h', ?_, hpreserve', hiff.trans ?_⟩
      · dsimp only
        rw [hhandle]
      · have htext : AbandonedText p text ↔ Abandoned p s := by
          refine ⟨?_, fun habandoned => ⟨s, hread, habandoned⟩⟩
          rintro ⟨s', hread', habandoned⟩
          rw [hread] at hread'
          obtain rfl := Except.ok.inj hread'
          exact habandoned
        rw [htext]
        exact ⟨fun hand => hand.2, fun hnot => ⟨hstack, hnot⟩⟩

/-! ### Many calls -/

/-- A call that returns yields the value of its text, as a fresh parser does. -/
def OwnValue (p : ParserImpl φ) (text : List UInt8) (r : Except Exn (Value φ)) : Prop :=
  ∀ v, r = .ok v → DenotedBy p text v ∧ (p.parse text (.create p._preserveObjectOrder)).1 = .ok v

theorem ownValue_of_denoted {text : List UInt8} {v : Value φ} (hdenoted : DenotedBy p text v) :
    OwnValue p text (.ok v) := by
  intro v' hv
  obtain rfl := Except.ok.inj hv
  obtain ⟨h', hparse, -⟩ := parse_closed_denoted (h := .create p._preserveObjectOrder) rfl rfl hdenoted
  exact ⟨hdenoted, by rw [hparse]⟩

theorem ownValue_error (text : List UInt8) (e : Exn) : OwnValue p text (.error e) := fun _ hv => nomatch hv

/-- Where a container is open, no complete text may follow. -/
theorem ownValues_open (texts : List (List UInt8)) (hpreserve : h._preserveObjectOrder = p._preserveObjectOrder)
    (hstack : h._stack ≠ []) :
    List.Forall₂ (OwnValue p) texts (p.results h texts) ↔ ∀ text ∈ texts, ¬CompleteText p text := by
  induction texts generalizing h with
  | nil => exact ⟨fun _ _ hmem => absurd hmem List.not_mem_nil, fun _ => .nil⟩
  | cons text texts ih =>
      rw [results, List.forall₂_cons, List.forall_mem_cons]
      by_cases hcomplete : CompleteText p text
      · obtain ⟨v, hv, hnot⟩ := parse_open_complete hpreserve hstack hcomplete
        rw [hv]
        exact ⟨fun hand => absurd (hand.1 v rfl).1 hnot, fun hand => absurd hcomplete hand.1⟩
      · obtain ⟨e, h', hparse, hpreserve', hstack'⟩ := parse_open_incomplete hpreserve hstack hcomplete
        rw [hparse, ih hpreserve' hstack']
        exact and_congr ⟨fun _ => hcomplete, fun _ => ownValue_error text e⟩ Iff.rfl

theorem ownValues_closed (texts : List (List UInt8)) (hpreserve : h._preserveObjectOrder = p._preserveObjectOrder)
    (hstack : h._stack = []) :
    List.Forall₂ (OwnValue p) texts (p.results h texts) ↔
      texts.Pairwise fun s t => AbandonedText p s → ¬CompleteText p t := by
  induction texts generalizing h with
  | nil => exact ⟨fun _ => .nil, fun _ => .nil⟩
  | cons text texts ih =>
      rw [results, List.forall₂_cons, List.pairwise_cons]
      by_cases hdenoted : ∃ v, DenotedBy p text v
      · obtain ⟨v, hdenoted⟩ := hdenoted
        obtain ⟨h', hparse, hpreserve', hstack'⟩ := parse_closed_denoted hpreserve hstack hdenoted
        have hnot : ¬AbandonedText p text := by
          rintro ⟨s, hread, habandoned⟩
          obtain ⟨s', hread', -, hs, -⟩ := hdenoted
          rw [hread] at hread'
          obtain rfl := Except.ok.inj hread'
          exact habandoned.2 s.tokens [] v (List.append_nil _).symm hs
        rw [hparse, ih hpreserve' hstack']
        exact and_congr ⟨fun _ _ _ habandoned => absurd habandoned hnot, fun _ => ownValue_of_denoted hdenoted⟩ Iff.rfl
      · obtain ⟨e, h', hparse, hpreserve', hiff⟩ :=
          parse_closed_throws hpreserve hstack fun v hv => hdenoted ⟨v, hv⟩
        rw [hparse]
        by_cases habandoned : AbandonedText p text
        · rw [ownValues_open texts hpreserve' fun hnil => hiff.mp hnil habandoned]
          constructor
          · rintro ⟨-, hnone⟩
            exact ⟨fun t ht _ => hnone t ht,
              List.pairwise_of_forall_mem_list fun _ _ t ht _ => hnone t ht⟩
          · rintro ⟨hnone, -⟩
            exact ⟨ownValue_error text e, fun t ht => hnone t ht habandoned⟩
        · rw [ih hpreserve' (hiff.mpr habandoned)]
          exact and_congr ⟨fun _ _ _ h => absurd h habandoned, fun _ => ownValue_error text e⟩ Iff.rfl

/-- **Main result.** All calls of a new parser that return yield the values of their own texts if and only if no
complete text comes after one that was given up inside a container. -/
theorem parsesOwnText_iff (p : ParserImpl φ) (texts : List (List UInt8)) :
    List.Forall₂ (OwnValue p) texts (p.results (.create p._preserveObjectOrder) texts) ↔
      texts.Pairwise fun s t => AbandonedText p s → ¬CompleteText p t :=
  ownValues_closed texts rfl rfl

section LeftOpen

theorem ofText_leftOpen : (TokenSequence.ofText (UTF8.text "[1,")).tokens = [.array, .number (UTF8.text "1")] ∧
    (TokenSequence.ofText (UTF8.text "[1,")).errmsg = some (UTF8.text "unexpected end of text") := by
  have hopen : (JSONStream.openBuffer (UTF8.text "[1,")).jsonNext =
      .token .array ⟨UTF8.text "1,", 1, [(.array, 0)]⟩ := rfl
  have hnumber : JSONStream.jsonNext ⟨UTF8.text "1,", 1, [(.array, 0)]⟩ =
      .token (.number (UTF8.text "1")) ⟨UTF8.text ",", 2, [(.array, 1)]⟩ := rfl
  have hend : JSONStream.jsonNext ⟨UTF8.text ",", 2, [(.array, 1)]⟩ =
      .error (UTF8.text "unexpected end of text") := rfl
  simp only [TokenSequence.ofText, JSONStream.tokens_token hopen, JSONStream.tokens_token hnumber,
    JSONStream.tokens_error hend]
  exact ⟨trivial, trivial⟩

theorem ofText_closed :
    (TokenSequence.ofText (UTF8.text "[2]")).tokens = [.array, .number (UTF8.text "2"), .arrayEnd] ∧
      (TokenSequence.ofText (UTF8.text "[2]")).errmsg = none := by
  have hopen : (JSONStream.openBuffer (UTF8.text "[2]")).jsonNext =
      .token .array ⟨UTF8.text "2]", 1, [(.array, 0)]⟩ := rfl
  have hnumber : JSONStream.jsonNext ⟨UTF8.text "2]", 1, [(.array, 0)]⟩ =
      .token (.number (UTF8.text "2")) ⟨UTF8.text "]", 2, [(.array, 1)]⟩ := rfl
  have hclose : JSONStream.jsonNext ⟨UTF8.text "]", 2, [(.array, 1)]⟩ = .token .arrayEnd ⟨[], 2, []⟩ := rfl
  have hend : JSONStream.jsonNext ⟨[], 2, []⟩ = .done := rfl
  simp only [TokenSequence.ofText, JSONStream.tokens_token hopen, JSONStream.tokens_token hnumber,
    JSONStream.tokens_token hclose, JSONStream.tokens_done hend]
  exact ⟨trivial, trivial⟩

/-- `[2]` behind the text `[1,` has the value `[1,[2]]`. -/
theorem not_parsesOwnText_leftOpen :
    let p : ParserImpl ℕ := create fun _ => none
    p.results (.create false) [UTF8.text "[1,", UTF8.text "[2]"] =
        [.error (.jsonException (UTF8.text "unexpected end of text")), .ok (.array [.int64 1, .array [.int64 2]])] ∧
      ¬List.Forall₂ (OwnValue p) [UTF8.text "[1,", UTF8.text "[2]"]
        (p.results (.create false) [UTF8.text "[1,", UTF8.text "[2]"]) := by
  intro p
  have hleft : p.read (UTF8.text "[1,") = .ok (.ofText (UTF8.text "[1,")) := rfl
  have hclosed : p.read (UTF8.text "[2]") = .ok (.ofText (UTF8.text "[2]")) := rfl
  have hone : p.number (UTF8.text "1") = .ok (.int64 1) := rfl
  have htwo : p.number (UTF8.text "2") = .ok (.int64 2) := rfl
  have hdepth : p._depth = 128 := rfl
  have hresults : p.results (.create false) [UTF8.text "[1,", UTF8.text "[2]"] =
      [.error (.jsonException (UTF8.text "unexpected end of text")), .ok (.array [.int64 1, .array [.int64 2]])] := by
    simp only [results, parse, hleft, hclosed, handle, ofText_leftOpen.1, ofText_leftOpen.2, ofText_closed.1,
      ofText_closed.2]
    simp [handleToken, handleArray, hone, htwo, hdepth, value, ParseHandler.setValue, ParseHandler.startArray,
      ParseHandler.start, ParseHandler.create, ParseHandler.endArray, ParseHandler.close, ParseHandler.asVar,
      ParseHandler.bottom, Container.put, Container.value, Outcome.mono]
  have hfresh : (p.parse (UTF8.text "[2]") (.create false)).1 = .ok (.array [.int64 2]) := by
    simp only [parse, hclosed, handle, ofText_closed.1, ofText_closed.2]
    simp [handleToken, handleArray, htwo, hdepth, value, ParseHandler.setValue, ParseHandler.startArray,
      ParseHandler.start, ParseHandler.create, ParseHandler.endArray, ParseHandler.close, ParseHandler.asVar,
      Container.put, Container.value, Outcome.mono]
  refine ⟨hresults, fun hall => ?_⟩
  rw [hresults] at hall
  obtain ⟨-, hsecond, -⟩ := List.forall₂_cons.mp hall |>.imp_right List.forall₂_cons.mp
  have hsame := (hsecond _ rfl).2
  have hcreate : (ParseHandler.create p._preserveObjectOrder : ParseHandler ℕ) = .create false := rfl
  rw [hcreate, hfresh] at hsame
  have hlength := congrArg List.length (Value.array.inj (Except.ok.inj hsame))
  exact absurd hlength (by decide)

end LeftOpen

end ParserImpl

end Poco.JSON.Parser
