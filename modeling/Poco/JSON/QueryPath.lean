import Poco.JSON.Query

/-! # What a query finds

A path goes through objects by keys and through arrays by indexes; it leads nowhere when a step is impossible
(`reach`).  The query passes over an index of what is not an array and over an empty key, it finds nothing by a
path without other keys, and it throws at an index that is no `int`.  `find_eq_reach_iff` says when it finds what
the path leads to. -/

namespace Poco.JSON

open Poco.Lib

/-! ### Paths -/

/-- Where a path leads; a step that is impossible leads nowhere. -/
def reach : List (Step (List UInt8)) → Var → Var
  | [], v => v
  | .name n :: p, .object values => reach p (Tree.child values n)
  | .index i :: p, .array values => reach p (Tree.element values i)
  | _ :: _, _ => .empty

/-- A path: indexes, and names with indexes behind them. -/
structure Path where
  lead : List ℕ
  tokens : List Token

/-- The steps of a path. -/
def Path.steps (p : Path) : List (Step (List UInt8)) := p.lead.map .index ++ JSON.steps p.tokens

/-- The value of digits. -/
def decimal (num : List UInt8) : ℕ := num.foldl (fun n c => n * 10 + (c.toNat - '0'.toNat)) 0

/-- The text of indexes of any size, each in brackets. -/
inductive IndexesText : List UInt8 → List ℕ → Prop
  | nil : IndexesText [] []
  | cons {num text : List UInt8} {indexes : List ℕ} : num ≠ [] → (∀ c ∈ num, isDigit c = true) →
      IndexesText text indexes → IndexesText ('['.toUInt8 :: num ++ ']'.toUInt8 :: text) (decimal num :: indexes)

/-- A key has no dot and nothing that looks like an index; it may be empty. -/
structure IsKey (name : List UInt8) : Prop where
  dotless : '.'.toUInt8 ∉ name
  indexless : nextIndex name = none

/-- The text of a key with indexes of any size. -/
def NamedText (text : List UInt8) (t : Token) : Prop :=
  IsKey t.name ∧ ∃ indexText, text = t.name ++ indexText ∧ IndexesText indexText t.indexes

/-- The text of a path. -/
def PathText (key : List UInt8) (p : Path) : Prop :=
  ∃ leadText texts, IndexesText leadText p.lead ∧ List.Forall₂ NamedText texts p.tokens ∧
    key = ['.'.toUInt8].intercalate ((if p.lead = [] then [] else [leadText]) ++ texts)

/-! ### Where the query goes astray -/

/-- The path without its empty keys. -/
def named (p : List (Step (List UInt8))) : List (Step (List UInt8)) := p.filter fun s => s ≠ .name []

/-- Even when indexes of what is not an array are passed over, the path leads nowhere. -/
def Lost : List (Step (List UInt8)) → Var → Prop
  | [], v => v = .empty
  | .name n :: p, .object values => Lost p (Tree.child values n)
  | .name _ :: _, _ => True
  | .index i :: p, .array values => Lost p (Tree.element values i)
  | .index _ :: p, v => Lost p v

/-- The path passes over no index of what is not an array, unless the rest of it leads nowhere even so, and over no
empty key, unless the rest leads from there to what the path leads to. -/
def Plain : List (Step (List UInt8)) → Var → Prop
  | [], _ => True
  | .name [] :: p, v => Tree.follow (named p) v = reach (.name [] :: p) v
  | .name (c :: n) :: p, .object values => Plain p (Tree.child values (c :: n))
  | .name (_ :: _) :: _, _ => True
  | .index i :: p, .array values => Plain p (Tree.element values i)
  | .index _ :: p, v => Lost (named p) v

/-- The path has no key but empty ones. -/
def Nameless (ts : List Token) : Prop := ∀ t ∈ ts, t.name = []

instance (ts : List Token) : Decidable (Nameless ts) := inferInstanceAs (Decidable (∀ t ∈ ts, t.name = []))

/-- The numbers of `int`. -/
def AreInts (indexes : List ℕ) : Prop := ∀ i ∈ indexes, i < 2 ^ 31

/-- The indexes are numbers of `int`, behind each name that the query comes to. -/
def TokensInRange (ts : List Token) (v : Var) : Prop :=
  ∀ front t back, ts = front ++ t :: back → Lost (named (steps front)) v ∨ AreInts t.indexes

/-- The indexes that the query reads are numbers of `int`. -/
def InRange (p : Path) (v : Var) : Prop :=
  (v = .empty ∨ AreInts p.lead) ∧ TokensInRange p.tokens (Tree.follow (p.lead.map .index) v)

theorem lost_iff (p : List (Step (List UInt8))) (v : Var) : Lost p v ↔ Tree.follow p v = .empty := by
  induction p generalizing v with
  | nil => exact Iff.rfl
  | cons s p ih =>
      cases s with
      | name n =>
          cases v with
          | object values => exact ih _
          | empty | leaf a | array values => exact ⟨fun _ => rfl, fun _ => trivial⟩
      | index i =>
          cases v with
          | array values => exact ih _
          | empty | leaf a | object values => exact ih _

theorem named_append (p q : List (Step (List UInt8))) : named (p ++ q) = named p ++ named q := List.filter_append ..

theorem named_index (i : ℕ) (p : List (Step (List UInt8))) : named (.index i :: p) = .index i :: named p := rfl

theorem named_indexes (indexes : List ℕ) : named (indexes.map .index) = indexes.map .index := by
  induction indexes with
  | nil => rfl
  | cons i indexes ih => rw [List.map_cons, named_index, ih]

theorem named_name_nil (p : List (Step (List UInt8))) : named (.name [] :: p) = named p := rfl

theorem named_name {n : List UInt8} (hn : n ≠ []) (p : List (Step (List UInt8))) :
    named (.name n :: p) = .name n :: named p := by
  refine List.filter_cons_of_pos ?_
  rw [decide_eq_true_iff]
  exact fun h => hn (Step.name.inj h)

/-- Where the path is plain, passing over what it passes over makes no difference. -/
theorem follow_eq_reach_iff (p : List (Step (List UInt8))) (v : Var) :
    Tree.follow (named p) v = reach p v ↔ Plain p v := by
  induction p generalizing v with
  | nil => exact iff_of_true rfl trivial
  | cons s p ih =>
      cases s with
      | name n =>
          cases n with
          | nil => exact Iff.rfl
          | cons c n =>
              rw [named_name (List.cons_ne_nil c n)]
              cases v with
              | object values => exact ih _
              | empty | leaf a | array values => exact iff_of_true rfl trivial
      | index i =>
          rw [named_index]
          cases v with
          | array values => exact ih _
          | empty | leaf a | object values => exact (lost_iff (named p) _).symm

/-! ### Reading the indexes -/

theorem parse_eq (num : List UInt8) :
    parse num = if decimal num < 2 ^ 31 then .ok (decimal num) else .error (.syntaxException "Not a valid integer" num) :=
  rfl

theorem IndexesText.indexText {text : List UInt8} {indexes : List ℕ} (h : IndexesText text indexes)
    (hints : AreInts indexes) : IndexText text indexes := by
  induction h with
  | nil => exact .nil
  | @cons num text indexes hne hdigits _ ih =>
      unfold AreInts at hints
      rw [List.forall_mem_cons] at hints
      refine .cons hne hdigits ?_ (ih hints.2)
      rw [parse_eq, if_pos hints.1]

theorem IndexesText.indexLoop_error {text : List UInt8} {indexes : List ℕ} (h : IndexesText text indexes)
    (hints : ¬AreInts indexes) {name : List UInt8} (hname : nextIndex name = none) {left : ℕ}
    (hleft : text.length ≤ left) : ∃ e, indexLoop left (name ++ text) = .error e := by
  induction h generalizing name left with
  | nil => exact absurd (fun i hi => absurd hi List.not_mem_nil) hints
  | @cons num text indexes hne hdigits _ ih =>
      cases left with
      | zero => simp at hleft
      | succ left =>
          have hnext := @nextIndex_append name num text hname hne hdigits
          by_cases hint : decimal num < 2 ^ 31
          · have hrest : ¬AreInts indexes := by
              intro hall
              apply hints
              unfold AreInts
              rw [List.forall_mem_cons]
              exact ⟨hint, hall⟩
            have hlen : text.length ≤ left := by
              simp only [List.cons_append, List.length_cons, List.length_append] at hleft
              omega
            obtain ⟨e, he⟩ := @ih hrest [] rfl left hlen
            rw [List.nil_append] at he
            refine ⟨e, ?_⟩
            rw [indexLoop, hnext]
            dsimp only
            rw [parse_eq, if_pos hint, he]
            rfl
          · refine ⟨.syntaxException "Not a valid integer" num, ?_⟩
            rw [indexLoop, hnext]
            dsimp only
            rw [parse_eq, if_neg hint]
            rfl

theorem getIndexes_error {name indexText : List UInt8} {indexes : List ℕ} (hname : nextIndex name = none)
    (h : IndexesText indexText indexes) (hints : ¬AreInts indexes) :
    ∃ e, getIndexes (name ++ indexText) = .error e := by
  have hleft : indexText.length ≤ (name ++ indexText).length := by
    rw [List.length_append]
    exact Nat.le_add_left _ _
  obtain ⟨e, he⟩ := h.indexLoop_error hints hname hleft
  refine ⟨e, ?_⟩
  rw [getIndexes, he]
  rfl

/-! ### The loop over the tokens -/

theorem steps_cons (t : Token) (ts : List Token) : steps (t :: ts) = t.steps ++ steps ts := List.flatMap_cons

theorem follow_named_steps (t : Token) (ts : List Token) (v : Var) :
    Tree.follow (named (steps (t :: ts))) v = Tree.follow (named (steps ts)) (Tree.follow (named t.steps) v) := by
  rw [steps_cons, named_append, Tree.follow_append]

theorem tokensInRange_cons (t : Token) (ts : List Token) (v : Var) :
    TokensInRange (t :: ts) v ↔
      (v = .empty ∨ AreInts t.indexes) ∧ TokensInRange ts (Tree.follow (named t.steps) v) := by
  constructor
  · intro h
    refine ⟨h [] t ts rfl, fun front u back hts => ?_⟩
    rw [lost_iff, ← follow_named_steps, ← lost_iff]
    exact h (t :: front) u back (by rw [hts]; rfl)
  · rintro ⟨hfirst, hrest⟩ front u back hts
    cases front with
    | nil =>
        obtain ⟨rfl, rfl⟩ := List.cons.inj hts
        exact hfirst
    | cons x front =>
        obtain ⟨rfl, rfl⟩ := List.cons.inj hts
        rw [lost_iff, follow_named_steps, ← lost_iff]
        exact hrest front u back rfl

theorem tokensInRange_empty (ts : List Token) : TokensInRange ts .empty := by
  intro front t back _
  rw [lost_iff]
  exact Or.inl (Tree.follow_empty _)

theorem findLoop_token {name indexText : List UInt8} {indexes : List ℕ} (hname : nextIndex name = none)
    (h : IndexesText indexText indexes) (hints : AreInts indexes) (texts : List (List UInt8)) {v : Var}
    (hv : v ≠ .empty) (found : Bool) :
    findLoop ((name ++ indexText) :: texts) v found =
      findLoop texts (Tree.follow (indexes.map .index) (selectName name found v).1) (selectName name found v).2 := by
  rw [findLoop, if_neg (fun h => hv (isEmpty_iff.mp h)), getIndexes_append hname (h.indexText hints),
    ← selectIndexes_eq]
  rfl

theorem findLoop_token_error {name indexText : List UInt8} {indexes : List ℕ} (hname : nextIndex name = none)
    (h : IndexesText indexText indexes) (hints : ¬AreInts indexes) (texts : List (List UInt8)) {v : Var}
    (hv : v ≠ .empty) (found : Bool) : ∃ e, findLoop ((name ++ indexText) :: texts) v found = .error e := by
  obtain ⟨e, he⟩ := getIndexes_error hname h hints
  refine ⟨e, ?_⟩
  rw [findLoop, if_neg (fun h => hv (isEmpty_iff.mp h)), he]
  rfl

/-- A name that is looked up is found, or there is nothing any more; an empty one is passed over. -/
theorem selectName_follow (t : Token) (found : Bool) (v : Var) :
    Tree.follow (t.indexes.map .index) (selectName t.name found v).1 = Tree.follow (named t.steps) v ∧
      (t.name = [] → (selectName t.name found v).2 = found) ∧
      (t.name ≠ [] → (selectName t.name found v).2 = true ∨
        (selectName t.name found v).2 = found ∧ Tree.follow (named t.steps) v = .empty) := by
  have hsteps : t.steps = .name t.name :: t.indexes.map .index := rfl
  unfold selectName
  rw [hsteps]
  by_cases hname : t.name = []
  · rw [if_pos hname, hname, named_name_nil, named_indexes]
    exact ⟨rfl, fun _ => rfl, fun h => absurd rfl h⟩
  · rw [if_neg hname, named_name hname, named_indexes]
    cases v with
    | object values => exact ⟨rfl, fun h => absurd h hname, fun _ => Or.inl rfl⟩
    | empty | leaf a | array values =>
        exact ⟨Tree.follow_empty _, fun h => absurd h hname, fun _ => Or.inr ⟨rfl, rfl⟩⟩

theorem nameless_cons (t : Token) (ts : List Token) : Nameless (t :: ts) ↔ t.name = [] ∧ Nameless ts :=
  List.forall_mem_cons

/-- Names that are in range are followed; at the end a name has been found, or there is none, or there is nothing. -/
theorem findLoop_inRange {texts : List (List UInt8)} {ts : List Token} (h : List.Forall₂ NamedText texts ts)
    {v : Var} (hrange : TokensInRange ts v) (found : Bool) :
    ∃ found', findLoop texts v found = .ok (Tree.follow (named (steps ts)) v, found') ∧
      (Nameless ts → found' = found) ∧
      (¬Nameless ts → found' = true ∨ Tree.follow (named (steps ts)) v = .empty) := by
  induction h generalizing v found with
  | nil => exact ⟨found, rfl, fun _ => rfl, fun h => absurd (fun t ht => absurd ht List.not_mem_nil) h⟩
  | @cons text t texts ts htext hrest ih =>
      by_cases hv : v = .empty
      · rw [hv, findLoop_empty, Tree.follow_empty]
        exact ⟨found, rfl, fun _ => rfl, fun _ => Or.inr rfl⟩
      · obtain ⟨hfirst, hrange⟩ := (tokensInRange_cons t ts v).mp hrange
        obtain ⟨hname, indexText, rfl, hindexes⟩ := htext
        obtain ⟨hfollow, hskip, hlook⟩ := selectName_follow t found v
        rw [findLoop_token hname.indexless hindexes (hfirst.resolve_left hv) texts hv, hfollow, follow_named_steps,
          nameless_cons]
        obtain ⟨found', hloop, hnone, hsome⟩ := ih hrange (selectName t.name found v).2
        refine ⟨found', hloop, fun h => (hnone h.2).trans (hskip h.1), fun h => ?_⟩
        by_cases hts : Nameless ts
        · rcases hlook fun hnil => h ⟨hnil, hts⟩ with htrue | ⟨-, hempty⟩
          · exact Or.inl ((hnone hts).trans htrue)
          · rw [hempty, Tree.follow_empty]
            exact Or.inr rfl
        · exact hsome hts

theorem findLoop_not_inRange {texts : List (List UInt8)} {ts : List Token} (h : List.Forall₂ NamedText texts ts)
    {v : Var} (hrange : ¬TokensInRange ts v) (found : Bool) : ∃ e, findLoop texts v found = .error e := by
  induction h generalizing v found with
  | nil =>
      refine absurd (fun front t back hts => ?_) hrange
      exact absurd hts.symm (List.append_ne_nil_of_right_ne_nil _ (List.cons_ne_nil _ _))
  | @cons text t texts ts htext hrest ih =>
      have hv : v ≠ .empty := by
        rintro rfl
        exact hrange (tokensInRange_empty _)
      obtain ⟨hname, indexText, rfl, hindexes⟩ := htext
      by_cases hints : AreInts t.indexes
      · have hnot : ¬TokensInRange ts (Tree.follow (named t.steps) v) :=
          fun h => hrange ((tokensInRange_cons t ts v).mpr ⟨Or.inr hints, h⟩)
        rw [findLoop_token hname.indexless hindexes hints texts hv, (selectName_follow t found v).1]
        exact ih hnot _
      · exact findLoop_token_error hname.indexless hindexes hints texts hv found

/-! ### The query -/

theorem IndexesText.ne_nil {text : List UInt8} {indexes : List ℕ} (h : IndexesText text indexes) :
    text = [] ↔ indexes = [] := by
  cases h with
  | nil => exact ⟨fun _ => rfl, fun _ => rfl⟩
  | cons => exact ⟨(fun h => by cases h), (fun h => by cases h)⟩

theorem IndexesText.dotless {text : List UInt8} {indexes : List ℕ} (h : IndexesText text indexes) :
    '.'.toUInt8 ∉ text := by
  induction h with
  | nil => exact List.not_mem_nil
  | @cons num text indexes hne hdigits _ ih =>
      simp only [List.cons_append, List.mem_cons, List.mem_append, not_or]
      exact ⟨by decide, fun h => absurd (hdigits _ h) (by decide), by decide, ih⟩

theorem NamedText.dotless {text : List UInt8} {t : Token} (h : NamedText text t) : '.'.toUInt8 ∉ text := by
  obtain ⟨hname, indexText, rfl, hindexes⟩ := h
  rw [List.mem_append, not_or]
  exact ⟨hname.dotless, hindexes.dotless⟩

/-- The texts of the tokens: of the indexes in front, and of the keys. -/
def tokenTexts (leadText : List UInt8) (lead : List ℕ) (texts : List (List UInt8)) : List (List UInt8) :=
  (if lead = [] then [] else [leadText]) ++ texts

/-- The tokens of the text of a path that is not empty. -/
theorem PathText.tokens {key : List UInt8} {p : Path} (h : PathText key p) :
    ∃ leadText texts, IndexesText leadText p.lead ∧ List.Forall₂ NamedText texts p.tokens ∧
      (key ≠ [] → tokenizer key = tokenTexts leadText p.lead texts) ∧
      (key = [] → p.lead = [] ∧ Nameless p.tokens ∧ ∀ t ∈ p.tokens, t.indexes = []) := by
  obtain ⟨leadText, texts, hlead, htexts, hkey⟩ := h
  have hdotless : ∀ text ∈ tokenTexts leadText p.lead texts, '.'.toUInt8 ∉ text := by
    rw [tokenTexts, List.forall_mem_append]
    refine ⟨?_, forall_mem_dotless (fun _ _ => NamedText.dotless) htexts⟩
    split_ifs
    · exact fun text h => absurd h List.not_mem_nil
    · rw [List.forall_mem_singleton]
      exact hlead.dotless
  refine ⟨leadText, texts, hlead, htexts, fun hne => ?_, fun hnil => ?_⟩
  · rw [hkey]
    refine tokenizer_intercalate hdotless fun h => hne ?_
    rw [hkey, show (if p.lead = [] then [] else [leadText]) ++ texts = [[]] from h]
    rfl
  · rw [hnil] at hkey
    by_cases hsome : p.lead = []
    · rw [if_pos hsome, List.nil_append] at hkey
      refine ⟨hsome, ?_⟩
      generalize p.tokens = ts at htexts
      rcases htexts with _ | ⟨htext, _ | ⟨_, _⟩⟩
      · exact ⟨fun t ht => absurd ht List.not_mem_nil, fun t ht => absurd ht List.not_mem_nil⟩
      · obtain ⟨-, indexText, htext, hindexes⟩ := htext
        rw [List.intercalate_singleton, htext, eq_comm, List.append_eq_nil_iff] at hkey
        rw [Nameless, List.forall_mem_singleton, List.forall_mem_singleton]
        exact ⟨hkey.1, hindexes.ne_nil.mp hkey.2⟩
      · rw [List.intercalate_cons_cons, eq_comm] at hkey
        exact absurd (List.append_eq_nil_iff.mp (List.append_eq_nil_iff.mp hkey).1).2 (List.cons_ne_nil _ _)
    · rw [if_neg hsome] at hkey
      have hlong := congrArg List.length hkey
      cases texts with
      | nil =>
          rw [List.append_nil, List.intercalate_singleton] at hkey
          exact absurd (hlead.ne_nil.mp hkey.symm) hsome
      | cons text texts =>
          rw [List.singleton_append, List.intercalate_cons_cons, eq_comm] at hkey
          exact absurd (List.append_eq_nil_iff.mp (List.append_eq_nil_iff.mp hkey).1).2 (List.cons_ne_nil _ _)

theorem findLoop_path {leadText : List UInt8} {texts : List (List UInt8)} {p : Path}
    (hlead : IndexesText leadText p.lead) {v : Var} (hv : v ≠ .empty) (hints : AreInts p.lead) :
    findLoop (tokenTexts leadText p.lead texts) v false =
      findLoop texts (Tree.follow (p.lead.map .index) v) false := by
  unfold tokenTexts
  split_ifs with hnil
  · rw [hnil]
    rfl
  · have htoken := @findLoop_token [] leadText p.lead rfl hlead hints texts v hv false
    rw [List.nil_append] at htoken
    rw [List.singleton_append, htoken]
    rfl

theorem find_path {key : List UInt8} {p : Path} (h : PathText key p) (v : Var) :
    (InRange p v ∧ find v key =
      .ok (if key = [] then v else if Nameless p.tokens then .empty else Tree.follow (named p.steps) v)) ∨
      (¬InRange p v ∧ ∃ e, find v key = .error e) := by
  obtain ⟨leadText, texts, hlead, htexts, htokens, hnil⟩ := h.tokens
  have hsteps : Tree.follow (named p.steps) v =
      Tree.follow (named (steps p.tokens)) (Tree.follow (p.lead.map .index) v) := by
    rw [Path.steps, named_append, named_indexes, Tree.follow_append]
  by_cases hkey : key = []
  · obtain ⟨hnolead, -, hindexes⟩ := hnil hkey
    have hnone : ∀ indexes : List ℕ, indexes = [] → AreInts indexes := by
      rintro _ rfl i hi
      exact absurd hi List.not_mem_nil
    refine Or.inl ⟨⟨Or.inr (hnone _ hnolead), fun front t back hts => ?_⟩, ?_⟩
    · exact Or.inr (hnone _ (hindexes t (by rw [hts]; simp)))
    · rw [find, if_pos hkey, if_pos hkey]
  · rw [find, if_neg hkey, if_neg hkey, htokens hkey, hsteps]
    by_cases hv : v = .empty
    · left
      subst hv
      rw [findLoop_empty, Tree.follow_empty, Tree.follow_empty, ite_self]
      exact ⟨⟨Or.inl rfl, by rw [Tree.follow_empty]; exact tokensInRange_empty _⟩, rfl⟩
    · by_cases hints : AreInts p.lead
      · rw [findLoop_path hlead hv hints]
        by_cases hrange : TokensInRange p.tokens (Tree.follow (p.lead.map .index) v)
        · left
          refine ⟨⟨Or.inr hints, hrange⟩, ?_⟩
          obtain ⟨found, hloop, hnone, hsome⟩ := findLoop_inRange htexts hrange false
          rw [hloop]
          by_cases hnames : Nameless p.tokens
          · rw [if_pos hnames, hnone hnames]
            rfl
          · rw [if_neg hnames]
            rcases hsome hnames with htrue | hempty
            · rw [htrue]
              rfl
            · rw [hempty]
              cases found <;> rfl
        · right
          obtain ⟨e, he⟩ := findLoop_not_inRange htexts hrange false
          exact ⟨fun h => hrange h.2, e, by rw [he]; rfl⟩
      · right
        have hsome : p.lead ≠ [] := by
          intro h
          rw [h] at hints
          exact hints fun i hi => absurd hi List.not_mem_nil
        obtain ⟨e, he⟩ := @findLoop_token_error [] leadText p.lead rfl hlead hints texts v hv false
        refine ⟨fun h => hints (h.1.resolve_left hv), e, ?_⟩
        rw [List.nil_append] at he
        rw [tokenTexts, if_neg hsome, List.singleton_append, he]
        rfl

/-- **Main result.** The query finds what the path leads to if and only if the indexes that it reads are numbers of
`int` and, on a path with a key that is not empty, what is passed over makes no difference; without such a key
the path must lead nowhere, or to the source itself if its text is empty. -/
theorem find_eq_reach_iff {key : List UInt8} {p : Path} (h : PathText key p) (v : Var) :
    find v key = .ok (reach p.steps v) ↔
      InRange p v ∧ (key ≠ [] → ¬Nameless p.tokens → Plain p.steps v) ∧
        (key ≠ [] → Nameless p.tokens → reach p.steps v = .empty) ∧ (key = [] → reach p.steps v = v) := by
  rcases find_path h v with ⟨hrange, hfind⟩ | ⟨hrange, e, he⟩
  · rw [hfind, Except.ok.injEq, and_iff_right hrange, ← follow_eq_reach_iff]
    by_cases hkey : key = []
    · rw [if_pos hkey]
      exact ⟨fun h => ⟨fun hne => absurd hkey hne, fun hne => absurd hkey hne, fun _ => h.symm⟩,
        fun h => (h.2.2 hkey).symm⟩
    · rw [if_neg hkey]
      by_cases hnames : Nameless p.tokens
      · rw [if_pos hnames]
        exact ⟨fun h => ⟨fun _ hnot => absurd hnames hnot, fun _ _ => h.symm, fun hnil => absurd hnil hkey⟩,
          fun h => (h.2.1 hkey hnames).symm⟩
      · rw [if_neg hnames]
        exact ⟨fun h => ⟨fun _ _ => h, fun _ hall => absurd hall hnames, fun hnil => absurd hnil hkey⟩,
          fun h => h.1 hkey hnames⟩
  · rw [he]
    exact iff_of_false nofun fun h => hrange h.1

/-- An index and a name. -/
theorem find_eq_reach_iff_small :
    let source : Var := .array [.object [(ascii "a", .leaf (.other (ascii "1")))]]
    let p : Path := ⟨[0], [⟨ascii "a", []⟩]⟩
    find source (ascii "[0].a") = .ok (reach p.steps source) ↔
      InRange p source ∧ (ascii "[0].a" ≠ [] → ¬Nameless p.tokens → Plain p.steps source) ∧
        (ascii "[0].a" ≠ [] → Nameless p.tokens → reach p.steps source = .empty) ∧
        (ascii "[0].a" = [] → reach p.steps source = source) := by
  intro source p
  have hlead : IndexesText (ascii "[0]") [0] :=
    .cons (show ascii "0" ≠ [] by decide +kernel) (by decide +kernel) .nil
  have hname : IsKey (ascii "a") := ⟨by decide, by decide⟩
  have htext : PathText (ascii "[0].a") p :=
    ⟨ascii "[0]", [ascii "a"], hlead, .cons ⟨hname, [], rfl, .nil⟩ .nil, by decide⟩
  exact find_eq_reach_iff htext source

/-- The only element of an array is not found; and an empty key behind `a` is passed over. -/
theorem not_find_eq_reach :
    (let source : Var := .array [.leaf (.other (ascii "1"))]
    let p : Path := ⟨[0], []⟩
    PathText (ascii "[0]") p ∧ find source (ascii "[0]") ≠ .ok (reach p.steps source)) ∧
    let source : Var := .object [(ascii "a", .object [([], .leaf (.other (ascii "1")))])]
    let p : Path := ⟨[], [⟨ascii "a", []⟩, ⟨[], []⟩]⟩
    PathText (ascii "a.") p ∧ find source (ascii "a.") ≠ .ok (reach p.steps source) := by
  constructor
  · intro source p
    have hlead : IndexesText (ascii "[0]") [0] :=
      .cons (show ascii "0" ≠ [] by decide +kernel) (by decide +kernel) .nil
    refine ⟨⟨ascii "[0]", [], hlead, .nil, by decide⟩, fun hfind => ?_⟩
    have hnothing : find source (ascii "[0]") = .ok .empty := by rfl
    rw [hnothing] at hfind
    cases hfind
  · intro source p
    have hname : IsKey (ascii "a") := ⟨by decide, by decide⟩
    have hempty : IsKey [] := ⟨List.not_mem_nil, rfl⟩
    refine ⟨⟨[], [ascii "a", []], .nil, .cons ⟨hname, [], rfl, .nil⟩ (.cons ⟨hempty, [], rfl, .nil⟩ .nil), by decide⟩,
      fun hfind => ?_⟩
    have hobject : find source (ascii "a.") = .ok (.object [([], .leaf (.other (ascii "1")))]) := by rfl
    have hleaf : reach p.steps source = .leaf (.other (ascii "1")) := by rfl
    rw [hobject, hleaf] at hfind
    cases hfind

end Poco.JSON
