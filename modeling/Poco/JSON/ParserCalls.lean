import Poco.JSON.ParserImpl

/-! # Calls of a parser

The tokens of a value are given by a grammar (`Spells`).  On them the parser adds the value where the handler stands,
on all other tokens it throws.  A text that is given up inside a container leaves the container open, and the
values of all later texts go into it. -/

namespace Poco.JSON.Parser

open Poco.Foundation Pdjson

variable {φ : Type} {p : ParserImpl φ} {errmsg : List UInt8} {d : ℕ} {h : ParseHandler φ}

namespace ParserImpl

/-! ### The tokens of a value -/

mutual

/-- `ts` are the tokens of the value `v`, where `d` containers are open. -/
inductive Spells (p : ParserImpl φ) : ℕ → List Pdjson.Token → Value φ → Prop
  | null {d : ℕ} : Spells p d [.null] .empty
  | true_ {d : ℕ} : Spells p d [.true_] (.bool true)
  | false_ {d : ℕ} : Spells p d [.false_] (.bool false)
  | number {d : ℕ} {str : List UInt8} {v : Value φ} : p.number str = .ok v → Spells p d [.number str] v
  | string {d : ℕ} {str : List UInt8} : Spells p d [.string str] (.string str)
  | array {d : ℕ} {ts : List Pdjson.Token} {vs : List (Value φ)} : d + 1 ≤ p._depth → Elements p (d + 1) ts vs →
      Spells p d (.array :: (ts ++ [.arrayEnd])) (.array vs)
  | object {d : ℕ} {ts : List Pdjson.Token} {ms : Members φ} : d + 1 ≤ p._depth → Adds p (d + 1) [] ts ms →
      Spells p d (.object :: (ts ++ [.objectEnd])) (.object ms)

/-- `ts` are the tokens of the elements `vs`. -/
inductive Elements (p : ParserImpl φ) : ℕ → List Pdjson.Token → List (Value φ) → Prop
  | nil {d : ℕ} : Elements p d [] []
  | cons {d : ℕ} {ts us : List Pdjson.Token} {v : Value φ} {vs : List (Value φ)} : Spells p d ts v →
      Elements p d us vs → Elements p d (ts ++ us) (v :: vs)

/-- `ts` are the tokens of members that are set one after another. -/
inductive Adds (p : ParserImpl φ) : ℕ → Members φ → List Pdjson.Token → Members φ → Prop
  | nil {d : ℕ} {ms : Members φ} : Adds p d ms [] ms
  | cons {d : ℕ} {str : List UInt8} {ts us : List Pdjson.Token} {v : Value φ} {ms ms' : Members φ} :
      Spells p d ts v →
      Adds p d (set p._preserveObjectOrder (nameOf (.string str)) v ms) us ms' →
      Adds p d ms (.string str :: (ts ++ us)) ms'

end

theorem Spells.head {us : List Pdjson.Token} {v : Value φ} (hs : Spells p d us v) :
    ∃ t us', us = t :: us' ∧ ¬t.IsEnd := by
  cases hs <;> exact ⟨_, _, rfl, by simp [Pdjson.Token.IsEnd]⟩

/-! ### One step of the loops -/

theorem result_handleArray_end (ts : List Pdjson.Token) :
    (p.handleArray errmsg d (.arrayEnd :: ts) h).result = .ok (ts, h.endArray) := by
  rw [handleArray, if_pos rfl]
  rfl

theorem result_handleArray_cons {t : Pdjson.Token} (ht : t ≠ .arrayEnd) (ts : List Pdjson.Token) :
    (p.handleArray errmsg d (t :: ts) h).result =
      (p.handleToken errmsg d t ts h).result >>= fun q => (p.handleArray errmsg d q.1 q.2).result := by
  rw [handleArray, if_neg ht]
  cases p.handleToken errmsg d t ts h with
  | thrown e h => rfl
  | returned rest le h => exact Outcome.result_mono _ _

theorem result_handleObject_end (ts : List Pdjson.Token) :
    (p.handleObject errmsg d (.objectEnd :: ts) h).result = .ok (ts, h.endObject) := by
  cases ts with
  | nil =>
      rw [handleObject, if_pos rfl]
      rfl
  | cons t ts =>
      rw [handleObject, if_pos rfl]
      rfl

theorem result_handleObject_cons {t : Pdjson.Token} (ht : t ≠ .objectEnd) (t' : Pdjson.Token)
    (ts : List Pdjson.Token) :
    (p.handleObject errmsg d (t :: t' :: ts) h).result =
      (p.handleToken errmsg d t' ts (h.key (nameOf t))).result >>= fun q =>
        (p.handleObject errmsg d q.1 q.2).result := by
  rw [handleObject, if_neg ht]
  cases p.handleToken errmsg d t' ts (h.key (nameOf t)) with
  | thrown e h => rfl
  | returned rest le h => exact Outcome.result_mono _ _

theorem result_value {v : Value φ} (hstack : h._stack ≠ []) (ts : List Pdjson.Token) :
    (value v ts h).result = .ok (ts, h.add v h.clearKey) := by
  rw [value, ParseHandler.setValue_of_cons hstack]
  rfl

theorem not_isContainer_of_number {str : List UInt8} {v : Value φ} (hv : p.number str = .ok v) : ¬v.IsContainer := by
  unfold number at hv
  split at hv
  · split at hv <;> cases hv
    exact not_false
  · split at hv
    · cases hv
      exact not_false
    · split at hv <;> cases hv
      exact not_false

/-! ### The tokens of a value are read -/

/-- On the tokens `us` the parser adds the value `v`. -/
def ReadsValue (p : ParserImpl φ) (errmsg : List UInt8) (d : ℕ) (us : List Pdjson.Token) (v : Value φ) : Prop :=
  ∀ (rest : List Pdjson.Token) (h : ParseHandler φ), h._preserveObjectOrder = p._preserveObjectOrder →
    (h._stack ≠ [] ∨ v.IsContainer) → ∀ t us', us = t :: us' →
      ∃ k, (p.handleToken errmsg d t (us' ++ rest) h).result = .ok (rest, h.add v k)

/-- On the tokens `us` and an `arrayEnd` the parser adds the elements `vs` to the array at the top, and closes it. -/
def ReadsElements (p : ParserImpl φ) (errmsg : List UInt8) (d : ℕ) (us : List Pdjson.Token)
    (vs : List (Value φ)) : Prop :=
  ∀ (rest : List Pdjson.Token) (h : ParseHandler φ) (slot : List UInt8) (elements : List (Value φ))
    (ls : List (Level φ)),
    h._preserveObjectOrder = p._preserveObjectOrder → h._stack = ⟨slot, .array elements⟩ :: ls →
      ∃ k, (p.handleArray errmsg d (us ++ .arrayEnd :: rest) h).result =
        .ok (rest, ParseHandler.close { h with _stack := ⟨slot, .array (elements ++ vs)⟩ :: ls, _key := k })

/-- On the tokens `us` and an `objectEnd` the parser turns the members `ms` of the object at the top into `ms'`, and
closes it. -/
def ReadsMembers (p : ParserImpl φ) (errmsg : List UInt8) (d : ℕ) (ms : Members φ) (us : List Pdjson.Token)
    (ms' : Members φ) : Prop :=
  ∀ (rest : List Pdjson.Token) (h : ParseHandler φ) (slot : List UInt8) (ls : List (Level φ)),
    h._preserveObjectOrder = p._preserveObjectOrder → h._stack = ⟨slot, .object ms⟩ :: ls →
      ∃ k, (p.handleObject errmsg d (us ++ .objectEnd :: rest) h).result =
        .ok (rest, ParseHandler.close { h with _stack := ⟨slot, .object ms'⟩ :: ls, _key := k })

theorem readsValue_of_value {t : Pdjson.Token} {v : Value φ} (hv : ¬v.IsContainer)
    (ht : ∀ ts (h : ParseHandler φ), p.handleToken errmsg d t ts h = value v ts h) :
    ReadsValue p errmsg d [t] v := by
  intro rest h _ hplace t' us' hus
  obtain ⟨rfl, rfl⟩ := List.cons.inj hus
  refine ⟨h.clearKey, ?_⟩
  rw [ht]
  exact result_value (hplace.resolve_right hv) rest

theorem readsValue_array {ts : List Pdjson.Token} {vs : List (Value φ)} (hdepth : d + 1 ≤ p._depth)
    (hvs : ReadsElements p errmsg (d + 1) ts vs) :
    ReadsValue p errmsg d (.array :: (ts ++ [.arrayEnd])) (.array vs) := by
  intro rest h hpreserve _ t us' hus
  obtain ⟨rfl, rfl⟩ := List.cons.inj hus
  obtain ⟨k, hk⟩ := hvs rest h.startArray h._key [] h._stack hpreserve rfl
  refine ⟨k, ?_⟩
  rw [handleToken, if_neg (Nat.not_lt.mpr hdepth), List.append_assoc, List.singleton_append, hk]
  exact congrArg (fun h => Except.ok (rest, h)) (ParseHandler.close_start h (.array []) (.array vs) k)

theorem readsValue_object {ts : List Pdjson.Token} {ms : Members φ} (hdepth : d + 1 ≤ p._depth)
    (hms : ReadsMembers p errmsg (d + 1) [] ts ms) :
    ReadsValue p errmsg d (.object :: (ts ++ [.objectEnd])) (.object ms) := by
  intro rest h hpreserve _ t us' hus
  obtain ⟨rfl, rfl⟩ := List.cons.inj hus
  obtain ⟨k, hk⟩ := hms rest h.startObject h._key h._stack hpreserve rfl
  refine ⟨k, ?_⟩
  rw [handleToken, if_neg (Nat.not_lt.mpr hdepth), List.append_assoc, List.singleton_append, hk]
  exact congrArg (fun h => Except.ok (rest, h)) (ParseHandler.close_start h (.object []) (.object ms) k)

theorem readsElements_cons {ts us : List Pdjson.Token} {v : Value φ} {vs : List (Value φ)} (hs : Spells p d ts v)
    (hv : ReadsValue p errmsg d ts v) (hvs : ReadsElements p errmsg d us vs) :
    ReadsElements p errmsg d (ts ++ us) (v :: vs) := by
  intro rest h slot elements ls hpreserve hstack
  obtain ⟨t, ts', rfl, hend⟩ := hs.head
  have hne : h._stack ≠ [] := by
    rw [hstack]
    exact List.cons_ne_nil _ _
  obtain ⟨k, hk⟩ := hv (us ++ .arrayEnd :: rest) h hpreserve (Or.inl hne) t ts' rfl
  have hadd := ParseHandler.add_of_cons hstack v k
  obtain ⟨k', hk'⟩ := hvs rest (h.add v k) slot (elements ++ [v]) ls (by rw [hadd, hpreserve]) (by rw [hadd]; rfl)
  refine ⟨k', ?_⟩
  have htokens : t :: ts' ++ us ++ .arrayEnd :: rest = t :: (ts' ++ (us ++ .arrayEnd :: rest)) := by simp
  rw [htokens, result_handleArray_cons (fun h => hend (Or.inr h)), hk]
  refine hk'.trans ?_
  rw [hadd, List.append_assoc, List.singleton_append]

theorem readsMembers_cons {str : List UInt8} {ts us : List Pdjson.Token} {v : Value φ} {ms ms' : Members φ}
    (hs : Spells p d ts v) (hv : ReadsValue p errmsg d ts v)
    (hms : ReadsMembers p errmsg d (set p._preserveObjectOrder (nameOf (.string str)) v ms) us ms') :
    ReadsMembers p errmsg d ms (.string str :: (ts ++ us)) ms' := by
  intro rest h slot ls hpreserve hstack
  obtain ⟨t, ts', rfl, -⟩ := hs.head
  have hkey : (h.key (nameOf (.string str)))._stack = ⟨slot, .object ms⟩ :: ls := hstack
  have hne : (h.key (nameOf (.string str)))._stack ≠ [] := by
    rw [hkey]
    exact List.cons_ne_nil _ _
  obtain ⟨k, hk⟩ := hv (us ++ .objectEnd :: rest) (h.key (nameOf (.string str))) hpreserve (Or.inl hne) t ts' rfl
  have hadd := ParseHandler.add_of_cons hkey v k
  obtain ⟨k', hk'⟩ := hms rest ((h.key (nameOf (.string str))).add v k) slot ls (by rw [hadd]; exact hpreserve)
    (by rw [hadd, ← hpreserve]; rfl)
  refine ⟨k', ?_⟩
  have htokens : Pdjson.Token.string str :: (t :: ts' ++ us) ++ .objectEnd :: rest =
      .string str :: t :: (ts' ++ (us ++ .objectEnd :: rest)) := by simp
  rw [htokens, result_handleObject_cons (by simp), hk]
  refine hk'.trans ?_
  rw [hadd]
  rfl

theorem Spells.reads {us : List Pdjson.Token} {v : Value φ} (hs : Spells p d us v) : ReadsValue p errmsg d us v := by
  refine @Spells.rec φ p (fun d us v _ => ReadsValue p errmsg d us v) (fun d us vs _ => ReadsElements p errmsg d us vs)
    (fun d ms us ms' _ => ReadsMembers p errmsg d ms us ms') ?_ ?_ ?_ ?_ ?_ ?_ ?_ ?_ ?_ ?_ ?_ d us v hs
  · exact readsValue_of_value not_false fun _ _ => by rw [handleToken]
  · exact readsValue_of_value not_false fun _ _ => by rw [handleToken]
  · exact readsValue_of_value not_false fun _ _ => by rw [handleToken]
  · intro d str v hv
    exact readsValue_of_value (not_isContainer_of_number hv) fun _ _ => by rw [handleToken, hv]
  · exact readsValue_of_value not_false fun _ _ => by rw [handleToken]
  · exact fun hdepth _ ih => readsValue_array hdepth ih
  · exact fun hdepth _ ih => readsValue_object hdepth ih
  · intro d rest h slot elements ls hpreserve hstack
    refine ⟨h._key, ?_⟩
    rw [List.nil_append, result_handleArray_end, List.append_nil, ← hstack]
    rfl
  · exact fun hs _ ihs ihvs => readsElements_cons hs ihs ihvs
  · intro d ms rest h slot ls hpreserve hstack
    refine ⟨h._key, ?_⟩
    rw [List.nil_append, result_handleObject_end, ← hstack]
    rfl
  · exact fun hs _ ihs ihms => readsMembers_cons hs ihs ihms

theorem Spells.handler_eq {t : Pdjson.Token} {ts rest us : List Pdjson.Token} {v : Value φ} {h' : ParseHandler φ}
    (hs : Spells p d us v) (hus : t :: ts = us ++ rest) (hpreserve : h._preserveObjectOrder = p._preserveObjectOrder)
    (hplace : h._stack ≠ [] ∨ v.IsContainer) (hread : (p.handleToken errmsg d t ts h).result = .ok (rest, h')) :
    ∃ k, h' = h.add v k := by
  obtain ⟨t', us', rfl, -⟩ := hs.head
  rw [List.cons_append] at hus
  obtain ⟨rfl, rfl⟩ := List.cons.inj hus
  obtain ⟨k, hk⟩ := hs.reads rest h hpreserve hplace t us' rfl
  rw [hk] at hread
  exact ⟨k, (Prod.mk.inj (Except.ok.inj hread)).2.symm⟩

/-! ### All other tokens are refused -/

/-- A call that returns leaves good tokens, and one that throws leaves the handler as `bad` says. -/
def Ends (good : List Pdjson.Token → Prop) (bad : ParseHandler φ → Prop) :
    Except (Exn × ParseHandler φ) (List Pdjson.Token × ParseHandler φ) → Prop
  | .ok (rest, _) => good rest
  | .error (_, h) => bad h

/-- Where a value is read, the tokens of a value that has a place are taken; if an exception is thrown, no container is
open only if none was and the token does not begin one. -/
def ValueSpec (p : ParserImpl φ) (errmsg : List UInt8) (e : Option (List UInt8)) (d : ℕ) (t : Pdjson.Token)
    (ts : List Pdjson.Token) : Prop :=
  ∀ (h : ParseHandler φ) (q : Place) (ps : List Place), h._preserveObjectOrder = p._preserveObjectOrder →
    q ≠ .name → ¬t.IsEnd → Legal (opened (q.behind ++ ps) t) ts e →
      Ends (fun rest => Legal (q.behind ++ ps) rest e ∧
          ∃ us v, t :: ts = us ++ rest ∧ Spells p d us v ∧ (h._stack ≠ [] ∨ v.IsContainer))
        (fun h' => h'._preserveObjectOrder = p._preserveObjectOrder ∧
          (h'._stack = [] ↔ h._stack = [] ∧ t ≠ .array ∧ t ≠ .object)) (p.handleToken errmsg d t ts h).result

/-- In an array, elements are taken. -/
def ArraySpec (p : ParserImpl φ) (errmsg : List UInt8) (e : Option (List UInt8)) (d : ℕ)
    (ts : List Pdjson.Token) : Prop :=
  ∀ (h : ParseHandler φ) (ps : List Place), h._preserveObjectOrder = p._preserveObjectOrder → h._stack ≠ [] →
    Legal (.element :: ps) ts e →
      Ends (fun rest => Legal ps rest e ∧ ∃ us vs, ts = us ++ .arrayEnd :: rest ∧ Elements p d us vs)
        (fun h' => h'._preserveObjectOrder = p._preserveObjectOrder ∧ h'._stack ≠ []) (p.handleArray errmsg d ts h).result

/-- In an object, members are taken. -/
def ObjectSpec (p : ParserImpl φ) (errmsg : List UInt8) (e : Option (List UInt8)) (d : ℕ)
    (ts : List Pdjson.Token) : Prop :=
  ∀ (h : ParseHandler φ) (ps : List Place), h._preserveObjectOrder = p._preserveObjectOrder → h._stack ≠ [] →
    Legal (.name :: ps) ts e →
      Ends (fun rest => Legal ps rest e ∧ ∃ us, ts = us ++ .objectEnd :: rest ∧ ∀ ms, ∃ ms', Adds p d ms us ms')
        (fun h' => h'._preserveObjectOrder = p._preserveObjectOrder ∧ h'._stack ≠ []) (p.handleObject errmsg d ts h).result

variable {e : Option (List UInt8)}

theorem valueSpec_of_value {t : Pdjson.Token} {ts : List Pdjson.Token} {v : Value φ} (hs : Spells p d [t] v)
    (ht : ∀ h : ParseHandler φ, p.handleToken errmsg d t ts h = value v ts h) (hopened : ∀ ps, opened ps t = ps)
    (hne : t ≠ .array ∧ t ≠ .object) : ValueSpec p errmsg e d t ts := by
  intro h q ps hpreserve _ _ hlegal
  rw [ht]
  by_cases hstack : h._stack = []
  · have hthrown : (value v ts h).result =
        .error (.jsonException (UTF8.text "Attempt to set value on an empty stack"), h) := by
      rw [value, ParseHandler.setValue, hstack]
      rfl
    rw [hthrown]
    exact ⟨hpreserve, fun h => ⟨h, hne⟩, fun h => h.1⟩
  · rw [result_value hstack]
    rw [hopened] at hlegal
    exact ⟨hlegal, [t], v, rfl, hs, Or.inl hstack⟩

/-- A container that is deeper than the limit is refused when it is open. -/
theorem ends_tooDeep (good : List Pdjson.Token → Prop) (c : Container φ) {t : Pdjson.Token}
    (ht : t = .array ∨ t = .object)
    (n : ℕ) (exn : Exn) (hpreserve : h._preserveObjectOrder = p._preserveObjectOrder) :
    Ends good (fun h' => h'._preserveObjectOrder = p._preserveObjectOrder ∧
      (h'._stack = [] ↔ h._stack = [] ∧ t ≠ .array ∧ t ≠ .object))
      (Outcome.thrown exn (h.start c) : Outcome φ n).result := by
  refine ⟨hpreserve, fun hnil => absurd hnil (List.cons_ne_nil _ _), fun hand => ?_⟩
  rcases ht with rfl | rfl
  · exact absurd rfl hand.2.1
  · exact absurd rfl hand.2.2

theorem valueSpec_array {ts : List Pdjson.Token} (harray : ArraySpec p errmsg e (d + 1) ts) :
    ValueSpec p errmsg e d .array ts := by
  intro h q ps hpreserve _ _ hlegal
  rw [handleToken]
  split_ifs with hdepth
  · exact ends_tooDeep _ _ (Or.inl rfl) _ _ hpreserve
  · have hends := harray h.startArray (q.behind ++ ps) hpreserve (List.cons_ne_nil _ _) hlegal
    cases hresult : (p.handleArray errmsg (d + 1) ts h.startArray).result with
    | ok r =>
        rw [hresult] at hends
        obtain ⟨hrest, us, vs, rfl, hvs⟩ := hends
        refine ⟨hrest, .array :: (us ++ [.arrayEnd]), .array vs, by simp, .array (Nat.not_lt.mp hdepth) hvs, Or.inr trivial⟩
    | error r =>
        rw [hresult] at hends
        exact ⟨hends.1, fun hnil => absurd hnil hends.2, fun hand => absurd rfl hand.2.1⟩

theorem valueSpec_object {ts : List Pdjson.Token} (hobject : ObjectSpec p errmsg e (d + 1) ts) :
    ValueSpec p errmsg e d .object ts := by
  intro h q ps hpreserve _ _ hlegal
  rw [handleToken]
  split_ifs with hdepth
  · exact ends_tooDeep _ _ (Or.inr rfl) _ _ hpreserve
  · have hends := hobject h.startObject (q.behind ++ ps) hpreserve (List.cons_ne_nil _ _) hlegal
    cases hresult : (p.handleObject errmsg (d + 1) ts h.startObject).result with
    | ok r =>
        rw [hresult] at hends
        obtain ⟨hrest, us, rfl, hms⟩ := hends
        obtain ⟨ms, hms⟩ := hms []
        refine ⟨hrest, .object :: (us ++ [.objectEnd]), .object ms, by simp, .object (Nat.not_lt.mp hdepth) hms,
          Or.inr trivial⟩
    | error r =>
        rw [hresult] at hends
        exact ⟨hends.1, fun hnil => absurd hnil hends.2, fun hand => absurd rfl hand.2.2⟩

theorem valueSpec {ts : List Pdjson.Token} (harray : ∀ d, ArraySpec p errmsg e d ts)
    (hobject : ∀ d, ObjectSpec p errmsg e d ts) (d : ℕ) (t : Pdjson.Token) : ValueSpec p errmsg e d t ts := by
  cases t with
  | null => exact valueSpec_of_value .null (fun _ => by rw [handleToken]) (fun _ => rfl) (by simp)
  | true_ => exact valueSpec_of_value .true_ (fun _ => by rw [handleToken]) (fun _ => rfl) (by simp)
  | false_ => exact valueSpec_of_value .false_ (fun _ => by rw [handleToken]) (fun _ => rfl) (by simp)
  | number str =>
      cases hnumber : p.number str with
      | ok v => exact valueSpec_of_value (.number hnumber) (fun _ => by rw [handleToken, hnumber]) (fun _ => rfl) (by simp)
      | error exn =>
          intro h q ps hpreserve _ _ _
          rw [handleToken, hnumber]
          exact ⟨hpreserve, fun h => ⟨h, by simp, by simp⟩, fun h => h.1⟩
  | string str => exact valueSpec_of_value .string (fun _ => by rw [handleToken]) (fun _ => rfl) (by simp)
  | object => exact valueSpec_object (hobject (d + 1))
  | objectEnd => exact fun _ _ _ _ _ hend => absurd (Or.inl rfl) hend
  | array => exact valueSpec_array (harray (d + 1))
  | arrayEnd => exact fun _ _ _ _ _ hend => absurd (Or.inr rfl) hend

theorem ends_bind {good good' : List Pdjson.Token → Prop} {bad bad' : ParseHandler φ → Prop}
    {r : Except (Exn × ParseHandler φ) (List Pdjson.Token × ParseHandler φ)}
    {f : List Pdjson.Token × ParseHandler φ → Except (Exn × ParseHandler φ) (List Pdjson.Token × ParseHandler φ)}
    (h : Ends good bad r) (hbad : ∀ h, bad h → bad' h)
    (hgood : ∀ q, r = .ok q → good q.1 → Ends good' bad' (f q)) : Ends good' bad' (r >>= f) := by
  cases r with
  | ok q => exact hgood q rfl h
  | error x => exact hbad x.2 h

theorem Spells.split {t : Pdjson.Token} {ts rest us : List Pdjson.Token} {v : Value φ} (hs : Spells p d us v)
    (hus : t :: ts = us ++ rest) : rest.length ≤ ts.length := by
  obtain ⟨t', us', rfl, -⟩ := hs.head
  have hlength := congrArg List.length hus
  simp only [List.length_cons, List.length_append] at hlength
  omega

theorem arraySpec_cons {t : Pdjson.Token} {ts : List Pdjson.Token} (hvalue : ValueSpec p errmsg e d t ts)
    (ih : ∀ rest : List Pdjson.Token, rest.length ≤ ts.length → ArraySpec p errmsg e d rest) :
    ArraySpec p errmsg e d (t :: ts) := by
  intro h ps hpreserve hstack hlegal
  obtain ⟨ps', hstep, hlegal⟩ := hlegal
  cases hstep with
  | arrayEnd =>
      rw [result_handleArray_end]
      exact ⟨hlegal, [], [], rfl, .nil⟩
  | value hplace hend =>
      rw [result_handleArray_cons (fun h => hend (Or.inr h))]
      refine ends_bind (hvalue h .element ps hpreserve hplace hend hlegal)
        (fun h' hbad => ⟨hbad.1, fun hnil => hstack (hbad.2.mp hnil).1⟩) fun q hread hgood => ?_
      obtain ⟨hrest, us, v, hus, hs, hplace⟩ := hgood
      obtain ⟨k, hadd⟩ := hs.handler_eq hus hpreserve hplace hread
      have hpreserve' : q.2._preserveObjectOrder = p._preserveObjectOrder := by
        rw [hadd, ParseHandler.add_preserveObjectOrder, hpreserve]
      have hstack' : q.2._stack ≠ [] := by
        rw [hadd]
        exact fun hnil => hstack ((ParseHandler.add_stack_eq_nil h v k).mp hnil)
      have hends := ih q.1 (hs.split hus) q.2 ps hpreserve' hstack' hrest
      cases hresult : (p.handleArray errmsg d q.1 q.2).result with
      | ok r =>
          rw [hresult] at hends
          obtain ⟨hrest', us', vs, hus', hvs⟩ := hends
          refine ⟨hrest', us ++ us', v :: vs, ?_, .cons hs hvs⟩
          rw [hus, hus', List.append_assoc]
      | error r =>
          rw [hresult] at hends
          exact hends

theorem objectSpec_cons {t : Pdjson.Token} {ts : List Pdjson.Token}
    (ih : ∀ rest : List Pdjson.Token, rest.length ≤ ts.length → ObjectSpec p errmsg e d rest)
    (hvalue : ∀ (t' : Pdjson.Token) (rest : List Pdjson.Token), rest.length ≤ ts.length → ValueSpec p errmsg e d t' rest) :
    ObjectSpec p errmsg e d (t :: ts) := by
  intro h ps hpreserve hstack hlegal
  obtain ⟨ps', hstep, hlegal⟩ := hlegal
  cases hstep with
  | objectEnd =>
      rw [result_handleObject_end]
      exact ⟨hlegal, [], rfl, fun ms => ⟨ms, .nil⟩⟩
  | value hplace => exact absurd rfl hplace
  | @name _ str =>
      cases ts with
      | nil =>
          rw [handleObject, if_neg (by simp)]
          exact ⟨hpreserve, hstack⟩
      | cons t' ts =>
          obtain ⟨ps', hstep, hlegal⟩ := hlegal
          cases hstep with
          | value hplace hend =>
              rw [result_handleObject_cons (by simp)]
              refine ends_bind (hvalue t' ts (Nat.le_succ _) (h.key (nameOf (.string str))) .value ps hpreserve hplace
                hend hlegal) (fun h' hbad => ⟨hbad.1, fun hnil => hstack (hbad.2.mp hnil).1⟩) fun q hread hgood => ?_
              obtain ⟨hrest, us, v, hus, hs, hplace⟩ := hgood
              obtain ⟨k, hadd⟩ :=
                hs.handler_eq (h := h.key (nameOf (.string str))) hus hpreserve hplace hread
              have hpreserve' : q.2._preserveObjectOrder = p._preserveObjectOrder := by
                rw [hadd, ParseHandler.add_preserveObjectOrder]
                exact hpreserve
              have hstack' : q.2._stack ≠ [] := by
                rw [hadd]
                exact fun hnil => hstack ((ParseHandler.add_stack_eq_nil (h.key (nameOf (.string str))) v k).mp hnil)
              have hends := ih q.1 ((hs.split hus).trans (Nat.le_succ _)) q.2 ps hpreserve' hstack' hrest
              cases hresult : (p.handleObject errmsg d q.1 q.2).result with
              | ok r =>
                  rw [hresult] at hends
                  obtain ⟨hrest', us', hus', hms⟩ := hends
                  refine ⟨hrest', .string str :: (us ++ us'), ?_, fun ms => ?_⟩
                  · rw [hus, hus', List.cons_append, List.append_assoc]
                  · obtain ⟨ms', hms⟩ := hms (set p._preserveObjectOrder (nameOf (.string str)) v ms)
                    exact ⟨ms', .cons hs hms⟩
              | error r =>
                  rw [hresult] at hends
                  exact hends

theorem arraySpec_and_objectSpec (p : ParserImpl φ) (errmsg : List UInt8) (e : Option (List UInt8))
    (ts : List Pdjson.Token) :
    (∀ d, ArraySpec p errmsg e d ts) ∧ ∀ d, ObjectSpec p errmsg e d ts := by
  induction hn : ts.length using Nat.strong_induction_on generalizing ts with
  | _ n ih =>
      cases ts with
      | nil =>
          refine ⟨fun d h ps hpreserve hstack _ => ?_, fun d h ps hpreserve hstack _ => ?_⟩
          · rw [handleArray]
            exact ⟨hpreserve, hstack⟩
          · rw [handleObject]
            exact ⟨hpreserve, hstack⟩
      | cons t ts =>
          have ih' : ∀ rest : List Pdjson.Token, rest.length ≤ ts.length →
              (∀ d, ArraySpec p errmsg e d rest) ∧ ∀ d, ObjectSpec p errmsg e d rest := by
            intro rest hle
            refine ih rest.length ?_ rest rfl
            rw [← hn, List.length_cons]
            exact Nat.lt_succ_of_le hle
          have hvalue : ∀ (d : ℕ) (t' : Pdjson.Token) (rest : List Pdjson.Token), rest.length ≤ ts.length →
              ValueSpec p errmsg e d t' rest := fun d t' rest hle => valueSpec (ih' rest hle).1 (ih' rest hle).2 d t'
          exact ⟨fun d => arraySpec_cons (hvalue d t ts le_rfl) fun rest hle => (ih' rest hle).1 d,
            fun d => objectSpec_cons (fun rest hle => (ih' rest hle).2 d) (hvalue d)⟩

end ParserImpl

end Poco.JSON.Parser
