import Poco.MongoDB.TopologyDescription

/-! # The primary of a replica set

A response changes only the server that it comes from, so that a server that was the primary stays one until it
answers again.  Topology and reports agree in every state of a run exactly if no server reports itself as the
primary while another one still is, and no standalone server comes before the primary (`agreed_iff`). -/

namespace Poco.MongoDB

open Poco.Lib Poco.Foundation ServerDescription

namespace TopologyDescription

variable {Address : Type} [LinearOrder Address]

/-- The type of a server; a server that is not in the topology is unknown. -/
def typeOf (t : TopologyDescription Address) (a : Address) : ServerType := ((t._servers.find? a).getD {})._type

/-- The server that has reported itself as the writable primary, after a call. -/
def Call.report : Call Address → Option Address → Option Address
  | .updateServer _ address helloResponse _, reporter =>
      if parseServerType helloResponse = .rsPrimary then some address else reporter
  | .markServerUnknown _ _, reporter | .addServer _, reporter | .removeServer _, reporter | .setName _, reporter
  | .clear, reporter => reporter

/-- What a sequence of calls leaves. -/
def run (calls : List (Call Address)) (t : TopologyDescription Address) : TopologyDescription Address :=
  calls.foldl (fun t c => c.apply t) t

/-- The server that was the last to report itself as the writable primary. -/
def lastReporter (calls : List (Call Address)) : Option Address :=
  calls.foldl (fun reporter c => c.report reporter) none

/-- At most one server is a primary, and if there is one then `findPrimary` gives the one that reported itself. -/
structure Agreed (t : TopologyDescription Address) (reporter : Option Address) : Prop where
  atMostOne : ∀ a b, t.typeOf a = .rsPrimary → t.typeOf b = .rsPrimary → a = b
  found : ∀ a, t.typeOf a = .rsPrimary → t.findPrimary.map Prod.fst = reporter

/-- A well-formed response of a server that is in another replica set. -/
def IsRejected (t : TopologyDescription Address) (address : Address) (helloResponse : Document) : Prop :=
  isWellFormed helloResponse = true ∧
    setNameAfter helloResponse ((t._servers.find? address).getD {}) ≠ [] ∧ t._setName ≠ [] ∧
      setNameAfter helloResponse ((t._servers.find? address).getD {}) ≠ t._setName

/-- A call leaves topology and reports in agreement: a server that reports itself as the primary finds no other
primary and no standalone server before it, and a standalone server finds no primary behind it. -/
def Call.Agrees (t : TopologyDescription Address) : Call Address → Prop
  | .updateServer _ address helloResponse _ =>
      (parseServerType helloResponse = .rsPrimary →
        (∀ a, a ≠ address → t.typeOf a ≠ .rsPrimary) ∧
          (¬t.IsRejected address helloResponse → ∀ a, a ≠ address → t.typeOf a = .standalone → address < a)) ∧
      (parseServerType helloResponse = .standalone → ¬t.IsRejected address helloResponse →
        ∀ a, a ≠ address → t.typeOf a = .rsPrimary → a < address)
  | .markServerUnknown _ _ | .addServer _ | .removeServer _ | .setName _ | .clear => True

section

variable {t : TopologyDescription Address} {reporter : Option Address}

/-! ### The types after a call -/

theorem getD_tryEmplace (m : OrderedMap Address ServerDescription) (k a : Address) :
    ((m.tryEmplace k {}).find? a).getD {} = (m.find? a).getD {} := by
  rw [OrderedMap.find?_tryEmplace]
  split_ifs with h
  · rw [h, Option.getD_some]
  · rfl

theorem getD_foldl_tryEmplace (hosts : List Address) (m : OrderedMap Address ServerDescription) (a : Address) :
    ((hosts.foldl (fun servers host => servers.tryEmplace host {}) m).find? a).getD {} = (m.find? a).getD {} := by
  induction hosts generalizing m with
  | nil => rfl
  | cons host hosts ih => rw [List.foldl_cons, ih, getD_tryEmplace]

theorem getD_insert (m : OrderedMap Address ServerDescription) (k a : Address) (s : ServerDescription) :
    ((m.insert k s).find? a).getD {} = if k = a then s else (m.find? a).getD {} := by
  rw [OrderedMap.find?_insert]
  split_ifs <;> rfl

open Classical in
theorem typeOf_updateServer (resolve : List UInt8 → Option Address) (address : Address) (helloResponse : Document)
    (rttMicros : BitVec 64) (a : Address) :
    (Call.apply (.updateServer resolve address helloResponse rttMicros) t).typeOf a =
      if address = a then
        if t.IsRejected address helloResponse then .unknown else parseServerType helloResponse
      else t.typeOf a := by
  have heq := updateFromHelloResponse_eq helloResponse resolve rttMicros ((t._servers.find? address).getD {})
  rw [Call.apply, updateServer]
  cases hresult : updateFromHelloResponse resolve helloResponse rttMicros ((t._servers.find? address).getD {}) with
  | error e server =>
      rw [hresult] at heq
      have hnot : ¬t.IsRejected address helloResponse := fun h => by
        rw [IsRejected, heq.1] at h
        cases h.1
      simp only [finalState, typeOf, getD_insert, if_neg hnot]
      split_ifs
      · exact heq.2
      · rfl
  | ok hosts server =>
      rw [hresult] at heq
      obtain ⟨hwell, htype, hname⟩ := heq
      have hrejected : t.IsRejected address helloResponse ↔
          server._setName ≠ [] ∧ t._setName ≠ [] ∧ server._setName ≠ t._setName := by
        rw [IsRejected, hname]
        exact and_iff_right hwell
      dsimp only
      by_cases hmismatch : server._setName ≠ [] ∧ t._setName ≠ [] ∧ server._setName ≠ t._setName
      · rw [if_pos hmismatch, if_pos (hrejected.mpr hmismatch)]
        simp only [finalState, typeOf, updateTopologyType, getD_insert]
        split_ifs
        · rfl
        · rfl
      · rw [if_neg hmismatch, if_neg (fun h => hmismatch (hrejected.mp h))]
        simp only [finalState, typeOf, updateTopologyType, getD_foldl_tryEmplace, getD_insert]
        split_ifs
        · exact htype
        · rfl

/-- Apart from a response no call gives a server a type. -/
theorem typeOf_apply {c : Call Address} (hc : ∀ resolve address helloResponse rttMicros,
      c ≠ .updateServer resolve address helloResponse rttMicros) (a : Address) :
    (c.apply t).typeOf a = t.typeOf a ∨ (c.apply t).typeOf a = .unknown := by
  cases c with
  | updateServer resolve address helloResponse rttMicros => exact absurd rfl (hc _ _ _ _)
  | markServerUnknown address error =>
      rw [Call.apply, markServerUnknown]
      cases hfind : t._servers.find? address with
      | none => exact Or.inl rfl
      | some server =>
          simp only [typeOf, updateTopologyType, getD_insert]
          split_ifs
          · exact Or.inr rfl
          · exact Or.inl rfl
  | addServer address =>
      rw [Call.apply, addServer]
      split_ifs with hfind
      · exact Or.inl rfl
      · simp only [typeOf, updateTopologyType, getD_insert]
        split_ifs
        · exact Or.inr rfl
        · exact Or.inl rfl
  | removeServer address =>
      simp only [Call.apply, removeServer, typeOf, updateTopologyType, OrderedMap.find?_erase]
      split_ifs
      · exact Or.inr rfl
      · exact Or.inl rfl
  | setName name => exact Or.inl rfl
  | clear => exact Or.inr rfl

/-! ### Finding the primary -/

theorem isPrimary_iff (s : ServerDescription) : s.isPrimary = true ↔ s._type = .rsPrimary ∨ s._type = .standalone := by
  simp [isPrimary]

/-- `findPrimary` gives the first server that is a primary or standalone. -/
theorem findPrimary_eq_some (a : Address) :
    t.findPrimary.map Prod.fst = some a ↔ (t.typeOf a = .rsPrimary ∨ t.typeOf a = .standalone) ∧
      ∀ b, (t.typeOf b = .rsPrimary ∨ t.typeOf b = .standalone) → a ≤ b := by
  have htype : ∀ b, (t.typeOf b = .rsPrimary ∨ t.typeOf b = .standalone) ↔
      ∃ s, t._servers.find? b = some s ∧ s.isPrimary = true := by
    intro b
    rw [typeOf]
    cases t._servers.find? b with
    | none => simp
    | some s => simp [isPrimary_iff]
  rw [findPrimary, Option.map_eq_some_iff, htype]
  constructor
  · rintro ⟨⟨k, s⟩, hfind, rfl⟩
    obtain ⟨hs, hp, hle⟩ := OrderedMap.findFirst?_eq_some.mp hfind
    refine ⟨⟨s, hs, hp⟩, fun b hb => ?_⟩
    obtain ⟨s', hs', hp'⟩ := (htype b).mp hb
    exact hle b s' hs' hp'
  · rintro ⟨⟨s, hs, hp⟩, hle⟩
    exact ⟨(a, s), OrderedMap.findFirst?_eq_some.mpr ⟨hs, hp, fun b s' hs' hp' => hle b ((htype b).mpr ⟨s', hs', hp'⟩)⟩, rfl⟩

/-- **The invariant.** A primary is the last reporter, and comes before every standalone server. -/
def Good (t : TopologyDescription Address) (reporter : Option Address) : Prop :=
  ∀ a, t.typeOf a = .rsPrimary → reporter = some a ∧ ∀ b, t.typeOf b = .standalone → a < b

theorem good_create (setName : List UInt8) : Good (create setName : TopologyDescription Address) none := by
  intro a ha
  cases ha

theorem Good.agreed (h : Good t reporter) : Agreed t reporter where
  atMostOne a b ha hb := Option.some.inj ((h a ha).1.symm.trans (h b hb).1)
  found a ha := by
    rw [(h a ha).1, findPrimary_eq_some]
    refine ⟨Or.inl ha, fun b hb => ?_⟩
    rcases hb with hb | hb
    · exact (Option.some.inj ((h a ha).1.symm.trans (h b hb).1)).le
    · exact ((h a ha).2 b hb).le

/-! ### One call -/

theorem report_eq {c : Call Address} (hc : ∀ resolve address helloResponse rttMicros,
      c ≠ .updateServer resolve address helloResponse rttMicros) : c.report reporter = reporter := by
  cases c with
  | updateServer resolve address helloResponse rttMicros => exact absurd rfl (hc _ _ _ _)
  | markServerUnknown | addServer | removeServer | setName | clear => rfl

theorem Good.apply (h : Good t reporter) {c : Call Address} (hc : c.Agrees t) :
    Good (c.apply t) (c.report reporter) := by
  by_cases hother : ∀ resolve address helloResponse rttMicros,
      c ≠ .updateServer resolve address helloResponse rttMicros
  · intro a ha
    rw [report_eq hother]
    have hkeep : ∀ b τ, τ ≠ .unknown → (c.apply t).typeOf b = τ → t.typeOf b = τ := by
      intro b τ hτ hb
      rcases typeOf_apply (t := t) hother b with heq | hunknown
      · rw [← heq, hb]
      · exact absurd (hb.symm.trans hunknown) hτ
    obtain ⟨hreporter, hbefore⟩ := h a (hkeep a _ (by decide) ha)
    exact ⟨hreporter, fun b hb => hbefore b (hkeep b _ (by decide) hb)⟩
  · simp only [not_forall, not_not] at hother
    obtain ⟨resolve, address, helloResponse, rttMicros, rfl⟩ := hother
    obtain ⟨hprimary, hstandalone⟩ := hc
    intro a ha
    rw [typeOf_updateServer] at ha
    rw [Call.report]
    by_cases hself : address = a
    · -- the server itself has become the primary
      subst hself
      rw [if_pos rfl] at ha
      split_ifs at ha with hrejected
      refine ⟨if_pos ha, fun b hb => ?_⟩
      rw [typeOf_updateServer] at hb
      split_ifs at hb with hb'
      · rw [ha] at hb
        cases hb
      · exact (hprimary ha).2 hrejected b (Ne.symm hb') hb
    · -- another server was the primary before
      rw [if_neg hself] at ha
      obtain ⟨hreporter, hbefore⟩ := h a ha
      have hnot : parseServerType helloResponse ≠ .rsPrimary := fun hreport =>
        (hprimary hreport).1 a (Ne.symm hself) ha
      refine ⟨by rw [if_neg hnot, hreporter], fun b hb => ?_⟩
      rw [typeOf_updateServer] at hb
      split_ifs at hb with hb' hrejected
      · subst hb'
        exact hstandalone hb hrejected a (Ne.symm hself) ha
      · exact hbefore b hb

/-- Where topology and reports agree after a call, it was one that leaves them so. -/
theorem Good.agrees (h : Good t reporter) {c : Call Address} (hc : Agreed (c.apply t) (c.report reporter)) :
    c.Agrees t := by
  cases c with
  | markServerUnknown | addServer | removeServer | setName | clear => trivial
  | updateServer resolve address helloResponse rttMicros =>
      have hself := typeOf_updateServer (t := t) resolve address helloResponse rttMicros address
      have hrest : ∀ a, a ≠ address →
          (Call.apply (.updateServer resolve address helloResponse rttMicros) t).typeOf a = t.typeOf a := by
        intro a ha
        rw [typeOf_updateServer, if_neg (Ne.symm ha)]
      rw [if_pos rfl] at hself
      refine ⟨fun hreport => ⟨fun a ha hprimary => ?_, fun hrejected a ha hstandalone => ?_⟩,
        fun hreport hrejected a ha hprimary => ?_⟩
      · -- there would be two primaries, or the one that is found is not the reporter
        rw [← hrest a ha] at hprimary
        have hfound := hc.found a hprimary
        rw [Call.report, if_pos hreport, findPrimary_eq_some, hself] at hfound
        split_ifs at hfound with hrejected
        · rcases hfound.1 with h' | h' <;> cases h'
        · rw [if_neg hrejected, hreport] at hself
          exact ha (hc.atMostOne a address hprimary hself)
      · rw [if_neg hrejected, hreport] at hself
        have hfound := hc.found address hself
        rw [Call.report, if_pos hreport, findPrimary_eq_some] at hfound
        rw [← hrest a ha] at hstandalone
        exact lt_of_le_of_ne (hfound.2 a (Or.inr hstandalone)) (Ne.symm ha)
      · rw [if_neg hrejected, hreport] at hself
        have hreporter := (h a hprimary).1
        rw [← hrest a ha] at hprimary
        have hfound := hc.found a hprimary
        rw [Call.report, if_neg (by rw [hreport]; decide), hreporter, findPrimary_eq_some] at hfound
        exact lt_of_le_of_ne (hfound.2 address (Or.inr hself)) ha

/-! ### Runs -/

theorem run_append (calls : List (Call Address)) (c : Call Address) (t : TopologyDescription Address) :
    run (calls ++ [c]) t = c.apply (run calls t) := by rw [run, List.foldl_append]; rfl

theorem lastReporter_append (calls : List (Call Address)) (c : Call Address) :
    lastReporter (calls ++ [c]) = c.report (lastReporter calls) := by rw [lastReporter, List.foldl_append]; rfl

/-- **Main result.** Topology and reports agree in every state of a run exactly if every call leaves them so. -/
theorem agreed_iff (setName : List UInt8) (calls : List (Call Address)) :
    (∀ front, front <+: calls → Agreed (run front (create setName)) (lastReporter front)) ↔
      ∀ front c, front ++ [c] <+: calls → c.Agrees (run front (create setName)) := by
  constructor
  · intro hagreed
    have hgood : ∀ front, front <+: calls → Good (run front (create setName)) (lastReporter front) := by
      intro front
      induction front using List.reverseRecOn with
      | nil => exact fun _ => good_create setName
      | append_singleton front c ih =>
          intro hfront
          have hgood := ih ((List.prefix_append front [c]).trans hfront)
          have hstep := hagreed _ hfront
          rw [run_append, lastReporter_append] at hstep ⊢
          exact hgood.apply (hgood.agrees hstep)
    intro front c hfront
    have hstep := hagreed _ hfront
    rw [run_append, lastReporter_append] at hstep
    exact (hgood front ((List.prefix_append front [c]).trans hfront)).agrees hstep
  · intro hagrees front hfront
    suffices hgood : Good (run front (create setName)) (lastReporter front) from hgood.agreed
    induction front using List.reverseRecOn with
    | nil => exact good_create setName
    | append_singleton front c ih =>
        rw [run_append, lastReporter_append]
        exact (ih ((List.prefix_append front [c]).trans hfront)).apply (hagrees front c hfront)

/-- The response of the primary of a replica set. -/
def primaryResponse : Document :=
  [(Document.key "setName", .string (Document.key "rs")), (Document.key "isWritablePrimary", .bool true)]

/-- Two servers report themselves one after the other, and both stay primaries. -/
theorem not_agreed_failover :
    let calls : List (Call ℕ) := [.updateServer (fun _ => none) 1 primaryResponse 0,
      .updateServer (fun _ => none) 2 primaryResponse 0]
    ¬Agreed (run calls (create [])) (lastReporter calls) := by
  intro calls h
  have htwo := h.atMostOne 1 2 (by decide) (by decide)
  cases htwo

end

end TopologyDescription

end Poco.MongoDB
