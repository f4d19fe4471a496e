import Poco.MongoDB.ServerDescription

/-! # What a server keeps of its past

Each part of `updateFromHelloResponse` replaces an attribute by what the response says, or throws.  The name of
the replica set alone is not touched by a response that has none, and what comes behind an element of the
wrong type is not touched either (`independent_iff`). -/

namespace Poco.MongoDB

open Poco.Lib Poco.Foundation

namespace ServerDescription

open Document

/-- The type, set name, last write date, tags and error state. -/
def attributes (s : ServerDescription) : ServerType × List UInt8 × BitVec 64 × Document × Bool × List UInt8 :=
  (s._type, s._setName, s._lastWriteDate, s._tags, s._hasError, s._error)

/-- A call on a description. -/
inductive Call
  | updateFromHelloResponse {Address : Type} (resolve : List UInt8 → Option Address) (helloResponse : Document)
      (rttMicros : BitVec 64)
  | markError (errorMessage : List UInt8)

/-- The state after a call, also if it throws. -/
def Call.apply (s : ServerDescription) : Call → ServerDescription
  | .updateFromHelloResponse resolve helloResponse rttMicros =>
      finalState (ServerDescription.updateFromHelloResponse resolve helloResponse rttMicros s)
  | .markError errorMessage => s.markError errorMessage

/-- The state of a description after some calls. -/
def run (calls : List Call) : ServerDescription := calls.foldl Call.apply {}

/-- A response has the same result and leaves the same attributes as for a new description. -/
def Independent {Address : Type} (resolve : List UInt8 → Option Address) (doc : Document) (rttMicros : BitVec 64)
    (s : ServerDescription) : Prop :=
  match updateFromHelloResponse resolve doc rttMicros s, updateFromHelloResponse resolve doc rttMicros {} with
  | .ok hosts t, .ok hosts' t' => hosts = hosts' ∧ t.attributes = t'.attributes
  | .error e t, .error e' t' => e = e' ∧ t.attributes = t'.attributes
  | _, _ => False

/-- The arrays of hosts are arrays. -/
def hostsFit (doc : Document) : Bool :=
  fits Value.asArray doc "hosts" && (fits Value.asArray doc "passives" && fits Value.asArray doc "arbiters")

/-- Where the response leaves an attribute alone, it is that of a new description. -/
structure Forgotten (doc : Document) (s : ServerDescription) : Prop where
  setName : ¬(doc.hasElement (key "setName") = true ∧ fits Value.asString doc "setName" = true) → s._setName = []
  lastWriteDate : ¬fits Value.asString doc "setName" = true → s._lastWriteDate = 0
  tags : ¬(fits Value.asString doc "setName" = true ∧ lastWriteFits doc = true ∧ hostsFit doc = true) → s._tags = []

/-! ### The parts of an update -/

section

variable {α : Type} (doc : Document)

theorem getElement_eq {convert : Value → Option α} {name : String} (h : doc.hasElement (key name) = true) :
    (∃ a, fits convert doc name = true ∧ doc.get convert (key name) = .ok a ∧
        ∀ s, getElement convert doc name s = .ok a s) ∨
      (fits convert doc name = false ∧ ∀ s, getElement convert doc name s = .error .badCastException s) := by
  unfold hasElement at h
  unfold fits getElement Document.get
  cases hfind : doc.find (key name) with
  | none =>
      rw [hfind] at h
      cases h
  | some v =>
      dsimp only
      cases convert v with
      | none => exact Or.inr ⟨rfl, fun _ => rfl⟩
      | some a => exact Or.inl ⟨a, rfl, rfl, fun _ => rfl⟩

/-- The name of the replica set is that of the response, if it has one. -/
theorem parseSetName_run (s : ServerDescription) :
    parseSetName doc s =
      if fits Value.asString doc "setName" = true then .ok () { s with _setName := setNameAfter doc s }
      else .error .badCastException s := by
  unfold parseSetName
  by_cases h : doc.hasElement (key "setName") = true
  · rw [if_pos h]
    rcases @getElement_eq _ doc Value.asString "setName" h with ⟨name, hfits, hget, hrun⟩ | ⟨hfits, hrun⟩
    · rw [bind_of_ok (hrun s), if_pos hfits, setNameAfter, getOr, hget]
      rfl
    · rw [bind_of_error (hrun s), hfits]
      rfl
  · have hfits := fits_of_not_hasElement Value.asString doc "setName" h
    have hfind : doc.find (key "setName") = none := by
      rwa [hasElement, Option.isSome_iff_ne_none, not_not] at h
    rw [if_neg h, if_pos hfits, setNameAfter, getOr, Document.get, hfind]
    rfl

/-- A document or a date of the response, or none of it. -/
theorem getElement_cases (convert : Value → Option α) (name : String) :
    (¬doc.hasElement (key name) = true ∧ fits convert doc name = true) ∨
      doc.hasElement (key name) = true ∧
        ((∃ a, fits convert doc name = true ∧ doc.get convert (key name) = .ok a ∧
            ∀ s, getElement convert doc name s = .ok a s) ∨
          (fits convert doc name = false ∧ ∀ s, getElement convert doc name s = .error .badCastException s)) := by
  by_cases h : doc.hasElement (key name) = true
  · exact Or.inr ⟨h, getElement_eq doc h⟩
  · exact Or.inl ⟨h, fits_of_not_hasElement convert doc name h⟩

theorem lastWriteFits_eq {lastWrite : Document} (h : doc.get Value.asDocument (key "lastWrite") = .ok lastWrite) :
    lastWriteFits doc = fits Value.asTimestamp lastWrite "lastWriteDate" := by
  unfold Document.get at h
  unfold lastWriteFits
  cases hfind : doc.find (key "lastWrite") with
  | none =>
      rw [hfind] at h
      cases h
  | some v =>
      rw [hfind] at h
      dsimp only at h ⊢
      cases hv : v.asDocument with
      | none =>
          rw [hv] at h
          cases h
      | some d =>
          rw [hv] at h
          cases h
          rfl

theorem lastWriteFits_of_not_fits (h : fits Value.asDocument doc "lastWrite" = false) : lastWriteFits doc = false := by
  unfold fits at h
  unfold lastWriteFits
  cases hfind : doc.find (key "lastWrite") with
  | none =>
      rw [hfind] at h
      cases h
  | some v =>
      rw [hfind] at h
      dsimp only at h ⊢
      cases hv : v.asDocument with
      | none => rfl
      | some d =>
          rw [hv] at h
          cases h

/-- The date is that of the response, if the update goes on. -/
theorem parseLastWrite_run :
    (∃ date, lastWriteFits doc = true ∧ ∀ s, parseLastWrite doc s = .ok () { s with _lastWriteDate := date }) ∨
      (lastWriteFits doc = false ∧
        ∀ s, parseLastWrite doc s = .error .badCastException { s with _lastWriteDate := 0 }) := by
  -- the date is cleared first
  have hclear : ∀ s, parseLastWrite doc s = (if doc.hasElement (key "lastWrite") = true then
      getElement Value.asDocument doc "lastWrite" >>= fun lastWrite =>
        if Document.hasElement lastWrite (key "lastWriteDate") = true then
          getElement Value.asTimestamp lastWrite "lastWriteDate" >>= fun lwDate =>
            modify fun s : ServerDescription => { s with _lastWriteDate := lwDate }
        else pure ()
      else pure ()) { s with _lastWriteDate := 0 } := fun _ => rfl
  rcases getElement_cases doc Value.asDocument "lastWrite" with ⟨h, hfits⟩ | ⟨h, ⟨lastWrite, hfits, hget, hrun⟩ | ⟨hfits, hrun⟩⟩
  · refine Or.inl ⟨0, ?_, fun s => ?_⟩
    · rw [lastWriteFits]
      rw [hasElement, Option.isSome_iff_ne_none, not_not] at h
      rw [h]
    · rw [hclear, if_neg h]
      rfl
  · rw [lastWriteFits_eq doc hget]
    rcases getElement_cases lastWrite Value.asTimestamp "lastWriteDate" with
      ⟨hd, hdfits⟩ | ⟨hd, ⟨date, hdfits, -, hdrun⟩ | ⟨hdfits, hdrun⟩⟩
    · refine Or.inl ⟨0, hdfits, fun s => ?_⟩
      rw [hclear, if_pos h, bind_of_ok (hrun _), if_neg hd]
      rfl
    · refine Or.inl ⟨date, hdfits, fun s => ?_⟩
      rw [hclear, if_pos h, bind_of_ok (hrun _), if_pos hd, bind_of_ok (hdrun _)]
      rfl
    · refine Or.inr ⟨hdfits, fun s => ?_⟩
      rw [hclear, if_pos h, bind_of_ok (hrun _), if_pos hd, bind_of_error (hdrun _)]
  · refine Or.inr ⟨lastWriteFits_of_not_fits doc hfits, fun s => ?_⟩
    rw [hclear, if_pos h, bind_of_error (hrun _)]

theorem parseTags_run :
    (∃ tags, ∀ s, parseTags doc s = .ok () { s with _tags := tags }) ∨
      ∀ s, parseTags doc s = .error .badCastException { s with _tags := [] } := by
  have hclear : ∀ s, parseTags doc s = (if doc.hasElement (key "tags") = true then
      getElement Value.asDocument doc "tags" >>= fun tagsDoc =>
        modify fun s : ServerDescription => { s with _tags := tagsDoc }
      else pure ()) { s with _tags := [] } := fun _ => rfl
  rcases getElement_cases doc Value.asDocument "tags" with ⟨h, -⟩ | ⟨h, ⟨tags, -, -, hrun⟩ | ⟨-, hrun⟩⟩
  · refine Or.inl ⟨[], fun s => ?_⟩
    rw [hclear, if_neg h]
    rfl
  · refine Or.inl ⟨tags, fun s => ?_⟩
    rw [hclear, if_pos h, bind_of_ok (hrun _)]
    rfl
  · refine Or.inr fun s => ?_
    rw [hclear, if_pos h, bind_of_error (hrun _)]

section

variable {Address : Type} (resolve : List UInt8 → Option Address)

theorem parseHostArray_run (name : String) :
    (∃ hosts, fits Value.asArray doc name = true ∧ ∀ s, parseHostArray resolve doc name s = .ok hosts s) ∨
      (fits Value.asArray doc name = false ∧ ∀ s, parseHostArray resolve doc name s = .error .badCastException s) := by
  unfold parseHostArray
  rcases getElement_cases doc Value.asArray name with ⟨h, hfits⟩ | ⟨h, ⟨array, hfits, -, hrun⟩ | ⟨hfits, hrun⟩⟩
  · refine Or.inl ⟨[], hfits, fun s => ?_⟩
    rw [if_neg h]
    rfl
  · rw [if_pos h]
    exact Or.inl ⟨_, hfits, fun s => bind_of_ok (hrun s)⟩
  · refine Or.inr ⟨hfits, fun s => ?_⟩
    rw [if_pos h, bind_of_error (hrun _)]

theorem parseHosts_run :
    (∃ hosts, hostsFit doc = true ∧ ∀ s, parseHosts resolve doc s = .ok hosts s) ∨
      (hostsFit doc = false ∧ ∀ s, parseHosts resolve doc s = .error .badCastException s) := by
  unfold parseHosts hostsFit
  rcases parseHostArray_run doc resolve "hosts" with ⟨hosts, hfits, hrun⟩ | ⟨hfits, hrun⟩
  · rcases parseHostArray_run doc resolve "passives" with ⟨passives, hfits', hrun'⟩ | ⟨hfits', hrun'⟩
    · rcases parseHostArray_run doc resolve "arbiters" with ⟨arbiters, hfits'', hrun''⟩ | ⟨hfits'', hrun''⟩
      · refine Or.inl ⟨hosts ++ passives ++ arbiters, by rw [hfits, hfits', hfits'']; rfl, fun s => ?_⟩
        rw [bind_of_ok (hrun s), bind_of_ok (hrun' s), bind_of_ok (hrun'' s)]
        rfl
      · refine Or.inr ⟨by rw [hfits, hfits', hfits'']; rfl, fun s => ?_⟩
        rw [bind_of_ok (hrun s), bind_of_ok (hrun' s), bind_of_error (hrun'' s)]
    · refine Or.inr ⟨by rw [hfits, hfits']; rfl, fun s => ?_⟩
      rw [bind_of_ok (hrun s), bind_of_error (hrun' s)]
  · refine Or.inr ⟨by rw [hfits]; rfl, fun s => ?_⟩
    rw [bind_of_error (hrun s)]

end

end

/-! ### A whole update -/

section

variable {Address : Type} (resolve : List UInt8 → Option Address) (doc : Document) (rttMicros : BitVec 64)

/-- The state in front of the name of the replica set. -/
def started (s : ServerDescription) : ServerDescription :=
  { s with _roundTripTime := rttMicros, _hasError := false, _error := [], _type := parseServerType doc }

theorem update_eq (s : ServerDescription) :
    updateFromHelloResponse resolve doc rttMicros s =
      (parseSetName doc >>= fun _ => parseLastWrite doc >>= fun _ => parseHosts resolve doc >>= fun hosts =>
        parseTags doc >>= fun _ => pure hosts) (started doc rttMicros s) := rfl

theorem setNameAfter_started (s : ServerDescription) : setNameAfter doc (started doc rttMicros s) = setNameAfter doc s :=
  rfl

/-- The name behind a response that fits is the one before exactly if the response has none. -/
theorem setNameAfter_cases (h : fits Value.asString doc "setName" = true) :
    (doc.hasElement (key "setName") = true ∧ ∃ name, ∀ s, setNameAfter doc s = name) ∨
      (¬doc.hasElement (key "setName") = true ∧ ∀ s, setNameAfter doc s = s._setName) := by
  rcases getElement_cases doc Value.asString "setName" with ⟨hno, -⟩ | ⟨hyes, ⟨name, -, hget, -⟩ | ⟨hfits, -⟩⟩
  · have hfind : doc.find (key "setName") = none := by
      rwa [hasElement, Option.isSome_iff_ne_none, not_not] at hno
    refine Or.inr ⟨hno, fun s => ?_⟩
    rw [setNameAfter, getOr, Document.get, hfind]
  · refine Or.inl ⟨hyes, name, fun s => ?_⟩
    rw [setNameAfter, getOr, hget]
  · rw [hfits] at h
    cases h

theorem forgotten_iff (hname : fits Value.asString doc "setName" = true) (s : ServerDescription) :
    Forgotten doc s ↔ setNameAfter doc s = setNameAfter doc {} ∧
      (¬(lastWriteFits doc = true ∧ hostsFit doc = true) → s._tags = []) := by
  have hset : (¬(doc.hasElement (key "setName") = true ∧ fits Value.asString doc "setName" = true) → s._setName = []) ↔
      setNameAfter doc s = setNameAfter doc {} := by
    rcases setNameAfter_cases doc hname with ⟨hyes, name, hafter⟩ | ⟨hno, hafter⟩
    · rw [hafter, hafter]
      exact iff_of_true (fun h => absurd ⟨hyes, hname⟩ h) rfl
    · rw [hafter, hafter]
      exact ⟨fun h => h fun hboth => hno hboth.1, fun h _ => h⟩
  rw [← hset]
  constructor
  · rintro ⟨hsetName, -, htags⟩
    exact ⟨hsetName, fun h => htags fun hall => h hall.2⟩
  · rintro ⟨hsetName, htags⟩
    exact ⟨hsetName, fun h => absurd hname h, fun h => htags fun hboth => h ⟨hname, hboth⟩⟩

/-- **One update** is independent of the past exactly if the past has been forgotten where it is not replaced. -/
theorem independent_state_iff (s : ServerDescription) :
    Independent resolve doc rttMicros s ↔ Forgotten doc s := by
  unfold Independent
  rw [update_eq, update_eq]
  by_cases hname : fits Value.asString doc "setName" = true
  · have hset : ∀ s, parseSetName doc (started doc rttMicros s) =
        .ok () { started doc rttMicros s with _setName := setNameAfter doc s } := by
      intro s
      rw [parseSetName_run, if_pos hname, setNameAfter_started]
    rw [bind_of_ok (hset s), bind_of_ok (hset {}), forgotten_iff doc hname]
    rcases parseLastWrite_run doc with ⟨date, hlast, hwrite⟩ | ⟨hlast, hwrite⟩
    · rw [bind_of_ok (hwrite _), bind_of_ok (hwrite _)]
      rcases parseHosts_run doc resolve with ⟨hosts, hfit, hhosts⟩ | ⟨hfit, hhosts⟩
      · rw [bind_of_ok (hhosts _), bind_of_ok (hhosts _)]
        rcases parseTags_run doc with ⟨tags, htags⟩ | htags
        · rw [bind_of_ok (htags _), bind_of_ok (htags _)]
          simp [attributes, started, pure, EStateM.pure, hlast, hfit]
        · rw [bind_of_error (htags _), bind_of_error (htags _)]
          simp [attributes, started, hlast, hfit]
      · rw [bind_of_error (hhosts _), bind_of_error (hhosts _)]
        simp [attributes, started, hfit]
    · rw [bind_of_error (hwrite _), bind_of_error (hwrite _)]
      simp [attributes, started, hlast]
  · have hset : ∀ s, parseSetName doc (started doc rttMicros s) = .error .badCastException (started doc rttMicros s) := by
      intro s
      rw [parseSetName_run, if_neg hname]
    rw [bind_of_error (hset s), bind_of_error (hset {})]
    constructor
    · rintro ⟨-, hattributes⟩
      simp only [attributes, started, Prod.mk.injEq] at hattributes
      exact ⟨fun _ => hattributes.2.1, fun _ => hattributes.2.2.1, fun _ => hattributes.2.2.2.1⟩
    · rintro ⟨hsetName, hdate, htags⟩
      refine ⟨rfl, ?_⟩
      simp only [attributes, started, hsetName fun h => hname h.2, hdate hname, htags fun h => hname h.1]

end

/-- **Main result.**  After any calls, a response has the same result and leaves the same attributes as for a new
description, exactly if the past has been forgotten where the response does not replace it. -/
theorem independent_iff (calls : List Call) {Address : Type} (resolve : List UInt8 → Option Address) (doc : Document)
    (rttMicros : BitVec 64) : Independent resolve doc rttMicros (run calls) ↔ Forgotten doc (run calls) :=
  independent_state_iff resolve doc rttMicros (run calls)

/-- A member of the replica set `"a"` that has become a standalone server. -/
theorem not_independent_standalone : ¬∀ (calls : List Call) (doc : Document),
    Independent (fun _ => none : List UInt8 → Option Unit) doc 0 (run calls) := by
  intro hall
  have hforgotten := (independent_state_iff _ _ _ _).mp (hall
    [.updateFromHelloResponse (fun _ => none : List UInt8 → Option Unit) [(key "setName", .string [0x61])] 0] [])
  exact absurd (hforgotten.setName (by decide)) (by decide)

end ServerDescription

end Poco.MongoDB
