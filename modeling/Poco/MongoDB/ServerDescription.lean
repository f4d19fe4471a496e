import Poco.Lib.Streams
import Poco.Foundation.NumberFormatter
import Poco.MongoDB.Document

/-! # Servers

What a topology knows of a server, and how the server's response to a `hello` command changes it.  A response
is a document; an element of the wrong type throws, and leaves what has been changed until then
(`updateFromHelloResponse_eq`).

Pointers in a document are not null.  An address stands for a `SocketAddress`, and `resolve` for the
constructor that makes one from the name of a host, which may throw.  The time of the last update is left out,
as nothing here reads it. -/

namespace Poco.MongoDB

open Poco.Lib Poco.Foundation

/-! ### Elements of a document -/

namespace Document

/-- The exceptions of `get`. -/
inductive Exn
  | notFoundException (name : List UInt8)
  | badCastException
deriving DecidableEq, Repr

/-- A name in the source. -/
def key (name : String) : List UInt8 := name.toList.map Char.toUInt8

variable {α : Type}

/-- `get(name)`: the first element of the name. -/
def find (d : Document) (name : List UInt8) : Option Value := (d.find? fun e => e.1 = name).map Prod.snd

/-- `exists`. -/
def hasElement (d : Document) (name : List UInt8) : Bool := (d.find name).isSome

/-- `get<T>(name)`, where `convert` gives the values of type `T`. -/
def get (convert : Value → Option α) (d : Document) (name : List UInt8) : Except Exn α :=
  match d.find name with
  | none => .error (.notFoundException name)
  | some v =>
    match convert v with
    | some a => .ok a
    | none => .error .badCastException

/-- `get<T>(name, def)`. -/
def getOr (convert : Value → Option α) (d : Document) (name : List UInt8) (deflt : α) : α :=
  match d.get convert name with
  | .ok a => a
  | .error _ => deflt

end Document

namespace Value

def asString : Value → Option (List UInt8)
  | string value => some value
  | _ => none

def asBool : Value → Option Bool
  | bool value => some value
  | _ => none

def asDocument : Value → Option Document
  | document elements => some elements
  | _ => none

def asArray : Value → Option Document
  | array elements => some elements
  | _ => none

def asTimestamp : Value → Option (BitVec 64)
  | timestamp ts => some ts
  | _ => none

end Value

/-! ### Descriptions -/

/-- `ServerDescription::ServerType`. -/
inductive ServerType
  | unknown
  | standalone
  | rsPrimary
  | rsSecondary
  | rsArbiter
  | rsOther
  | rsGhost
  | mongos
deriving DecidableEq, Repr

/-- The members of `ServerDescription`; the address is the key of its entry in a topology. -/
structure ServerDescription where
  _type : ServerType := .unknown
  _lastWriteDate : BitVec 64 := 0
  _roundTripTime : BitVec 64 := BitVec.intMax 64
  _setName : List UInt8 := []
  _tags : Document := []
  _error : List UInt8 := []
  _hasError : Bool := false

namespace ServerDescription

open Document

/-- `isPrimary`. -/
def isPrimary (s : ServerDescription) : Bool := s._type = .rsPrimary || s._type = .standalone

/-- `markError`. -/
def markError (s : ServerDescription) (errorMessage : List UInt8) : ServerDescription :=
  { s with _type := .unknown, _error := errorMessage, _hasError := true }

/-- `parseServerType`: the type that a response stands for. -/
def parseServerType (doc : Document) : ServerType :=
  if !doc.hasElement (key "setName") then
    if doc.getOr Value.asString (key "msg") [] = key "isdbgrid" then .mongos else .standalone
  else if doc.getOr Value.asBool (key "isWritablePrimary") false then .rsPrimary
  else if doc.getOr Value.asBool (key "secondary") false then .rsSecondary
  else if doc.getOr Value.asBool (key "arbiterOnly") false then .rsArbiter
  else if doc.getOr Value.asBool (key "hidden") false || doc.getOr Value.asBool (key "passive") false then .rsOther
  else .rsGhost

/-- A computation on a description. -/
abbrev Update := EStateM Exn ServerDescription

/-- `helloResponse.get<T>(name)`. -/
def getElement {α : Type} (convert : Value → Option α) (doc : Document) (name : String) : Update α := fun s =>
  match doc.get convert (key name) with
  | .ok a => .ok a s
  | .error e => .error e s

/-- The part of `updateFromHelloResponse` that reads the name of the replica set. -/
def parseSetName (doc : Document) : Update Unit := do
  if doc.hasElement (key "setName") then
    let setName ← getElement Value.asString doc "setName"
    modify fun s => { s with _setName := setName }

/-- The part of `updateFromHelloResponse` that reads the date of the last write. -/
def parseLastWrite (doc : Document) : Update Unit := do
  modify fun s => { s with _lastWriteDate := 0 }
  if doc.hasElement (key "lastWrite") then
    let lastWrite ← getElement Value.asDocument doc "lastWrite"
    if Document.hasElement lastWrite (key "lastWriteDate") then
      let lwDate ← getElement Value.asTimestamp lastWrite "lastWriteDate"
      modify fun s => { s with _lastWriteDate := lwDate }

section

variable {Address : Type} (resolve : List UInt8 → Option Address)

/-- One of the arrays of `parseHosts`: the elements with the names 0, 1, ... that are strings and addresses. -/
def parseHostArray (doc : Document) (name : String) : Update (List Address) := do
  if doc.hasElement (key name) then
    let array : Document ← getElement Value.asArray doc name
    return (List.range array.length).filterMap fun i =>
      match array.get Value.asString (NumberFormatter.formatAs uint64Type i) with
      | .ok hostStr => resolve hostStr
      | .error _ => none
  else return []

/-- `parseHosts`. -/
def parseHosts (doc : Document) : Update (List Address) := do
  let hosts ← parseHostArray resolve doc "hosts"
  let passives ← parseHostArray resolve doc "passives"
  let arbiters ← parseHostArray resolve doc "arbiters"
  return hosts ++ passives ++ arbiters

/-- `parseTags`. -/
def parseTags (doc : Document) : Update Unit := do
  modify fun s => { s with _tags := [] }
  if doc.hasElement (key "tags") then
    let tagsDoc ← getElement Value.asDocument doc "tags"
    modify fun s => { s with _tags := tagsDoc }

/-- `updateFromHelloResponse`; the result are the hosts of the replica set. -/
def updateFromHelloResponse (helloResponse : Document) (rttMicros : BitVec 64) : Update (List Address) := do
  modify fun s => { s with _roundTripTime := rttMicros, _hasError := false, _error := [] }
  modify fun s => { s with _type := parseServerType helloResponse }
  parseSetName helloResponse
  parseLastWrite helloResponse
  let hosts ← parseHosts resolve helloResponse
  parseTags helloResponse
  return hosts

end

/-! ### What a response changes -/

/-- An element that is read has the right type, if it is there. -/
def fits {α : Type} (convert : Value → Option α) (doc : Document) (name : String) : Bool :=
  match doc.find (key name) with
  | none => true
  | some v => (convert v).isSome

/-- The last write has the right type, and so has its date. -/
def lastWriteFits (doc : Document) : Bool :=
  match doc.find (key "lastWrite") with
  | none => true
  | some v =>
    match v.asDocument with
    | none => false
    | some lastWrite => fits Value.asTimestamp lastWrite "lastWriteDate"

/-- The elements of a response have the right types. -/
def isWellFormed (doc : Document) : Bool :=
  fits Value.asString doc "setName" && lastWriteFits doc &&
    (fits Value.asArray doc "hosts" && (fits Value.asArray doc "passives" && fits Value.asArray doc "arbiters")) &&
    fits Value.asDocument doc "tags"

/-- The name of the replica set that a server is known to be in after a response. -/
def setNameAfter (doc : Document) (s : ServerDescription) : List UInt8 :=
  doc.getOr Value.asString (key "setName") s._setName

/-- The computation succeeds exactly if `ok`, and neither the type nor the name of the replica set changes. -/
def Leaves {α : Type} (x : Update α) (ok : Bool) : Prop :=
  ∀ s, match x s with
    | .ok _ s' => ok = true ∧ s'._type = s._type ∧ s'._setName = s._setName
    | .error _ s' => ok = false ∧ s'._type = s._type

section

variable {α β : Type} {x : Update α} {ok ok' : Bool}

theorem Leaves.bind {f : α → Update β} (hx : Leaves x ok) (hf : ∀ a, Leaves (f a) ok') :
    Leaves (x >>= f) (ok && ok') := by
  intro s
  have h := hx s
  cases hxs : x s with
  | ok a t =>
      rw [hxs] at h
      obtain ⟨hok, htype, hname⟩ := h
      have h' := hf a t
      rw [bind_of_ok hxs, hok, Bool.true_and]
      cases hfs : f a t with
      | ok b u =>
          rw [hfs] at h'
          exact ⟨h'.1, h'.2.1.trans htype, h'.2.2.trans hname⟩
      | error e u =>
          rw [hfs] at h'
          exact ⟨h'.1, h'.2.trans htype⟩
  | error e t =>
      rw [hxs] at h
      rw [bind_of_error hxs, h.1, Bool.false_and]
      exact ⟨rfl, h.2⟩

theorem leaves_pure (a : α) : Leaves (pure a) true := fun _ => ⟨rfl, rfl, rfl⟩

theorem leaves_modify {f : ServerDescription → ServerDescription} (htype : ∀ s, (f s)._type = s._type)
    (hname : ∀ s, (f s)._setName = s._setName) : Leaves (modify f) true := fun s => ⟨rfl, htype s, hname s⟩

variable (convert : Value → Option α) (doc : Document) (name : String)

theorem leaves_getElement (h : doc.hasElement (key name) = true) :
    Leaves (getElement convert doc name) (fits convert doc name) := by
  intro s
  rw [getElement, fits, Document.get]
  rw [hasElement] at h
  cases hfind : doc.find (key name) with
  | none =>
      rw [hfind] at h
      cases h
  | some v =>
      dsimp only
      cases convert v with
      | none => exact ⟨rfl, rfl⟩
      | some a => exact ⟨rfl, rfl, rfl⟩

theorem fits_of_not_hasElement (h : ¬doc.hasElement (key name) = true) : fits convert doc name = true := by
  rw [hasElement, Option.isSome_iff_ne_none, not_not] at h
  rw [fits, h]

theorem leaves_optional {f : α → Update β} {y : Update β}
    (hf : ∀ a, Leaves (f a) true) (hy : Leaves y true) :
    Leaves (if doc.hasElement (key name) = true then getElement convert doc name >>= f else y)
      (fits convert doc name) := by
  split_ifs with h
  · have hbind := (leaves_getElement convert doc name h).bind hf
    rwa [Bool.and_true] at hbind
  · rwa [fits_of_not_hasElement convert doc name h]

theorem leaves_parseHostArray {Address : Type} (resolve : List UInt8 → Option Address) :
    Leaves (parseHostArray resolve doc name) (fits Value.asArray doc name) :=
  leaves_optional Value.asArray doc name (fun _ => leaves_pure _) (leaves_pure _)

theorem leaves_parseHosts {Address : Type} (resolve : List UInt8 → Option Address) :
    Leaves (parseHosts resolve doc)
      (fits Value.asArray doc "hosts" && (fits Value.asArray doc "passives" && fits Value.asArray doc "arbiters")) := by
  refine (leaves_parseHostArray doc "hosts" resolve).bind fun hosts => ?_
  refine (leaves_parseHostArray doc "passives" resolve).bind fun passives => ?_
  have hbind := (leaves_parseHostArray doc "arbiters" resolve).bind fun arbiters =>
    leaves_pure (hosts ++ passives ++ arbiters)
  rwa [Bool.and_true] at hbind

theorem leaves_parseTags : Leaves (parseTags doc) (fits Value.asDocument doc "tags") := by
  have hclear : Leaves (modify fun s : ServerDescription => { s with _tags := [] }) true :=
    leaves_modify (fun _ => rfl) fun _ => rfl
  have htags := hclear.bind fun _ => leaves_optional Value.asDocument doc "tags"
    (fun tagsDoc => (leaves_modify (fun _ => rfl) fun _ => rfl :
      Leaves (modify fun s : ServerDescription => { s with _tags := tagsDoc }) true)) (leaves_pure ())
  rw [Bool.true_and] at htags
  exact htags

theorem leaves_parseLastWrite : Leaves (parseLastWrite doc) (lastWriteFits doc) := by
  have hclear : Leaves (modify fun s : ServerDescription => { s with _lastWriteDate := 0 }) true :=
    leaves_modify (fun _ => rfl) fun _ => rfl
  have hdate : ∀ lastWrite : Document, Leaves (if lastWrite.hasElement (key "lastWriteDate") = true then
      getElement Value.asTimestamp lastWrite "lastWriteDate" >>= fun lwDate =>
        modify fun s : ServerDescription => { s with _lastWriteDate := lwDate }
      else pure ()) (fits Value.asTimestamp lastWrite "lastWriteDate") := fun lastWrite =>
    leaves_optional Value.asTimestamp lastWrite "lastWriteDate"
      (fun _ => leaves_modify (fun _ => rfl) fun _ => rfl) (leaves_pure ())
  have hrest : Leaves (if doc.hasElement (key "lastWrite") = true then
      getElement Value.asDocument doc "lastWrite" >>= fun lastWrite =>
        if Document.hasElement lastWrite (key "lastWriteDate") = true then
          getElement Value.asTimestamp lastWrite "lastWriteDate" >>= fun lwDate =>
            modify fun s : ServerDescription => { s with _lastWriteDate := lwDate }
        else pure ()
      else pure ()) (lastWriteFits doc) := by
    intro s
    rw [hasElement]
    cases hfind : doc.find (key "lastWrite") with
    | none => exact ⟨by rw [lastWriteFits, hfind], rfl, rfl⟩
    | some v =>
        rw [Option.isSome_some, if_pos rfl]
        cases hv : v.asDocument with
        | none =>
            have herror : getElement Value.asDocument doc "lastWrite" s = .error .badCastException s := by
              simp only [getElement, Document.get, hfind, hv]
            rw [bind_of_error herror]
            exact ⟨by simp only [lastWriteFits, hfind, hv], rfl⟩
        | some lastWrite =>
            have hok : getElement Value.asDocument doc "lastWrite" s = .ok lastWrite s := by
              simp only [getElement, Document.get, hfind, hv]
            have hfits : lastWriteFits doc = fits Value.asTimestamp lastWrite "lastWriteDate" := by
              simp only [lastWriteFits, hfind, hv]
            rw [bind_of_ok hok, hfits]
            exact hdate lastWrite s
  have hbind := hclear.bind fun _ => hrest
  rw [Bool.true_and] at hbind
  exact hbind

theorem parseSetName_eq (s : ServerDescription) :
    match parseSetName doc s with
    | .ok _ s' => fits Value.asString doc "setName" = true ∧ s'._type = s._type ∧ s'._setName = setNameAfter doc s
    | .error _ s' => fits Value.asString doc "setName" = false ∧ s'._type = s._type := by
  rw [parseSetName, hasElement]
  cases hfind : doc.find (key "setName") with
  | none => exact ⟨by rw [fits, hfind], rfl, by simp only [setNameAfter, getOr, Document.get, hfind]⟩
  | some v =>
      rw [Option.isSome_some, if_pos rfl]
      cases hv : v.asString with
      | none =>
          have herror : getElement Value.asString doc "setName" s = .error .badCastException s := by
            simp only [getElement, Document.get, hfind, hv]
          rw [bind_of_error herror]
          exact ⟨by simp only [fits, hfind, hv, Option.isSome_none], rfl⟩
      | some name =>
          have hok : getElement Value.asString doc "setName" s = .ok name s := by
            simp only [getElement, Document.get, hfind, hv]
          rw [bind_of_ok hok]
          exact ⟨by simp only [fits, hfind, hv, Option.isSome_some], rfl,
            by simp only [setNameAfter, getOr, Document.get, hfind, hv]⟩

/-- A response succeeds exactly if its elements have the right types.  The type of the server is that of the
response in either case. -/
theorem updateFromHelloResponse_eq {Address : Type} (resolve : List UInt8 → Option Address) (rttMicros : BitVec 64)
    (s : ServerDescription) :
    match updateFromHelloResponse resolve doc rttMicros s with
    | .ok _ s' => isWellFormed doc = true ∧ s'._type = parseServerType doc ∧ s'._setName = setNameAfter doc s
    | .error _ s' => isWellFormed doc = false ∧ s'._type = parseServerType doc := by
  have hrest : Leaves (parseLastWrite doc >>= fun _ => parseHosts resolve doc >>= fun hosts =>
      parseTags doc >>= fun _ => pure hosts) (lastWriteFits doc && ((fits Value.asArray doc "hosts" &&
        (fits Value.asArray doc "passives" && fits Value.asArray doc "arbiters")) && (fits Value.asDocument doc "tags" && true))) :=
    (leaves_parseLastWrite doc).bind fun _ => (leaves_parseHosts doc resolve).bind fun hosts =>
      (leaves_parseTags doc).bind fun _ => leaves_pure hosts
  rw [Bool.and_true] at hrest
  have hname := parseSetName_eq doc { s with
    _roundTripTime := rttMicros, _hasError := false, _error := [], _type := parseServerType doc }
  have hupdate : updateFromHelloResponse resolve doc rttMicros s =
      (parseSetName doc >>= fun _ => parseLastWrite doc >>= fun _ => parseHosts resolve doc >>= fun hosts =>
        parseTags doc >>= fun _ => pure hosts) { s with
          _roundTripTime := rttMicros, _hasError := false, _error := [], _type := parseServerType doc } := rfl
  rw [hupdate, isWellFormed, Bool.and_assoc, Bool.and_assoc]
  cases hparse : parseSetName doc { s with
      _roundTripTime := rttMicros, _hasError := false, _error := [], _type := parseServerType doc } with
  | ok a t =>
      rw [hparse] at hname
      obtain ⟨hfits, htype, hset⟩ := hname
      have hleaves := hrest t
      rw [bind_of_ok hparse, hfits, Bool.true_and]
      generalize (parseLastWrite doc >>= fun _ => parseHosts resolve doc >>= fun hosts =>
        parseTags doc >>= fun _ => pure hosts) t = result at hleaves ⊢
      cases result with
      | ok hosts u => exact ⟨hleaves.1, hleaves.2.1.trans htype, hleaves.2.2.trans hset⟩
      | error e u => exact ⟨hleaves.1, hleaves.2.trans htype⟩
  | error e t =>
      rw [hparse] at hname
      rw [bind_of_error hparse, hname.1, Bool.false_and]
      exact ⟨rfl, hname.2⟩

end

end ServerDescription

end Poco.MongoDB
