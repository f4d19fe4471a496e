import Poco.Lib.OrderedMap
import Poco.MongoDB.ServerDescription

/-! # Topologies

The servers of a replica set or a cluster, by their addresses, and the type of the topology, which is kept
beside them and computed anew by most of the operations.  `setName` does not, nor does `updateServer` when the
response throws after the type of its server has changed; apart from these the type is always that of the
servers (`reached_isClassified`).

A call that throws leaves what it has changed until then. -/

namespace Poco.MongoDB

open Poco.Lib Poco.Foundation ServerDescription

/-- `TopologyDescription::TopologyType`. -/
inductive TopologyType
  | unknown
  | single
  | replicaSetNoPrimary
  | replicaSetWithPrimary
  | sharded
deriving DecidableEq, Repr

/-- The members of `TopologyDescription`. -/
structure TopologyDescription (Address : Type) [LinearOrder Address] where
  _type : TopologyType
  _setName : List UInt8
  _servers : OrderedMap Address ServerDescription

namespace TopologyDescription

variable {Address : Type} [LinearOrder Address]

/-- `TopologyDescription(setName)`; without a name for an empty one. -/
def create (setName : List UInt8) : TopologyDescription Address :=
  { _type := .unknown, _setName := setName, _servers := OrderedMap.empty }

/-- What `updateTopologyType` makes of the servers and the name of the set. -/
def topologyType (servers : OrderedMap Address ServerDescription) (setName : List UInt8) : TopologyType :=
  if servers.entries = [] then .unknown
  else
    let primaries := servers.entries.countP fun e => e.2._type = .rsPrimary
    let otherRsMembers := servers.entries.countP fun e =>
      e.2._type = .rsSecondary || e.2._type = .rsArbiter || e.2._type = .rsOther || e.2._type = .rsGhost
    let mongosCount := servers.entries.countP fun e => e.2._type = .mongos
    let standaloneCount := servers.entries.countP fun e => e.2._type = .standalone
    if mongosCount > 0 ∧ (primaries > 0 ∨ otherRsMembers > 0) then .unknown
    else if standaloneCount > 0 ∧ (primaries > 0 ∨ otherRsMembers > 0 ∨ mongosCount > 0) then .unknown
    else if standaloneCount > 1 then .unknown
    else if mongosCount > 0 then .sharded
    else if standaloneCount = 1 ∧ servers.entries.length = 1 then .single
    else if primaries > 0 then .replicaSetWithPrimary
    else if otherRsMembers > 0 ∨ setName ≠ [] then .replicaSetNoPrimary
    else .unknown

/-- `updateTopologyType`. -/
def updateTopologyType (t : TopologyDescription Address) : TopologyDescription Address :=
  { t with _type := topologyType t._servers t._setName }

/-- The error of a server whose set has another name. -/
def mismatchError (setName serverSetName : List UInt8) : List UInt8 :=
  Document.key "Replica set name mismatch: expected '" ++ setName ++ Document.key "', but server reports '" ++
    serverSetName ++ Document.key "'"

/-- `updateServer`. -/
def updateServer (resolve : List UInt8 → Option Address) (address : Address) (helloResponse : Document)
    (rttMicros : BitVec 64) : EStateM Document.Exn (TopologyDescription Address) ServerDescription := fun t =>
  let server := (t._servers.find? address).getD {}
  match updateFromHelloResponse resolve helloResponse rttMicros server with
  | .error e server => .error e { t with _servers := t._servers.insert address server }
  | .ok hosts server =>
    if server._setName ≠ [] ∧ t._setName ≠ [] ∧ server._setName ≠ t._setName then
      let server := server.markError (mismatchError t._setName server._setName)
      .ok server (updateTopologyType { t with _servers := t._servers.insert address server })
    else
      let setName := if t._setName = [] ∧ server._setName ≠ [] then server._setName else t._setName
      let servers := hosts.foldl (fun servers host => servers.tryEmplace host {}) (t._servers.insert address server)
      .ok server (updateTopologyType { t with _setName := setName, _servers := servers })

/-- `markServerUnknown`. -/
def markServerUnknown (address : Address) (error : List UInt8) (t : TopologyDescription Address) :
    TopologyDescription Address :=
  match t._servers.find? address with
  | some server => updateTopologyType { t with _servers := t._servers.insert address (server.markError error) }
  | none => t

/-- `addServer`. -/
def addServer (address : Address) (t : TopologyDescription Address) : TopologyDescription Address :=
  if (t._servers.find? address).isSome then t
  else updateTopologyType { t with _servers := t._servers.insert address {} }

/-- `removeServer`. -/
def removeServer (address : Address) (t : TopologyDescription Address) : TopologyDescription Address :=
  updateTopologyType { t with _servers := t._servers.erase address }

/-- `setName(name)`. -/
def setName (name : List UInt8) (t : TopologyDescription Address) : TopologyDescription Address :=
  { t with _setName := name }

/-- `clear`. -/
def clear (t : TopologyDescription Address) : TopologyDescription Address :=
  { t with _type := .unknown, _servers := OrderedMap.empty }

/-- Copy assignment, and move assignment for the object that is assigned to. -/
def assign (_t other : TopologyDescription Address) : TopologyDescription Address :=
  { _type := other._type, _setName := other._setName, _servers := other._servers }

/-- `findPrimary`, with the address; `none` is the description that it makes up if there is no primary. -/
def findPrimary (t : TopologyDescription Address) : Option (Address × ServerDescription) :=
  t._servers.findFirst? ServerDescription.isPrimary

/-! ### Calls -/

/-- A call of a function that changes a topology. -/
inductive Call (Address : Type) [LinearOrder Address]
  | updateServer (resolve : List UInt8 → Option Address) (address : Address) (helloResponse : Document)
      (rttMicros : BitVec 64)
  | markServerUnknown (address : Address) (error : List UInt8)
  | addServer (address : Address)
  | removeServer (address : Address)
  | setName (name : List UInt8)
  | clear

/-- What a call leaves, also if it throws. -/
def Call.apply : Call Address → TopologyDescription Address → TopologyDescription Address
  | .updateServer resolve address helloResponse rttMicros, t =>
      finalState (TopologyDescription.updateServer resolve address helloResponse rttMicros t)
  | .markServerUnknown address error, t => t.markServerUnknown address error
  | .addServer address, t => t.addServer address
  | .removeServer address, t => t.removeServer address
  | .setName name, t => t.setName name
  | .clear, t => t.clear

/-! ### The type of a topology -/

/-- The type is that of the servers. -/
def IsClassified (t : TopologyDescription Address) : Prop := t._type = topologyType t._servers t._setName

/-- Only the name of the set decides whether there is a replica set: there are servers, all are unknown except
perhaps one standalone server among them. -/
def NameDecides (servers : OrderedMap Address ServerDescription) : Prop :=
  servers.entries ≠ [] ∧
    (∀ e ∈ servers.entries, e.2._type = .unknown ∨ e.2._type = .standalone) ∧
    (servers.entries.countP fun e => e.2._type = .standalone) ≤ 1 ∧
    ¬((servers.entries.countP fun e => e.2._type = .standalone) = 1 ∧ servers.entries.length = 1)

/-- A call leaves the type right: a name that decides is not given or taken away, and a response of the wrong
form does not change the classification of the servers. -/
def Call.KeepsType (t : TopologyDescription Address) : Call Address → Prop
  | .setName name => NameDecides t._servers → (name = [] ↔ t._setName = [])
  | .updateServer _ address helloResponse _ =>
      isWellFormed helloResponse = false →
        topologyType (t._servers.insert address { _type := parseServerType helloResponse }) t._setName =
          topologyType t._servers t._setName
  | .markServerUnknown _ _ | .addServer _ | .removeServer _ | .clear => True

/-- The topologies that are reached by calls that leave the type right, and by assignments. -/
inductive Reached : TopologyDescription Address → Prop
  | create (setName : List UInt8) : Reached (create setName)
  | apply {t : TopologyDescription Address} (c : Call Address) (h : Reached t) (hc : c.KeepsType t) :
      Reached (c.apply t)
  | assign {t other : TopologyDescription Address} (h : Reached t) (hother : Reached other) :
      Reached (t.assign other)

section

variable {m m' : OrderedMap Address ServerDescription} {t : TopologyDescription Address}

theorem topologyType_congr (h : (m.entries.map fun e => e.2._type) = m'.entries.map fun e => e.2._type)
    (setName : List UInt8) : topologyType m setName = topologyType m' setName := by
  have hcount : ∀ p : ServerType → Bool,
      (m.entries.countP fun e => p e.2._type) = m'.entries.countP fun e => p e.2._type := by
    intro p
    have hmap := congrArg (List.countP p) h
    rw [List.countP_map, List.countP_map] at hmap
    exact hmap
  have hlength : m.entries.length = m'.entries.length := by simpa using congrArg List.length h
  have hnil : m.entries = [] ↔ m'.entries = [] := by
    rw [← List.length_eq_zero_iff, hlength, List.length_eq_zero_iff]
  simp only [topologyType, hnil, hlength, hcount (· = .rsPrimary), hcount (· = .mongos), hcount (· = .standalone),
    hcount fun type => type = .rsSecondary || type = .rsArbiter || type = .rsOther || type = .rsGhost]

theorem topologyType_insert {s s' : ServerDescription} (h : s._type = s'._type) (address : Address)
    (setName : List UInt8) :
    topologyType (m.insert address s) setName = topologyType (m.insert address s') setName := by
  refine topologyType_congr ?_ setName
  simp only [OrderedMap.insert]
  induction m.entries with
  | nil => simp [OrderedMap.insertEntry, h]
  | cons e l ih =>
      rw [OrderedMap.insertEntry, OrderedMap.insertEntry]
      split_ifs
      · simp [h]
      · simp [h]
      · rw [List.map_cons, List.map_cons, ih]

/-- Where the name decides, it gives a replica set without a primary. -/
theorem topologyType_of_nameDecides (h : NameDecides m) (setName : List UInt8) :
    topologyType m setName = if setName = [] then .unknown else .replicaSetNoPrimary := by
  obtain ⟨hne, htypes, hle, hsingle⟩ := h
  have hzero : ∀ p : ServerType → Bool, p .unknown = false → p .standalone = false →
      (m.entries.countP fun e => p e.2._type) = 0 := by
    intro p hunknown hstandalone
    rw [List.countP_eq_zero]
    intro e he
    rcases htypes e he with htype | htype <;> simp [htype, hunknown, hstandalone]
  have hprimaries := hzero (· = .rsPrimary) rfl rfl
  have hmongos := hzero (· = .mongos) rfl rfl
  have hothers := hzero (fun type => type = .rsSecondary || type = .rsArbiter || type = .rsOther || type = .rsGhost) rfl rfl
  simp only [topologyType, if_neg hne, hprimaries, hmongos, hothers, if_neg hsingle]
  by_cases hname : setName = []
  · simp [hname]
  · simp [hname, hle]

/-- Elsewhere it does not matter: a server that is neither unknown nor standalone, or the number of standalone
servers, has decided before. -/
theorem topologyType_of_not_nameDecides (h : ¬NameDecides m) (setName setName' : List UInt8) :
    topologyType m setName = topologyType m setName' := by
  have hdecides : m.entries ≠ [] →
      ¬(m.entries.countP fun e => e.2._type = .standalone) > 1 →
      ¬(m.entries.countP fun e => e.2._type = .mongos) > 0 →
      ¬((m.entries.countP fun e => e.2._type = .standalone) = 1 ∧ m.entries.length = 1) →
      ¬(m.entries.countP fun e => e.2._type = .rsPrimary) > 0 →
      ¬(m.entries.countP fun e =>
        e.2._type = .rsSecondary || e.2._type = .rsArbiter || e.2._type = .rsOther || e.2._type = .rsGhost) > 0 →
      NameDecides m := by
    intro hnil hmany hmongos hsingle hprimaries hothers
    refine ⟨hnil, fun e he => ?_, not_lt.mp hmany, hsingle⟩
    have hmongos := List.countP_eq_zero.mp (Nat.eq_zero_of_not_pos hmongos) e he
    have hprimaries := List.countP_eq_zero.mp (Nat.eq_zero_of_not_pos hprimaries) e he
    have hothers := List.countP_eq_zero.mp (Nat.eq_zero_of_not_pos hothers) e he
    cases htype : e.2._type <;> simp_all
  by_contra hne
  refine h (hdecides (fun hnil => ?_) (fun hmany => ?_) (fun hmongos => ?_) (fun hsingle => ?_) (fun hprimaries => ?_)
    fun hothers => ?_)
  · exact hne (by simp only [topologyType, if_pos hnil])
  · exact hne (by simp only [topologyType, if_pos hmany])
  · exact hne (by simp only [topologyType, if_pos hmongos])
  · exact hne (by simp only [topologyType, if_pos hsingle])
  · exact hne (by simp only [topologyType, if_pos hprimaries])
  · exact hne (by simp only [topologyType, if_pos (Or.inl hothers)])

/-- A call leaves the type right exactly if it keeps it. -/
theorem isClassified_apply_iff (h : IsClassified t) (c : Call Address) :
    IsClassified (c.apply t) ↔ c.KeepsType t := by
  have hupdate : ∀ t : TopologyDescription Address, IsClassified (updateTopologyType t) := fun _ => rfl
  cases c with
  | updateServer resolve address helloResponse rttMicros =>
      have heq := updateFromHelloResponse_eq helloResponse resolve rttMicros ((t._servers.find? address).getD {})
      rw [Call.apply, updateServer, Call.KeepsType]
      cases hresult : updateFromHelloResponse resolve helloResponse rttMicros ((t._servers.find? address).getD {}) with
      | error e server =>
          rw [hresult] at heq
          have htype : server._type = ({ _type := parseServerType helloResponse } : ServerDescription)._type := heq.2
          rw [IsClassified] at h
          simp only [finalState, IsClassified, h, heq.1, forall_const, topologyType_insert htype]
          exact eq_comm
      | ok hosts server =>
          rw [hresult] at heq
          have hright : IsClassified (finalState (updateServer resolve address helloResponse rttMicros t)) := by
            rw [updateServer, hresult]
            dsimp only
            split_ifs <;> rfl
          rw [updateServer, hresult] at hright
          simp only [hright, heq.1, true_iff]
          intro hfalse
          cases hfalse
  | markServerUnknown address error =>
      refine iff_of_true ?_ trivial
      rw [Call.apply, markServerUnknown]
      split
      · exact hupdate _
      · exact h
  | addServer address =>
      refine iff_of_true ?_ trivial
      rw [Call.apply, addServer]
      split_ifs
      · exact h
      · exact hupdate _
  | removeServer address => exact iff_of_true (hupdate _) trivial
  | setName name =>
      rw [Call.KeepsType, Call.apply, setName, IsClassified, show t._type = _ from h]
      by_cases hdecides : NameDecides t._servers
      · rw [topologyType_of_nameDecides hdecides, topologyType_of_nameDecides hdecides]
        by_cases hname : name = []
        · by_cases hold : t._setName = [] <;> simp [hname, hold, hdecides]
        · by_cases hold : t._setName = [] <;> simp [hname, hold, hdecides]
      · exact iff_of_true (topologyType_of_not_nameDecides hdecides _ _) fun hd => absurd hd hdecides
  | clear => exact iff_of_true rfl trivial

/-- **Main result.** In every topology that is reached by calls that keep the type, the type is that of the
servers, and a call that does not keep it makes it wrong at once. -/
theorem reached_isClassified (h : Reached t) (c : Call Address) :
    IsClassified t ∧ (IsClassified (c.apply t) ↔ c.KeepsType t) := by
  have hclassified : IsClassified t := by
    induction h with
    | create setName => rfl
    | apply c _ hc ih => exact (isClassified_apply_iff ih c).mpr hc
    | assign _ _ _ ih => exact ih
  exact ⟨hclassified, isClassified_apply_iff hclassified c⟩

/-- A server of a named set that does not answer. -/
theorem reached_isClassified_unknown :
    let t : TopologyDescription ℕ := (create (Document.key "rs")).addServer 1
    IsClassified t ∧ (IsClassified (t.setName []) ↔ Call.KeepsType t (.setName [])) := by
  intro t
  have hreached : Reached t := Reached.apply (.addServer 1) (Reached.create (Document.key "rs")) trivial
  exact reached_isClassified hreached (.setName [])

/-- A name that is given to the set of a server that is not yet known leaves the type as it was. -/
theorem not_isClassified_setName :
    ¬IsClassified (setName (Document.key "rs") (addServer 1 (create []) : TopologyDescription ℕ)) := by
  rw [IsClassified]
  decide

end

end TopologyDescription

end Poco.MongoDB
