import Poco.Data.SessionPool

/-! # The settings of pooled sessions

The features and properties that are set for a pool are applied to each new session and to each session that is
returned.  `get(name, value)` hands out a session with another setting and notes the former value, to restore
it when the session is returned.  It notes the value for the `PooledSessionImpl` that the client gets,
and `putBack` looks for the session that this one stands for.

A session is given by its address, which can be that of an object that is no longer there.  A setting that is requested
stays with the session unless the pool has a value for it (`handsOutNew_iff`). -/

namespace Poco.Data

open Poco.Lib

/-! ### Settings by name -/

section Family

variable {ν β : Type} [DecidableEq ν]

/-- `setFeature` or `setProperty` of a connector: it stores the value of a name that it supports, and throws
`NotSupportedException` for others. -/
def store (f : ν → Option β) (name : ν) (value : β) : Option (ν → Option β) :=
  if (f name).isSome then some (Function.update f name (some value)) else none

/-- One of the loops of `applySettings`. -/
def applyMap (entries : List (ν × β)) (f : ν → Option β) : Option (ν → Option β) :=
  entries.foldlM (fun f e => store f e.1 e.2) f

/-- `std::map::insert`, which keeps an entry that is there. -/
def insertNew (m : List (ℕ × ν × β)) (key : ℕ) (entry : ν × β) : List (ℕ × ν × β) :=
  if (m.lookup key).isSome then m else (key, entry) :: m

/-- `putBack` restores the setting that is noted for an address. -/
def restore (m : List (ℕ × ν × β)) (key : ℕ) (f : ν → Option β) : Option (ν → Option β) :=
  match m.lookup key with
  | some (name, value) => store f name value
  | none => some f

end Family

/-- The features and properties of a session. -/
structure Settings (ν α : Type) where
  features : ν → Option Bool
  properties : ν → Option α

/-- A setting that a client asks for. -/
inductive Request (ν α : Type)
  | feature (name : ν) (value : Bool)
  | property (name : ν) (value : α)

/-- What a pool is made with: the settings of a session that the connector creates, and those of the pool. -/
structure PoolConfig (ν α : Type) where
  connector : Settings ν α
  _maxSessions : ℤ
  _featureMap : List (ν × Bool)
  _propertyMap : List (ν × α)

/-- The pool, the sessions at their addresses, and the `PooledSessionImpl` objects with the sessions they
stand for. -/
structure SettingsPool (ν α : Type) where
  _nSessions : ℤ
  _idleSessions : List ℕ
  _activeSessions : List ℕ
  _addFeatureMap : List (ℕ × ν × Bool)
  _addPropertyMap : List (ℕ × ν × α)
  session : ℕ → Settings ν α
  pooled : ℕ → Option ℕ

/-- The outcome of the calls in `get()` that the pool does not decide: the addresses of the objects it makes, the
state of the idle sessions, and whether a new session can be created. -/
structure Making where
  pooled : ℕ
  session : ℕ
  health : ℕ → Health
  create : Bool

section

variable {ν α : Type}

namespace SettingsPool

/-- The constructor. -/
def init (c : PoolConfig ν α) : SettingsPool ν α where
  _nSessions := 0
  _idleSessions := []
  _activeSessions := []
  _addFeatureMap := []
  _addPropertyMap := []
  session := fun _ => c.connector
  pooled := fun _ => none

/-- An address at which there is no object. -/
def Free (s : SettingsPool ν α) (a : ℕ) : Prop :=
  s.pooled a = none ∧ a ∉ s._idleSessions ∧ a ∉ s._activeSessions

/-- New objects are at two addresses that are free. -/
def Fits (s : SettingsPool ν α) (m : Making) : Prop := s.Free m.pooled ∧ s.Free m.session ∧ m.pooled ≠ m.session

/-- An idle session goes to a new `PooledSessionImpl`. -/
def handOut (w h : ℕ) (rest : List ℕ) (s : SettingsPool ν α) : SettingsPool ν α :=
  { s with
    _idleSessions := rest
    _activeSessions := h :: s._activeSessions
    pooled := Function.update s.pooled w (some h) }

end SettingsPool

variable [DecidableEq ν]

/-- `applySettings`. -/
def PoolConfig.applySettings (c : PoolConfig ν α) (x : Settings ν α) : Option (Settings ν α) := do
  let features ← applyMap c._featureMap x.features
  let properties ← applyMap c._propertyMap x.properties
  return ⟨features, properties⟩

namespace SettingsPool

/-- `get()`, and the session that it hands out unless it throws. -/
def get (c : PoolConfig ν α) (m : Making) (s : SettingsPool ν α) : SettingsPool ν α × Option ℕ :=
  let (kept, erased, threw) := SessionPool.purgeLoop m.health s._idleSessions
  let s := { s with _idleSessions := kept, _nSessions := s._nSessions - erased }
  if threw then (s, none)
  else
    match kept with
    | h :: rest => (s.handOut m.pooled h rest, some h)
    | [] =>
        if s._nSessions < c._maxSessions then
          match (if m.create then c.applySettings c.connector else none) with
          | some x =>
              let s := { s with
                _nSessions := s._nSessions + 1
                session := Function.update s.session m.session x }
              (s.handOut m.pooled m.session [], some m.session)
          | none => (s, none)
        else (s, none)

/-- The settings of a session that is returned. -/
def restoreSettings (c : PoolConfig ν α) (h : ℕ) (s : SettingsPool ν α) : Option (Settings ν α) := do
  let properties ← restore s._addPropertyMap h (s.session h).properties
  let features ← restore s._addFeatureMap h (s.session h).features
  c.applySettings ⟨features, properties⟩

/-- `putBack`, when the `PooledSessionImpl` is destroyed.  `reset` leaves the settings as they are; an exception ends
in the same way as a session that is not good. -/
def putBack (c : PoolConfig ν α) (w : ℕ) (health : Health) (reset : Bool) (s : SettingsPool ν α) : SettingsPool ν α :=
  match s.pooled w with
  | none => s
  | some h =>
      let s' := { s with pooled := Function.update s.pooled w none }
      if h ∈ s._activeSessions then
        match (if health = .good ∧ reset = true then s.restoreSettings c h else none) with
        | some x =>
            { s' with
              session := Function.update s.session h x
              _idleSessions := s._idleSessions ++ [h]
              _activeSessions := s._activeSessions.erase h }
        | none => { s' with _nSessions := s._nSessions - 1, _activeSessions := s._activeSessions.erase h }
      else s'

/-- `get(name, value)`, behind `get()`: the former value is noted for the `PooledSessionImpl`, and the new one is
set.  Without a former value the exception destroys the `PooledSessionImpl`. -/
def request (c : PoolConfig ν α) (r : Request ν α) (w h : ℕ) (health : Health) (reset : Bool)
    (s : SettingsPool ν α) : SettingsPool ν α :=
  match r with
  | .feature name value =>
      match (s.session h).features name with
      | some old =>
          { s with
            _addFeatureMap := insertNew s._addFeatureMap w (name, old)
            session := Function.update s.session h
              { s.session h with features := Function.update (s.session h).features name (some value) } }
      | none => s.putBack c w health reset
  | .property name value =>
      match (s.session h).properties name with
      | some old =>
          { s with
            _addPropertyMap := insertNew s._addPropertyMap w (name, old)
            session := Function.update s.session h
              { s.session h with properties := Function.update (s.session h).properties name (some value) } }
      | none => s.putBack c w health reset

/-- The calls, with the outcomes of what the pool does not decide. -/
inductive Act (ν α : Type)
  | get (m : Making)
  | getWith (r : Request ν α) (m : Making) (health : Health) (reset : Bool)
  | putBack (w : ℕ) (health : Health) (reset : Bool)

/-- A call. -/
inductive Step (c : PoolConfig ν α) : SettingsPool ν α → Act ν α → SettingsPool ν α → Prop
  | get {s : SettingsPool ν α} {m : Making} : s.Fits m → Step c s (.get m) (s.get c m).1
  | getWith {s s' : SettingsPool ν α} {r : Request ν α} {m : Making} {h : ℕ} (health : Health) (reset : Bool) :
      s.Fits m → s.get c m = (s', some h) →
      Step c s (.getWith r m health reset) (s'.request c r m.pooled h health reset)
  | getWithThrows {s s' : SettingsPool ν α} {r : Request ν α} {m : Making} (health : Health) (reset : Bool) :
      s.Fits m → s.get c m = (s', none) → Step c s (.getWith r m health reset) s'
  | putBack (s : SettingsPool ν α) (w : ℕ) (health : Health) (reset : Bool) :
      Step c s (.putBack w health reset) (s.putBack c w health reset)

/-- The clients ask for settings in `R` only. -/
def AsksIn (R : Set (Request ν α)) (_ : SettingsPool ν α) : Act ν α → Prop
  | .getWith r _ _ _ => r ∈ R
  | _ => True

/-- A session that `get()` hands out has the settings of a new one. -/
def HandsOutNew (c : PoolConfig ν α) (s : SettingsPool ν α) (m : Making) : Prop :=
  ∀ s' h, s.get c m = (s', some h) → c.applySettings c.connector = some (s'.session h)

end SettingsPool

/-- A request that leaves no trace: the pool has a value for the name, or a new session has the requested value,
or the request throws. -/
def Request.Kept (c : PoolConfig ν α) (x : Settings ν α) : Request ν α → Prop
  | .feature name value =>
      name ∈ c._featureMap.map Prod.fst ∨ x.features name = none ∨ x.features name = some value
  | .property name value =>
      name ∈ c._propertyMap.map Prod.fst ∨ x.properties name = none ∨ x.properties name = some value

/-- The name of the request is supported. -/
def Settings.Supports (x : Settings ν α) : Request ν α → Prop
  | .feature name _ => (x.features name).isSome
  | .property name _ => (x.properties name).isSome

/-- The settings with the value that is asked for. -/
def Settings.set (x : Settings ν α) : Request ν α → Settings ν α
  | .feature name value => { x with features := Function.update x.features name (some value) }
  | .property name value => { x with properties := Function.update x.properties name (some value) }

/-! ### Two families that agree but for some names -/

section Agree

variable {β : Type} {f g x : ν → Option β} {ks : List ν}

/-- The same names are supported, and those that are not in the list have the same value. -/
structure AgreeOff (ks : List ν) (f g : ν → Option β) : Prop where
  value_eq : ∀ n, n ∉ ks → f n = g n
  support_eq : ∀ n, (f n).isSome = (g n).isSome

omit [DecidableEq ν] in
theorem AgreeOff.refl (ks : List ν) (f : ν → Option β) : AgreeOff ks f f := ⟨fun _ _ => rfl, fun _ => rfl⟩

omit [DecidableEq ν] in
theorem AgreeOff.trans (h : AgreeOff ks f g) (h' : AgreeOff ks g x) : AgreeOff ks f x :=
  ⟨fun n hn => (h.value_eq n hn).trans (h'.value_eq n hn), fun n => (h.support_eq n).trans (h'.support_eq n)⟩

omit [DecidableEq ν] in
theorem AgreeOff.symm (h : AgreeOff ks f g) : AgreeOff ks g f :=
  ⟨fun n hn => (h.value_eq n hn).symm, fun n => (h.support_eq n).symm⟩

theorem AgreeOff.update (h : AgreeOff ks f g) {name : ν} {value : β} (hs : (f name).isSome)
    (hv : name ∈ ks ∨ g name = some value) : AgreeOff ks (Function.update f name (some value)) g := by
  refine ⟨fun n hn => ?_, fun n => ?_⟩
  · rcases eq_or_ne n name with rfl | hne
    · rw [Function.update_self, hv.resolve_left hn]
    · rw [Function.update_of_ne hne, h.value_eq n hn]
  · rcases eq_or_ne n name with rfl | hne
    · rw [Function.update_self, ← h.support_eq, hs]
      rfl
    · rw [Function.update_of_ne hne, h.support_eq]

theorem applyMap_agreeOff {entries : List (ν × β)} (h : applyMap entries f = some g) :
    AgreeOff (entries.map Prod.fst) f g := by
  induction entries generalizing f with
  | nil =>
      obtain rfl := Option.some.inj h
      exact AgreeOff.refl _ _
  | cons e entries ih =>
      unfold applyMap at h
      rw [List.foldlM_cons] at h
      obtain ⟨f', hstore, hrest⟩ := Option.bind_eq_some_iff.mp h
      unfold store at hstore
      split_ifs at hstore with hs
      obtain rfl := Option.some.inj hstore
      have hih := ih hrest
      refine ⟨fun n hn => ?_, fun n => ?_⟩
      · rw [List.map_cons, List.mem_cons, not_or] at hn
        rw [← hih.value_eq n hn.2, Function.update_of_ne hn.1]
      · rw [← hih.support_eq]
        rcases eq_or_ne n e.1 with rfl | hne
        · rw [Function.update_self, hs]
          rfl
        · rw [Function.update_of_ne hne]

theorem applyMap_congr {entries : List (ν × β)} (h : AgreeOff (entries.map Prod.fst) f x) :
    applyMap entries f = applyMap entries x := by
  induction entries generalizing f x with
  | nil => exact congrArg some (funext fun n => h.value_eq n List.not_mem_nil)
  | cons e entries ih =>
      unfold applyMap
      rw [List.foldlM_cons, List.foldlM_cons]
      unfold store
      rw [h.support_eq]
      split_ifs with hs
      · refine ih ⟨fun n hn => ?_, fun n => ?_⟩
        · rcases eq_or_ne n e.1 with rfl | hne
          · rw [Function.update_self, Function.update_self]
          · rw [Function.update_of_ne hne, Function.update_of_ne hne]
            exact h.value_eq n (by rw [List.map_cons, List.mem_cons, not_or]; exact ⟨hne, hn⟩)
        · rcases eq_or_ne n e.1 with rfl | hne
          · rw [Function.update_self, Function.update_self]
          · rw [Function.update_of_ne hne, Function.update_of_ne hne, h.support_eq]
      · rfl

theorem applyMap_isSome {entries : List (ν × β)} (h : applyMap entries f = some g)
    (hx : ∀ n, (x n).isSome = (f n).isSome) : ∃ u, applyMap entries x = some u := by
  induction entries generalizing f x with
  | nil => exact ⟨x, rfl⟩
  | cons e entries ih =>
      unfold applyMap at h ⊢
      rw [List.foldlM_cons] at h ⊢
      obtain ⟨f', hstore, hrest⟩ := Option.bind_eq_some_iff.mp h
      unfold store at hstore ⊢
      split_ifs at hstore with hs
      obtain rfl := Option.some.inj hstore
      rw [if_pos (by rw [hx, hs])]
      refine ih hrest fun n => ?_
      rcases eq_or_ne n e.1 with rfl | hne
      · rw [Function.update_self, Function.update_self]
      · rw [Function.update_of_ne hne, Function.update_of_ne hne, hx]

theorem restore_agreeOff {m : List (ℕ × ν × β)} (hm : ∀ e ∈ m, g e.2.1 = some e.2.2) (h : AgreeOff ks f g) (key : ℕ) :
    ∃ f', restore m key f = some f' ∧ AgreeOff ks f' g := by
  unfold restore
  cases hlookup : m.lookup key with
  | none => exact ⟨f, rfl, h⟩
  | some e =>
      obtain ⟨name, value⟩ := e
      have hvalue : g name = some value := hm _ (List.lookup_eq_some_iff.mp hlookup |> fun ⟨l₁, l₂, heq, _⟩ => by
        rw [heq]
        exact List.mem_append_right _ List.mem_cons_self)
      have hs : (f name).isSome := by
        rw [h.support_eq, hvalue]
        rfl
      refine ⟨Function.update f name (some value), ?_, h.update hs (Or.inr hvalue)⟩
      dsimp only
      rw [store, if_pos hs]

omit [DecidableEq ν] in
theorem mem_insertNew {m : List (ℕ × ν × β)} {key : ℕ} {entry : ν × β} {e : ℕ × ν × β} (h : e ∈ insertNew m key entry) :
    e ∈ m ∨ e = (key, entry) := by
  unfold insertNew at h
  split_ifs at h
  · exact Or.inl h
  · exact (List.mem_cons.mp h).symm

end Agree

/-! ### Settings of the pool -/

/-- The settings agree with those of a new session, but for those of the pool. -/
structure Settings.Near (c : PoolConfig ν α) (x y : Settings ν α) : Prop where
  features : AgreeOff (c._featureMap.map Prod.fst) x.features y.features
  properties : AgreeOff (c._propertyMap.map Prod.fst) x.properties y.properties

omit [DecidableEq ν] in
theorem Settings.Near.refl (c : PoolConfig ν α) (x : Settings ν α) : Settings.Near c x x :=
  ⟨AgreeOff.refl _ _, AgreeOff.refl _ _⟩

section

variable {c : PoolConfig ν α} {x y z : Settings ν α}

theorem near_of_applySettings (h : c.applySettings x = some y) : x.Near c y := by
  obtain ⟨f, hf, hrest⟩ := Option.bind_eq_some_iff.mp h
  obtain ⟨p, hp, hy⟩ := Option.bind_eq_some_iff.mp hrest
  obtain rfl := Option.some.inj hy
  exact ⟨applyMap_agreeOff hf, applyMap_agreeOff hp⟩

theorem applySettings_congr (h : x.Near c z) : c.applySettings x = c.applySettings z := by
  unfold PoolConfig.applySettings
  rw [applyMap_congr h.features, applyMap_congr h.properties]

/-- Settings that are near those of a new session become those of a new session. -/
theorem Settings.Near.applySettings (hy : c.applySettings c.connector = some y) (h : x.Near c y) :
    c.applySettings x = some y := by
  have hconnector := near_of_applySettings hy
  rw [← hy]
  exact applySettings_congr ⟨h.features.trans hconnector.features.symm, h.properties.trans hconnector.properties.symm⟩

end

namespace SettingsPool

variable {c : PoolConfig ν α} {y : Settings ν α}

/-- Idle sessions have the settings of a new one, those of the clients are near them, and what is noted are values of
a new one. -/
structure Inv (c : PoolConfig ν α) (y : Settings ν α) (s : SettingsPool ν α) : Prop where
  idle : ∀ h ∈ s._idleSessions, s.session h = y
  active : ∀ h ∈ s._activeSessions, (s.session h).Near c y
  nodup : (s._idleSessions ++ s._activeSessions).Nodup
  features : ∀ e ∈ s._addFeatureMap, y.features e.2.1 = some e.2.2
  properties : ∀ e ∈ s._addPropertyMap, y.properties e.2.1 = some e.2.2

omit [DecidableEq ν] in
theorem inv_init (c : PoolConfig ν α) (y : Settings ν α) : Inv c y (init c) :=
  ⟨nofun, nofun, List.nodup_nil, nofun, nofun⟩

/-- What `get()` does: it throws, or it hands out a session of the idle list, or a new one. -/
theorem get_cases (c : PoolConfig ν α) (m : Making) (s : SettingsPool ν α) :
    ∃ kept n, kept.Sublist s._idleSessions ∧
      (s.get c m = ({ s with _idleSessions := kept, _nSessions := n }, none) ∨
        (∃ h rest, kept = h :: rest ∧
          s.get c m = (handOut m.pooled h rest { s with _idleSessions := kept, _nSessions := n }, some h)) ∨
        ∃ x, kept = [] ∧ c.applySettings c.connector = some x ∧
          s.get c m = (handOut m.pooled m.session [] { s with
            _idleSessions := []
            _nSessions := n + 1
            session := Function.update s.session m.session x }, some m.session)) := by
  have hsub := (SessionPool.purgeLoop_spec m.health s._idleSessions).1
  unfold get
  generalize SessionPool.purgeLoop m.health s._idleSessions = r at hsub ⊢
  obtain ⟨kept, erased, threw⟩ := r
  refine ⟨kept, s._nSessions - erased, hsub, ?_⟩
  cases threw with
  | true => exact Or.inl rfl
  | false =>
      cases kept with
      | cons h rest => exact Or.inr (Or.inl ⟨h, rest, rfl, rfl⟩)
      | nil =>
          dsimp only
          rw [if_neg Bool.false_ne_true]
          split_ifs with hmax hcreate
          · cases hx : c.applySettings c.connector with
            | none => exact Or.inl rfl
            | some x => exact Or.inr (Or.inr ⟨x, rfl, rfl, rfl⟩)
          · exact Or.inl rfl
          · exact Or.inl rfl

section

variable {s : SettingsPool ν α}

omit [DecidableEq ν] in
theorem Inv.shrink (hi : s.Inv c y) {kept : List ℕ} (hsub : kept.Sublist s._idleSessions) (n : ℤ) :
    Inv c y { s with _idleSessions := kept, _nSessions := n } :=
  ⟨fun h hh => hi.idle h (hsub.subset hh), hi.active, (hsub.append_right _).nodup hi.nodup, hi.features, hi.properties⟩

omit [DecidableEq ν] in
theorem Inv.handOut (hi : s.Inv c y) {h : ℕ} {rest : List ℕ} (hidle : s._idleSessions = h :: rest) (w : ℕ) :
    (s.handOut w h rest).Inv c y := by
  have hmem : h ∈ s._idleSessions := by
    rw [hidle]
    exact List.mem_cons_self
  have hnodup := hi.nodup
  rw [hidle, List.cons_append] at hnodup
  refine ⟨fun k hk => hi.idle k (by rw [hidle]; exact List.mem_cons_of_mem _ hk), fun k hk => ?_,
    List.perm_middle.nodup_iff.mpr hnodup, hi.features, hi.properties⟩
  rcases List.mem_cons.mp hk with rfl | hk
  · show (s.session k).Near c y
    rw [hi.idle k hmem]
    exact Settings.Near.refl _ _
  · exact hi.active k hk

omit [DecidableEq ν] in
theorem Inv.handOutNew (hi : s.Inv c y) (w : ℕ) {h : ℕ} (hfree : s.Free h) (n : ℤ) :
    (SettingsPool.handOut w h [] { s with
      _idleSessions := []
      _nSessions := n
      session := Function.update s.session h y }).Inv c y := by
  refine ⟨nofun, fun k hk => ?_, List.nodup_cons.mpr ⟨hfree.2.2, (List.nodup_append.mp hi.nodup).2.1⟩, hi.features,
    hi.properties⟩
  show ((Function.update s.session h y) k).Near c y
  rcases List.mem_cons.mp hk with rfl | hk
  · rw [Function.update_self]
    exact Settings.Near.refl _ _
  · have hne : k ≠ h := by
      rintro rfl
      exact hfree.2.2 hk
    rw [Function.update_of_ne hne]
    exact hi.active k hk

/-- What `get()` hands out has the settings of a new session, and the invariant holds behind it. -/
theorem Inv.get (hy : c.applySettings c.connector = some y) (hi : s.Inv c y) {m : Making} (hfits : s.Fits m) :
    (s.get c m).1.Inv c y ∧ ∀ h, (s.get c m).2 = some h →
      (s.get c m).1.session h = y ∧ h ∈ (s.get c m).1._activeSessions := by
  obtain ⟨kept, n, hsub, hthrow | ⟨h, rest, rfl, hold⟩ | ⟨x, rfl, hx, hnew⟩⟩ := get_cases c m s
  · rw [hthrow]
    exact ⟨hi.shrink hsub n, fun h heq => by cases heq⟩
  · rw [hold]
    refine ⟨(hi.shrink hsub n).handOut rfl m.pooled, fun k heq => ?_⟩
    obtain rfl := Option.some.inj heq
    exact ⟨hi.idle h (hsub.subset List.mem_cons_self), List.mem_cons_self⟩
  · obtain rfl := Option.some.inj (hx.symm.trans hy)
    rw [hnew]
    refine ⟨hi.handOutNew m.pooled hfits.2.1 (n + 1), fun k heq => ?_⟩
    obtain rfl := Option.some.inj heq
    exact ⟨Function.update_self _ _ _, List.mem_cons_self⟩

/-- A session that is returned gets the settings of a new one. -/
theorem Inv.restoreSettings (hy : c.applySettings c.connector = some y) (hi : s.Inv c y) {h : ℕ}
    (hactive : h ∈ s._activeSessions) : s.restoreSettings c h = some y := by
  have hnear := hi.active h hactive
  obtain ⟨p, hp, hpnear⟩ := restore_agreeOff hi.properties hnear.properties h
  obtain ⟨f, hf, hfnear⟩ := restore_agreeOff hi.features hnear.features h
  have hnear' : Settings.Near c ⟨f, p⟩ y := ⟨hfnear, hpnear⟩
  rw [SettingsPool.restoreSettings, hp, hf]
  exact hnear'.applySettings hy

theorem Inv.putBack (hy : c.applySettings c.connector = some y) (hi : s.Inv c y) (w : ℕ) (health : Health)
    (reset : Bool) : (s.putBack c w health reset).Inv c y := by
  unfold SettingsPool.putBack
  cases hw : s.pooled w with
  | none => exact hi
  | some h =>
      dsimp only
      have hnodup := List.nodup_append.mp hi.nodup
      split_ifs with hactive hgood
      · -- the session goes to the idle list
        rw [hi.restoreSettings hy hactive]
        have hperm : (s._idleSessions ++ [h] ++ s._activeSessions.erase h).Perm
            (s._idleSessions ++ s._activeSessions) := by
          rw [List.append_assoc]
          exact (List.perm_cons_erase hactive).symm.append_left _
        refine ⟨fun k hk => ?_, fun k hk => ?_, hperm.nodup_iff.mpr hi.nodup, hi.features, hi.properties⟩
        · show (Function.update s.session h y) k = y
          rcases eq_or_ne k h with rfl | hne
          · exact Function.update_self _ _ _
          · rw [Function.update_of_ne hne]
            exact hi.idle k ((List.mem_append.mp hk).resolve_right fun h => hne (List.mem_singleton.mp h))
        · show ((Function.update s.session h y) k).Near c y
          have hmem := (List.Nodup.mem_erase_iff hnodup.2.1).mp hk
          rw [Function.update_of_ne hmem.1]
          exact hi.active k hmem.2
      · -- it is given up
        exact ⟨hi.idle, fun k hk => hi.active k (List.mem_of_mem_erase hk),
          (((List.erase_sublist).append_left _).nodup hi.nodup), hi.features, hi.properties⟩
      · exact ⟨hi.idle, hi.active, hi.nodup, hi.features, hi.properties⟩

omit [DecidableEq ν] in
theorem Inv.setSession (hi : s.Inv c y) {h : ℕ} (hactive : h ∈ s._activeSessions) {x : Settings ν α}
    (hx : x.Near c y) : Inv c y { s with session := Function.update s.session h x } := by
  have hnodup := List.nodup_append.mp hi.nodup
  refine ⟨fun k hk => ?_, fun k hk => ?_, hi.nodup, hi.features, hi.properties⟩
  · have hne : k ≠ h := by
      rintro rfl
      exact hnodup.2.2 k hk k hactive rfl
    show (Function.update s.session h x) k = y
    rw [Function.update_of_ne hne]
    exact hi.idle k hk
  · show ((Function.update s.session h x) k).Near c y
    rcases eq_or_ne k h with rfl | hne
    · rwa [Function.update_self]
    · rw [Function.update_of_ne hne]
      exact hi.active k hk

theorem Inv.request (hy : c.applySettings c.connector = some y) (hi : s.Inv c y) {h : ℕ} (hh : s.session h = y)
    (hactive : h ∈ s._activeSessions) {r : Request ν α} (hkept : r.Kept c y) (w : ℕ) (health : Health) (reset : Bool) :
    (s.request c r w h health reset).Inv c y := by
  have hnear := Settings.Near.refl c y
  cases r with
  | feature name value =>
      cases hold : y.features name with
      | none =>
          simp only [SettingsPool.request, hh, hold]
          exact hi.putBack hy w health reset
      | some old =>
          have hs : (y.features name).isSome := by
            rw [hold]
            rfl
          have hvalue : name ∈ c._featureMap.map Prod.fst ∨ y.features name = some value := by
            rcases hkept with hname | hnone | hsome
            · exact Or.inl hname
            · rw [hold] at hnone
              cases hnone
            · exact Or.inr hsome
          have hx : Settings.Near c { y with features := Function.update y.features name (some value) } y :=
            ⟨hnear.features.update hs hvalue, hnear.properties⟩
          have hset := hi.setSession hactive hx
          simp only [SettingsPool.request, hh, hold]
          refine ⟨hset.idle, hset.active, hset.nodup, fun e he => ?_, hi.properties⟩
          rcases mem_insertNew he with hmem | rfl
          · exact hi.features e hmem
          · exact hold
  | property name value =>
      cases hold : y.properties name with
      | none =>
          simp only [SettingsPool.request, hh, hold]
          exact hi.putBack hy w health reset
      | some old =>
          have hs : (y.properties name).isSome := by
            rw [hold]
            rfl
          have hvalue : name ∈ c._propertyMap.map Prod.fst ∨ y.properties name = some value := by
            rcases hkept with hname | hnone | hsome
            · exact Or.inl hname
            · rw [hold] at hnone
              cases hnone
            · exact Or.inr hsome
          have hx : Settings.Near c { y with properties := Function.update y.properties name (some value) } y :=
            ⟨hnear.features, hnear.properties.update hs hvalue⟩
          have hset := hi.setSession hactive hx
          simp only [SettingsPool.request, hh, hold]
          refine ⟨hset.idle, hset.active, hset.nodup, hi.features, fun e he => ?_⟩
          rcases mem_insertNew he with hmem | rfl
          · exact hi.properties e hmem
          · exact hold

/-- Every call with requests that are kept keeps the invariant. -/
theorem Inv.step (hy : c.applySettings c.connector = some y) {R : Set (Request ν α)} (hR : ∀ r ∈ R, r.Kept c y)
    (hi : s.Inv c y) {a : Act ν α} {s' : SettingsPool ν α} (hs : Guarded (AsksIn R) (Step c) s a s') : s'.Inv c y := by
  obtain ⟨hask, hs⟩ := hs
  cases hs with
  | get hfits => exact (hi.get hy hfits).1
  | @getWith s' r m h health reset hfits hget =>
      obtain ⟨hinv, hout⟩ := hi.get hy hfits
      rw [hget] at hinv hout
      obtain ⟨hh, hactive⟩ := hout h rfl
      exact hinv.request hy hh hactive (hR r hask) m.pooled health reset
  | getWithThrows health reset hfits hget =>
      have hinv := (hi.get hy hfits).1
      rwa [hget] at hinv
  | putBack w health reset => exact hi.putBack hy w health reset

/-! ### Pools that cannot make a session -/

/-- There is no session. -/
structure Unused (s : SettingsPool ν α) : Prop where
  count : s._nSessions = 0
  idle : s._idleSessions = []
  pooled : ∀ w, s.pooled w = none

theorem Unused.get (hu : s.Unused) (hnone : c._maxSessions ≤ 0 ∨ c.applySettings c.connector = none) (m : Making) :
    (s.get c m).1.Unused ∧ (s.get c m).2 = none := by
  have hpurge : SessionPool.purgeLoop m.health s._idleSessions = ([], 0, false) := by
    rw [hu.idle]
    rfl
  unfold SettingsPool.get
  rw [hpurge]
  dsimp only
  rw [if_neg Bool.false_ne_true]
  have hcount : s._nSessions - ((0 : ℕ) : ℤ) = 0 := by
    rw [hu.count]
    rfl
  have hcreate : ¬(s._nSessions - ((0 : ℕ) : ℤ) < c._maxSessions) ∨
      (if m.create then c.applySettings c.connector else none) = none := by
    rcases hnone with hmax | hnone
    · exact Or.inl (by rw [hcount]; exact Int.not_lt.mpr hmax)
    · right
      rw [hnone]
      split_ifs <;> rfl
  rcases hcreate with hmax | hcreate
  · rw [if_neg hmax]
    exact ⟨⟨hcount, rfl, hu.pooled⟩, rfl⟩
  · rw [hcreate]
    split_ifs
    · exact ⟨⟨hcount, rfl, hu.pooled⟩, rfl⟩
    · exact ⟨⟨hcount, rfl, hu.pooled⟩, rfl⟩

theorem Unused.step (hnone : c._maxSessions ≤ 0 ∨ c.applySettings c.connector = none) (hu : s.Unused)
    {a : Act ν α} {s' : SettingsPool ν α} (hs : Step c s a s') : s'.Unused := by
  cases hs with
  | get hfits => exact (hu.get hnone _).1
  | @getWith s' r m h health reset hfits hget =>
      have hout := (hu.get hnone m).2
      rw [hget] at hout
      cases hout
  | @getWithThrows s' r m health reset hfits hget =>
      have hinv := (hu.get hnone m).1
      rwa [hget] at hinv
  | putBack w health reset =>
      unfold SettingsPool.putBack
      rwa [hu.pooled w]

end

/-! ### A request that is not kept -/

section

variable {x : Settings ν α} {r : Request ν α} {s : SettingsPool ν α} {h : ℕ}

theorem ne_of_not_kept (hlost : ¬r.Kept c x) : x.Supports r ∧ ∀ z, (x.set r).Near c z → z ≠ x := by
  cases r with
  | feature name value =>
      simp only [Request.Kept, not_or] at hlost
      refine ⟨Option.isSome_iff_ne_none.mpr hlost.2.1, ?_⟩
      rintro z hz rfl
      have hvalue := hz.features.value_eq name hlost.1
      simp only [Settings.set, Function.update_self] at hvalue
      exact hlost.2.2 hvalue.symm
  | property name value =>
      simp only [Request.Kept, not_or] at hlost
      refine ⟨Option.isSome_iff_ne_none.mpr hlost.2.1, ?_⟩
      rintro z hz rfl
      have hvalue := hz.properties.value_eq name hlost.1
      simp only [Settings.set, Function.update_self] at hvalue
      exact hlost.2.2 hvalue.symm

omit [DecidableEq ν] in
theorem lookup_insertNew {β : Type} (m : List (ℕ × ν × β)) {w : ℕ} (hne : h ≠ w) (entry : ν × β) :
    (insertNew m w entry).lookup h = m.lookup h := by
  unfold insertNew
  split_ifs
  · rfl
  · rw [List.lookup_cons, beq_false_of_ne hne]

/-- What `get(name, value)` notes is not for the session. -/
theorem request_eq (hs : (s.session h).Supports r) {w : ℕ} (hne : h ≠ w) (health : Health) (reset : Bool) :
    ∃ fm pm, s.request c r w h health reset =
        { s with
          _addFeatureMap := fm
          _addPropertyMap := pm
          session := Function.update s.session h ((s.session h).set r) } ∧
      fm.lookup h = s._addFeatureMap.lookup h ∧ pm.lookup h = s._addPropertyMap.lookup h := by
  cases r with
  | feature name value =>
      obtain ⟨old, hold⟩ := Option.isSome_iff_exists.mp hs
      refine ⟨insertNew s._addFeatureMap w (name, old), s._addPropertyMap, ?_, lookup_insertNew _ hne _, rfl⟩
      simp only [SettingsPool.request, hold]
      rfl
  | property name value =>
      obtain ⟨old, hold⟩ := Option.isSome_iff_exists.mp hs
      refine ⟨s._addFeatureMap, insertNew s._addPropertyMap w (name, old), ?_, rfl, lookup_insertNew _ hne _⟩
      simp only [SettingsPool.request, hold]
      rfl

theorem set_support (hs : x.Supports r) :
    (∀ n, ((x.set r).features n).isSome = (x.features n).isSome) ∧
      ∀ n, ((x.set r).properties n).isSome = (x.properties n).isSome := by
  cases r with
  | feature name value =>
      refine ⟨fun n => ?_, fun _ => rfl⟩
      rcases eq_or_ne n name with rfl | hne
      · simp only [Settings.set, Function.update_self]
        exact hs.symm
      · simp only [Settings.set, Function.update_of_ne hne]
  | property name value =>
      refine ⟨fun _ => rfl, fun n => ?_⟩
      rcases eq_or_ne n name with rfl | hne
      · simp only [Settings.set, Function.update_self]
        exact hs.symm
      · simp only [Settings.set, Function.update_of_ne hne]

end

/-- Where all sessions have the names of the pool, its settings can be applied. -/
theorem applySettings_isSome {x z : Settings ν α} (hx : (c.applySettings z).isSome)
    (hf : ∀ n, (x.features n).isSome = (z.features n).isSome)
    (hp : ∀ n, (x.properties n).isSome = (z.properties n).isSome) : ∃ u, c.applySettings x = some u := by
  obtain ⟨y, hy⟩ := Option.isSome_iff_exists.mp hx
  obtain ⟨f, hzf, hrest⟩ := Option.bind_eq_some_iff.mp hy
  obtain ⟨p, hzp, -⟩ := Option.bind_eq_some_iff.mp hrest
  obtain ⟨f', hxf⟩ := applyMap_isSome hzf hf
  obtain ⟨p', hxp⟩ := applyMap_isSome hzp hp
  refine ⟨⟨f', p'⟩, ?_⟩
  rw [PoolConfig.applySettings, hxf, hxp]
  rfl

theorem putBack_eq {s : SettingsPool ν α} {w h : ℕ} {z : Settings ν α} (hw : s.pooled w = some h)
    (hactive : h ∈ s._activeSessions) (hz : s.restoreSettings c h = some z) :
    s.putBack c w .good true =
      { s with
        _idleSessions := s._idleSessions ++ [h]
        _activeSessions := s._activeSessions.erase h
        session := Function.update s.session h z
        pooled := Function.update s.pooled w none } := by
  unfold SettingsPool.putBack
  simp only [hw, if_pos hactive, hz, and_self, if_true]

theorem restoreSettings_eq {s : SettingsPool ν α} {h : ℕ} (hf : s._addFeatureMap.lookup h = none)
    (hp : s._addPropertyMap.lookup h = none) : s.restoreSettings c h = c.applySettings (s.session h) := by
  unfold SettingsPool.restoreSettings restore
  rw [hf, hp]
  rfl

theorem get_init {x : Settings ν α} (hmax : 0 < c._maxSessions) (hx : c.applySettings c.connector = some x) :
    (init c).get c ⟨1, 0, fun _ => .good, true⟩ =
      (handOut 1 0 [] { init c with _nSessions := 1, session := Function.update (init c).session 0 x }, some 0) := by
  unfold SettingsPool.get
  show (if (0 : ℤ) - ((0 : ℕ) : ℤ) < c._maxSessions then _ else _) = _
  have hcount : (0 : ℤ) - ((0 : ℕ) : ℤ) < c._maxSessions := by simpa using hmax
  rw [if_pos hcount]
  simp only [if_true, hx]
  rfl

/-- A client asks for the setting and returns the session, which the next one gets. -/
theorem handsOut_lost {x : Settings ν α} (hmax : 0 < c._maxSessions) (hx : c.applySettings c.connector = some x)
    {R : Set (Request ν α)} {r : Request ν α} (hr : r ∈ R) (hlost : ¬r.Kept c x) :
    ∃ acts s m, Run (Guarded (AsksIn R) (Step c)) (init c) acts s ∧ s.Fits m ∧ ¬HandsOutNew c s m := by
  obtain ⟨hs, hne⟩ := ne_of_not_kept hlost
  obtain ⟨hf, hp⟩ := set_support hs
  have hnear := near_of_applySettings hx
  obtain ⟨z, hz⟩ := @applySettings_isSome _ _ _ c (x.set r) c.connector (by rw [hx]; rfl)
    (fun n => (hf n).trans (hnear.features.support_eq n).symm) (fun n => (hp n).trans (hnear.properties.support_eq n).symm)
  -- the session is at 0, and each client has its object at 1
  have hfits : (init c).Fits ⟨1, 0, fun _ => .good, true⟩ :=
    ⟨⟨rfl, List.not_mem_nil, List.not_mem_nil⟩, ⟨rfl, List.not_mem_nil, List.not_mem_nil⟩, Nat.one_ne_zero⟩
  have hget := get_init hmax hx
  generalize hs₁ : handOut 1 0 [] { init c with _nSessions := 1, session := Function.update (init c).session 0 x } = s₁
    at hget
  have hsession : s₁.session 0 = x := by
    rw [← hs₁]
    show Function.update (init c).session 0 x 0 = x
    rw [Function.update_self]
  have hidle : s₁._idleSessions = [] := by rw [← hs₁]; rfl
  have hactive : s₁._activeSessions = [0] := by rw [← hs₁]; rfl
  have hpooled : s₁.pooled 1 = some 0 := by rw [← hs₁]; rfl
  have hfnone : s₁._addFeatureMap.lookup 0 = none := by rw [← hs₁]; rfl
  have hpnone : s₁._addPropertyMap.lookup 0 = none := by rw [← hs₁]; rfl
  obtain ⟨fm, pm, hrequest, hfm, hpm⟩ :=
    @request_eq _ _ _ c r s₁ 0 (by rw [hsession]; exact hs) 1 Nat.zero_ne_one .good true
  rw [hfnone] at hfm
  rw [hpnone] at hpm
  generalize hs₂ : s₁.request c r 1 0 .good true = s₂ at hrequest
  have hrestore : s₂.restoreSettings c 0 = some z := by
    rw [restoreSettings_eq (by rw [hrequest]; exact hfm) (by rw [hrequest]; exact hpm), hrequest]
    show c.applySettings (Function.update s₁.session 0 ((s₁.session 0).set r) 0) = some z
    rw [Function.update_self, hsession, hz]
  have hreturn := @putBack_eq _ _ _ c s₂ 1 0 z (by rw [hrequest]; exact hpooled)
    (by rw [hrequest]; exact hactive ▸ List.mem_cons_self) hrestore
  generalize hs₃ : s₂.putBack c 1 .good true = s₃ at hreturn
  have hidle₃ : s₃._idleSessions = [0] := by
    rw [hreturn, hrequest]
    show s₁._idleSessions ++ [0] = [0]
    rw [hidle, List.nil_append]
  have hactive₃ : s₃._activeSessions = [] := by
    rw [hreturn, hrequest]
    show s₁._activeSessions.erase 0 = []
    rw [hactive]
    rfl
  have hpooled₃ : s₃.pooled 1 = none ∧ s₃.pooled 2 = none := by
    rw [hreturn, hrequest]
    show Function.update s₁.pooled 1 none 1 = none ∧ Function.update s₁.pooled 1 none 2 = none
    rw [← hs₁]
    exact ⟨rfl, rfl⟩
  refine ⟨[.getWith r ⟨1, 0, fun _ => .good, true⟩ .good true, .putBack 1 .good true], s₃,
    ⟨1, 2, fun _ => .good, true⟩, ?_, ?_, ?_⟩
  · have hfirst : Step c (init c) (.getWith r ⟨1, 0, fun _ => .good, true⟩ .good true) s₂ := by
      rw [← hs₂]
      exact .getWith .good true hfits hget
    have hsecond : Step c s₂ (.putBack 1 .good true) s₃ := by
      rw [← hs₃]
      exact .putBack s₂ 1 .good true
    exact .cons ⟨hr, hfirst⟩ (.single ⟨trivial, hsecond⟩)
  · unfold Fits Free
    rw [hidle₃, hactive₃]
    exact ⟨⟨hpooled₃.1, by decide, List.not_mem_nil⟩, ⟨hpooled₃.2, by decide, List.not_mem_nil⟩, by decide⟩
  · intro hnew
    have hout : s₃.get c ⟨1, 2, fun _ => .good, true⟩ =
        (handOut 1 0 [] { s₃ with _idleSessions := [0], _nSessions := s₃._nSessions - ((0 : ℕ) : ℤ) }, some 0) := by
      unfold SettingsPool.get
      rw [hidle₃]
      rfl
    have heq := hnew _ _ hout
    have hvalue : s₃.session 0 = z := by
      rw [hreturn]
      show Function.update s₂.session 0 z 0 = z
      rw [Function.update_self]
    rw [hx] at heq
    exact hne z (near_of_applySettings hz) ((Option.some.inj heq).trans hvalue).symm

/-! ### The settings that clients may ask for -/

/-- **Main result.** For the requests that clients may make, every session that `get()` hands out has the settings of
a new one, in all runs, if and only if each request is kept. -/
theorem handsOutNew_iff (c : PoolConfig ν α) (R : Set (Request ν α)) :
    (∀ acts s m, Run (Guarded (AsksIn R) (Step c)) (init c) acts s → s.Fits m → HandsOutNew c s m) ↔
      ∀ x, 0 < c._maxSessions → c.applySettings c.connector = some x → ∀ r ∈ R, r.Kept c x := by
  constructor
  · intro h x hmax hx r hr
    by_contra hlost
    obtain ⟨acts, s, m, hrun, hfits, hnot⟩ := handsOut_lost hmax hx hr hlost
    exact hnot (h acts s m hrun hfits)
  · intro h acts s m hrun hfits s' k hget
    by_cases hcan : 0 < c._maxSessions ∧ c.applySettings c.connector ≠ none
    · obtain ⟨hmax, hsome⟩ := hcan
      obtain ⟨y, hy⟩ := Option.ne_none_iff_exists'.mp hsome
      have hinv : s.Inv c y :=
        hrun.invariant (fun _ _ _ hi hs => hi.step hy (h y hmax hy) hs) (inv_init c y)
      have hout := ((hinv.get hy hfits).2 k (by rw [hget])).1
      rw [hget] at hout
      rw [hy, hout]
    · have hnone : c._maxSessions ≤ 0 ∨ c.applySettings c.connector = none := by
        rw [not_and_or, Int.not_lt, not_not] at hcan
        exact hcan
      have hunused : s.Unused :=
        hrun.invariant (fun _ _ _ hu hs => hu.step hnone hs.2) ⟨rfl, rfl, fun _ => rfl⟩
      have hout := (hunused.get hnone m).2
      rw [hget] at hout
      cases hout

/-- Clients of a pool for one session, without settings of its own, may ask for a feature. -/
theorem not_handsOutNew_feature :
    ¬∀ (c : PoolConfig Bool ℕ) (acts : List (Act Bool ℕ)) (s : SettingsPool Bool ℕ) (m : Making),
      Run (Step c) (init c) acts s → s.Fits m → HandsOutNew c s m := by
  intro h
  let c : PoolConfig Bool ℕ := ⟨⟨fun _ => some true, fun _ => none⟩, 1, [], []⟩
  have hlost : ¬Request.Kept c c.connector (.feature true false) := by
    unfold Request.Kept
    decide
  obtain ⟨acts, s, m, hrun, hfits, hnot⟩ :=
    @handsOut_lost _ _ _ c c.connector (by decide) rfl {.feature true false} _ rfl hlost
  have hall : ∀ {acts : List (Act Bool ℕ)} {s : SettingsPool Bool ℕ},
      Run (Guarded (AsksIn {.feature true false}) (Step c)) (init c) acts s → Run (Step c) (init c) acts s := by
    intro acts s hrun
    induction hrun with
    | refl => exact .refl _
    | snoc _ hs ih => exact .snoc ih hs.2
  exact hnot (h c acts s m (hall hrun) hfits)

end SettingsPool

end

end Poco.Data
