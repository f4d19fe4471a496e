import Poco.Foundation.StrategyCollection
import Mathlib.Logic.Function.Basic

/-! # Access expiry

The caches whose entries expire when they have not been accessed for some time:
`AccessExpireCache` and `UniqueAccessExpireCache`, and their variants in which an
`LRUStrategy` comes first.  `lastAccess` records, from the results of the operations alone,
when each key was last accessed.

* `Simulates R`: the strategy of the cache behaves as the expiry strategy it contains, as
  far as stored keys are concerned.  It holds of the strategy itself (`simulates_self`) and
  of a collection of an `LRUStrategy` and the strategy (`simulates_behindLRU`).
* `Monitors Inv`: the invariant `Inv` between the expiry strategy, the data and the times
  of the last accesses survives the callbacks, so it holds after every run (`Rel.run`).
* An expired entry of an `AccessExpireStrategy` is never extended.  A
  `UniqueAccessExpireStrategy` extends the entry before it is asked whether it is valid:
  `Revives` is the state in which this brings an expired entry back. -/

namespace Poco.Foundation

open Poco.Lib AbstractCache

universe u

variable {K V P : Type} [LinearOrder K]

/-! ### The time of the last access -/

section lastAccess

variable {S : Type u} [AbstractStrategy K V S]

/-- The key an operation accesses and the time of the access: storing an entry reads the
clock first, a successful `get` ends with the reading that found the entry valid. -/
def access (c : AbstractCache K V S) : Op K V → Option (K × ℤ)
  | .add key (some _) => some (key, c.clock.now)
  | .update key (some _) => some (key, c.clock.now)
  | .get key => (c.doGet key).2.map fun _ => (key, (c.doGet key).1.clock.last)
  | _ => none

/-- The times of the last accesses after one more operation. -/
def noteAccess (c : AbstractCache K V S) (op : Op K V) (last : K → Option ℤ) : K → Option ℤ :=
  match access c op with
  | none => last
  | some (key, t) => Function.update last key (some t)

/-- The times of the last accesses after a sequence of operations. -/
def lastAccess (c : AbstractCache K V S) : List (Op K V) → (K → Option ℤ) → K → Option ℤ
  | [], last => last
  | op :: ops, last => lastAccess (c.step op).1 ops (noteAccess c op last)

end lastAccess

/-! ### A strategy behind another -/

/-- The strategy `s` behaves on the stored keys `X` as the strategy `a` it contains. -/
structure Simulates {S : Type u} {A : Type} [AbstractStrategy K V S] [AbstractStrategy K V A]
    (R : S → A → Set K → Prop) : Prop where
  onAdd : ∀ {s a X k}, R s a X → k ∉ X → ∀ v clock,
    R (onAdd k v s clock).1 (onAdd k v a clock).1 (insert k X) ∧
      (onAdd k v s clock).2 = (onAdd k v a clock).2
  onRemove : ∀ {s a X}, R s a X → ∀ k, R (onRemove k s) (onRemove k a) (X \ {k})
  onGet : ∀ {s a X}, R s a X → ∀ k clock,
    R (onGet k s clock).1 (onGet k a clock).1 X ∧ (onGet k s clock).2 = (onGet k a clock).2
  onClear : ∀ {s a X}, R s a X → R (onClear s) (onClear a) ∅
  onIsValid : ∀ {s a X k}, R s a X → k ∈ X → ∀ clock,
    onIsValid k s clock = onIsValid k a clock

omit [LinearOrder K] in
theorem simulates_self {A : Type} [AbstractStrategy K V A] :
    Simulates (fun (s a : A) (_ : Set K) => s = a) where
  onAdd := by
    rintro s _ X k rfl hk v clock
    exact ⟨rfl, rfl⟩
  onRemove := by
    rintro s _ X rfl k
    rfl
  onGet := by
    rintro s _ X rfl k clock
    exact ⟨rfl, rfl⟩
  onClear := by
    rintro s _ X rfl
    rfl
  onIsValid := by
    rintro s _ X k rfl hk clock
    rfl

/-- The collection the `LRU` variants of the caches are constructed with. -/
def behindLRU {A : Type} [AbstractStrategy K V A] (l : LRUStrategy K V) (a : A) :
    StrategyCollection K V := (StrategyCollection.mk []).pushBack (.of l) |>.pushBack (.of a)

theorem simulates_behindLRU {A : Type} [AbstractStrategy K V A] :
    Simulates (fun (s : StrategyCollection K V) (a : A) (X : Set K) =>
      ∃ l : LRUStrategy K V, s = behindLRU l a ∧ l.Knows X) where
  onAdd := by
    rintro _ a X k ⟨l, rfl, hl⟩ hk v clock
    exact ⟨⟨l.onAdd k, rfl, hl.onAdd hk⟩, rfl⟩
  onRemove := by
    rintro _ a X ⟨l, rfl, hl⟩ k
    exact ⟨l.onRemove k, rfl, hl.onRemove k⟩
  onGet := by
    rintro _ a X ⟨l, rfl, hl⟩ k clock
    exact ⟨⟨l.onGet k, rfl, hl.onGet k⟩, rfl⟩
  onClear := by
    rintro _ a X ⟨l, rfl, hl⟩
    exact ⟨l.onClear, rfl, LRUStrategy.tracks.onClear hl⟩
  onIsValid := by
    rintro _ a X k ⟨l, rfl, hl⟩ hk clock
    -- the LRU strategy knows the key and lets the other one decide
    have hmem : k ∈ l._keyIndex := (hl.keys k).mpr hk
    have hlru : onIsValid k (StrategyPtr.of l : StrategyPtr K V) clock = (true, clock) := by
      change (decide (k ∈ l._keyIndex), clock) = (true, clock)
      simp [hmem]
    have hvalid : onIsValid k (behindLRU l a) clock = StrategyCollection.onIsValidLoop k
        [StrategyPtr.of l, StrategyPtr.of a] clock := rfl
    rw [hvalid]
    simp only [StrategyCollection.onIsValidLoop, hlru]
    change (if (onIsValid k a clock).1 = true then (true, (onIsValid k a clock).2)
      else (false, (onIsValid k a clock).2)) = onIsValid k a clock
    cases hv : (onIsValid k a clock).1 <;> simp [← hv]

/-! ### Invariants of the expiry strategy along runs -/

/-- The callbacks keep the invariant `Inv` between an expiry strategy, the data of the cache
and the times of the last accesses. -/
structure Monitors {A : Type} [AbstractStrategy K V A]
    (Inv : A → AList (fun _ : K => V) → (K → Option ℤ) → Prop) : Prop where
  add : ∀ {a data last k}, Inv a data last → k ∉ data → ∀ v clock,
    Inv (onAdd k v a clock).1 (data.insert k v) (Function.update last k (some clock.now))
  remove : ∀ {a data last}, Inv a data last → ∀ k, Inv (onRemove k a) (data.erase k) last
  get_valid : ∀ {a data last k v}, Inv a data last → data.lookup k = some v → ∀ clock,
    let g := onGet k a clock
    (onIsValid k g.1 g.2).1 = true →
      Inv g.1 data (Function.update last k (some (onIsValid k g.1 g.2).2.last))
  /-- An entry found invalid is removed at once. -/
  get_invalid : ∀ {a data last}, Inv a data last → ∀ k clock,
    Inv (onRemove k (onGet k a clock).1) (data.erase k) last
  clear : ∀ {a data last}, Inv a data last → Inv (onClear a) ∅ last

/-- The strategy of the cache contains an expiry strategy that satisfies the invariant. -/
def Rel {S : Type u} {A : Type} (R : S → A → Set K → Prop)
    (Inv : A → AList (fun _ : K => V) → (K → Option ℤ) → Prop) (c : AbstractCache K V S)
    (last : K → Option ℤ) : Prop :=
  ∃ a, R c._strategy a {k | k ∈ c._data} ∧ Inv a c._data last

section runs

variable {S : Type u} {A : Type} [AbstractStrategy K V S] [AbstractStrategy K V A]
  {R : S → A → Set K → Prop} {Inv : A → AList (fun _ : K => V) → (K → Option ℤ) → Prop}
  {c : AbstractCache K V S} {last : K → Option ℤ}

omit [AbstractStrategy K V S] [AbstractStrategy K V A] in
theorem insert_erase (data : AList (fun _ : K => V)) (key : K) (v : V) :
    (data.erase key).insert key v = data.insert key v := by
  apply AList.ext
  rw [AList.entries_insert, AList.entries_insert]
  refine congrArg _ (List.kerase_of_notMem_keys ?_)
  exact List.notMem_keys_kerase key data.nodupKeys

theorem doHas_eq (hR : Simulates R) {a : A} (ha : R c._strategy a {k | k ∈ c._data}) {key : K}
    (hk : key ∈ c._data) : (c.doHas key).2 = (onIsValid key a c.clock).1 := by
  have hv := hR.onIsValid ha hk c.clock
  simp only [AbstractCache.doHas, hk, if_true, hv]

/-- Seen from outside, `get` tells the expiry strategy of the access and asks it. -/
theorem doGet_eq (hR : Simulates R) {a : A} (ha : R c._strategy a {k | k ∈ c._data}) {key : K} {v : V}
    (hk : c._data.lookup key = some v) :
    let g := onGet key a c.clock
    let valid := onIsValid key g.1 g.2
    let c' : AbstractCache K V S :=
      ⟨(onGet key c._strategy c.clock).1, c._data, valid.2⟩
    c.doGet key = if valid.1 then (c', some v) else (c'.doRemove key, none) := by
  have hmem : key ∈ c._data := AList.lookup_isSome.mp (by rw [hk]; rfl)
  obtain ⟨hg, hclock⟩ := hR.onGet ha key c.clock
  have hv := hR.onIsValid hg hmem (onGet key c._strategy c.clock).2
  rw [hclock] at hv
  simp only [AbstractCache.doGet, hk, hclock, hv]

variable (hR : Simulates R) (hInv : Monitors Inv)
include hR hInv

theorem Rel.doRemove (h : Rel R Inv c last) (key : K) : Rel R Inv (c.doRemove key) last := by
  unfold AbstractCache.doRemove
  split_ifs
  · obtain ⟨a, ha, hi⟩ := h
    refine ⟨onRemove key a, ?_, hInv.remove hi key⟩
    dsimp only
    rw [setOf_mem_erase]
    exact hR.onRemove ha key
  · exact h

theorem Rel.doReplace (h : Rel R Inv c last) : Rel R Inv c.doReplace last := by
  have hfold : ∀ (l : List K) (c : AbstractCache K V S), Rel R Inv c last →
      Rel R Inv (l.foldl (fun c key => c.doRemove key) c) last := by
    intro l
    induction l with
    | nil => exact fun c h => h
    | cons key l ih => exact fun c h => ih _ (h.doRemove hR hInv key)
  exact hfold (onReplace c._strategy c.clock []).1
    { c with clock := (onReplace c._strategy c.clock []).2 } h

/-- A new entry, announced to the strategies and stored. -/
theorem Rel.insert (h : Rel R Inv c last) {key : K} (hk : key ∉ c._data) (v : V) :
    Rel R Inv ⟨(onAdd key v c._strategy c.clock).1, c._data.insert key v,
        (onAdd key v c._strategy c.clock).2⟩ (Function.update last key (some c.clock.now)) := by
  obtain ⟨a, ha, hi⟩ := h
  refine ⟨(onAdd key v a c.clock).1, ?_, hInv.add hi hk v c.clock⟩
  dsimp only
  rw [setOf_mem_insert]
  exact (hR.onAdd ha hk v c.clock).1

theorem Rel.doAdd (h : Rel R Inv c last) (key : K) (val : Option V) :
    Rel R Inv (c.doAdd key val).1 (noteAccess c (.add key val) last) := by
  have hr := h.doRemove hR hInv key
  have hk : key ∉ (c.doRemove key)._data ∧ (c.doRemove key).clock = c.clock := by
    unfold AbstractCache.doRemove
    split_ifs with hk
    · simp [AList.mem_erase]
    · exact ⟨hk, rfl⟩
  cases val with
  | none => exact hr
  | some v =>
      have hi := (hr.insert hR hInv hk.1 v).doReplace hR hInv
      rw [hk.2] at hi
      simp only [AbstractCache.doAdd, noteAccess, access, hk.2]
      exact hi

theorem Rel.doUpdate (h : Rel R Inv c last) (key : K) (val : Option V) :
    Rel R Inv (c.doUpdate key val).1 (noteAccess c (.update key val) last) := by
  cases val with
  | none => exact h
  | some v =>
      simp only [AbstractCache.doUpdate, noteAccess, access]
      apply Rel.doReplace hR hInv
      split_ifs with hk
      · have hr := h.doRemove hR hInv key
        have hrem : c.doRemove key =
            { c with _strategy := onRemove key c._strategy, _data := c._data.erase key } := by
          simp [AbstractCache.doRemove, hk]
        rw [hrem] at hr
        have hk' : key ∉ c._data.erase key := by simp [AList.mem_erase]
        have hi := hr.insert hR hInv hk' v
        dsimp only at hi
        rw [insert_erase] at hi
        exact hi
      · exact h.insert hR hInv hk v

theorem Rel.doGet (h : Rel R Inv c last) (key : K) :
    Rel R Inv (c.doGet key).1 (noteAccess c (.get key) last) := by
  cases hk : c._data.lookup key with
  | none =>
      have hget : c.doGet key = (c, none) := by simp [AbstractCache.doGet, hk]
      simp only [noteAccess, access, hget, Option.map_none]
      exact h
  | some v =>
      obtain ⟨a, ha, hi⟩ := h
      have hmem : key ∈ c._data := AList.lookup_isSome.mp (by rw [hk]; rfl)
      have hg := (hR.onGet ha key c.clock).1
      have hget := doGet_eq hR ha hk
      dsimp only at hget
      simp only [noteAccess, access, hget]
      split_ifs with hv
      · exact ⟨(onGet key a c.clock).1, hg, hInv.get_valid hi hk c.clock hv⟩
      · refine ⟨onRemove key (onGet key a c.clock).1, ?_, ?_⟩
        · simp only [AbstractCache.doRemove, hmem, if_true]
          rw [setOf_mem_erase]
          exact hR.onRemove hg key
        · simp only [AbstractCache.doRemove, hmem, if_true]
          exact hInv.get_invalid hi key c.clock

theorem Rel.step (h : Rel R Inv c last) (op : Op K V) :
    Rel R Inv (c.step op).1 (noteAccess c op last) := by
  cases op with
  | add key val => exact h.doAdd hR hInv key val
  | update key val => exact h.doUpdate hR hInv key val
  | remove key => exact h.doRemove hR hInv key
  | has key =>
      simp only [AbstractCache.step, doHas]
      split_ifs
      · exact h
      · exact h
  | get key => exact h.doGet hR hInv key
  | clear =>
      obtain ⟨a, ha, hi⟩ := h
      refine ⟨onClear a, ?_, hInv.clear hi⟩
      simp only [AbstractCache.step, doClear, setOf_mem_empty]
      exact hR.onClear ha
  | size => exact h.doReplace hR hInv
  | forceReplace => exact h.doReplace hR hInv
  | getAllKeys => exact h.doReplace hR hInv

theorem Rel.run (h : Rel R Inv c last) (ops : List (Op K V)) :
    Rel R Inv (c.run ops).1 (lastAccess c ops last) := by
  induction ops generalizing c last with
  | nil => exact h
  | cons op ops ih => exact ih (h.step hR hInv op)

end runs

/-! ### Entries and the times of their last accesses -/

namespace TimeIndex

section noted

variable {pk : P → K} {Φ : Option V → Option ℤ → ℤ → P → Prop} {t : TimeIndex K P}
  {data : AList (fun _ : K => V)} {last : K → Option ℤ} {key : K}

/-- Every entry of the time index, except those of `key`, is in relation `Φ` with the stored
value and the last access of its key. -/
def NotedExcept (pk : P → K) (Φ : Option V → Option ℤ → ℤ → P → Prop) (key : Option K)
    (t : TimeIndex K P) (data : AList (fun _ : K => V)) (last : K → Option ℤ) : Prop :=
  ∀ it time p, (it, time, p) ∈ t._keyIndex.nodes → some (pk p) ≠ key →
    Φ (data.lookup (pk p)) (last (pk p)) time p

/-- Every entry is in relation `Φ` with the stored value and the last access of its key. -/
abbrev Noted (pk : P → K) (Φ : Option V → Option ℤ → ℤ → P → Prop) (t : TimeIndex K P)
    (data : AList (fun _ : K => V)) (last : K → Option ℤ) : Prop :=
  NotedExcept pk Φ none t data last

theorem NotedExcept.add (h : Noted pk Φ t data last) (hk : key ∉ t._keys) (time : ℤ) {p : P}
    (hp : pk p = key) : NotedExcept pk Φ (some key) (t.add key time p) data last := by
  intro it time' p' hm hne
  have hadd : (t.add key time p)._keyIndex = multimapInsert time p t._keyIndex := by
    simp [TimeIndex.add, AList.lookup_eq_none.mpr hk]
  rw [hadd] at hm
  rcases NodeList.mem_insertWhere.mp hm with heq | hm
  · obtain ⟨-, heq⟩ := Prod.mk.inj heq
    obtain ⟨-, rfl⟩ := Prod.mk.inj heq
    exact absurd (congrArg some hp) hne
  · exact h it time' p' hm (by simp)

theorem NotedExcept.rearm (h : Noted pk Φ t data last) (old : ℕ) (time : ℤ) {p : P}
    (hp : pk p = key) : NotedExcept pk Φ (some key) (t.rearm key old time p) data last := by
  intro it time' p' hm hne
  rcases NodeList.mem_insertWhere.mp hm with heq | hm
  · obtain ⟨-, heq⟩ := Prod.mk.inj heq
    obtain ⟨-, rfl⟩ := Prod.mk.inj heq
    exact absurd (congrArg some hp) hne
  · exact h it time' p' (NodeList.mem_erase.mp hm).1 (by simp)

/-- Removing the excepted key leaves only noted entries. -/
theorem NotedExcept.remove {X : Set K} (hknows : t.Knows pk X)
    (h : NotedExcept pk Φ (some key) t data last) :
    Noted pk Φ (t.remove key) (data.erase key) last := by
  intro it time p hm _
  have hmem : (it, time, p) ∈ t._keyIndex.nodes ∧ pk p ≠ key := by
    constructor
    · unfold TimeIndex.remove at hm
      split at hm
      · exact hm
      · exact (NodeList.mem_erase.mp hm).1
    · have hkeys := (hknows.remove key).indexed.lookup hm
      intro heq
      have hin : pk p ∈ X \ {key} :=
        ((hknows.remove key).keys _).mp (AList.lookup_isSome.mp (by rw [hkeys]; rfl))
      exact hin.2 heq
  rw [AList.lookup_erase_ne hmem.2]
  exact h it time p hmem.1 (by simpa using hmem.2)

theorem NotedExcept.noted {X : Set K} (hknows : t.Knows pk X)
    (h : NotedExcept pk Φ (some key) t data last) {it : ℕ} {time : ℤ} {p : P}
    (hf : t.find key = some (it, time, p)) {data' : AList (fun _ : K => V)}
    {last' : K → Option ℤ} (hΦ : Φ (data'.lookup key) (last' key) time p)
    (hdata : ∀ k, k ≠ key → data'.lookup k = data.lookup k)
    (hlast : ∀ k, k ≠ key → last' k = last k) : Noted pk Φ t data' last' := by
  intro it' time' p' hm _
  by_cases hk : pk p' = key
  · have hf' : t.find key = some (it', time', p') := hknows.find_iff.mpr ⟨hm, hk⟩
    rw [hf'] at hf
    obtain ⟨-, rfl, rfl⟩ := (by simpa using hf : it' = it ∧ time' = time ∧ p' = p)
    rw [hk]
    exact hΦ
  · rw [hdata _ hk, hlast _ hk]
    exact h it' time' p' hm (by simpa using hk)

theorem Noted.except (h : Noted pk Φ t data last) (key : Option K) :
    NotedExcept pk Φ key t data last := fun it time p hm _ => h it time p hm (by simp)

end noted

theorem find_add {pk : P → K} {t : TimeIndex K P} {X : Set K} (h : t.Knows pk X) {key : K}
    (hk : key ∉ X) (time : ℤ) {p : P} (hp : pk p = key) :
    (t.add key time p).find key = some (t._keyIndex.next, time, p) := by
  rw [(h.add hk time hp).find_iff]
  refine ⟨?_, hp⟩
  have hkey : key ∉ t._keys := by
    rw [h.keys]
    exact hk
  have hadd : (t.add key time p)._keyIndex = multimapInsert time p t._keyIndex := by
    simp [TimeIndex.add, AList.lookup_eq_none.mpr hkey]
  rw [hadd]
  exact NodeList.mem_insertWhere.mpr (Or.inl rfl)

theorem find_rearm {pk : P → K} {t : TimeIndex K P} {X : Set K} (h : t.Knows pk X) {key : K}
    {old : ℕ} {e : ℤ × P} (hf : t.find key = some (old, e)) (time : ℤ) {p : P}
    (hp : pk p = key) :
    (t.rearm key old time p).find key = some (t._keyIndex.next, time, p) := by
  rw [(h.rearm hf time hp).find_iff]
  refine ⟨?_, hp⟩
  exact NodeList.mem_insertWhere.mpr (Or.inl rfl)

end TimeIndex

/-! ### `AccessExpireStrategy` -/

namespace AccessExpireStrategy

/-- The strategy knows the stored keys, none entered later than its last access. -/
structure Inv (expireTime : ℤ) (a : AccessExpireStrategy K V) (data : AList (fun _ : K => V))
    (last : K → Option ℤ) : Prop where
  expireTime : a._expireTime = expireTime
  knows : a.Knows {k | k ∈ data}
  noted : TimeIndex.Noted id (fun _ l time _ => ∃ t, l = some t ∧ time ≤ t) a.toTimeIndex data last

variable {expireTime : ℤ} {a : AccessExpireStrategy K V} {data : AList (fun _ : K => V)}
  {last : K → Option ℤ}

theorem inv_make {ms : ℤ} (h : make ms = .ok a) (last : K → Option ℤ) :
    Inv a._expireTime a ∅ last := by
  unfold make ExpireStrategy.make at h
  split_ifs at h with hms
  · simp [Except.map] at h
  · obtain rfl := Except.ok.inj h
    refine ⟨rfl, ?_, fun it time p hm => by simp [NodeList.empty] at hm⟩
    rw [setOf_mem_empty]
    exact NodeList.holds_empty

theorem onGet_elapsed {key : K} {it : ℕ} {time : ℤ} {k : K} {clock : Clock}
    (hf : a.find key = some (it, time, k)) (h : a._expireTime ≤ clock.now - time) :
    a.onGet key clock = (a, clock.tick) := by
  simp [onGet, hf, isElapsed, h]

/-- `onGet` enters an entry that has not expired at the present time. -/
theorem onGet_fresh {key : K} {it : ℕ} {time : ℤ} {k : K} {clock : Clock}
    (hf : a.find key = some (it, time, k)) (h : ¬ a._expireTime ≤ clock.now - time) :
    a.onGet key clock = ({ a with toTimeIndex := a.rearm key it clock.tick.now key },
      clock.tick.tick) := by
  simp [onGet, hf, isElapsed, h]

theorem onGet_cases (a : AccessExpireStrategy K V) (key : K) (clock : Clock) :
    (a.onGet key clock).1 = a ∨ ∃ it e t, a.find key = some (it, e) ∧
      (a.onGet key clock).1 = { a with toTimeIndex := a.rearm key it t key } := by
  cases hf : a.find key with
  | none =>
      left
      simp [onGet, hf]
  | some e =>
      obtain ⟨it, time, k⟩ := e
      by_cases h : a._expireTime ≤ clock.now - time
      · left
        rw [onGet_elapsed hf h]
      · right
        exact ⟨it, (time, k), clock.tick.now, rfl, by rw [onGet_fresh hf h]⟩

theorem onIsValid_eq {key : K} {it : ℕ} {time : ℤ} {k : K} {clock : Clock}
    (hf : a.find key = some (it, time, k)) :
    a.onIsValid key clock = (!decide (a._expireTime ≤ clock.now - time), clock.tick) := by
  simp [ExpireStrategy.onIsValid, hf, isElapsed]

theorem monitors (expireTime : ℤ) : Monitors (Inv (K := K) (V := V) expireTime) where
  add := by
    intro a data last k h hk v clock
    have hX : k ∉ {k | k ∈ data} := hk
    have hkeys : k ∉ a._keys := by
      rw [h.knows.keys]
      exact hk
    refine ⟨h.expireTime, ?_, ?_⟩
    · rw [setOf_mem_insert]
      exact tracks.onAdd h.knows hX v clock
    · have hkn := TimeIndex.Knows.add h.knows hX clock.now (p := k) rfl
      refine (TimeIndex.NotedExcept.add h.noted hkeys clock.now rfl).noted hkn
        (TimeIndex.find_add h.knows hX clock.now rfl) ⟨clock.now, by simp, le_rfl⟩ ?_ ?_
      · intro k' hk'
        exact AList.lookup_insert_ne hk'
      · intro k' hk'
        exact Function.update_of_ne hk' _ _
  remove := by
    intro a data last h k
    refine ⟨h.expireTime, ?_, ?_⟩
    · rw [setOf_mem_erase]
      exact tracks.onRemove h.knows k
    · exact (TimeIndex.Noted.except h.noted (some k)).remove h.knows
  get_valid := by
    intro a data last k v h hk clock g hvalid
    have hX : k ∈ {k | k ∈ data} := AList.lookup_isSome.mp (by rw [hk]; rfl)
    obtain ⟨it, time, k', hf, rfl⟩ := h.knows.find hX
    have hmono := clock.now_le_now_tick
    by_cases hel : a._expireTime ≤ clock.now - time
    · -- still expired when it is asked for, so not found valid
      have hg : g = (a, clock.tick) := onGet_elapsed hf hel
      have hv : onIsValid k' a clock.tick = _ := onIsValid_eq hf
      rw [hg] at hvalid
      simp only [id, hv] at hvalid
      have : a._expireTime ≤ clock.tick.now - time := by omega
      simp [this] at hvalid
    · have hg : g = ({ a with toTimeIndex := a.rearm k' it clock.tick.now k' },
          clock.tick.tick) := onGet_fresh hf hel
      rw [hg]
      refine ⟨h.expireTime, TimeIndex.Knows.rearm h.knows hf _ rfl, ?_⟩
      have hfind := TimeIndex.find_rearm h.knows hf clock.tick.now (p := k') rfl
      have hv : onIsValid k' ({ a with toTimeIndex := a.rearm k' it clock.tick.now k' } :
          AccessExpireStrategy K V) clock.tick.tick = _ := onIsValid_eq hfind
      refine (TimeIndex.NotedExcept.rearm h.noted it clock.tick.now rfl).noted
        (TimeIndex.Knows.rearm h.knows hf _ rfl) hfind
        ⟨clock.tick.tick.now, ?_, clock.tick.now_le_now_tick⟩ (fun _ _ => rfl) ?_
      · simp only [id, hv, Function.update_self, Clock.last_tick]
      · intro k hk
        exact Function.update_of_ne hk _ _
  get_invalid := by
    intro a data last h k clock
    have hknows := tracks.onRemove (h.knows.onGet k clock) k
    rw [← setOf_mem_erase] at hknows
    rcases onGet_cases a k clock with hg | ⟨it, e, t, hf, hg⟩
    · refine ⟨?_, hknows, ?_⟩
      · simp only [AbstractStrategy.onGet, hg]
        exact h.expireTime
      · simp only [AbstractStrategy.onGet, hg]
        exact (TimeIndex.Noted.except h.noted (some k)).remove h.knows
    · refine ⟨?_, hknows, ?_⟩
      · simp only [AbstractStrategy.onGet, hg]
        exact h.expireTime
      · simp only [AbstractStrategy.onGet, hg]
        exact (TimeIndex.NotedExcept.rearm h.noted it t rfl).remove
          (TimeIndex.Knows.rearm h.knows hf t rfl)
  clear := by
    intro a data last h
    refine ⟨h.expireTime, ?_, fun it time p hm => ?_⟩
    · rw [setOf_mem_empty]
      exact tracks.onClear h.knows
    · exact absurd hm List.not_mem_nil

end AccessExpireStrategy

/-! ### `UniqueAccessExpireStrategy` -/

namespace UniqueAccessExpireStrategy

variable [HasTimeout V]

/-- The strategy knows the stored keys with the timeouts of their values; no deadline is
later than the last access and the timeout. -/
structure Inv (u : UniqueAccessExpireStrategy K V) (data : AList (fun _ : K => V))
    (last : K → Option ℤ) : Prop where
  knows : u.Knows {k | k ∈ data}
  noted : TimeIndex.Noted Prod.fst
    (fun d l expire ke => ∃ v t, d = some v ∧ l = some t ∧ ke.2 = getTimeout v ∧ expire ≤ t + ke.2)
    u.toTimeIndex data last

variable {u : UniqueAccessExpireStrategy K V} {data : AList (fun _ : K => V)}
  {last : K → Option ℤ}

theorem inv_make (last : K → Option ℤ) : Inv (make : UniqueAccessExpireStrategy K V) ∅ last := by
  refine ⟨?_, fun it time p hm => by simp [make, NodeList.empty] at hm⟩
  rw [setOf_mem_empty]
  exact NodeList.holds_empty

omit [HasTimeout V] in
theorem onGet_eq {key : K} {it : ℕ} {expire : ℤ} {ke : K × ℤ} (clock : Clock)
    (hf : u.find key = some (it, expire, ke)) :
    u.onGet key clock = (⟨u.rearm key it (clock.now + ke.2) ke⟩, clock.tick) := by
  simp [onGet, hf]

omit [HasTimeout V] in
theorem onIsValid_eq {key : K} {it : ℕ} {expire : ℤ} {ke : K × ℤ} (clock : Clock)
    (hf : u.find key = some (it, expire, ke)) :
    u.onIsValid key clock = (decide (¬ expire ≤ clock.now), clock.tick) := by
  simp [onIsValid, hf]

theorem monitors : Monitors (Inv (K := K) (V := V)) where
  add := by
    intro u data last k h hk v clock
    have hX : k ∉ {k | k ∈ data} := hk
    have hkeys : k ∉ u._keys := by
      rw [h.knows.keys]
      exact hk
    refine ⟨?_, ?_⟩
    · rw [setOf_mem_insert]
      exact tracks.onAdd h.knows hX v clock
    · have hkn := TimeIndex.Knows.add h.knows hX (clock.now + getTimeout v)
        (p := (k, getTimeout v)) rfl
      refine (TimeIndex.NotedExcept.add h.noted hkeys _ rfl).noted hkn
        (TimeIndex.find_add h.knows hX _ rfl) ⟨v, clock.now, ?_, ?_, rfl, le_rfl⟩ ?_ ?_
      · exact AList.lookup_insert _
      · exact Function.update_self ..
      · intro k' hk'
        exact AList.lookup_insert_ne hk'
      · intro k' hk'
        exact Function.update_of_ne hk' _ _
  remove := by
    intro u data last h k
    refine ⟨?_, ?_⟩
    · rw [setOf_mem_erase]
      exact tracks.onRemove h.knows k
    · exact (TimeIndex.Noted.except h.noted (some k)).remove h.knows
  get_valid := by
    intro u data last k v h hk clock g hvalid
    have hX : k ∈ {k | k ∈ data} := AList.lookup_isSome.mp (by rw [hk]; rfl)
    obtain ⟨it, expire, ke, hf, rfl⟩ := h.knows.find hX
    have hg : g = (⟨u.rearm ke.1 it (clock.now + ke.2) ke⟩, clock.tick) := onGet_eq clock hf
    have hkn := TimeIndex.Knows.rearm h.knows hf (clock.now + ke.2) (p := ke) rfl
    have hfind := TimeIndex.find_rearm h.knows hf (clock.now + ke.2) (p := ke) rfl
    obtain ⟨v', t, hd, -, htimeout, -⟩ := h.noted it expire ke
      ((TimeIndex.Knows.find_iff h.knows).mp hf).1 (by simp)
    rw [hg]
    refine ⟨hkn, ?_⟩
    have hv : AbstractStrategy.onIsValid ke.1 (⟨u.rearm ke.1 it (clock.now + ke.2) ke⟩ :
        UniqueAccessExpireStrategy K V) clock.tick = _ := onIsValid_eq clock.tick hfind
    refine (TimeIndex.NotedExcept.rearm h.noted it _ rfl).noted hkn hfind
      ⟨v', clock.tick.now, hd, ?_, htimeout, ?_⟩ (fun _ _ => rfl) ?_
    · simp only [hv, Function.update_self, Clock.last_tick]
    · have := clock.now_le_now_tick
      omega
    · intro k hk
      exact Function.update_of_ne hk _ _
  get_invalid := by
    intro u data last h k clock
    have hknows := tracks.onRemove (V := V) (h.knows.onGet k clock) k
    rw [← setOf_mem_erase] at hknows
    cases hf : u.find k with
    | none =>
        have hg : u.onGet k clock = (u, clock) := by simp [onGet, hf]
        refine ⟨hknows, ?_⟩
        simp only [AbstractStrategy.onGet, hg]
        exact (TimeIndex.Noted.except h.noted (some k)).remove h.knows
    | some e =>
        obtain ⟨it, expire, ke⟩ := e
        have hke := ((TimeIndex.Knows.find_iff h.knows).mp hf).2
        refine ⟨hknows, ?_⟩
        simp only [AbstractStrategy.onGet, onGet_eq clock hf]
        exact (TimeIndex.NotedExcept.rearm h.noted it _ hke).remove
          (TimeIndex.Knows.rearm h.knows hf _ hke)
  clear := by
    intro u data last h
    refine ⟨?_, fun it time p hm => ?_⟩
    · rw [setOf_mem_empty]
      exact tracks.onClear h.knows
    · exact absurd hm List.not_mem_nil

/-- The deadline of the key has passed, and the next reading of the clock comes before the
deadline that `onGet` enters: a `get` at this time brings the entry back. -/
def Revives (key : K) (u : UniqueAccessExpireStrategy K V) (clock : Clock) : Prop :=
  match u.find key with
  | none => False
  | some (_, expire, ke) => expire ≤ clock.now ∧ clock.tick.now < clock.now + ke.2

end UniqueAccessExpireStrategy

/-! ### Expired entries -/

section expired

variable {S : Type u} [AbstractStrategy K V S]

/-- A key `has` does not find is not found by a `get` at the same time either. -/
def HasGetAgree (c : AbstractCache K V S) (key : K) : Prop :=
  (c.doHas key).2 = false → (c.doGet key).2 = none

/-- `get` returns no value whose timeout has elapsed since the last access. -/
def ReturnsFresh (timeout : V → ℤ) (c : AbstractCache K V S) (last : K → Option ℤ) (key : K) :
    Prop :=
  ∀ v, (c.doGet key).2 = some v → ∃ t, last key = some t ∧ c.clock.now - t < timeout v

theorem doHas_doGet_of_notMem {c : AbstractCache K V S} {key : K} (hk : key ∉ c._data) :
    (c.doHas key).2 = false ∧ (c.doGet key).2 = none := by
  have hl := AList.lookup_eq_none.mpr hk
  simp [AbstractCache.doHas, AbstractCache.doGet, hk, hl]

/-- What `has` and `get` see of a stored key in an `AccessExpireStrategy`. -/
theorem accessExpire_agree {R : S → AccessExpireStrategy K V → Set K → Prop} (hR : Simulates R)
    {expireTime : ℤ} {c : AbstractCache K V S} {last : K → Option ℤ}
    (h : Rel R (AccessExpireStrategy.Inv expireTime) c last) (key : K) :
    HasGetAgree c key ∧ ReturnsFresh (fun _ => expireTime) c last key := by
  obtain ⟨a, ha, hi⟩ := h
  by_cases hk : key ∈ c._data
  · obtain ⟨v, hv⟩ := Option.isSome_iff_exists.mp (AList.lookup_isSome.mpr hk)
    obtain ⟨it, time, k, hf, hkey⟩ := hi.knows.find hk
    obtain rfl : k = key := hkey
    obtain ⟨t, ht, hle⟩ := hi.noted it time k ((TimeIndex.Knows.find_iff hi.knows).mp hf).1 (by simp)
    have hmono := c.clock.now_le_now_tick
    have hhas := doHas_eq hR ha hk
    have hget := doGet_eq hR ha hv
    dsimp only at hget
    by_cases hel : a._expireTime ≤ c.clock.now - time
    · have hg : onGet k a c.clock = (a, c.clock.tick) :=
        AccessExpireStrategy.onGet_elapsed hf hel
      have hvalid : onIsValid k a c.clock.tick = _ := AccessExpireStrategy.onIsValid_eq hf
      have hlate : a._expireTime ≤ c.clock.tick.now - time := by omega
      have hnone : (c.doGet k).2 = none := by
        rw [hget, hg]
        simp [hvalid, hlate]
      refine ⟨fun _ => hnone, fun w hw => ?_⟩
      rw [hnone] at hw
      cases hw
    · constructor
      · intro hfalse
        have hvalid : onIsValid k a c.clock = _ := AccessExpireStrategy.onIsValid_eq hf
        rw [hhas, hvalid] at hfalse
        simp [hel] at hfalse
      · intro w _
        refine ⟨t, ht, ?_⟩
        rw [hi.expireTime] at hel
        dsimp only
        omega
  · obtain ⟨-, hnone⟩ := doHas_doGet_of_notMem hk
    refine ⟨fun _ => hnone, fun w hw => ?_⟩
    rw [hnone] at hw
    cases hw

/-- What `has` and `get` see of a stored key in a `UniqueAccessExpireStrategy`. -/
theorem uniqueAccessExpire_agree [HasTimeout V]
    {R : S → UniqueAccessExpireStrategy K V → Set K → Prop} (hR : Simulates R)
    {c : AbstractCache K V S} {last : K → Option ℤ} {u : UniqueAccessExpireStrategy K V}
    (ha : R c._strategy u {k | k ∈ c._data}) (hi : u.Inv c._data last) (key : K) :
    (HasGetAgree c key ↔ ¬ u.Revives key c.clock) ∧
      (¬ u.Revives key c.clock → ReturnsFresh getTimeout c last key) := by
  by_cases hk : key ∈ c._data
  · obtain ⟨v, hv⟩ := Option.isSome_iff_exists.mp (AList.lookup_isSome.mpr hk)
    obtain ⟨it, expire, ke, hf, rfl⟩ := hi.knows.find hk
    obtain ⟨v', t, hd, ht, htimeout, hle⟩ := hi.noted it expire ke
      ((TimeIndex.Knows.find_iff hi.knows).mp hf).1 (by simp)
    obtain rfl : v = v' := Option.some.inj (hv.symm.trans hd)
    have hhas := doHas_eq hR ha hk
    have hget := doGet_eq hR ha hv
    have hvalid : onIsValid ke.1 u c.clock = _ :=
      UniqueAccessExpireStrategy.onIsValid_eq c.clock hf
    have hg : onGet ke.1 u c.clock = _ := UniqueAccessExpireStrategy.onGet_eq c.clock hf
    have hfind := TimeIndex.find_rearm hi.knows hf (c.clock.now + ke.2) (p := ke) rfl
    have hvalid' : onIsValid ke.1 (⟨u.rearm ke.1 it (c.clock.now + ke.2) ke⟩ :
        UniqueAccessExpireStrategy K V) c.clock.tick = _ :=
      UniqueAccessExpireStrategy.onIsValid_eq c.clock.tick hfind
    have hsome : (c.doGet ke.1).2 =
        if c.clock.tick.now < c.clock.now + ke.2 then some v else none := by
      rw [hget, hg]
      simp only [hvalid', not_le, decide_eq_true_eq]
      split_ifs <;> rfl
    have hfalse : (c.doHas ke.1).2 = false ↔ expire ≤ c.clock.now := by
      rw [hhas, hvalid]
      simp
    have hrev : u.Revives ke.1 c.clock ↔
        expire ≤ c.clock.now ∧ c.clock.tick.now < c.clock.now + ke.2 := by
      simp only [UniqueAccessExpireStrategy.Revives, hf]
    unfold HasGetAgree ReturnsFresh
    rw [hfalse, hsome, hrev]
    constructor
    · rw [not_and]
      apply imp_congr_right
      intro _
      split_ifs with hlt <;> simp [hlt]
    · intro hnot w hw
      split_ifs at hw with hlt
      obtain rfl := Option.some.inj hw
      have hnow : ¬ expire ≤ c.clock.now := fun h => hnot ⟨h, hlt⟩
      refine ⟨t, ht, ?_⟩
      omega
  · obtain ⟨hfalse, hnone⟩ := doHas_doGet_of_notMem hk
    have hrev : ¬ u.Revives key c.clock := by
      have hf : u.find key = none := by
        have hkeys : u._keys.lookup key = none := by
          rw [AList.lookup_eq_none, hi.knows.keys]
          exact hk
        simp [TimeIndex.find, hkeys]
      simp [UniqueAccessExpireStrategy.Revives, hf]
    refine ⟨⟨fun _ => hrev, fun _ _ => hnone⟩, fun _ w hw => ?_⟩
    rw [hnone] at hw
    cases hw

end expired

section caches

variable {W : Type} [HasTimeout W] {ms : ℤ} {size : ℕ} {a₀ : AccessExpireStrategy K V}
  {l₀ : LRUStrategy K V} {m₀ : LRUStrategy K W}

/-- **Expired entries.**  Over every run and every clock, the caches with an
`AccessExpireStrategy` never return an entry whose timeout has elapsed since its last
access: what `has` does not find, `get` does not find at the same time.  The caches with a
`UniqueAccessExpireStrategy` do so in exactly the states in which the entry is not revived. -/
theorem expired_stays_expired_iff (ha₀ : AccessExpireStrategy.make ms = .ok a₀)
    (hl₀ : LRUStrategy.make size = .ok l₀) (hm₀ : LRUStrategy.make size = .ok m₀)
    (clock : Clock) :
    (∀ (ops : List (Op K V)) (key : K),
      let c₀ := AbstractCache.init a₀ clock
      let c := (c₀.run ops).1
      HasGetAgree c key ∧
        ReturnsFresh (fun _ => a₀._expireTime) c (lastAccess c₀ ops fun _ => none) key) ∧
    (∀ (ops : List (Op K V)) (key : K),
      let c₀ := AbstractCache.init (behindLRU l₀ a₀) clock
      let c := (c₀.run ops).1
      HasGetAgree c key ∧
        ReturnsFresh (fun _ => a₀._expireTime) c (lastAccess c₀ ops fun _ => none) key) ∧
    (∀ (ops : List (Op K W)) (key : K),
      let c₀ := AbstractCache.init (UniqueAccessExpireStrategy.make : UniqueAccessExpireStrategy K W)
        clock
      let c := (c₀.run ops).1
      (HasGetAgree c key ↔ ¬ c._strategy.Revives key c.clock) ∧
        (¬ c._strategy.Revives key c.clock →
          ReturnsFresh getTimeout c (lastAccess c₀ ops fun _ => none) key)) ∧
    ∀ (ops : List (Op K W)) (key : K),
      let c₀ := AbstractCache.init
        (behindLRU m₀ (UniqueAccessExpireStrategy.make : UniqueAccessExpireStrategy K W)) clock
      let c := (c₀.run ops).1
      ∃ m u, c._strategy = behindLRU m (u : UniqueAccessExpireStrategy K W) ∧
        (HasGetAgree c key ↔ ¬ u.Revives key c.clock) ∧
        (¬ u.Revives key c.clock →
          ReturnsFresh getTimeout c (lastAccess c₀ ops fun _ => none) key) := by
  have hInv := AccessExpireStrategy.monitors (K := K) (V := V) a₀._expireTime
  have hUnique := UniqueAccessExpireStrategy.monitors (K := K) (V := W)
  have hl : l₀.Knows {k : K | k ∈ (∅ : AList (fun _ : K => V))} := by
    rw [setOf_mem_empty]
    exact (LRUStrategy.make_ok hl₀).2.2.2
  have hm : m₀.Knows {k : K | k ∈ (∅ : AList (fun _ : K => W))} := by
    rw [setOf_mem_empty]
    exact (LRUStrategy.make_ok hm₀).2.2.2
  refine ⟨fun ops key => ?_, fun ops key => ?_, fun ops key => ?_, fun ops key => ?_⟩
  · have h0 : Rel (fun s a _ => s = a) (AccessExpireStrategy.Inv a₀._expireTime)
        (AbstractCache.init a₀ clock) (fun _ : K => none) :=
      ⟨a₀, rfl, AccessExpireStrategy.inv_make ha₀ _⟩
    exact accessExpire_agree simulates_self (h0.run simulates_self hInv ops) key
  · have h0 : Rel (fun s a X => ∃ l : LRUStrategy K V, s = behindLRU l a ∧ l.Knows X)
        (AccessExpireStrategy.Inv a₀._expireTime)
        (AbstractCache.init (behindLRU l₀ a₀) clock) (fun _ : K => none) :=
      ⟨a₀, ⟨l₀, rfl, hl⟩, AccessExpireStrategy.inv_make ha₀ _⟩
    exact accessExpire_agree simulates_behindLRU (h0.run simulates_behindLRU hInv ops) key
  · have h0 : Rel (fun s a _ => s = a) UniqueAccessExpireStrategy.Inv
        (AbstractCache.init (UniqueAccessExpireStrategy.make : UniqueAccessExpireStrategy K W) clock)
        (fun _ : K => none) := ⟨_, rfl, UniqueAccessExpireStrategy.inv_make _⟩
    obtain ⟨u, rfl, hi⟩ := h0.run simulates_self hUnique ops
    exact uniqueAccessExpire_agree simulates_self rfl hi key
  · have h0 : Rel (fun s a X => ∃ l : LRUStrategy K W, s = behindLRU l a ∧ l.Knows X)
        UniqueAccessExpireStrategy.Inv
        (AbstractCache.init
          (behindLRU m₀ (UniqueAccessExpireStrategy.make : UniqueAccessExpireStrategy K W)) clock)
        (fun _ : K => none) := ⟨_, ⟨m₀, rfl, hm⟩, UniqueAccessExpireStrategy.inv_make _⟩
    obtain ⟨u, ⟨m, hs, hm⟩, hi⟩ := h0.run simulates_behindLRU hUnique ops
    obtain ⟨h1, h2⟩ := uniqueAccessExpire_agree simulates_behindLRU ⟨m, hs, hm⟩ hi key
    exact ⟨m, u, hs, h1, h2⟩

end caches

/-- The clock stands at 0 for two readings, then at `t`. -/
private theorem jumpTo (t : ℕ) : Monotone (fun n : ℕ => if n < 2 then (0 : ℤ) else t) := by
  intro m n h
  dsimp only
  split_ifs <;> omega

/-- The entry of key 1 expires 10 microseconds after its last access, at time 0.  At time
100 `has` does not find it, and `get` returns it. -/
theorem get_revives_expired :
    let c := ((AbstractCache.init
      (UniqueAccessExpireStrategy.make : UniqueAccessExpireStrategy ℕ (AccessExpirationDecorator ℕ))
      ⟨_, jumpTo 100, 0⟩).run [.add 1 (some ⟨7, 10⟩)]).1
    c.clock.now = 100 ∧ (c.doHas 1).2 = false ∧ (c.doGet 1).2 = some ⟨7, 10⟩ ∧
      ¬ HasGetAgree c 1 := by
  have h : ∀ c : AbstractCache ℕ (AccessExpirationDecorator ℕ)
      (UniqueAccessExpireStrategy ℕ (AccessExpirationDecorator ℕ)),
      (c.doHas 1).2 = false → (c.doGet 1).2 = some ⟨7, 10⟩ → ¬ HasGetAgree c 1 := by
    intro c hhas hget hagree
    have hnone := hagree hhas
    rw [hget] at hnone
    cases hnone
  exact ⟨by decide, by decide, by decide, h _ (by decide) (by decide)⟩

/-- After 100 milliseconds neither `has` nor `get` finds the entry of an `AccessExpireCache`
with a timeout of 25. -/
theorem expired_stays_expired_small :
    let a₀ : AccessExpireStrategy ℕ ℕ := ⟨⟨⟨∅, .empty⟩, 25000⟩⟩
    let c := ((AbstractCache.init a₀ ⟨_, jumpTo 100000, 0⟩).run [.add 1 (some 7)]).1
    (c.doHas 1).2 = false ∧ (c.doGet 1).2 = none :=
  have ha₀ : AccessExpireStrategy.make 25 =
    .ok (⟨⟨⟨∅, .empty⟩, 25000⟩⟩ : AccessExpireStrategy ℕ ℕ) := rfl
  have hl₀ : LRUStrategy.make 2 = .ok (⟨2, .empty, ∅, by decide⟩ : LRUStrategy ℕ ℕ) := rfl
  have hm₀ : LRUStrategy.make 2 = .ok
    (⟨2, .empty, ∅, by decide⟩ : LRUStrategy ℕ (AccessExpirationDecorator ℕ)) := rfl
  have h := (expired_stays_expired_iff ha₀ hl₀ hm₀ ⟨_, jumpTo 100000, 0⟩).1 [.add 1 (some 7)] 1
  ⟨by decide, h.1 (by decide)⟩

end Poco.Foundation
