import Poco.Foundation.CacheStrategies
import Mathlib.Data.List.Forall2

/-! # `StrategyCollection` and the combined caches

A `StrategyCollection` holds pointers to strategy objects of any class and passes every
callback on to all of them; a `StrategyPtr` is such an object together with its class.
Validity is asked for in order and only as long as no strategy has answered no.

If every strategy of a collection keeps track of the stored keys, so does the collection
(`tracks_each`); for the `ExpireLRUCache`, a collection of an `LRUStrategy` and an
`ExpireStrategy`, this is the coherence of its three containers after every run. -/

namespace Poco.Foundation

open Poco.Lib AbstractCache

variable {K V : Type}

/-! ### Strategy objects -/

/-- A pointer to a strategy object of any class. -/
structure StrategyPtr (K V : Type) where
  S : Type
  cls : AbstractStrategy K V S
  obj : S

namespace StrategyPtr

/-- The pointer to an object. -/
def of {S : Type} [cls : AbstractStrategy K V S] (s : S) : StrategyPtr K V := ⟨S, cls, s⟩

instance : AbstractStrategy K V (StrategyPtr K V) where
  onAdd key val p clock :=
    ({ p with obj := (p.cls.onAdd key val p.obj clock).1 }, (p.cls.onAdd key val p.obj clock).2)
  onRemove key p := { p with obj := p.cls.onRemove key p.obj }
  onGet key p clock :=
    ({ p with obj := (p.cls.onGet key p.obj clock).1 }, (p.cls.onGet key p.obj clock).2)
  onClear p := { p with obj := p.cls.onClear p.obj }
  onIsValid key p clock := p.cls.onIsValid key p.obj clock
  onReplace p clock elemsToRemove := p.cls.onReplace p.obj clock elemsToRemove

/-- The pointer leads to an object of class `S` that knows the keys `X`. -/
def Ok {S : Type} [AbstractStrategy K V S] (R : S → Set K → Prop) (p : StrategyPtr K V)
    (X : Set K) : Prop := ∃ s : S, p = of s ∧ R s X

theorem tracks [LinearOrder K] {S : Type} [AbstractStrategy K V S] {R : S → Set K → Prop}
    (hR : Tracks R) : Tracks (Ok (V := V) R) where
  onAdd := by
    rintro _ X k ⟨s, rfl, hs⟩ hk v clock
    exact ⟨(onAdd k v s clock).1, rfl, hR.onAdd hs hk v clock⟩
  onRemove := by
    rintro _ X ⟨s, rfl, hs⟩ k
    exact ⟨onRemove k s, rfl, hR.onRemove hs k⟩
  onGet := by
    rintro _ X ⟨s, rfl, hs⟩ k clock
    exact ⟨(onGet k s clock).1, rfl, hR.onGet hs k clock⟩
  onClear := by
    rintro _ X ⟨s, rfl, hs⟩
    exact ⟨onClear s, rfl, hR.onClear hs⟩

end StrategyPtr

/-! ### Collections -/

/-- The strategies in the order they were pushed. -/
structure StrategyCollection (K V : Type) where
  _strategies : List (StrategyPtr K V)

namespace StrategyCollection

/-- `pushBack`. -/
def pushBack (p : StrategyPtr K V) (s : StrategyCollection K V) : StrategyCollection K V :=
  ⟨s._strategies ++ [p]⟩

/-- The loop over the strategies of a callback that reads the clock. -/
def forEach (f : StrategyPtr K V → Clock → StrategyPtr K V × Clock) :
    List (StrategyPtr K V) → Clock → List (StrategyPtr K V) × Clock
  | [], clock => ([], clock)
  | p :: ps, clock =>
      let (p, clock) := f p clock
      let (ps, clock) := forEach f ps clock
      (p :: ps, clock)

/-- `onIsValid`: the first no ends the loop. -/
def onIsValidLoop (key : K) : List (StrategyPtr K V) → Clock → Bool × Clock
  | [], clock => (true, clock)
  | p :: ps, clock =>
      let (valid, clock) := onIsValid key p clock
      if valid then onIsValidLoop key ps clock else (false, clock)

/-- `onReplace`: all strategies add to the same set. -/
def onReplaceLoop : List (StrategyPtr K V) → Clock → List K → List K × Clock
  | [], clock, elemsToRemove => (elemsToRemove, clock)
  | p :: ps, clock, elemsToRemove =>
      let (elemsToRemove, clock) := onReplace p clock elemsToRemove
      onReplaceLoop ps clock elemsToRemove

instance : AbstractStrategy K V (StrategyCollection K V) where
  onAdd key val s clock :=
    let (ps, clock) := forEach (fun p clock => onAdd key val p clock) s._strategies clock
    (⟨ps⟩, clock)
  onRemove key s := ⟨s._strategies.map (onRemove key)⟩
  onGet key s clock :=
    let (ps, clock) := forEach (fun p clock => onGet key p clock) s._strategies clock
    (⟨ps⟩, clock)
  onClear s := ⟨s._strategies.map onClear⟩
  onIsValid key s clock := onIsValidLoop key s._strategies clock
  onReplace s clock elemsToRemove := onReplaceLoop s._strategies clock elemsToRemove

/-- Every strategy of the collection knows the keys `X`, in the sense given for its place. -/
def Each (Rs : List (StrategyPtr K V → Set K → Prop)) (s : StrategyCollection K V) (X : Set K) :
    Prop := List.Forall₂ (fun R p => R p X) Rs s._strategies

theorem forall₂_forEach {Rs : List (StrategyPtr K V → Set K → Prop)}
    {f : StrategyPtr K V → Clock → StrategyPtr K V × Clock} {X Y : Set K}
    (hf : ∀ R ∈ Rs, ∀ p, R p X → ∀ clock, R (f p clock).1 Y) {ps : List (StrategyPtr K V)}
    (h : List.Forall₂ (fun R p => R p X) Rs ps) (clock : Clock) :
    List.Forall₂ (fun R p => R p Y) Rs (forEach f ps clock).1 := by
  induction h generalizing clock with
  | nil => exact List.Forall₂.nil
  | cons hp _ ih =>
      refine List.Forall₂.cons (hf _ List.mem_cons_self _ hp clock) ?_
      exact ih (fun R hR => hf R (List.mem_cons_of_mem _ hR)) _

theorem forall₂_map {Rs : List (StrategyPtr K V → Set K → Prop)}
    {f : StrategyPtr K V → StrategyPtr K V} {X Y : Set K}
    (hf : ∀ R ∈ Rs, ∀ p, R p X → R (f p) Y) {ps : List (StrategyPtr K V)}
    (h : List.Forall₂ (fun R p => R p X) Rs ps) :
    List.Forall₂ (fun R p => R p Y) Rs (ps.map f) := by
  induction h with
  | nil => exact List.Forall₂.nil
  | cons hp _ ih =>
      refine List.Forall₂.cons (hf _ List.mem_cons_self _ hp) ?_
      exact ih fun R hR => hf R (List.mem_cons_of_mem _ hR)

/-- A collection of strategies that keep track of the keys keeps track of the keys. -/
theorem tracks_each [LinearOrder K] {Rs : List (StrategyPtr K V → Set K → Prop)}
    (hRs : ∀ R ∈ Rs, Tracks R) : Tracks (Each Rs) where
  onAdd h hk v clock :=
    forall₂_forEach (fun R hR _ hp clock => (hRs R hR).onAdd hp hk v clock) h clock
  onRemove h k := forall₂_map (fun R hR _ hp => (hRs R hR).onRemove hp k) h
  onGet h k clock := forall₂_forEach (fun R hR _ hp clock => (hRs R hR).onGet hp k clock) h clock
  onClear h := forall₂_map (fun R hR _ hp => (hRs R hR).onClear hp) h

end StrategyCollection

/-! ### `ExpireLRUCache` -/

namespace ExpireLRUCache

open StrategyCollection

variable [LinearOrder K]

/-- The constructor pushes an `LRUStrategy` and an `ExpireStrategy`. -/
def strategies (l : LRUStrategy K V) (e : ExpireStrategy K V) : StrategyCollection K V :=
  (StrategyCollection.mk []).pushBack (.of l) |>.pushBack (.of e)

/-- Both strategies know the keys `X`. -/
def Knows : StrategyCollection K V → Set K → Prop :=
  Each [StrategyPtr.Ok LRUStrategy.Knows, StrategyPtr.Ok ExpireStrategy.Knows]

theorem tracks : Tracks (Knows (K := K) (V := V)) := by
  apply tracks_each
  intro R hR
  simp only [List.mem_cons, List.not_mem_nil, or_false] at hR
  rcases hR with rfl | rfl
  · exact StrategyPtr.tracks LRUStrategy.tracks
  · exact StrategyPtr.tracks ExpireStrategy.tracks

theorem knows_strategies {l : LRUStrategy K V} {e : ExpireStrategy K V} {X : Set K}
    (hl : l.Knows X) (he : e.Knows X) : Knows (strategies l e) X :=
  .cons ⟨l, rfl, hl⟩ (.cons ⟨e, rfl, he⟩ .nil)

theorem Knows.exists_strategies {s : StrategyCollection K V} {X : Set K} (h : Knows s X) :
    ∃ l e, s = strategies l e ∧ LRUStrategy.Knows l X ∧ ExpireStrategy.Knows e X := by
  obtain ⟨ps⟩ := s
  obtain _ | ⟨⟨l, rfl, hl⟩, _ | ⟨⟨e, rfl, he⟩, _ | _⟩⟩ := h
  exact ⟨l, e, rfl, hl, he⟩

/-- **Coherence.**  After any sequence of operations and for any clock readings, the keys of
the data, of the `LRUStrategy` and of the `ExpireStrategy` coincide, and the map `_keys` of
the `ExpireStrategy` is in bijection with its time index `_keyIndex`: each entry of the map
designates the one time-index entry that holds its key. -/
theorem strategies_coherent {size : ℕ} {expire : ℤ} {l₀ : LRUStrategy K V}
    {e₀ : ExpireStrategy K V} (hl₀ : LRUStrategy.make size = .ok l₀)
    (he₀ : ExpireStrategy.make expire = .ok e₀) (clock : Clock) (ops : List (Op K V)) :
    let c := ((AbstractCache.init (strategies l₀ e₀) clock).run ops).1
    ∃ l e, c._strategy = strategies l e ∧
      (∀ k, k ∈ l._keyIndex ↔ k ∈ c._data) ∧
      (∀ k, k ∈ l._keys.values ↔ k ∈ c._data) ∧ l._keys.values.Nodup ∧
      (∀ k it, l._keyIndex.lookup k = some it → l._keys.deref it = some k) ∧
      (∀ k, k ∈ e._keys ↔ k ∈ c._data) ∧
      (∀ k it, e._keys.lookup k = some it ↔ ∃ time, e._keyIndex.deref it = some (time, k)) ∧
      (e._keyIndex.values.map Prod.snd).Nodup := by
  have h0 : (AbstractCache.init (strategies l₀ e₀) clock : AbstractCache K V _).Coherent Knows := by
    unfold Coherent AbstractCache.init
    rw [setOf_mem_empty]
    exact knows_strategies (LRUStrategy.make_ok hl₀).2.2.2 (ExpireStrategy.make_ok he₀)
  obtain ⟨l, e, hs, hl, he⟩ := (h0.run tracks ops).exists_strategies
  refine ⟨l, e, hs, hl.keys, fun k => ?_, ?_, fun k it hk => ?_, he.keys, fun k it => ?_, ?_⟩
  · have hm := hl.indexed.mem_iff.symm.trans (hl.keys k)
    rwa [List.map_id] at hm
  · have hn := hl.indexed.keys_nodup
    rwa [List.map_id] at hn
  · obtain ⟨k', hd, hkey⟩ := hl.indexed.deref hk
    rw [hd, ← hkey]
    rfl
  · rw [he.indexed k it]
    simp only [NodeList.deref_eq_some, Prod.exists, id]
    constructor
    · rintro ⟨time, k', hm, rfl⟩
      exact ⟨time, hm⟩
    · rintro ⟨time, hm⟩
      exact ⟨time, k, hm, rfl⟩
  · exact he.indexed.keys_nodup

private theorem tenMilliseconds : Monotone (fun n : ℕ => 10000 * (n : ℤ)) := by
  intro m n h
  dsimp only
  omega

/-- Two entries expire at different times and the third evicts the second. -/
theorem strategies_coherent_small :
    let l₀ : LRUStrategy ℕ ℕ := ⟨2, .empty, ∅, by decide⟩
    let e₀ : ExpireStrategy ℕ ℕ := ⟨⟨∅, .empty⟩, 25000⟩
    let c := ((AbstractCache.init (strategies l₀ e₀) ⟨fun n => 10000 * n, tenMilliseconds, 0⟩).run
      [.add 1 (some 10), .add 2 (some 20), .get 1, .add 3 (some 30), .forceReplace]).1
    ∃ l e, c._strategy = strategies l e ∧ (∀ k, k ∈ l._keyIndex ↔ k ∈ c._data) ∧
      ∀ k, k ∈ e._keys ↔ k ∈ c._data :=
  have hl₀ : LRUStrategy.make 2 = .ok (⟨2, .empty, ∅, by decide⟩ : LRUStrategy ℕ ℕ) := rfl
  have he₀ : ExpireStrategy.make 25 = .ok (⟨⟨∅, .empty⟩, 25000⟩ : ExpireStrategy ℕ ℕ) := rfl
  have ⟨l, e, hs, h1, _, _, _, h2, _⟩ := strategies_coherent hl₀ he₀ ⟨_, tenMilliseconds, 0⟩
    [.add 1 (some 10), .add 2 (some 20), .get 1, .add 3 (some 30), .forceReplace]
  ⟨l, e, hs, h1, h2⟩

end ExpireLRUCache

end Poco.Foundation
