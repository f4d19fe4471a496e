import Poco.Foundation.AbstractCache
import Poco.Lib.NodeList

/-! # The cache strategies

`LRUStrategy`, `ExpireStrategy`, `AccessExpireStrategy`, `UniqueAccessExpireStrategy` and
`StrategyCollection` as instances of `AbstractStrategy`.  Iterators kept in an index map are
node identifiers (`Poco.Lib.NodeList`).

The expiry strategies share their two containers: a `std::multimap` from time to key and a
`std::map` from a key to its multimap iterator.  `TimeIndex` holds both and the updates all
expiry strategies make; each strategy then says which time and which payload it enters.

For every strategy `Knows s X` says that `s` stores exactly the keys `X` and that its index
is in bijection with its list, and `tracks` that the callbacks keep this. -/

namespace Poco.Foundation

open Poco.Lib

variable {K V P : Type} [LinearOrder K]

/-! ### `LRUStrategy` -/

/-- The data members of `LRUStrategy`; the constructor checks the size. -/
structure LRUStrategy (K V : Type) where
  /-- Number of keys the cache can store. -/
  _size : ℕ
  /-- The keys, most recently used first. -/
  _keys : NodeList K
  /-- For faster access to `_keys`. -/
  _keyIndex : AList (fun _ : K => ℕ)
  size_pos : 1 ≤ _size

namespace LRUStrategy

/-- The constructor. -/
def make (size : ℕ) : Except String (LRUStrategy K V) :=
  if h : 1 ≤ size then .ok ⟨size, .empty, ∅, h⟩ else .error "size must be > 0"

/-- `onAdd`: a new node at the front; the index entry is made or redirected. -/
def onAdd (key : K) (s : LRUStrategy K V) : LRUStrategy K V :=
  let keys := s._keys.pushFront key
  { s with _keys := keys, _keyIndex := s._keyIndex.insert key keys.begin }

/-- `onRemove`. -/
def onRemove (key : K) (s : LRUStrategy K V) : LRUStrategy K V :=
  match s._keyIndex.lookup key with
  | none => s
  | some it => { s with _keys := s._keys.erase it, _keyIndex := s._keyIndex.erase key }

/-- `onGet`: in case of a hit, move to begin. -/
def onGet (key : K) (s : LRUStrategy K V) : LRUStrategy K V :=
  match s._keyIndex.lookup key with
  | none => s
  | some it =>
      let keys := s._keys.moveToFront it
      { s with _keys := keys, _keyIndex := s._keyIndex.insert key keys.begin }

/-- `onClear`. -/
def onClear (s : LRUStrategy K V) : LRUStrategy K V :=
  { s with _keys := s._keys.clear, _keyIndex := ∅ }

/-- The loop of `onReplace`; the second argument lists the keys from the iterator back to
the first one, where the iterator stops moving. -/
def walkBack : ℕ → List K → List K → List K
  | 0, _, elemsToRemove => elemsToRemove
  | _ + 1, [], elemsToRemove => elemsToRemove
  | n + 1, [k], elemsToRemove => walkBack n [k] (setInsert k elemsToRemove)
  | n + 1, k :: k' :: ks, elemsToRemove => walkBack n (k' :: ks) (setInsert k elemsToRemove)

/-- `onReplace`. -/
def onReplace (s : LRUStrategy K V) (elemsToRemove : List K) : List K :=
  let curSize := s._keyIndex.keys.length
  if curSize < s._size then elemsToRemove
  else walkBack (curSize - s._size) s._keys.values.reverse elemsToRemove

instance : AbstractStrategy K V (LRUStrategy K V) where
  onAdd key _ s clock := (s.onAdd key, clock)
  onRemove key s := s.onRemove key
  onGet key s clock := (s.onGet key, clock)
  onClear s := s.onClear
  onIsValid key s clock := (decide (key ∈ s._keyIndex), clock)
  onReplace s clock elemsToRemove := (s.onReplace elemsToRemove, clock)

/-- The index and the list hold exactly the keys `X`, each in its own node. -/
def Knows (s : LRUStrategy K V) (X : Set K) : Prop :=
  NodeList.Holds id s._keyIndex s._keys X

theorem make_ok {size : ℕ} {s : LRUStrategy K V} (h : make size = .ok s) :
    1 ≤ size ∧ s._size = size ∧ s._keys.values = [] ∧ s.Knows ∅ := by
  unfold make at h
  split_ifs at h with hsize
  obtain rfl := Except.ok.inj h
  exact ⟨hsize, rfl, rfl, NodeList.holds_empty⟩

theorem Knows.onAdd {s : LRUStrategy K V} {X : Set K} (h : s.Knows X) {key : K}
    (hk : key ∉ X) : (s.onAdd key).Knows (insert key X) := by
  unfold Knows LRUStrategy.onAdd
  dsimp only
  rw [NodeList.begin_pushFront]
  exact h.insertWhere (a := key) hk _

theorem Knows.onRemove {s : LRUStrategy K V} {X : Set K} (h : s.Knows X) (key : K) :
    (s.onRemove key).Knows (X \ {key}) := by
  unfold LRUStrategy.onRemove
  split
  · next hk => exact h.diff hk
  · next it hk => exact h.erase hk

theorem Knows.onGet {s : LRUStrategy K V} {X : Set K} (h : s.Knows X) (key : K) :
    (s.onGet key).Knows X := by
  unfold LRUStrategy.onGet
  split
  · exact h
  · next it hk => exact h.moveToFront hk

theorem tracks : Tracks (Knows : LRUStrategy K V → Set K → Prop) where
  onAdd h hk _ _ := h.onAdd hk
  onRemove h k := h.onRemove k
  onGet h k _ := h.onGet k
  onClear _ := NodeList.holds_clear _

end LRUStrategy

/-! ### The time index of the expiry strategies -/

/-- A multimap from time to payload and a map from a key to its iterator. -/
structure TimeIndex (K P : Type) where
  /-- For faster replacement of keys, the iterator points to `_keyIndex`. -/
  _keys : AList (fun _ : K => ℕ)
  /-- Maps time to payload. -/
  _keyIndex : NodeList (ℤ × P)

namespace TimeIndex

/-- `std::multimap::insert`: behind the entries that are not later. -/
def multimapInsert (time : ℤ) (p : P) (l : NodeList (ℤ × P)) : NodeList (ℤ × P) :=
  l.insertWhere (fun e => decide (e.1 ≤ time)) (time, p)

/-- A new entry; the node an existing index entry points to is unlinked. -/
def add (key : K) (time : ℤ) (p : P) (t : TimeIndex K P) : TimeIndex K P :=
  let it := t._keyIndex.next
  let index := multimapInsert time p t._keyIndex
  match t._keys.lookup key with
  | none => ⟨t._keys.insert key it, index⟩
  | some old => ⟨t._keys.insert key it, index.erase old⟩

/-- Unlink the node of a key and its index entry. -/
def remove (key : K) (t : TimeIndex K P) : TimeIndex K P :=
  match t._keys.lookup key with
  | none => t
  | some it => ⟨t._keys.erase key, t._keyIndex.erase it⟩

/-- Both containers are cleared. -/
def clear (t : TimeIndex K P) : TimeIndex K P := ⟨∅, t._keyIndex.clear⟩

/-- What the iterator of a key points to. -/
def find (key : K) (t : TimeIndex K P) : Option (ℕ × ℤ × P) :=
  (t._keys.lookup key).bind fun it => (t._keyIndex.deref it).map (it, ·)

/-- Unlink the node `old` of a key and enter the key at a new time. -/
def rearm (key : K) (old : ℕ) (time : ℤ) (p : P) (t : TimeIndex K P) : TimeIndex K P :=
  ⟨t._keys.insert key t._keyIndex.next, multimapInsert time p (t._keyIndex.erase old)⟩

/-- The index and the multimap hold exactly the keys `X`, each in its own node. -/
def Knows (pk : P → K) (t : TimeIndex K P) (X : Set K) : Prop :=
  NodeList.Holds (fun e => pk e.2) t._keys t._keyIndex X

section knows

variable {pk : P → K} {t : TimeIndex K P} {X : Set K}

theorem find_eq_some {key : K} {it : ℕ} {e : ℤ × P} :
    t.find key = some (it, e) ↔ t._keys.lookup key = some it ∧ t._keyIndex.deref it = some e := by
  unfold find
  constructor
  · intro h
    obtain ⟨i, hi, h⟩ := Option.bind_eq_some_iff.mp h
    obtain ⟨e', he, heq⟩ := Option.map_eq_some_iff.mp h
    obtain ⟨rfl, rfl⟩ := Prod.mk.inj heq
    exact ⟨hi, he⟩
  · rintro ⟨hi, he⟩
    simp [hi, he]

theorem Knows.find (h : t.Knows pk X) {key : K} (hk : key ∈ X) :
    ∃ it time p, t.find key = some (it, time, p) ∧ pk p = key := by
  obtain ⟨it, hit⟩ := Option.isSome_iff_exists.mp (AList.lookup_isSome.mpr ((h.keys key).mpr hk))
  obtain ⟨⟨time, p⟩, hd, hkey⟩ := h.indexed.deref hit
  exact ⟨it, time, p, find_eq_some.mpr ⟨hit, hd⟩, hkey⟩

theorem Knows.find_iff (h : t.Knows pk X) {key : K} {it : ℕ} {e : ℤ × P} :
    t.find key = some (it, e) ↔ (it, e) ∈ t._keyIndex.nodes ∧ pk e.2 = key := by
  rw [find_eq_some, NodeList.deref_eq_some]
  constructor
  · rintro ⟨hk, hm⟩
    obtain ⟨e', hm', hkey⟩ := (h.indexed key it).mp hk
    obtain rfl := NodeList.eq_of_mem hm hm'
    exact ⟨hm, hkey⟩
  · rintro ⟨hm, rfl⟩
    exact ⟨h.indexed.lookup hm, hm⟩

theorem Knows.add (h : t.Knows pk X) {key : K} (hk : key ∉ X) (time : ℤ) {p : P}
    (hp : pk p = key) : (t.add key time p).Knows pk (insert key X) := by
  have hkey : t._keys.lookup key = none := by
    rw [AList.lookup_eq_none, h.keys]
    exact hk
  subst hp
  unfold TimeIndex.add
  rw [hkey]
  exact h.insertWhere (a := (time, p)) hk (fun e => decide (e.1 ≤ time))

theorem Knows.remove (h : t.Knows pk X) (key : K) : (t.remove key).Knows pk (X \ {key}) := by
  unfold TimeIndex.remove
  split
  · next hk => exact h.diff hk
  · next it hk => exact h.erase hk

theorem Knows.rearm (h : t.Knows pk X) {key : K} {old : ℕ} {e : ℤ × P}
    (hf : t.find key = some (old, e)) (time : ℤ) {p : P} (hp : pk p = key) :
    (t.rearm key old time p).Knows pk X := by
  subst hp
  exact h.replace (a := (time, p)) (find_eq_some.mp hf).1 (fun e => decide (e.1 ≤ time))

end knows

end TimeIndex

/-! ### `ExpireStrategy` -/

/-- The data members of `ExpireStrategy`. -/
structure ExpireStrategy (K V : Type) extends TimeIndex K K where
  _expireTime : ℤ

namespace ExpireStrategy

/-- The constructor. -/
def make (expireTimeInMilliSec : ℤ) : Except String (ExpireStrategy K V) :=
  if expireTimeInMilliSec * 1000 < 25000 then .error "expireTime must be at least 25 ms"
  else .ok ⟨⟨∅, .empty⟩, expireTimeInMilliSec * 1000⟩

/-- `onAdd`: the key is entered at the present time. -/
def onAdd (key : K) (s : ExpireStrategy K V) (clock : Clock) : ExpireStrategy K V × Clock :=
  ({ s with toTimeIndex := s.toTimeIndex.add key clock.now key }, clock.tick)

/-- `onRemove`. -/
def onRemove (key : K) (s : ExpireStrategy K V) : ExpireStrategy K V :=
  { s with toTimeIndex := s.toTimeIndex.remove key }

/-- `onClear`. -/
def onClear (s : ExpireStrategy K V) : ExpireStrategy K V :=
  { s with toTimeIndex := s.toTimeIndex.clear }

/-- `onIsValid`: a key that is not found was probably removed by `onReplace`. -/
def onIsValid (key : K) (s : ExpireStrategy K V) (clock : Clock) : Bool × Clock :=
  match s.find key with
  | none => (false, clock)
  | some (_, time, _) =>
      let (elapsed, clock) := isElapsed time s._expireTime clock
      (!elapsed, clock)

/-- The loop of `onReplace` over the time index; every test reads the clock. -/
def collectElapsed (expireTime : ℤ) : List (ℤ × K) → Clock → List K → List K × Clock
  | [], clock, elemsToRemove => (elemsToRemove, clock)
  | (time, key) :: rest, clock, elemsToRemove =>
      let (elapsed, clock) := isElapsed time expireTime clock
      if elapsed then collectElapsed expireTime rest clock (setInsert key elemsToRemove)
      else (elemsToRemove, clock)

/-- `onReplace`. -/
def onReplace (s : ExpireStrategy K V) (clock : Clock) (elemsToRemove : List K) :
    List K × Clock :=
  collectElapsed s._expireTime s._keyIndex.values clock elemsToRemove

instance : AbstractStrategy K V (ExpireStrategy K V) where
  onAdd key _ s clock := s.onAdd key clock
  onRemove key s := s.onRemove key
  onGet _ s clock := (s, clock)
  onClear s := s.onClear
  onIsValid key s clock := s.onIsValid key clock
  onReplace s clock elemsToRemove := s.onReplace clock elemsToRemove

/-- The index and the multimap hold exactly the keys `X`. -/
def Knows (s : ExpireStrategy K V) (X : Set K) : Prop := s.toTimeIndex.Knows id X

theorem make_ok {expireTime : ℤ} {s : ExpireStrategy K V} (h : make expireTime = .ok s) :
    s.Knows ∅ := by
  unfold make at h
  split_ifs at h
  obtain rfl := Except.ok.inj h
  exact NodeList.holds_empty

theorem Knows.onAdd {s : ExpireStrategy K V} {X : Set K} (h : s.Knows X) {key : K}
    (hk : key ∉ X) (clock : Clock) : (s.onAdd key clock).1.Knows (insert key X) :=
  TimeIndex.Knows.add h hk clock.now rfl

theorem Knows.onRemove {s : ExpireStrategy K V} {X : Set K} (h : s.Knows X) (key : K) :
    (s.onRemove key).Knows (X \ {key}) := TimeIndex.Knows.remove h key

theorem tracks : Tracks (Knows : ExpireStrategy K V → Set K → Prop) where
  onAdd h hk _ clock := h.onAdd hk clock
  onRemove h k := h.onRemove k
  onGet h _ _ := h
  onClear _ := NodeList.holds_clear _

end ExpireStrategy

/-! ### `AccessExpireStrategy` -/

/-- `AccessExpireStrategy` derives from `ExpireStrategy` and overrides `onGet`. -/
structure AccessExpireStrategy (K V : Type) extends ExpireStrategy K V

namespace AccessExpireStrategy

/-- The constructor. -/
def make (expireTimeInMilliSec : ℤ) : Except String (AccessExpireStrategy K V) :=
  (ExpireStrategy.make expireTimeInMilliSec).map fun s => ⟨s⟩

/-- `onGet`: don't extend if already expired. -/
def onGet (key : K) (s : AccessExpireStrategy K V) (clock : Clock) :
    AccessExpireStrategy K V × Clock :=
  match s.find key with
  | none => (s, clock)
  | some (it, time, _) =>
      let (elapsed, clock) := isElapsed time s._expireTime clock
      if elapsed then (s, clock)
      else ({ s with toTimeIndex := s.rearm key it clock.now key }, clock.tick)

instance : AbstractStrategy K V (AccessExpireStrategy K V) where
  onAdd key _ s clock := ((⟨(s.onAdd key clock).1⟩ : AccessExpireStrategy K V), (s.onAdd key clock).2)
  onRemove key s := ⟨s.onRemove key⟩
  onGet key s clock := s.onGet key clock
  onClear s := ⟨s.onClear⟩
  onIsValid key s clock := s.onIsValid key clock
  onReplace s clock elemsToRemove := s.onReplace clock elemsToRemove

/-- The index and the multimap hold exactly the keys `X`. -/
def Knows (s : AccessExpireStrategy K V) (X : Set K) : Prop := s.toTimeIndex.Knows id X

theorem Knows.onGet {s : AccessExpireStrategy K V} {X : Set K} (h : s.Knows X) (key : K)
    (clock : Clock) : (s.onGet key clock).1.Knows X := by
  unfold AccessExpireStrategy.onGet
  split
  · exact h
  · next it time p hf =>
      dsimp only
      split_ifs
      · exact h
      · exact TimeIndex.Knows.rearm h hf _ rfl

theorem tracks : Tracks (Knows : AccessExpireStrategy K V → Set K → Prop) where
  onAdd h hk _ clock := ExpireStrategy.Knows.onAdd h hk clock
  onRemove h k := ExpireStrategy.Knows.onRemove h k
  onGet h k clock := h.onGet k clock
  onClear _ := NodeList.holds_clear _

end AccessExpireStrategy

/-! ### `UniqueAccessExpireStrategy` -/

/-- Values that tell how long they may stay unaccessed, in microseconds. -/
class HasTimeout (V : Type) where
  getTimeout : V → ℤ

export HasTimeout (getTimeout)

/-- `AccessExpirationDecorator`: a value with its timeout. -/
structure AccessExpirationDecorator (T : Type) where
  _value : T
  _span : ℤ
  deriving DecidableEq

instance (T : Type) : HasTimeout (AccessExpirationDecorator T) := ⟨fun d => d._span⟩

/-- The data members of `UniqueAccessExpireStrategy`: the payload of the time index is the
key and its timeout, the time is the deadline. -/
structure UniqueAccessExpireStrategy (K V : Type) extends TimeIndex K (K × ℤ)

namespace UniqueAccessExpireStrategy

/-- The constructor. -/
def make : UniqueAccessExpireStrategy K V := ⟨⟨∅, .empty⟩⟩

/-- `onAdd`: the deadline lies the timeout of the value after the present time. -/
def onAdd [HasTimeout V] (key : K) (val : V) (s : UniqueAccessExpireStrategy K V)
    (clock : Clock) : UniqueAccessExpireStrategy K V × Clock :=
  (⟨s.add key (clock.now + getTimeout val) (key, getTimeout val)⟩, clock.tick)

/-- `onRemove`. -/
def onRemove (key : K) (s : UniqueAccessExpireStrategy K V) : UniqueAccessExpireStrategy K V :=
  ⟨s.remove key⟩

/-- `onGet`: get updates the expiration time stamp. -/
def onGet (key : K) (s : UniqueAccessExpireStrategy K V) (clock : Clock) :
    UniqueAccessExpireStrategy K V × Clock :=
  match s.find key with
  | none => (s, clock)
  | some (it, _, ke) => (⟨s.rearm key it (clock.now + ke.2) ke⟩, clock.tick)

/-- `onIsValid`. -/
def onIsValid (key : K) (s : UniqueAccessExpireStrategy K V) (clock : Clock) : Bool × Clock :=
  match s.find key with
  | none => (false, clock)
  | some (_, expire, _) => (decide (¬ expire ≤ clock.now), clock.tick)

/-- The loop of `onReplace` over the time index. -/
def collectPassed (now : ℤ) : List (ℤ × K × ℤ) → List K → List K
  | [], elemsToRemove => elemsToRemove
  | (expire, ke) :: rest, elemsToRemove =>
      if expire < now then collectPassed now rest (setInsert ke.1 elemsToRemove)
      else elemsToRemove

/-- `onReplace`: the clock is read once. -/
def onReplace (s : UniqueAccessExpireStrategy K V) (clock : Clock) (elemsToRemove : List K) :
    List K × Clock :=
  (collectPassed clock.now s._keyIndex.values elemsToRemove, clock.tick)

instance [HasTimeout V] : AbstractStrategy K V (UniqueAccessExpireStrategy K V) where
  onAdd key val s clock := s.onAdd key val clock
  onRemove key s := s.onRemove key
  onGet key s clock := s.onGet key clock
  onClear s := ⟨s.clear⟩
  onIsValid key s clock := s.onIsValid key clock
  onReplace s clock elemsToRemove := s.onReplace clock elemsToRemove

/-- The index and the multimap hold exactly the keys `X`. -/
def Knows (s : UniqueAccessExpireStrategy K V) (X : Set K) : Prop :=
  s.toTimeIndex.Knows Prod.fst X

theorem Knows.onGet {s : UniqueAccessExpireStrategy K V} {X : Set K} (h : s.Knows X) (key : K)
    (clock : Clock) : (s.onGet key clock).1.Knows X := by
  unfold UniqueAccessExpireStrategy.onGet
  split
  · exact h
  · next it expire ke hf =>
      exact TimeIndex.Knows.rearm h hf _ (TimeIndex.Knows.find_iff h |>.mp hf).2

theorem tracks [HasTimeout V] :
    Tracks (Knows : UniqueAccessExpireStrategy K V → Set K → Prop) where
  onAdd h hk _ _ := TimeIndex.Knows.add h hk _ rfl
  onRemove h k := TimeIndex.Knows.remove h k
  onGet h k clock := h.onGet k clock
  onClear _ := NodeList.holds_clear _

end UniqueAccessExpireStrategy

end Poco.Foundation
