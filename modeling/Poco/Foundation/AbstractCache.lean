import Mathlib

/-! # `Poco::AbstractCache`

A cache owns a map `_data` and a strategy object that is told about every access through
the events `Add`, `Update`, `Remove`, `Get`, `Clear` and asked through `IsValid` and
`Replace`.  `AbstractStrategy` is the interface; `AbstractCache K V S` is the cache over a
strategy type `S`, with the operations as the source computes them, callbacks in the same
order.

* **Time.** Strategies read the system time by constructing a `Timestamp`.  The readings
  are a non-decreasing stream of microsecond values fixed in advance; `pos` counts the ones already taken,
  so a run of the cache takes them one after the other.
* **Null pointers.** Both overloads of `add` and `update` are one operation here, with a
  `SharedPtr` argument; the overload that takes a value never passes a null pointer.

`Tracks Ok` is what a strategy must guarantee for a relation `Ok s X` (the strategy `s`
knows exactly the keys `X`) to survive its callbacks; `Coherent.run` then carries the
relation between the strategy and the keys of `_data` through every run. -/

namespace Poco.Foundation

/-! ### Time -/

/-- The readings of the system clock, in microseconds, and how many have been taken. -/
structure Clock where
  readings : ℕ → ℤ
  mono : Monotone readings
  pos : ℕ

namespace Clock

/-- The value of the next `Timestamp now;`. -/
def now (c : Clock) : ℤ := c.readings c.pos

/-- The clock after one reading. -/
def tick (c : Clock) : Clock := { c with pos := c.pos + 1 }

/-- The reading taken last. -/
def last (c : Clock) : ℤ := c.readings (c.pos - 1)

@[simp] theorem last_tick (c : Clock) : c.tick.last = c.now := rfl

theorem now_le_now_tick (c : Clock) : c.now ≤ c.tick.now := c.mono (Nat.le_succ _)

end Clock

/-- `Timestamp::isElapsed`. -/
def isElapsed (ts interval : ℤ) (c : Clock) : Bool × Clock :=
  (decide (interval ≤ c.now - ts), c.tick)

/-! ### Ordered sets -/

section keySet

variable {K : Type} [LinearOrder K]

/-- `std::set::insert`, on the elements in order. -/
def setInsert (k : K) (l : List K) : List K := if k ∈ l then l else l.orderedInsert (· ≤ ·) k

@[simp] theorem mem_setInsert {k x : K} {l : List K} : x ∈ setInsert k l ↔ x = k ∨ x ∈ l := by
  unfold setInsert
  split_ifs with h
  · constructor
    · exact Or.inr
    · rintro (rfl | hx)
      · exact h
      · exact hx
  · exact List.mem_orderedInsert _

theorem setInsert_sorted {k : K} {l : List K} (h : l.Pairwise (· < ·)) :
    (setInsert k l).Pairwise (· < ·) := by
  unfold setInsert
  split_ifs with hk
  · exact h
  · have hle : l.Pairwise (· ≤ ·) := h.imp le_of_lt
    have hnd : (l.orderedInsert (· ≤ ·) k).Nodup :=
      (List.perm_orderedInsert (· ≤ ·) k l).nodup_iff.mpr
        (List.nodup_cons.mpr ⟨hk, h.imp ne_of_lt⟩)
    exact ((hle.orderedInsert k l).and hnd).imp fun h => lt_of_le_of_ne h.1 h.2

/-- The set of the elements of a list does not depend on their order. -/
theorem foldr_setInsert_perm {l l' : List K} (h : l.Perm l') :
    l.foldr setInsert [] = l'.foldr setInsert [] := by
  have hsorted : ∀ l : List K, (l.foldr setInsert []).Pairwise (· < ·) := by
    intro l
    induction l with
    | nil => exact List.Pairwise.nil
    | cons k l ih => exact setInsert_sorted ih
  have hmem : ∀ (l : List K) (k : K), k ∈ l.foldr setInsert [] ↔ k ∈ l := by
    intro l k
    induction l with
    | nil => simp
    | cons k' l ih => rw [List.foldr_cons, mem_setInsert, ih, List.mem_cons]
  have hperm : (l.foldr setInsert []).Perm (l'.foldr setInsert []) := by
    refine (List.perm_ext_iff_of_nodup ((hsorted l).imp ne_of_lt)
      ((hsorted l').imp ne_of_lt)).mpr fun k => ?_
    rw [hmem, hmem, h.mem_iff]
  exact hperm.eq_of_pairwise' ((hsorted l).imp le_of_lt) ((hsorted l').imp le_of_lt)

end keySet

/-! ### Strategies -/

universe u

/-- The callbacks of a cache strategy. -/
class AbstractStrategy (K V : outParam Type) (S : Type u) where
  onAdd : K → V → S → Clock → S × Clock
  onRemove : K → S → S
  onGet : K → S → Clock → S × Clock
  onClear : S → S
  /-- The value `isValid()` of the arguments after the callback. -/
  onIsValid : K → S → Clock → Bool × Clock
  /-- Adds the keys to be removed to `elemsToRemove`. -/
  onReplace : S → Clock → List K → List K × Clock

export AbstractStrategy (onAdd onRemove onGet onClear onIsValid onReplace)

variable {K V : Type} {S : Type u} [LinearOrder K] [AbstractStrategy K V S]

/-- The default `onUpdate`: a removal and an addition. -/
def onUpdate (key : K) (val : V) (s : S) (clock : Clock) : S × Clock :=
  onAdd key val (onRemove key s) clock

/-! ### The cache -/

/-- The data members of a cache, and the clock its strategy reads. -/
structure AbstractCache (K V : Type) (S : Type u) where
  _strategy : S
  _data : AList (fun _ : K => V)
  clock : Clock

namespace AbstractCache

/-- A cache as constructed. -/
def init (s : S) (clock : Clock) : AbstractCache K V S := ⟨s, ∅, clock⟩

/-- `doRemove(_data.find(key))`. -/
def doRemove (key : K) (c : AbstractCache K V S) : AbstractCache K V S :=
  if key ∈ c._data then
    { c with _strategy := onRemove key c._strategy, _data := c._data.erase key }
  else c

/-- `doReplace`: every key of `delMe` is looked up and removed, in order. -/
def doReplace (c : AbstractCache K V S) : AbstractCache K V S :=
  let (delMe, clock) := onReplace c._strategy c.clock []
  delMe.foldl (fun c key => c.doRemove key) { c with clock := clock }

/-- What the caller of an operation sees. -/
inductive Res (K V : Type)
  | void
  | nullPointerException
  | bool (b : Bool)
  | value (p : Option V)
  | size (n : ℕ)
  | keys (l : List K)
  deriving DecidableEq

/-- `doAdd`: the old entry goes before the pointer is dereferenced. -/
def doAdd (key : K) (val : Option V) (c : AbstractCache K V S) : AbstractCache K V S × Res K V :=
  let c := c.doRemove key
  match val with
  | none => (c, .nullPointerException)
  | some v =>
      let (s, clock) := onAdd key v c._strategy c.clock
      (doReplace ⟨s, c._data.insert key v, clock⟩, .void)

/-- `doUpdate`: the pointer is dereferenced first. -/
def doUpdate (key : K) (val : Option V) (c : AbstractCache K V S) :
    AbstractCache K V S × Res K V :=
  match val with
  | none => (c, .nullPointerException)
  | some v =>
      let (s, clock) :=
        if key ∈ c._data then onUpdate key v c._strategy c.clock
        else onAdd key v c._strategy c.clock
      (doReplace ⟨s, c._data.insert key v, clock⟩, .void)

/-- `doHas`: only the clock moves. -/
def doHas (key : K) (c : AbstractCache K V S) : AbstractCache K V S × Bool :=
  if key ∈ c._data then
    let (valid, clock) := onIsValid key c._strategy c.clock
    ({ c with clock := clock }, valid)
  else (c, false)

/-- `doGet`: the strategies hear of the access before they are asked for validity. -/
def doGet (key : K) (c : AbstractCache K V S) : AbstractCache K V S × Option V :=
  match c._data.lookup key with
  | none => (c, none)
  | some v =>
      let (s, clock) := onGet key c._strategy c.clock
      let (valid, clock) := onIsValid key s clock
      let c := { c with _strategy := s, clock := clock }
      if valid then (c, some v) else (c.doRemove key, none)

/-- `doClear`. -/
def doClear (c : AbstractCache K V S) : AbstractCache K V S :=
  { c with _strategy := onClear c._strategy, _data := ∅ }

/-- The public operations. -/
inductive Op (K V : Type)
  | add (key : K) (val : Option V)
  | update (key : K) (val : Option V)
  | remove (key : K)
  | has (key : K)
  | get (key : K)
  | clear
  | size
  | forceReplace
  | getAllKeys

/-- One operation: the cache afterwards and the result. -/
def step (c : AbstractCache K V S) : Op K V → AbstractCache K V S × Res K V
  | .add key val => c.doAdd key val
  | .update key val => c.doUpdate key val
  | .remove key => (c.doRemove key, .void)
  | .has key => ((c.doHas key).1, .bool (c.doHas key).2)
  | .get key => ((c.doGet key).1, .value (c.doGet key).2)
  | .clear => (c.doClear, .void)
  | .size => (c.doReplace, .size c.doReplace._data.keys.length)
  | .forceReplace => (c.doReplace, .void)
  | .getAllKeys => (c.doReplace, .keys (c.doReplace._data.keys.foldr setInsert []))

/-- A sequence of operations: the cache afterwards and the results in order. -/
def run (c : AbstractCache K V S) : List (Op K V) → AbstractCache K V S × List (Res K V)
  | [] => (c, [])
  | op :: ops => ((run (c.step op).1 ops).1, (c.step op).2 :: (run (c.step op).1 ops).2)

end AbstractCache

/-! ### Coherence of strategy and data -/

section keys

omit [AbstractStrategy K V S]

omit [LinearOrder K] in
@[simp] theorem setOf_mem_empty : {k : K | k ∈ (∅ : AList (fun _ : K => V))} = ∅ := by
  ext k
  simp

theorem setOf_mem_insert (data : AList (fun _ : K => V)) (key : K) (v : V) :
    {k | k ∈ data.insert key v} = insert key {k | k ∈ data} := by
  ext k
  simp [AList.mem_insert]

theorem setOf_mem_erase (data : AList (fun _ : K => V)) (key : K) :
    {k | k ∈ data.erase key} = {k | k ∈ data} \ {key} := by
  ext k
  simp [AList.mem_erase, and_comm]

end keys

/-- The callbacks of a strategy keep `Ok s X`: the strategy `s` knows exactly the keys `X`.
A key is only added when it is not known. -/
structure Tracks (Ok : S → Set K → Prop) : Prop where
  onAdd : ∀ {s X k}, Ok s X → k ∉ X → ∀ v clock, Ok (onAdd k v s clock).1 (insert k X)
  onRemove : ∀ {s X}, Ok s X → ∀ k, Ok (onRemove k s) (X \ {k})
  onGet : ∀ {s X}, Ok s X → ∀ k clock, Ok (onGet k s clock).1 X
  onClear : ∀ {s X}, Ok s X → Ok (onClear s) ∅

namespace AbstractCache

/-- The strategy of a cache knows exactly the keys of `_data`. -/
def Coherent (Ok : S → Set K → Prop) (c : AbstractCache K V S) : Prop :=
  Ok c._strategy {k | k ∈ c._data}

section coherent

variable {Ok : S → Set K → Prop}

omit [AbstractStrategy K V S] in
/-- Storing a value under a key the strategy has just been told of. -/
theorem coherent_insert {s : S} {data : AList (fun _ : K => V)} {X : Set K} {key : K}
    (hX : insert key X = insert key {k | k ∈ data}) (hs : Ok s (insert key X)) (v : V)
    (clock : Clock) : Coherent Ok ⟨s, data.insert key v, clock⟩ := by
  unfold Coherent
  rw [setOf_mem_insert, ← hX]
  exact hs

variable (hOk : Tracks Ok)
include hOk

theorem Coherent.doRemove {c : AbstractCache K V S} (h : c.Coherent Ok) (key : K) :
    (c.doRemove key).Coherent Ok := by
  unfold AbstractCache.doRemove
  split_ifs with hk
  · unfold Coherent
    rw [setOf_mem_erase]
    exact hOk.onRemove h key
  · exact h

theorem Coherent.foldl_doRemove {c : AbstractCache K V S} (h : c.Coherent Ok) (l : List K) :
    (l.foldl (fun c key => c.doRemove key) c).Coherent Ok := by
  induction l generalizing c with
  | nil => exact h
  | cons key l ih => exact ih (h.doRemove hOk key)

theorem Coherent.doReplace {c : AbstractCache K V S} (h : c.Coherent Ok) :
    c.doReplace.Coherent Ok := by
  have hc : Coherent Ok { c with clock := (onReplace c._strategy c.clock []).2 } := h
  exact hc.foldl_doRemove hOk (onReplace c._strategy c.clock []).1

theorem Coherent.doAdd {c : AbstractCache K V S} (h : c.Coherent Ok) (key : K)
    (val : Option V) : (c.doAdd key val).1.Coherent Ok := by
  have hr := h.doRemove hOk key
  have hk : key ∉ (c.doRemove key)._data := by
    unfold AbstractCache.doRemove
    split_ifs with hk
    · simp [AList.mem_erase]
    · exact hk
  unfold AbstractCache.doAdd
  cases val with
  | none => exact hr
  | some v =>
      apply Coherent.doReplace hOk
      exact coherent_insert rfl (hOk.onAdd hr hk v _) v _

theorem Coherent.doUpdate {c : AbstractCache K V S} (h : c.Coherent Ok) (key : K)
    (val : Option V) : (c.doUpdate key val).1.Coherent Ok := by
  unfold AbstractCache.doUpdate
  cases val with
  | none => exact h
  | some v =>
      apply Coherent.doReplace hOk
      split_ifs with hk
      · refine coherent_insert (X := {k | k ∈ c._data} \ {key}) (by simp) ?_ v _
        exact hOk.onAdd (hOk.onRemove h key) (by simp) v _
      · exact coherent_insert rfl (hOk.onAdd h hk v _) v _

theorem Coherent.doGet {c : AbstractCache K V S} (h : c.Coherent Ok) (key : K) :
    (c.doGet key).1.Coherent Ok := by
  unfold AbstractCache.doGet
  split
  · exact h
  · have hg : ∀ t, Coherent Ok ⟨(onGet key c._strategy c.clock).1, c._data, t⟩ :=
      fun _ => hOk.onGet h key c.clock
    dsimp only
    split_ifs
    · exact hg _
    · exact (hg _).doRemove hOk key

omit [LinearOrder K] in
theorem Coherent.doClear {c : AbstractCache K V S} (h : c.Coherent Ok) :
    c.doClear.Coherent Ok := by
  unfold Coherent AbstractCache.doClear
  rw [setOf_mem_empty]
  exact hOk.onClear h

/-- Every operation keeps the strategy coherent with the data. -/
theorem Coherent.step {c : AbstractCache K V S} (h : c.Coherent Ok) (op : Op K V) :
    (c.step op).1.Coherent Ok := by
  cases op with
  | add key val => exact h.doAdd hOk key val
  | update key val => exact h.doUpdate hOk key val
  | remove key => exact h.doRemove hOk key
  | has key =>
      simp only [AbstractCache.step, doHas]
      split_ifs
      · exact h
      · exact h
  | get key => exact h.doGet hOk key
  | clear => exact h.doClear hOk
  | size => exact h.doReplace hOk
  | forceReplace => exact h.doReplace hOk
  | getAllKeys => exact h.doReplace hOk

theorem Coherent.run {c : AbstractCache K V S} (h : c.Coherent Ok) (ops : List (Op K V)) :
    (c.run ops).1.Coherent Ok := by
  induction ops generalizing c with
  | nil => exact h
  | cons op ops ih => exact ih (h.step hOk op)

end coherent

end AbstractCache

end Poco.Foundation
