import Poco.Foundation.CacheStrategies
import Mathlib.Data.List.TakeDrop

/-! # `LRUCache` keeps the most recently used entries

An `LRUCache` is an `AbstractCache` over an `LRUStrategy`.  `RecentList` says what it is
for: the entries in order of their last use, most recent first.  Storing an entry puts it
in front and drops what exceeds the capacity; reading one moves it to the front.

`Refines c a` connects a cache with the list it stands for.  One lemma per building block
(`doRemove`, the insertion of an entry, `doReplace`) gives the step lemma
`Refines.step`, and `Refines.run` follows by induction over the operations. -/

namespace Poco.Foundation

open Poco.Lib AbstractCache

variable {K V : Type} [LinearOrder K]

/-! ### The abstract cache -/

/-- Entries, most recently used first. -/
abbrev RecentList (K V : Type) := List (K × V)

namespace RecentList

/-- Remove the entry of a key. -/
def forget (key : K) (a : RecentList K V) : RecentList K V := a.filter (fun e => e.1 ≠ key)

/-- Store an entry as the most recent one; only the least recent ones are dropped. -/
def store (capacity : ℕ) (key : K) (v : V) (a : RecentList K V) : RecentList K V :=
  ((key, v) :: forget key a).take capacity

/-- The operations of a cache on the list. -/
def step (capacity : ℕ) (a : RecentList K V) : Op K V → RecentList K V × Res K V
  | .add key none => (forget key a, .nullPointerException)
  | .add key (some v) => (store capacity key v a, .void)
  | .update _ none => (a, .nullPointerException)
  | .update key (some v) => (store capacity key v a, .void)
  | .remove key => (forget key a, .void)
  | .has key => (a, .bool (a.lookup key).isSome)
  | .get key =>
      match a.lookup key with
      | none => (a, .value none)
      | some v => ((key, v) :: forget key a, .value (some v))
  | .clear => ([], .void)
  | .size => (a, .size a.length)
  | .forceReplace => (a, .void)
  | .getAllKeys => (a, .keys ((a.map Prod.fst).foldr setInsert []))

/-- A sequence of operations on the list. -/
def run (capacity : ℕ) (a : RecentList K V) : List (Op K V) → RecentList K V × List (Res K V)
  | [] => (a, [])
  | op :: ops =>
      ((run capacity (step capacity a op).1 ops).1,
        (step capacity a op).2 :: (run capacity (step capacity a op).1 ops).2)

theorem lookup_eq_none {key : K} {a : RecentList K V} :
    a.lookup key = none ↔ key ∉ a.map Prod.fst := by
  rw [List.lookup_eq_none_iff]
  simp only [List.mem_map, not_exists, not_and]
  constructor
  · intro h e he heq
    simpa [heq] using h e he
  · intro h e he
    simpa using fun heq => h e he heq.symm

theorem lookup_forget_self (key : K) (a : RecentList K V) : (forget key a).lookup key = none := by
  rw [lookup_eq_none]
  simp [forget]

theorem lookup_forget_ne {key k : K} (a : RecentList K V) (h : k ≠ key) :
    (forget key a).lookup k = a.lookup k := by
  induction a with
  | nil => rfl
  | cons e a ih =>
      obtain ⟨k', v⟩ := e
      by_cases hk : k' = key
      · have hcons : forget key ((k', v) :: a) = forget key a := by simp [forget, hk]
        have hb : (k == k') = false := by
          rw [hk]
          simpa using h
        rw [hcons, ih, List.lookup_cons, hb]
      · have hcons : forget key ((k', v) :: a) = (k', v) :: forget key a := by simp [forget, hk]
        rw [hcons, List.lookup_cons, List.lookup_cons, ih]

theorem map_forget (key : K) (a : RecentList K V) :
    (forget key a).map Prod.fst = (a.map Prod.fst).filter (fun k => k ≠ key) := by
  rw [List.filter_map]
  rfl

theorem forget_of_lookup {key : K} {a : RecentList K V} (h : a.lookup key = none) :
    forget key a = a := by
  rw [lookup_eq_none] at h
  apply List.filter_eq_self.mpr
  intro e he
  simp only [ne_eq, decide_not, Bool.not_eq_eq_eq_not, Bool.not_true, decide_eq_false_iff_not]
  rintro rfl
  exact h (List.mem_map_of_mem he)

theorem foldl_forget (l : List K) (a : RecentList K V) :
    l.foldl (fun a key => forget key a) a = a.filter (fun e => e.1 ∉ l) := by
  induction l generalizing a with
  | nil => simp
  | cons key l ih =>
      rw [List.foldl_cons, ih, forget, List.filter_filter]
      apply List.filter_congr
      intro e _
      simp [Bool.and_comm]

/-- Removing the keys of the tail leaves the head of the list. -/
theorem filter_notMem_drop {a : RecentList K V} (h : (a.map Prod.fst).Nodup) (n : ℕ)
    {l : List K} (hl : ∀ k, k ∈ l ↔ k ∈ (a.drop n).map Prod.fst) :
    a.filter (fun e => e.1 ∉ l) = a.take n := by
  conv_lhs => rw [← List.take_append_drop n a, List.filter_append]
  have hdrop : (a.drop n).filter (fun e => e.1 ∉ l) = [] := by
    apply List.filter_eq_nil_iff.mpr
    intro e he
    simp [(hl e.1).mpr (List.mem_map_of_mem he)]
  have htake : (a.take n).filter (fun e => e.1 ∉ l) = a.take n := by
    apply List.filter_eq_self.mpr
    intro e he
    rw [← List.take_append_drop n a, List.map_append] at h
    have hne := (List.nodup_append.mp h).2.2 e.1 (List.mem_map_of_mem he)
    have hmem : e.1 ∉ l := fun hm => hne e.1 ((hl e.1).mp hm) rfl
    simpa using hmem
  rw [hdrop, htake, List.append_nil]

end RecentList

/-! ### The cache refines the list -/

namespace LRUCache

open RecentList

/-- The cache `c` stands for the list `a`: `_keys` holds its keys in the same order, the
index designates their nodes, and `_data` holds its values. -/
structure Refines (c : AbstractCache K V (LRUStrategy K V)) (a : RecentList K V) : Prop where
  indexed : NodeList.Indexed id c._strategy._keyIndex c._strategy._keys
  order : c._strategy._keys.values = a.map Prod.fst
  data : ∀ k, c._data.lookup k = a.lookup k

section blocks

variable {c : AbstractCache K V (LRUStrategy K V)} {a : RecentList K V}

theorem Refines.nodup (h : Refines c a) : (a.map Prod.fst).Nodup := by
  have hn := h.indexed.keys_nodup
  rwa [List.map_id, h.order] at hn

theorem Refines.mem_index (h : Refines c a) {k : K} :
    k ∈ c._strategy._keyIndex ↔ k ∈ a.map Prod.fst := by
  rw [h.indexed.mem_iff, List.map_id, h.order]

theorem Refines.mem_data (h : Refines c a) {k : K} : k ∈ c._data ↔ k ∈ a.map Prod.fst := by
  rw [← not_iff_not, ← AList.lookup_eq_none, h.data, RecentList.lookup_eq_none]

theorem Refines.data_keys_perm (h : Refines c a) : c._data.keys.Perm (a.map Prod.fst) := by
  apply (List.perm_ext_iff_of_nodup c._data.keys_nodup h.nodup).mpr
  intro k
  rw [← AList.mem_keys, h.mem_data]

theorem Refines.index_length (h : Refines c a) : c._strategy._keyIndex.keys.length = a.length := by
  rw [h.indexed.keys_perm.length_eq, List.map_id, h.order, List.length_map]

theorem Refines.withClock (h : Refines c a) (clock : Clock) :
    Refines { c with clock := clock } a := ⟨h.indexed, h.order, h.data⟩

theorem Refines.doRemove (h : Refines c a) (key : K) :
    Refines (c.doRemove key) (forget key a) := by
  unfold AbstractCache.doRemove
  split_ifs with hk
  · obtain ⟨it, hit⟩ := Option.isSome_iff_exists.mp
      (AList.lookup_isSome.mpr (h.mem_index.mpr (h.mem_data.mp hk)))
    have hrem : onRemove key c._strategy = { c._strategy with
        _keys := c._strategy._keys.erase it, _keyIndex := c._strategy._keyIndex.erase key } := by
      simp only [onRemove, LRUStrategy.onRemove, hit]
    rw [hrem]
    constructor
    · exact h.indexed.erase hit
    · rw [map_forget, ← h.order]
      exact h.indexed.values_erase hit
    · intro k
      by_cases hkk : k = key
      · subst hkk
        rw [lookup_forget_self, AList.lookup_erase]
      · rw [lookup_forget_ne a hkk, AList.lookup_erase_ne hkk, h.data]
  · rw [forget_of_lookup (by rw [← h.data]; exact AList.lookup_eq_none.mpr hk)]
    exact h

theorem Refines.foldl_doRemove (h : Refines c a) (l : List K) :
    Refines (l.foldl (fun c key => c.doRemove key) c) (a.filter (fun e => e.1 ∉ l)) := by
  rw [← foldl_forget]
  induction l generalizing c a with
  | nil => exact h
  | cons key l ih => exact ih (h.doRemove key)

theorem Refines.insert (h : Refines c a) {key : K} (hk : a.lookup key = none) (v : V)
    {data : AList (fun _ : K => V)} (hdata : ∀ k, k ≠ key → data.lookup k = c._data.lookup k)
    (clock : Clock) :
    Refines ⟨c._strategy.onAdd key, data.insert key v, clock⟩ ((key, v) :: a) := by
  have hkey : id key ∉ c._strategy._keyIndex := by
    rw [id, h.mem_index, ← RecentList.lookup_eq_none]
    exact hk
  constructor
  · have hi := h.indexed.insertWhere hkey (fun _ => false)
    unfold LRUStrategy.onAdd
    dsimp only
    rw [NodeList.begin_pushFront]
    exact hi
  · simp [LRUStrategy.onAdd, h.order]
  · intro k
    by_cases hkk : k = key
    · subst hkk
      simp
    · have hb : (k == key) = false := by simpa using hkk
      rw [AList.lookup_insert_ne hkk, hdata k hkk, h.data, List.lookup_cons, hb]

/-- The walk of `onReplace` from the back meets the last keys of the list. -/
theorem mem_walkBack {n : ℕ} {ks : List K} (hn : n < ks.length) (acc : List K) (k : K) :
    k ∈ LRUStrategy.walkBack n ks acc ↔ k ∈ acc ∨ k ∈ ks.take n := by
  induction n generalizing ks acc with
  | zero => simp [LRUStrategy.walkBack]
  | succ n ih =>
      match ks, hn with
      | [k'], hn => simp at hn
      | k' :: k'' :: ks, hn =>
          have hlen : n < (k'' :: ks).length := by
            simp only [List.length_cons] at hn ⊢
            omega
          rw [LRUStrategy.walkBack, ih hlen, mem_setInsert, List.take_succ_cons, List.mem_cons]
          tauto

theorem Refines.onReplace (h : Refines c a) (k : K) :
    k ∈ c._strategy.onReplace [] ↔ k ∈ (a.drop c._strategy._size).map Prod.fst := by
  have hpos := c._strategy.size_pos
  unfold LRUStrategy.onReplace
  rw [h.index_length, h.order, List.map_drop]
  dsimp only
  split_ifs with hlt
  · rw [List.drop_eq_nil_of_le (by rw [List.length_map]; omega)]
  · have hlen : a.length - c._strategy._size < (a.map Prod.fst).reverse.length := by
      rw [List.length_reverse, List.length_map]
      omega
    rw [mem_walkBack hlen, List.take_reverse, List.mem_reverse, List.length_map,
      Nat.sub_sub_self (Nat.le_of_not_lt hlt)]
    simp

/-- `doReplace` evicts exactly the least recently used entries beyond the capacity. -/
theorem Refines.doReplace (h : Refines c a) :
    Refines c.doReplace (a.take c._strategy._size) := by
  have hf := (h.withClock c.clock).foldl_doRemove (c._strategy.onReplace [])
  rw [filter_notMem_drop h.nodup _ h.onReplace] at hf
  exact hf

theorem size_doRemove (c : AbstractCache K V (LRUStrategy K V)) (key : K) :
    (c.doRemove key)._strategy._size = c._strategy._size := by
  unfold AbstractCache.doRemove
  split_ifs
  · simp only [onRemove, LRUStrategy.onRemove]
    split <;> rfl
  · rfl

theorem size_doReplace (c : AbstractCache K V (LRUStrategy K V)) :
    c.doReplace._strategy._size = c._strategy._size := by
  have hfold : ∀ (l : List K) (c : AbstractCache K V (LRUStrategy K V)),
      (l.foldl (fun c key => c.doRemove key) c)._strategy._size = c._strategy._size := by
    intro l
    induction l with
    | nil => intro c; rfl
    | cons key l ih => intro c; rw [List.foldl_cons, ih, size_doRemove]
  exact hfold (c._strategy.onReplace []) { c with clock := c.clock }

end blocks

/-! ### Steps and runs -/

section steps

variable {c : AbstractCache K V (LRUStrategy K V)} {a : RecentList K V}

/-- The two overloads that store an entry do the same: the key is gone from the strategy,
then it is announced anew, stored, and the cache is cut to its size. -/
theorem Refines.store (h : Refines c a) (key : K) (v : V) (data : AList (fun _ : K => V))
    (hdata : ∀ k, k ≠ key → data.lookup k = c._data.lookup k) (clock : Clock) :
    Refines (AbstractCache.doReplace
        ⟨(c.doRemove key)._strategy.onAdd key, data.insert key v, clock⟩)
      (RecentList.store c._strategy._size key v a) := by
  have hr := h.doRemove key
  have hd : ∀ k, k ≠ key → data.lookup k = (c.doRemove key)._data.lookup k := by
    intro k hk
    rw [hdata k hk, hr.data, lookup_forget_ne a hk, h.data]
  have hi := (hr.insert (lookup_forget_self key a) v hd clock).doReplace
  have hsize : ((c.doRemove key)._strategy.onAdd key)._size = c._strategy._size :=
    size_doRemove c key
  rw [hsize] at hi
  exact hi

theorem Refines.doAdd (h : Refines c a) (key : K) (val : Option V) :
    Refines (c.doAdd key val).1 (RecentList.step c._strategy._size a (.add key val)).1 := by
  cases val with
  | none => exact h.doRemove key
  | some v =>
      refine h.store key v _ (fun k hk => ?_) _
      rw [(h.doRemove key).data, lookup_forget_ne a hk, h.data]

theorem Refines.doUpdate (h : Refines c a) (key : K) (val : Option V) :
    Refines (c.doUpdate key val).1 (RecentList.step c._strategy._size a (.update key val)).1 := by
  cases val with
  | none => exact h
  | some v =>
      have hs := h.store key v c._data (fun _ _ => rfl) c.clock
      have heq : (c.doUpdate key (some v)).1 = AbstractCache.doReplace
          ⟨(c.doRemove key)._strategy.onAdd key, c._data.insert key v, c.clock⟩ := by
        unfold AbstractCache.doUpdate AbstractCache.doRemove
        dsimp only
        split_ifs <;> rfl
      rw [heq]
      exact hs

theorem Refines.doGet (h : Refines c a) (key : K) :
    Refines (c.doGet key).1 (RecentList.step c._strategy._size a (.get key)).1 ∧
      (c.doGet key).2 = a.lookup key := by
  cases hk : a.lookup key with
  | none =>
      have hd : c._data.lookup key = none := by rw [h.data, hk]
      have hget : c.doGet key = (c, none) := by simp [AbstractCache.doGet, hd]
      rw [hget]
      simp only [RecentList.step, hk, and_true]
      exact h
  | some v =>
      have hd : c._data.lookup key = some v := by rw [h.data, hk]
      have hmem : key ∈ c._strategy._keyIndex := by
        rw [h.mem_index, ← h.mem_data]
        exact AList.lookup_isSome.mp (by rw [hd]; rfl)
      obtain ⟨it, hit⟩ := Option.isSome_iff_exists.mp (AList.lookup_isSome.mpr hmem)
      have hon : c._strategy.onGet key = { c._strategy with
          _keys := c._strategy._keys.moveToFront it,
          _keyIndex := c._strategy._keyIndex.insert key (c._strategy._keys.moveToFront it).begin } := by
        simp only [LRUStrategy.onGet, hit]
      have hmem' : key ∈ (c._strategy.onGet key)._keyIndex := by
        rw [hon]
        simp [AList.mem_insert]
      have hget : c.doGet key = ({ c with _strategy := c._strategy.onGet key }, some v) := by
        simp [AbstractCache.doGet, hd, onGet, onIsValid, hmem']
      rw [hget]
      simp only [RecentList.step, hk, and_true]
      obtain ⟨b, hm, hb⟩ := (h.indexed key it).mp hit
      rw [id] at hb
      subst hb
      rw [hon]
      constructor
      · exact h.indexed.moveToFront hit
      · have hv := h.indexed.values_erase hit
        simp only [NodeList.values, NodeList.moveToFront_nodes hm, List.map_cons] at hv ⊢
        rw [hv, map_forget, ← h.order]
        rfl
      · intro k
        by_cases hkk : k = b
        · subst hkk
          simp [hd]
        · have hne : (k == b) = false := by simpa using hkk
          rw [List.lookup_cons, hne, lookup_forget_ne a hkk]
          exact h.data k

theorem size_step (c : AbstractCache K V (LRUStrategy K V)) (op : Op K V) :
    (c.step op).1._strategy._size = c._strategy._size := by
  cases op with
  | add key val =>
      cases val with
      | none => exact size_doRemove c key
      | some v => exact (size_doReplace _).trans (size_doRemove c key)
  | update key val =>
      cases val with
      | none => rfl
      | some v =>
          simp only [AbstractCache.step, AbstractCache.doUpdate]
          rw [size_doReplace]
          dsimp only
          split_ifs
          · simp only [onUpdate, onAdd, onRemove, LRUStrategy.onAdd, LRUStrategy.onRemove]
            split <;> rfl
          · rfl
  | remove key => exact size_doRemove c key
  | has key =>
      simp only [AbstractCache.step, doHas]
      split_ifs <;> rfl
  | get key =>
      simp only [AbstractCache.step, AbstractCache.doGet]
      have hget : (onGet key c._strategy c.clock).1._size = c._strategy._size := by
        simp only [onGet, LRUStrategy.onGet]
        split <;> rfl
      split
      · rfl
      · split_ifs
        · exact hget
        · exact (size_doRemove _ key).trans hget
  | clear => rfl
  | size => exact size_doReplace c
  | forceReplace => exact size_doReplace c
  | getAllKeys => exact size_doReplace c

theorem Refines.doHas (h : Refines c a) (key : K) :
    Refines (c.doHas key).1 a ∧ (c.doHas key).2 = (a.lookup key).isSome := by
  unfold AbstractCache.doHas
  split_ifs with hk
  · have hmem : key ∈ c._strategy._keyIndex := by
      rw [h.mem_index, ← h.mem_data]
      exact hk
    refine ⟨h, ?_⟩
    rw [← h.data, AList.lookup_isSome.mpr hk]
    simp [onIsValid, hmem]
  · refine ⟨h, ?_⟩
    rw [← h.data, AList.lookup_eq_none.mpr hk]
    rfl

theorem length_step {a : RecentList K V} {capacity : ℕ} (h : a.length ≤ capacity)
    (op : Op K V) : (RecentList.step capacity a op).1.length ≤ capacity := by
  have hforget : ∀ key, (forget key a).length ≤ capacity :=
    fun key => (List.length_filter_le _ _).trans h
  have hstore : ∀ key v, (RecentList.store capacity key v a).length ≤ capacity :=
    fun key v => List.length_take_le _ _
  cases op with
  | add key val =>
      cases val with
      | none => exact hforget key
      | some v => exact hstore key v
  | update key val =>
      cases val with
      | none => exact h
      | some v => exact hstore key v
  | remove key => exact hforget key
  | get key =>
      simp only [RecentList.step]
      cases hk : a.lookup key with
      | none => exact h
      | some v =>
          -- the entry itself leaves its old place, so the length does not grow
          obtain ⟨l₁, l₂, rfl, -⟩ := List.lookup_eq_some_iff.mp hk
          refine le_trans ?_ h
          have h1 := List.length_filter_le (fun e : K × V => e.1 ≠ key) l₁
          have h2 := List.length_filter_le (fun e : K × V => e.1 ≠ key) l₂
          simp only [forget, List.filter_append, List.length_cons, List.length_append]
          rw [List.filter_cons_of_neg (by simp)]
          omega
  | clear => simp [RecentList.step]
  | has key => exact h
  | size => exact h
  | forceReplace => exact h
  | getAllKeys => exact h

/-- One operation: the same result, and the cache stands for the list afterwards. -/
theorem Refines.step (h : Refines c a) (hle : a.length ≤ c._strategy._size) (op : Op K V) :
    Refines (c.step op).1 (RecentList.step c._strategy._size a op).1 ∧
      (c.step op).2 = (RecentList.step c._strategy._size a op).2 := by
  have hrep : Refines c.doReplace a := by
    have hr := h.doReplace
    rwa [List.take_of_length_le hle] at hr
  cases op with
  | add key val =>
      refine ⟨h.doAdd key val, ?_⟩
      cases val <;> rfl
  | update key val =>
      refine ⟨h.doUpdate key val, ?_⟩
      cases val <;> rfl
  | remove key => exact ⟨h.doRemove key, rfl⟩
  | has key =>
      obtain ⟨h1, h2⟩ := h.doHas key
      exact ⟨h1, congrArg Res.bool h2⟩
  | get key =>
      obtain ⟨h1, h2⟩ := h.doGet key
      refine ⟨h1, ?_⟩
      simp only [AbstractCache.step, RecentList.step, h2]
      cases a.lookup key <;> rfl
  | clear =>
      refine ⟨⟨NodeList.indexed_clear _, rfl, fun k => ?_⟩, rfl⟩
      simp [AbstractCache.step, AbstractCache.doClear, RecentList.step]
  | size =>
      refine ⟨hrep, ?_⟩
      simp only [AbstractCache.step, RecentList.step, hrep.data_keys_perm.length_eq,
        List.length_map]
  | forceReplace => exact ⟨hrep, rfl⟩
  | getAllKeys =>
      refine ⟨hrep, ?_⟩
      simp only [AbstractCache.step, RecentList.step, foldr_setInsert_perm hrep.data_keys_perm]

/-- A sequence of operations: the same results, and the cache stands for the list. -/
theorem Refines.run (h : Refines c a) (hle : a.length ≤ c._strategy._size)
    (ops : List (Op K V)) :
    Refines (c.run ops).1 (RecentList.run c._strategy._size a ops).1 ∧
      (c.run ops).2 = (RecentList.run c._strategy._size a ops).2 ∧
      (RecentList.run c._strategy._size a ops).1.length ≤ c._strategy._size := by
  induction ops generalizing c a with
  | nil => exact ⟨h, rfl, hle⟩
  | cons op ops ih =>
      obtain ⟨hs, hres⟩ := h.step hle op
      have hsize := size_step c op
      have hih := ih hs (by rw [hsize]; exact length_step hle op)
      rw [hsize] at hih
      obtain ⟨h1, h2, h3⟩ := hih
      exact ⟨h1, congrArg₂ List.cons hres h2, h3⟩

end steps

/-- **LRU semantics.**  For every capacity the constructor accepts, every sequence of
operations and every clock: the cache returns what the list of recent entries returns and
holds exactly its entries, at most `capacity` of them; data, index and recency list have the
same keys, without repetition, and every index iterator designates its own key. -/
theorem keeps_most_recently_used {capacity : ℕ} {s : LRUStrategy K V}
    (hs : LRUStrategy.make capacity = .ok s) (clock : Clock) (ops : List (Op K V)) :
    let c := ((AbstractCache.init s clock).run ops).1
    let a := (RecentList.run capacity [] ops).1
    ((AbstractCache.init s clock).run ops).2 = (RecentList.run capacity [] ops).2 ∧
      (∀ k, c._data.lookup k = a.lookup k) ∧
      c._strategy._keys.values = a.map Prod.fst ∧
      c._data.keys.length = a.length ∧ a.length ≤ capacity ∧
      c._strategy._keys.values.Nodup ∧
      (∀ k, k ∈ c._data ↔ k ∈ c._strategy._keyIndex) ∧
      (∀ k, k ∈ c._strategy._keyIndex ↔ k ∈ c._strategy._keys.values) ∧
      ∀ k it, c._strategy._keyIndex.lookup k = some it → c._strategy._keys.deref it = some k := by
  obtain ⟨-, hsize, hvalues, hknows⟩ := LRUStrategy.make_ok hs
  have h0 : Refines (AbstractCache.init s clock) ([] : RecentList K V) :=
    ⟨hknows.indexed, hvalues, fun k => by simp [AbstractCache.init]⟩
  have hrun := h0.run (Nat.zero_le _) ops
  obtain ⟨h, hres, hle⟩ := hsize ▸ hrun
  refine ⟨hres, h.data, h.order, ?_, hle, ?_, fun k => ?_, fun k => ?_, fun k it hk => ?_⟩
  · rw [h.data_keys_perm.length_eq, List.length_map]
  · rw [h.order]
    exact h.nodup
  · rw [h.mem_data, h.mem_index]
  · rw [h.mem_index, h.order]
  · obtain ⟨k', hd, hkey⟩ := h.indexed.deref hk
    rw [hd, ← hkey]
    rfl

/-- Three entries and a read in a cache for two: the unread one is evicted. -/
theorem keeps_most_recently_used_small :
    let s : LRUStrategy ℕ ℕ := ⟨2, .empty, ∅, by decide⟩
    let ops : List (Op ℕ ℕ) :=
      [.add 1 (some 10), .add 2 (some 20), .get 1, .update 3 (some 30), .has 2, .get 1]
    ((AbstractCache.init s ⟨fun _ => 0, monotone_const, 0⟩).run ops).2 =
        [.void, .void, .value (some 10), .void, .bool false, .value (some 10)] ∧
      ∀ k, ((AbstractCache.init s ⟨fun _ => 0, monotone_const, 0⟩).run ops).1._data.lookup k =
        List.lookup k [(1, 10), (3, 30)] :=
  have hs : LRUStrategy.make 2 = .ok (⟨2, .empty, ∅, by decide⟩ : LRUStrategy ℕ ℕ) := rfl
  have h := keeps_most_recently_used hs ⟨fun _ => 0, monotone_const, 0⟩
    [.add 1 (some 10), .add 2 (some 20), .get 1, .update 3 (some 30), .has 2, .get 1]
  ⟨h.1, h.2.1⟩

end LRUCache

end Poco.Foundation
