import Mathlib.Data.List.AList
import Mathlib.Data.List.Nodup
import Mathlib.Order.BooleanAlgebra.Set

/-! # Linked lists with stable iterators

A `std::list` or `std::multimap` hands out iterators that stay valid until their own node
is erased.  A `NodeList` is a list of values, each in a node with an identifier; an
identifier is used only once, so it stands for an iterator to its node.

* `insertWhere p a` links a new node behind the longest run of values that satisfy `p`: a
  `push_front` with the empty run (`pushFront`), the insertion into an ordered multimap
  with the values whose key is not greater.
* `erase i` unlinks the node of the iterator `i`; `moveToFront i` is `splice`; `modify i f`
  assigns through the iterator.
* A map from keys to iterators into a list is the usual companion.  `Indexed key index l`
  says that the entries of `index` are exactly the pairs of a key and the iterator of the
  node that holds it; `Holds key index l X` adds that these are the keys `X`.  Each list
  operation has a lemma that says which update of the index keeps this. -/

namespace Poco.Lib

/-- A linked list of values in identified nodes. -/
structure NodeList (α : Type*) where
  /-- The nodes in list order: identifier and value. -/
  nodes : List (ℕ × α)
  /-- The identifier of the next node that is made. -/
  next : ℕ
  nodup : (nodes.map Prod.fst).Nodup
  fresh : ∀ n ∈ nodes, n.1 < next

namespace NodeList

variable {α : Type*}

/-- The list without nodes. -/
def empty : NodeList α := ⟨[], 0, List.nodup_nil, by simp⟩

/-- Unlink all nodes; their identifiers are not used again. -/
def clear (l : NodeList α) : NodeList α := ⟨[], l.next, List.nodup_nil, by simp⟩

/-- The values in list order. -/
def values (l : NodeList α) : List α := l.nodes.map Prod.snd

/-- The value in the node of an iterator. -/
def deref (l : NodeList α) (i : ℕ) : Option α := l.nodes.lookup i

/-- The iterator of the first node; `next` stands for the end of an empty list. -/
def begin (l : NodeList α) : ℕ := (l.nodes.head?.map Prod.fst).getD l.next

theorem eq_of_mem {l : NodeList α} {i : ℕ} {a b : α} (ha : (i, a) ∈ l.nodes)
    (hb : (i, b) ∈ l.nodes) : a = b := by
  have h := List.inj_on_of_nodup_map l.nodup ha hb rfl
  exact congrArg Prod.snd h

theorem deref_eq_some {l : NodeList α} {i : ℕ} {a : α} :
    l.deref i = some a ↔ (i, a) ∈ l.nodes := by
  unfold deref
  constructor
  · intro h
    obtain ⟨l₁, l₂, hl, -⟩ := List.lookup_eq_some_iff.mp h
    rw [hl]
    simp
  · intro h
    obtain ⟨l₁, l₂, hl⟩ := List.append_of_mem h
    refine List.lookup_eq_some_iff.mpr ⟨l₁, l₂, hl, fun p hp => ?_⟩
    have hnd := l.nodup
    rw [hl, List.map_append, List.map_cons] at hnd
    have hne := (List.nodup_append.mp hnd).2.2 p.1 (List.mem_map_of_mem hp) i (by simp)
    simpa using fun h => hne h.symm

/-! ### Insertion -/

private theorem perm_insertWhere (p : α → Bool) (n : ℕ × α) (l : List (ℕ × α)) :
    (l.takeWhile (fun m => p m.2) ++ n :: l.dropWhile (fun m => p m.2)).Perm (n :: l) := by
  refine List.perm_middle.trans (List.Perm.cons n ?_)
  rw [List.takeWhile_append_dropWhile]

/-- Link a new node with value `a` behind the longest run of values that satisfy `p`.  Its
iterator is the `next` of the list before. -/
def insertWhere (p : α → Bool) (a : α) (l : NodeList α) : NodeList α where
  nodes := l.nodes.takeWhile (fun m => p m.2) ++ (l.next, a) :: l.nodes.dropWhile (fun m => p m.2)
  next := l.next + 1
  nodup := by
    apply ((perm_insertWhere p (l.next, a) l.nodes).map Prod.fst).nodup_iff.mpr
    refine List.nodup_cons.mpr ⟨fun hm => ?_, l.nodup⟩
    obtain ⟨n, hn, heq⟩ := List.mem_map.mp hm
    have := l.fresh n hn
    simp only at heq
    omega
  fresh := by
    intro n hn
    rcases List.mem_cons.mp ((perm_insertWhere p (l.next, a) l.nodes).mem_iff.mp hn) with rfl | hn
    · exact Nat.lt_succ_self _
    · exact Nat.lt_succ_of_lt (l.fresh n hn)

/-- `push_front`. -/
def pushFront (a : α) (l : NodeList α) : NodeList α := l.insertWhere (fun _ => false) a

theorem mem_insertWhere {p : α → Bool} {a : α} {l : NodeList α} {n : ℕ × α} :
    n ∈ (l.insertWhere p a).nodes ↔ n = (l.next, a) ∨ n ∈ l.nodes := by
  rw [← List.mem_cons]
  exact (perm_insertWhere p (l.next, a) l.nodes).mem_iff

@[simp] theorem next_insertWhere (p : α → Bool) (a : α) (l : NodeList α) :
    (l.insertWhere p a).next = l.next + 1 := rfl

theorem values_insertWhere (p : α → Bool) (a : α) (l : NodeList α) :
    (l.insertWhere p a).values.Perm (a :: l.values) :=
  (perm_insertWhere p (l.next, a) l.nodes).map Prod.snd

@[simp] theorem values_pushFront (a : α) (l : NodeList α) :
    (l.pushFront a).values = a :: l.values := by
  cases h : l.nodes <;> simp [pushFront, insertWhere, values, h]

@[simp] theorem begin_pushFront (a : α) (l : NodeList α) : (l.pushFront a).begin = l.next := by
  cases h : l.nodes <;> simp [pushFront, insertWhere, begin, h]

/-! ### Removal and splicing -/

/-- Unlink the node of the iterator `i`. -/
def erase (i : ℕ) (l : NodeList α) : NodeList α where
  nodes := l.nodes.filter (fun n => n.1 != i)
  next := l.next
  nodup := l.nodup.sublist (List.filter_sublist.map Prod.fst)
  fresh := fun n hn => l.fresh n (List.mem_of_mem_filter hn)

theorem mem_erase {i : ℕ} {l : NodeList α} {n : ℕ × α} :
    n ∈ (l.erase i).nodes ↔ n ∈ l.nodes ∧ n.1 ≠ i := by
  simp [erase]

@[simp] theorem next_erase (i : ℕ) (l : NodeList α) : (l.erase i).next = l.next := rfl

/-- Link the node of the iterator `i` at the front: `splice` of a list into itself. -/
def moveToFront (i : ℕ) (l : NodeList α) : NodeList α :=
  match h : l.deref i with
  | none => l
  | some a =>
    { nodes := (i, a) :: (l.erase i).nodes
      next := l.next
      nodup := by
        refine List.nodup_cons.mpr ⟨fun hm => ?_, (l.erase i).nodup⟩
        obtain ⟨n, hn, heq⟩ := List.mem_map.mp hm
        exact (mem_erase.mp hn).2 heq
      fresh := by
        intro n hn
        rcases List.mem_cons.mp hn with rfl | hn
        · exact l.fresh _ (deref_eq_some.mp h)
        · exact (l.erase i).fresh n hn }

theorem moveToFront_nodes {i : ℕ} {a : α} {l : NodeList α} (h : (i, a) ∈ l.nodes) :
    (l.moveToFront i).nodes = (i, a) :: (l.erase i).nodes := by
  have hd := deref_eq_some.mpr h
  unfold moveToFront
  split
  · simp_all
  · next b hb =>
      obtain rfl := Option.some.inj (hb.symm.trans hd)
      rfl

theorem mem_moveToFront {i : ℕ} {a : α} {l : NodeList α} (h : (i, a) ∈ l.nodes) {n : ℕ × α} :
    n ∈ (l.moveToFront i).nodes ↔ n ∈ l.nodes := by
  rw [moveToFront_nodes h, List.mem_cons, mem_erase]
  constructor
  · rintro (rfl | hn)
    · exact h
    · exact hn.1
  · intro hn
    by_cases hi : n.1 = i
    · left
      obtain ⟨j, b⟩ := n
      simp only at hi
      subst hi
      rw [eq_of_mem hn h]
    · exact Or.inr ⟨hn, hi⟩

theorem begin_moveToFront {i : ℕ} {a : α} {l : NodeList α} (h : (i, a) ∈ l.nodes) :
    (l.moveToFront i).begin = i := by
  simp [begin, moveToFront_nodes h]

/-! ### Updates in place -/

/-- Assign through an iterator. -/
def modify (i : ℕ) (f : α → α) (l : NodeList α) : NodeList α where
  nodes := l.nodes.map fun n => if n.1 = i then (i, f n.2) else n
  next := l.next
  nodup := by
    have hids : (l.nodes.map fun n => if n.1 = i then (i, f n.2) else n).map Prod.fst =
        l.nodes.map Prod.fst := by
      rw [List.map_map]
      apply List.map_congr_left
      intro n _
      simp only [Function.comp_apply]
      split_ifs with h
      · exact h.symm
      · rfl
    rw [hids]
    exact l.nodup
  fresh := by
    intro n hn
    obtain ⟨m, hm, rfl⟩ := List.mem_map.mp hn
    have := l.fresh m hm
    split_ifs with h
    · simp only
      omega
    · exact this

/-- Around the node of an iterator: what erasing it and assigning to it leave alone. -/
theorem exists_split {i : ℕ} {a : α} {l : NodeList α} (h : (i, a) ∈ l.nodes) :
    ∃ l₁ l₂, l.nodes = l₁ ++ (i, a) :: l₂ ∧ (l.erase i).nodes = l₁ ++ l₂ ∧
      ∀ f, (l.modify i f).nodes = l₁ ++ (i, f a) :: l₂ := by
  obtain ⟨l₁, l₂, hl⟩ := List.append_of_mem h
  have hnd := l.nodup
  rw [hl, List.map_append, List.map_cons, List.nodup_middle, List.nodup_cons] at hnd
  have h₁ : ∀ n ∈ l₁, n.1 ≠ i := by
    rintro n hn rfl
    exact hnd.1 (List.mem_append_left _ (List.mem_map.mpr ⟨n, hn, rfl⟩))
  have h₂ : ∀ n ∈ l₂, n.1 ≠ i := by
    rintro n hn rfl
    exact hnd.1 (List.mem_append_right _ (List.mem_map.mpr ⟨n, hn, rfl⟩))
  refine ⟨l₁, l₂, hl, ?_, fun f => ?_⟩
  · simp only [erase, hl, List.filter_append]
    rw [List.filter_eq_self.mpr (fun n hn => by simpa using h₁ n hn),
      List.filter_cons_of_neg (by simp), List.filter_eq_self.mpr (fun n hn => by simpa using h₂ n hn)]
  · simp only [modify, hl, List.map_append, List.map_cons, if_true]
    have hmap : ∀ l' : List (ℕ × α), (∀ n ∈ l', n.1 ≠ i) →
        (l'.map fun n => if n.1 = i then (i, f n.2) else n) = l' := by
      intro l' hl'
      conv_rhs => rw [← List.map_id l']
      exact List.map_congr_left fun n hn => if_neg (hl' n hn)
    rw [hmap l₁ h₁, hmap l₂ h₂]

theorem values_erase {i : ℕ} {a : α} {l : NodeList α} (h : (i, a) ∈ l.nodes) :
    l.values.Perm (a :: (l.erase i).values) := by
  obtain ⟨l₁, l₂, hl, he, -⟩ := exists_split h
  simp only [values, hl, he, List.map_append, List.map_cons]
  exact List.perm_middle

theorem mem_modify {i : ℕ} {f : α → α} {l : NodeList α} {n : ℕ × α} :
    n ∈ (l.modify i f).nodes ↔
      (n.1 ≠ i ∧ n ∈ l.nodes) ∨ ∃ a, (i, a) ∈ l.nodes ∧ n = (i, f a) := by
  simp only [modify, List.mem_map]
  constructor
  · rintro ⟨m, hm, rfl⟩
    split_ifs with h
    · right
      exact ⟨m.2, by rw [← h]; exact hm, rfl⟩
    · exact Or.inl ⟨h, hm⟩
  · rintro (⟨h, hn⟩ | ⟨a, ha, rfl⟩)
    · exact ⟨n, hn, if_neg h⟩
    · exact ⟨(i, a), ha, by simp⟩

/-! ### Indexed lists -/

section indexed

variable {κ : Type*} [DecidableEq κ]

/-- The entries of `index` are the pairs of a key and the iterator of the node holding it. -/
def Indexed (key : α → κ) (index : AList (fun _ : κ => ℕ)) (l : NodeList α) : Prop :=
  ∀ k i, index.lookup k = some i ↔ ∃ a, (i, a) ∈ l.nodes ∧ key a = k

variable {key : α → κ} {index : AList (fun _ : κ => ℕ)} {l : NodeList α}

theorem Indexed.lookup (h : Indexed key index l) {i : ℕ} {a : α} (hm : (i, a) ∈ l.nodes) :
    index.lookup (key a) = some i := (h _ _).mpr ⟨a, hm, rfl⟩

theorem Indexed.deref (h : Indexed key index l) {k : κ} {i : ℕ} (hk : index.lookup k = some i) :
    ∃ a, l.deref i = some a ∧ key a = k := by
  obtain ⟨a, hm, ha⟩ := (h k i).mp hk
  exact ⟨a, deref_eq_some.mpr hm, ha⟩

theorem Indexed.node_unique (h : Indexed key index l) {m n : ℕ × α} (hm : m ∈ l.nodes)
    (hn : n ∈ l.nodes) (hk : key m.2 = key n.2) : m = n := by
  obtain ⟨i, a⟩ := m
  obtain ⟨j, b⟩ := n
  have h1 := h.lookup hm
  have h2 := h.lookup hn
  simp only at hk
  rw [hk, h2] at h1
  obtain rfl := Option.some.inj h1
  rw [eq_of_mem hm hn]

theorem Indexed.keys_nodup (h : Indexed key index l) : (l.values.map key).Nodup := by
  rw [values, List.map_map]
  apply (List.nodup_map_iff_inj_on (l.nodup.of_map _)).mpr
  intro m hm n hn hk
  exact h.node_unique hm hn hk

theorem Indexed.mem_iff (h : Indexed key index l) {k : κ} :
    k ∈ index ↔ k ∈ l.values.map key := by
  rw [← AList.lookup_isSome, Option.isSome_iff_exists]
  simp only [h k, values, List.map_map, List.mem_map, Function.comp_apply, Prod.exists]

theorem Indexed.keys_perm (h : Indexed key index l) : index.keys.Perm (l.values.map key) := by
  apply (List.perm_ext_iff_of_nodup index.keys_nodup h.keys_nodup).mpr
  intro k
  rw [← AList.mem_keys, h.mem_iff]

theorem indexed_empty : Indexed key ∅ (empty : NodeList α) := by
  intro k i
  simp [empty]

theorem indexed_clear (l : NodeList α) : Indexed key ∅ l.clear := by
  intro k i
  simp [clear]

theorem Indexed.insertWhere (h : Indexed key index l) {a : α} (ha : key a ∉ index)
    (p : α → Bool) : Indexed key (index.insert (key a) l.next) (l.insertWhere p a) := by
  intro k i
  simp only [mem_insertWhere]
  by_cases hk : k = key a
  · subst hk
    rw [AList.lookup_insert, Option.some_inj]
    constructor
    · rintro rfl
      exact ⟨a, Or.inl rfl, rfl⟩
    · rintro ⟨b, hb | hb, hkey⟩
      · exact (congrArg Prod.fst hb).symm
      · exact absurd (AList.lookup_isSome.mp (by rw [← hkey, h.lookup hb]; rfl)) ha
  · rw [AList.lookup_insert_ne hk, h k i]
    constructor
    · rintro ⟨b, hb, hkey⟩
      exact ⟨b, Or.inr hb, hkey⟩
    · rintro ⟨b, hb | hb, hkey⟩
      · obtain ⟨-, rfl⟩ := Prod.mk.inj hb
        exact absurd hkey.symm hk
      · exact ⟨b, hb, hkey⟩

theorem Indexed.erase (h : Indexed key index l) {k : κ} {i : ℕ} (hk : index.lookup k = some i) :
    Indexed key (index.erase k) (l.erase i) := by
  obtain ⟨a, hm, ha⟩ := (h k i).mp hk
  intro k' j
  simp only [mem_erase]
  by_cases hkk : k' = k
  · subst hkk
    rw [AList.lookup_erase]
    simp only [reduceCtorEq, false_iff, not_exists, not_and]
    rintro b ⟨hb, hj⟩ hkey
    exact hj (congrArg Prod.fst (h.node_unique hb hm (hkey.trans ha.symm)))
  · rw [AList.lookup_erase_ne hkk, h k' j]
    constructor
    · rintro ⟨b, hb, hkey⟩
      refine ⟨b, ⟨hb, ?_⟩, hkey⟩
      rintro rfl
      exact hkk (by rw [← hkey, ← ha, eq_of_mem hb hm])
    · rintro ⟨b, ⟨hb, -⟩, hkey⟩
      exact ⟨b, hb, hkey⟩

/-- Replacing the node of a key by a new node for the same key. -/
theorem Indexed.replace (h : Indexed key index l) {a : α} {i : ℕ}
    (hk : index.lookup (key a) = some i) (p : α → Bool) :
    Indexed key (index.insert (key a) l.next) ((l.erase i).insertWhere p a) := by
  have h1 := (h.erase hk).insertWhere (a := a) (by simp [AList.mem_erase]) p
  intro k j
  rw [← h1 k j]
  by_cases hkk : k = key a
  · subst hkk
    rw [AList.lookup_insert, AList.lookup_insert, next_erase]
  · rw [AList.lookup_insert_ne hkk, AList.lookup_insert_ne hkk, AList.lookup_erase_ne hkk]

theorem Indexed.moveToFront (h : Indexed key index l) {k : κ} {i : ℕ}
    (hk : index.lookup k = some i) :
    Indexed key (index.insert k (l.moveToFront i).begin) (l.moveToFront i) := by
  obtain ⟨a, hm, ha⟩ := (h k i).mp hk
  intro k' j
  simp only [mem_moveToFront hm, begin_moveToFront hm]
  rw [← h k' j]
  by_cases hkk : k' = k
  · subst hkk
    rw [AList.lookup_insert, hk]
  · rw [AList.lookup_insert_ne hkk]

/-- Unlinking the node of a key removes this key, and only it, from the list of keys. -/
theorem Indexed.values_erase (h : Indexed key index l) {k : κ} {i : ℕ}
    (hk : index.lookup k = some i) :
    (l.erase i).values = l.values.filter (fun a => key a ≠ k) := by
  obtain ⟨a, hm, ha⟩ := (h k i).mp hk
  unfold values NodeList.erase
  rw [List.filter_map]
  refine congrArg _ (List.filter_congr fun n hn => ?_)
  have hiff : n.1 = i ↔ key n.2 = k := by
    constructor
    · intro hi
      obtain ⟨j, b⟩ := n
      simp only at hi
      subst hi
      simp only [eq_of_mem hn hm, ha]
    · intro hkey
      exact congrArg Prod.fst (h.node_unique hn hm (hkey.trans ha.symm))
  simp [hiff, Bool.beq_eq_decide_eq, bne]

/-- The list holds exactly the keys `X`, each in the node its index entry designates. -/
structure Holds (key : α → κ) (index : AList (fun _ : κ => ℕ)) (l : NodeList α) (X : Set κ) :
    Prop where
  indexed : Indexed key index l
  keys : ∀ k, k ∈ index ↔ k ∈ X

variable {X : Set κ}

theorem holds_empty : Holds key ∅ (empty : NodeList α) ∅ :=
  ⟨indexed_empty, fun k => by simp⟩

theorem holds_clear (l : NodeList α) : Holds key ∅ l.clear ∅ :=
  ⟨indexed_clear l, fun k => by simp⟩

theorem Holds.insertWhere (h : Holds key index l X) {a : α} (ha : key a ∉ X) (p : α → Bool) :
    Holds key (index.insert (key a) l.next) (l.insertWhere p a) (insert (key a) X) := by
  refine ⟨h.indexed.insertWhere (fun hm => ha ((h.keys _).mp hm)) p, fun k => ?_⟩
  rw [AList.mem_insert, h.keys, Set.mem_insert_iff]

theorem Holds.erase (h : Holds key index l X) {k : κ} {i : ℕ} (hk : index.lookup k = some i) :
    Holds key (index.erase k) (l.erase i) (X \ {k}) := by
  refine ⟨h.indexed.erase hk, fun k' => ?_⟩
  rw [AList.mem_erase, h.keys, Set.mem_sdiff, Set.mem_singleton_iff]
  exact and_comm

theorem Holds.diff (h : Holds key index l X) {k : κ} (hk : index.lookup k = none) :
    Holds key index l (X \ {k}) := by
  have hX : k ∉ X := by
    rw [← h.keys]
    exact AList.lookup_eq_none.mp hk
  rw [Set.sdiff_singleton_eq_self hX]
  exact h

private theorem mem_insert_of_lookup {k : κ} {i : ℕ} (hk : index.lookup k = some i) (j : ℕ)
    (k' : κ) : k' ∈ index.insert k j ↔ k' ∈ index := by
  have hmem : k ∈ index := AList.lookup_isSome.mp (by rw [hk]; rfl)
  rw [AList.mem_insert]
  constructor
  · rintro (rfl | h)
    · exact hmem
    · exact h
  · exact Or.inr

theorem Holds.replace (h : Holds key index l X) {a : α} {i : ℕ}
    (hk : index.lookup (key a) = some i) (p : α → Bool) :
    Holds key (index.insert (key a) l.next) ((l.erase i).insertWhere p a) X :=
  ⟨h.indexed.replace hk p, fun k => by rw [mem_insert_of_lookup hk, h.keys]⟩

theorem Holds.moveToFront (h : Holds key index l X) {k : κ} {i : ℕ}
    (hk : index.lookup k = some i) :
    Holds key (index.insert k (l.moveToFront i).begin) (l.moveToFront i) X :=
  ⟨h.indexed.moveToFront hk, fun k' => by rw [mem_insert_of_lookup hk, h.keys]⟩

end indexed

end NodeList

end Poco.Lib
