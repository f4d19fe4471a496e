import Poco.Foundation.LinearHashTable
import Poco.Lib.Runs
import Mathlib.Data.Finset.Card

/-! # `LinearHashTable` refines a finite set

The values of a table are compared with `==`, an equivalence; the table stands for a
finite set of equivalence classes.  `Inv` adds to the layout of the buckets that there is
one bucket more than elements and that no two elements are equal.  `find`, `insert`,
`eraseIter` and `eraseValue` are described by one lemma each, in terms of the list
`elems t` of the stored elements; iteration from `begin()` to `end()` visits exactly this
list (`visit_begin`).

`Step` runs the table and the abstract set in lockstep, and `run_inv` is the invariant of
all runs: the classes of the stored elements are the abstract set. -/

namespace Poco.Foundation
namespace LinearHashTable

open Poco.Lib

variable {α : Type}

/-- The stored elements, bucket by bucket. -/
def elems (t : LinearHashTable α) : List α := t._buckets.flatten

/-! ### Iteration -/

section iteration

/-- The elements from position `j` of bucket `i` on. -/
def restFrom (b : List (List α)) (i j : ℕ) : List α :=
  (b.getD i []).drop j ++ (b.drop (i + 1)).flatten

/-- The iterator designates an element, or is an end iterator. -/
def Valid (t : LinearHashTable α) (it : Iterator) : Prop :=
  it._endIt = t._buckets.length ∧
    (it._vecIt = t._buckets.length ∨
      it._vecIt < t._buckets.length ∧ it._buckIt < (t._buckets.getD it._vecIt []).length)

instance (t : LinearHashTable α) (it : Iterator) : Decidable (t.Valid it) :=
  inferInstanceAs (Decidable (_ ∧ _))

theorem restFrom_length (b : List (List α)) (j : ℕ) : restFrom b b.length j = [] := by
  simp only [restFrom, List.drop_eq_nil_of_le (Nat.le_succ b.length)]
  simp

theorem restFrom_exhausted {b : List (List α)} {i : ℕ} (hi : i + 1 < b.length) :
    restFrom b i (b.getD i []).length = restFrom b (i + 1) 0 := by
  simp only [restFrom, List.drop_length, List.nil_append, List.drop_zero]
  rw [List.drop_eq_getElem_cons hi, List.flatten_cons, List.getD_eq_getElem?_getD,
    List.getElem?_eq_getElem hi, Option.getD_some]

theorem restFrom_zero_of_empty {b : List (List α)} {i : ℕ} (hi : i + 1 < b.length)
    (h : b.getD i [] = []) : restFrom b i 0 = restFrom b (i + 1) 0 := by
  rw [← restFrom_exhausted hi, h]
  rfl

theorem restFrom_last {b : List (List α)} {i : ℕ} (hi : i + 1 = b.length) :
    restFrom b i (b.getD i []).length = [] := by
  simp [restFrom, hi]

/-- The loop of `operator ++` stops at an element or at the end and skips no element. -/
theorem advanceLoop_spec (b : List (List α)) : ∀ (n : ℕ) (it : Iterator),
    it._endIt = b.length → it._vecIt + n = b.length →
    (it._vecIt < b.length → it._buckIt ≤ (b.getD it._vecIt []).length) →
    let r := advanceLoop b n it
    r._endIt = b.length ∧ restFrom b r._vecIt r._buckIt = restFrom b it._vecIt it._buckIt ∧
      (r._vecIt = b.length ∨
        r._vecIt < b.length ∧ r._buckIt < (b.getD r._vecIt []).length)
  | 0, it, he, hn, _ => ⟨he, rfl, Or.inl hn⟩
  | n + 1, it, he, hn, hj => by
      have hi : it._vecIt < b.length := by omega
      have hj := hj hi
      by_cases hc : it._buckIt = (b.getD it._vecIt []).length
      · have hloop : it._vecIt ≠ it._endIt ∧ it._buckIt = (b.getD it._vecIt []).length :=
          ⟨by omega, hc⟩
        simp only [advanceLoop, if_pos hloop]
        rcases Nat.lt_or_ge (it._vecIt + 1) b.length with hlt | hge
        · rw [if_pos (by omega)]
          have ih := advanceLoop_spec b n
            { it with _vecIt := it._vecIt + 1, _buckIt := 0 } he (by simp only; omega) (by simp)
          refine ⟨ih.1, ih.2.1.trans ?_, ih.2.2⟩
          rw [hc, restFrom_exhausted hlt]
        · rw [if_neg (by omega)]
          have ih := advanceLoop_spec b n { it with _vecIt := it._vecIt + 1 } he
            (by simp only; omega) (by simp only; omega)
          refine ⟨ih.1, ih.2.1.trans ?_, ih.2.2⟩
          have hend : it._vecIt + 1 = b.length := by omega
          simp only [hend, restFrom_length]
          rw [hc, restFrom_last hend]
      · have hloop : ¬ (it._vecIt ≠ it._endIt ∧ it._buckIt = (b.getD it._vecIt []).length) :=
          fun h => hc h.2
        have hstay : advanceLoop b (n + 1) it = it := if_neg hloop
        rw [hstay]
        exact ⟨he, rfl, Or.inr ⟨hi, by omega⟩⟩

theorem advance_spec {t : LinearHashTable α} {it : Iterator} (h : t.Valid it)
    (hi : it._vecIt < t._buckets.length) :
    t.Valid (t.advance it) ∧ ∃ v, t.deref it = some v ∧
      restFrom t._buckets it._vecIt it._buckIt =
        v :: restFrom t._buckets (t.advance it)._vecIt (t.advance it)._buckIt := by
  obtain ⟨he, h⟩ := h
  have hj : it._buckIt < (t._buckets.getD it._vecIt []).length := by
    rcases h with h | h
    · omega
    · exact h.2
  have hs := advanceLoop_spec t._buckets (it._endIt - it._vecIt)
    { it with _buckIt := it._buckIt + 1 } he (by simp only; omega) (fun _ => hj)
  have ha : t.advance it = advanceLoop t._buckets (it._endIt - it._vecIt)
      { it with _buckIt := it._buckIt + 1 } := by
    simp only [advance]
    rw [if_pos (by omega)]
  rw [ha]
  refine ⟨⟨hs.1, hs.2.2⟩, _, List.getElem?_eq_getElem hj, ?_⟩
  rw [hs.2.1]
  simp only [restFrom]
  rw [List.drop_eq_getElem_cons hj, List.cons_append]

theorem beginLoop_spec (b : List (List α)) : ∀ (n i : ℕ), i + n = b.length →
    (beginLoop b n i = b.length ∨ beginLoop b n i < b.length ∧ b.getD (beginLoop b n i) [] ≠ []) ∧
      restFrom b (beginLoop b n i) 0 = restFrom b i 0
  | 0, i, h => ⟨Or.inl h, rfl⟩
  | n + 1, i, h => by
      unfold beginLoop
      split_ifs with he
      · obtain ⟨h1, h2⟩ := beginLoop_spec b n (i + 1) (by omega)
        refine ⟨h1, h2.trans ?_⟩
        have hnil : b.getD i [] = [] := List.isEmpty_iff.mp he
        rcases Nat.lt_or_ge (i + 1) b.length with hlt | hge
        · exact (restFrom_zero_of_empty hlt hnil).symm
        · have hlast : i + 1 = b.length := by omega
          have e := restFrom_last hlast
          rw [hnil] at e
          rw [hlast, restFrom_length]
          exact e.symm
      · exact ⟨Or.inr ⟨by omega, fun h0 => he (by rw [h0]; rfl)⟩, rfl⟩

theorem begin_spec (t : LinearHashTable α) :
    t.Valid t.beginIter ∧
      restFrom t._buckets t.beginIter._vecIt t.beginIter._buckIt = t.elems := by
  have hz : restFrom t._buckets 0 0 = t.elems := by
    cases h : t._buckets <;> simp [restFrom, elems, h]
  obtain ⟨h1, h2⟩ := beginLoop_spec t._buckets t._buckets.length 0 (by omega)
  unfold beginIter
  rw [← hz, ← h2]
  simp only
  split_ifs with hc
  · refine ⟨⟨rfl, Or.inl rfl⟩, ?_⟩
    simp only [endIter, hc, restFrom_length]
  · rcases h1 with h1 | h1
    · exact absurd h1 hc
    · exact ⟨⟨rfl, Or.inr ⟨h1.1, List.length_pos_of_ne_nil h1.2⟩⟩, rfl⟩

theorem differs_endIter {t : LinearHashTable α} {it : Iterator} (h : t.Valid it) :
    it.differs t.endIter = true ↔ it._vecIt < t._buckets.length := by
  obtain ⟨he, h⟩ := h
  unfold Iterator.differs endIter
  rcases h with h | h
  · simp [h, he]
  · have hne : it._vecIt ≠ t._buckets.length := by omega
    simp [hne, h.1]

/-- The loop over the iterators visits the remaining elements in order and ends. -/
theorem visit_valid (t : LinearHashTable α) : ∀ (l : List α) (it : Iterator), t.Valid it →
    restFrom t._buckets it._vecIt it._buckIt = l → t.visit (l.length + 1) it = some l := by
  intro l
  induction l with
  | nil =>
      intro it hv hl
      have hd : ¬ it.differs t.endIter = true := by
        rw [differs_endIter hv]
        intro hlt
        obtain ⟨-, v, -, he⟩ := advance_spec hv hlt
        rw [he] at hl
        simp at hl
      simp [visit, hd]
  | cons v l ih =>
      intro it hv hl
      have hlt : it._vecIt < t._buckets.length := by
        rcases hv.2 with h | h
        · rw [h, restFrom_length] at hl
          simp at hl
        · exact h.1
      have hd : it.differs t.endIter = true := (differs_endIter hv).mpr hlt
      obtain ⟨ha, w, hder, he⟩ := advance_spec hv hlt
      rw [he] at hl
      obtain ⟨rfl, h2⟩ := List.cons.inj hl
      rw [List.length_cons, visit, if_pos hd, hder, ih _ ha h2]
      rfl

theorem visit_begin (t : LinearHashTable α) :
    t.visit (t.elems.length + 1) t.beginIter = some t.elems :=
  t.visit_valid t.elems t.beginIter t.begin_spec.1 t.begin_spec.2

end iteration

/-! ### The invariant -/

theorem create_eq {maxSize initialReserve : ℕ} {t : LinearHashTable α}
    (h : create maxSize initialReserve = some t) : t = ⟨[[]], 0, 1, 0⟩ := by
  unfold create at h
  split at h
  · cases h
  · split_ifs at h
    exact (Option.some.inj h).symm

theorem valid_endIter (t : LinearHashTable α) : t.Valid t.endIter := ⟨rfl, Or.inl rfl⟩

theorem mem_elems_of_bucket {t : LinearHashTable α} {i j : ℕ} {w : α}
    (h : (t._buckets.getD i [])[j]? = some w) : w ∈ t.elems := by
  have hw : w ∈ t._buckets.getD i [] := List.mem_of_getElem? h
  rcases Nat.lt_or_ge i t._buckets.length with hi | hi
  · rw [List.getD_eq_getElem?_getD, List.getElem?_eq_getElem hi] at hw
    exact List.mem_flatten.mpr ⟨_, List.getElem_mem hi, hw⟩
  · rw [List.getD_eq_getElem?_getD, List.getElem?_eq_none hi] at hw
    simp at hw

theorem eraseIter_of_end {hash : α → ℕ} {t : LinearHashTable α} {it : Iterator}
    (hit : t.Valid it) (hw : t.deref it = none) : t.eraseIter hash it = t := by
  have hge : ¬ it._vecIt < t._buckets.length := by
    intro hlt
    rcases hit.2 with hi | hi
    · omega
    · unfold deref at hw
      rw [List.getElem?_eq_getElem hi.2] at hw
      cases hw
  unfold eraseIter
  rw [if_neg (by rwa [differs_endIter hit])]

section invariant
variable [BEq α] {hash : α → ℕ}

/-- The invariant of a table: the layout, one bucket more than elements, no two equal
elements. -/
structure Inv (hash : α → ℕ) (t : LinearHashTable α) : Prop extends Laid hash t where
  count_eq : t._buckets.length = t._size + 1
  size_eq : t._size = t.elems.length
  distinct : t.elems.Pairwise (fun a b => (a == b) = false)

theorem inv_empty (hash : α → ℕ) : Inv hash (⟨[[]], 0, 1, 0⟩ : LinearHashTable α) where
  front_pow := ⟨0, rfl⟩
  split_le := Nat.zero_le _
  length_eq := rfl
  placed := by
    intro i v hv
    cases i <;> simp at hv
  count_eq := rfl
  size_eq := rfl
  distinct := by simp [elems]

/-- Values equal to `v` are stored in the bucket of `v` only. -/
theorem mem_bucket {t : LinearHashTable α} (h : Laid hash t)
    (hcons : ∀ a b : α, a == b → hash a = hash b) {v w : α} (hw : w ∈ t.elems)
    (hvw : w == v) : w ∈ t._buckets.getD (t.bucketAddress hash v) [] := by
  obtain ⟨l, hl, hwl⟩ := List.mem_flatten.mp hw
  obtain ⟨i, hi, rfl⟩ := List.mem_iff_getElem.mp hl
  have hmem : w ∈ t._buckets.getD i [] := by
    rwa [List.getD_eq_getElem?_getD, List.getElem?_eq_getElem hi]
  have ha : t.bucketAddress hash v = i := by
    rw [← h.placed i w hmem, bucketAddress, bucketAddress, hcons w v hvw]
  rwa [ha]

/-- The position `std::find` gives in the bucket of `v`. -/
def lookup (hash : α → ℕ) (t : LinearHashTable α) (v : α) : Option ℕ :=
  (t._buckets.getD (t.bucketAddress hash v) []).findIdx? (· == v)

theorem lookup_none {t : LinearHashTable α} (h : Laid hash t)
    (hcons : ∀ a b : α, a == b → hash a = hash b) {v : α} (hl : t.lookup hash v = none) :
    ∀ w ∈ t.elems, (w == v) = false := by
  intro w hw
  by_contra hc
  have hvw : w == v := by simpa using hc
  have := List.findIdx?_eq_none_iff.mp hl w (mem_bucket h hcons hw hvw)
  exact hc this

theorem lookup_some {t : LinearHashTable α} {v : α} {i : ℕ} (hl : t.lookup hash v = some i) :
    ∃ w ∈ t.elems, (t._buckets.getD (t.bucketAddress hash v) [])[i]? = some w ∧ w == v := by
  obtain ⟨hi, hp, -⟩ := List.findIdx?_eq_some_iff_getElem.mp hl
  have hw := List.getElem?_eq_getElem hi
  exact ⟨_, mem_elems_of_bucket hw, hw, hp⟩

theorem valid_lookup {t : LinearHashTable α} (h : Laid hash t) {v : α} {i : ℕ}
    (hl : t.lookup hash v = some i) :
    t.Valid ⟨t.bucketAddress hash v, t._buckets.length, i⟩ := by
  obtain ⟨hi, -, -⟩ := List.findIdx?_eq_some_iff_getElem.mp hl
  exact ⟨rfl, Or.inr ⟨h.address_lt v, hi⟩⟩

theorem find_of_mem {t : LinearHashTable α} (h : Laid hash t)
    (hcons : ∀ a b : α, a == b → hash a = hash b) {v : α} (hv : ∃ w ∈ t.elems, w == v) :
    t.Valid (t.find hash v) ∧ (t.find hash v).differs t.endIter = true ∧
      ∃ w ∈ t.elems, t.deref (t.find hash v) = some w ∧ w == v := by
  cases hl : t.lookup hash v with
  | none =>
      obtain ⟨w, hw, hwv⟩ := hv
      rw [lookup_none h hcons hl w hw] at hwv
      cases hwv
  | some i =>
      have e : t.find hash v = ⟨t.bucketAddress hash v, t._buckets.length, i⟩ := by
        unfold lookup at hl
        simp only [find, hl]
      rw [e]
      have hval := valid_lookup h hl
      exact ⟨hval, (differs_endIter hval).mpr (h.address_lt v), lookup_some hl⟩

theorem find_of_not_mem {t : LinearHashTable α} {v : α}
    (hv : ∀ w ∈ t.elems, (w == v) = false) : t.find hash v = t.endIter := by
  cases hl : t.lookup hash v with
  | none =>
      unfold lookup at hl
      simp only [find, hl]
  | some i =>
      obtain ⟨w, hw, -, hwv⟩ := lookup_some hl
      rw [hv w hw] at hwv
      cases hwv

theorem insert_of_mem {t : LinearHashTable α} (h : Laid hash t)
    (hcons : ∀ a b : α, a == b → hash a = hash b) {v : α} (hv : ∃ w ∈ t.elems, w == v) :
    (t.insert hash v).1 = t ∧ (t.insert hash v).2.2 = false ∧
      ∃ w, t.deref (t.insert hash v).2.1 = some w ∧ w == v := by
  cases hl : t.lookup hash v with
  | none =>
      obtain ⟨w, hw, hwv⟩ := hv
      rw [lookup_none h hcons hl w hw] at hwv
      cases hwv
  | some i =>
      have e : t.insert hash v = (t, ⟨t.bucketAddress hash v, t._buckets.length, i⟩, false) := by
        unfold lookup bucketAddress at hl
        simp only [insert, hl, bucketAddress]
      rw [e]
      obtain ⟨w, -, hw⟩ := lookup_some hl
      exact ⟨rfl, rfl, w, hw⟩

variable [EquivBEq α]

/-- A new value is appended to the bucket of its address after one bucket has been split. -/
theorem insert_of_not_mem {t : LinearHashTable α} (h : Inv hash t)
    {v : α} (hv : ∀ w ∈ t.elems, (w == v) = false) :
    Inv hash (t.insert hash v).1 ∧ List.Perm (t.insert hash v).1.elems (v :: t.elems) ∧
      (t.insert hash v).2.2 = true ∧
      (t.insert hash v).1.deref (t.insert hash v).2.1 = some v := by
  have hl : (t._buckets.getD (t.bucketAddressForHash (hash v)) []).findIdx? (· == v) = none := by
    cases hl : t.lookup hash v with
    | none => exact hl
    | some i =>
        obtain ⟨w, hw, -, hwv⟩ := lookup_some hl
        rw [hv w hw] at hwv
        cases hwv
  obtain ⟨h1, h2, h3, h4⟩ := h.toLaid.split
  have hlt := h1.address_lt v
  simp only [insert, hl]
  generalize t.split hash = u at h1 h2 h3 h4 hlt ⊢
  have hperm : List.Perm (u._buckets.modify (u.bucketAddress hash v) (· ++ [v])).flatten
      (v :: t.elems) := (place_flatten hlt).trans (h3.cons v)
  have hlen : (u._buckets.modify (u.bucketAddress hash v) (· ++ [v])).length =
      u._buckets.length := List.length_modify ..
  refine ⟨⟨⟨h1.front_pow, h1.split_le, hlen.trans h1.length_eq, h1.placed.place v⟩, ?_, ?_, ?_⟩,
    hperm, trivial, ?_⟩
  · show (u._buckets.modify (u.bucketAddress hash v) (· ++ [v])).length = u._size + 1 + 1
    rw [hlen, h2, h.count_eq, h4]
  · show u._size + 1 = (u._buckets.modify (u.bucketAddress hash v) (· ++ [v])).flatten.length
    rw [hperm.length_eq, h4, h.size_eq]
    rfl
  · have hsymm : ∀ {a b : α}, (a == b) = false → (b == a) = false := fun hab => by
      rwa [BEq.comm]
    refine hperm.symm.pairwise (List.pairwise_cons.mpr ⟨?_, h.distinct⟩) hsymm
    intro w hw
    exact hsymm (hv w hw)
  · show ((u._buckets.modify (u.bucketAddress hash v) (· ++ [v])).getD (u.bucketAddress hash v) [])[
      (u._buckets.getD (u.bucketAddress hash v) []).length]? = some v
    simp [List.getD_eq_getElem?_getD, List.getElem?_eq_getElem hlt]

/-- Erasing through an iterator to an element removes exactly this element. -/
theorem eraseIter_of_deref {t : LinearHashTable α} (h : Inv hash t) {it : Iterator}
    (hit : t.Valid it) {w : α} (hw : t.deref it = some w) :
    Inv hash (t.eraseIter hash it) ∧ List.Perm (w :: (t.eraseIter hash it).elems) t.elems := by
  obtain ⟨hj, hw⟩ := List.getElem?_eq_some_iff.mp hw
  have hlt : it._vecIt < t._buckets.length := by
    rcases hit.2 with hi | hi
    · rw [hi] at hj
      simp at hj
    · exact hi.1
  have hperm := flatten_eraseIdx t._buckets it._vecIt it._buckIt hj
  rw [hw] at hperm
  have hlen : (t._buckets.modify it._vecIt (·.eraseIdx it._buckIt)).length = t._buckets.length :=
    List.length_modify ..
  have hn := hperm.length_eq
  have hsz := h.size_eq
  have hct := h.count_eq
  rw [List.length_cons] at hn
  unfold elems at hsz
  unfold eraseIter
  rw [if_pos ((differs_endIter hit).mpr hlt)]
  have hlaid : Laid hash { t with
      _buckets := t._buckets.modify it._vecIt (·.eraseIdx it._buckIt)
      _size := t._size - 1 } := by
    refine ⟨h.front_pow, h.split_le, hlen.trans h.length_eq, ?_⟩
    intro i v hv
    apply h.placed i v
    simp only [List.getD_eq_getElem?_getD, List.getElem?_modify] at hv ⊢
    cases hb : t._buckets[i]? with
    | none => simp [hb] at hv
    | some l =>
        by_cases hi : it._vecIt = i
        · simp only [hb, hi, Option.map_eq_map, Option.map_some, if_true, Option.getD_some] at hv
          exact List.mem_of_mem_eraseIdx hv
        · simpa [hb, hi] using hv
  obtain ⟨h1, h2, h3, h4⟩ := hlaid.merge (by simp only [hlen]; omega)
  simp only at h2 h3 h4
  refine ⟨⟨h1, ?_, ?_, ?_⟩, (h3.cons w).trans hperm⟩
  · rw [h2, h4, hlen]
    omega
  · rw [h4, elems, h3.length_eq]
    omega
  · have hsymm : ∀ {a b : α}, (a == b) = false → (b == a) = false := fun hab => by
      rwa [BEq.comm]
    exact (List.pairwise_cons.mp (((h3.cons w).trans hperm).symm.pairwise h.distinct hsymm)).2

end invariant

/-! ### The abstract set -/

section refinement
variable [BEq α] [EquivBEq α] {hash : α → ℕ}

/-- Equality of values as the table compares them. -/
def eqv (α : Type) [BEq α] [EquivBEq α] : Setoid α where
  r a b := a == b
  iseqv := ⟨fun _ => BEq.rfl, BEq.symm, BEq.trans⟩

/-- A value up to `==`. -/
abbrev Class (α : Type) [BEq α] [EquivBEq α] : Type := Quotient (eqv α)

instance : DecidableEq (Class α) :=
  @Quotient.decidableEq α (eqv α) fun a b => inferInstanceAs (Decidable (a == b))

/-- The class of a value. -/
def Class.of (v : α) : Class α := Quotient.mk (eqv α) v

theorem Class.of_eq_iff {v w : α} : Class.of w = Class.of v ↔ w == v :=
  ⟨fun h => Quotient.exact h, fun h => Quotient.sound h⟩

/-- The set a table stands for: the classes of its elements. -/
def classes (t : LinearHashTable α) : Finset (Class α) :=
  (t.elems.map Class.of).toFinset

theorem mem_classes {t : LinearHashTable α} {v : α} :
    Class.of v ∈ t.classes ↔ ∃ w ∈ t.elems, w == v := by
  simp [classes, Class.of_eq_iff]

theorem not_mem_classes {t : LinearHashTable α} {v : α} :
    Class.of v ∉ t.classes ↔ ∀ w ∈ t.elems, (w == v) = false := by
  simp [mem_classes]

theorem nodup_classes {t : LinearHashTable α} (h : Inv hash t) :
    (t.elems.map Class.of).Nodup := by
  refine List.Pairwise.map _ ?_ h.distinct
  intro a b hab he
  rw [Class.of_eq_iff.mp he] at hab
  cases hab

theorem card_classes {t : LinearHashTable α} (h : Inv hash t) : t.classes.card = t._size := by
  rw [classes, List.toFinset_card_of_nodup (nodup_classes h), List.length_map, h.size_eq]

theorem classes_of_perm {t u : LinearHashTable α} {v : α} (h : List.Perm u.elems (v :: t.elems)) :
    u.classes = Insert.insert (Class.of v) t.classes := by
  rw [classes, List.toFinset_eq_of_perm _ _ (h.map Class.of), List.map_cons,
    List.toFinset_cons]
  rfl

theorem classes_erase_of_perm {t u : LinearHashTable α} {w : α} (hu : Inv hash t)
    (h : List.Perm (w :: u.elems) t.elems) : u.classes = t.classes.erase (Class.of w) := by
  have hnd : (Class.of w :: u.elems.map Class.of).Nodup :=
    ((h.map Class.of).nodup_iff).mpr (nodup_classes hu)
  have hnot : Class.of w ∉ u.classes := by
    simpa [classes] using (List.nodup_cons.mp hnd).1
  rw [classes_of_perm h.symm, Finset.erase_insert hnot]

/-- The operations that change a table. -/
inductive Op (α : Type) where
  | insert (value : α)
  | eraseValue (value : α)
  | eraseIter (it : Iterator)
  | clear

/-- The effect of an operation on the table. -/
def exec (hash : α → ℕ) (t : LinearHashTable α) : Op α → LinearHashTable α
  | .insert v => (t.insert hash v).1
  | .eraseValue v => t.eraseValue hash v
  | .eraseIter it => t.eraseIter hash it
  | .clear => t.clear

/-- The effect of an operation on the abstract set; `t` only says which element an iterator
designates. -/
def specExec (t : LinearHashTable α) (S : Finset (Class α)) :
    Op α → Finset (Class α)
  | .insert v => Insert.insert (Class.of v) S
  | .eraseValue v => S.erase (Class.of v)
  | .eraseIter it =>
      match t.deref it with
      | some w => S.erase (Class.of w)
      | none => S
  | .clear => ∅

/-- The table and the abstract set in lockstep; an iterator must be valid to be used. -/
def Step (hash : α → ℕ) (s : LinearHashTable α × Finset (Class α)) (op : Op α)
    (s' : LinearHashTable α × Finset (Class α)) : Prop :=
  (∀ it, op = .eraseIter it → s.1.Valid it) ∧
    s' = (exec hash s.1 op, specExec s.1 s.2 op)

theorem eraseIter_classes {t : LinearHashTable α} (h : Inv hash t) {it : Iterator}
    (hit : t.Valid it) :
    Inv hash (t.eraseIter hash it) ∧
      (t.eraseIter hash it).classes = specExec t t.classes (.eraseIter it) := by
  cases hd : t.deref it with
  | none =>
      rw [eraseIter_of_end hit hd]
      exact ⟨h, by simp [specExec, hd]⟩
  | some w =>
      obtain ⟨h1, h2⟩ := eraseIter_of_deref h hit hd
      exact ⟨h1, by simp only [specExec, hd]; exact classes_erase_of_perm h h2⟩

/-- One operation keeps the invariant and acts on the set as the abstract operation does. -/
theorem exec_classes {t : LinearHashTable α} (h : Inv hash t)
    (hcons : ∀ a b : α, a == b → hash a = hash b) (op : Op α)
    (hop : ∀ it, op = .eraseIter it → t.Valid it) :
    Inv hash (exec hash t op) ∧ (exec hash t op).classes = specExec t t.classes op := by
  cases op with
  | insert v =>
      by_cases hv : Class.of v ∈ t.classes
      · obtain ⟨h1, -, -⟩ := insert_of_mem h.toLaid hcons (mem_classes.mp hv)
        simp only [exec, specExec, h1]
        exact ⟨h, (Finset.insert_eq_of_mem hv).symm⟩
      · obtain ⟨h1, h2, -, -⟩ := insert_of_not_mem h (not_mem_classes.mp hv)
        exact ⟨h1, classes_of_perm h2⟩
  | eraseValue v =>
      by_cases hv : Class.of v ∈ t.classes
      · obtain ⟨h1, -, w, -, hd, hwv⟩ := find_of_mem h.toLaid hcons (mem_classes.mp hv)
        obtain ⟨h3, h4⟩ := eraseIter_classes h h1
        refine ⟨h3, h4.trans ?_⟩
        simp only [specExec, hd]
        rw [Class.of_eq_iff.mpr hwv]
      · have e : t.find hash v = t.endIter := find_of_not_mem (not_mem_classes.mp hv)
        have he : t.eraseValue hash v = t := by
          unfold eraseValue eraseIter
          rw [e, if_neg (by rw [differs_endIter t.valid_endIter]; exact lt_irrefl _)]
        simp only [exec, specExec, he]
        exact ⟨h, (Finset.erase_eq_of_notMem hv).symm⟩
  | eraseIter it => exact eraseIter_classes h (hop it rfl)
  | clear => exact ⟨inv_empty hash, by simp [exec, specExec, clear, classes, elems]⟩

/-- In every run the table satisfies the invariant and stands for the abstract set. -/
theorem run_inv (hcons : ∀ a b : α, a == b → hash a = hash b) {maxSize initialReserve : ℕ}
    {t₀ t : LinearHashTable α} {S : Finset (Class α)} {ops : List (Op α)}
    (h₀ : create maxSize initialReserve = some t₀) (hrun : Run (Step hash) (t₀, ∅) ops (t, S)) :
    Inv hash t ∧ t.classes = S := by
  refine hrun.invariant (I := fun s => Inv hash s.1 ∧ s.1.classes = s.2) ?_ ?_
  · rintro s op s' ⟨h1, h2⟩ ⟨hop, rfl⟩
    obtain ⟨h3, h4⟩ := exec_classes h1 hcons op hop
    exact ⟨h3, by rw [h4, h2]⟩
  · rw [create_eq h₀]
    exact ⟨inv_empty hash, by simp [classes, elems]⟩

/-- **The table refines a finite set**, for every run of insertions, removals and clears. -/
theorem refines_finite_set (hcons : ∀ a b : α, a == b → hash a = hash b)
    {maxSize initialReserve : ℕ} {t₀ t : LinearHashTable α} {S : Finset (Class α)}
    {ops : List (Op α)} (h₀ : create maxSize initialReserve = some t₀)
    (hrun : Run (Step hash) (t₀, ∅) ops (t, S)) :
    (t.buckets = t._front + t._split ∧ t.buckets = t._size + 1 ∧ t._split ≤ t._front ∧
      ∀ i, ∀ v ∈ t._buckets.getD i [], t.bucketAddress hash v = i) ∧
    (∀ v, (Class.of v ∈ S ↔ ∃ w ∈ t.elems, w == v) ∧
      ((t.find hash v).differs t.endIter = true ↔ Class.of v ∈ S) ∧
      (Class.of v ∈ S → ∃ w ∈ t.elems, t.deref (t.find hash v) = some w ∧ w == v) ∧
      (t.count hash v = 1 ↔ Class.of v ∈ S) ∧ (t.count hash v = 0 ↔ Class.of v ∉ S) ∧
      ((t.insert hash v).2.2 = true ↔ Class.of v ∉ S) ∧
      (∃ w, (t.insert hash v).1.deref (t.insert hash v).2.1 = some w ∧ w == v) ∧
      (t.insert hash v).1.classes = specExec t S (.insert v) ∧
      (t.eraseValue hash v).classes = specExec t S (.eraseValue v)) ∧
    t.elems.Pairwise (fun a b => (a == b) = false) ∧
    t.size = S.card ∧
    (t.visit (t.size + 1) t.beginIter = some t.elems ∧ (t.elems.map Class.of).Nodup ∧
      ∀ c, c ∈ t.elems.map Class.of ↔ c ∈ S) := by
  obtain ⟨h, rfl⟩ := run_inv hcons h₀ hrun
  refine ⟨⟨h.length_eq, h.count_eq, h.split_le, h.placed⟩, ?_, h.distinct,
    (card_classes h).symm, ?_, nodup_classes h, ?_⟩
  · intro v
    have hins := (exec_classes h hcons (.insert v) (by simp)).2
    have hers := (exec_classes h hcons (.eraseValue v) (by simp)).2
    by_cases hv : Class.of v ∈ t.classes
    · obtain ⟨-, h2, h3⟩ := find_of_mem h.toLaid hcons (mem_classes.mp hv)
      obtain ⟨h4, h5, h6⟩ := insert_of_mem h.toLaid hcons (mem_classes.mp hv)
      refine ⟨mem_classes, by simp [h2, hv], fun _ => h3, by simp [count, h2, hv],
        by simp [count, h2, hv], by simp [h5, hv], ?_, hins, hers⟩
      rw [h4]
      exact h6
    · have e : t.find hash v = t.endIter := find_of_not_mem (not_mem_classes.mp hv)
      have hd : (t.find hash v).differs t.endIter = false := by
        rw [e, ← Bool.not_eq_true, differs_endIter t.valid_endIter]
        exact lt_irrefl _
      obtain ⟨-, -, h5, h6⟩ := insert_of_not_mem h (not_mem_classes.mp hv)
      exact ⟨mem_classes, by simp [hd, hv], fun hc => absurd hc hv, by simp [count, hd, hv],
        by simp [count, hd, hv], by simp [h5, hv], ⟨v, h6, BEq.rfl⟩, hins, hers⟩
  · rw [size, h.size_eq]
    exact t.visit_begin
  · intro c
    simp [classes]

theorem refines_finite_set_small : ∃ t S,
    Run (Step id) ((⟨[[]], 0, 1, 0⟩ : LinearHashTable ℕ), ∅)
      [.insert 5, .insert 7, .eraseIter ⟨1, 3, 0⟩, .eraseValue 9] (t, S) ∧
    t.size = S.card ∧ t.visit (t.size + 1) t.beginIter = some t.elems := by
  have hrun : Run (Step id) ((⟨[[]], 0, 1, 0⟩ : LinearHashTable ℕ), ∅)
      [.insert 5, .insert 7, .eraseIter ⟨1, 3, 0⟩, .eraseValue 9] (_, _) :=
    Run.cons ⟨by simp, rfl⟩ <| Run.cons ⟨by simp, rfl⟩ <|
      Run.cons ⟨by rintro it ⟨⟩; decide, rfl⟩ <| Run.single ⟨by simp, rfl⟩
  have h := refines_finite_set (fun a b hab => by rw [eq_of_beq hab])
    (show create (2 ^ 32) 64 = some ⟨[[]], 0, 1, 0⟩ by decide) hrun
  exact ⟨_, _, hrun, h.2.2.2.1, h.2.2.2.2.1⟩

end refinement

end LinearHashTable
end Poco.Foundation
