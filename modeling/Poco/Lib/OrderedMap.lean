import Mathlib.Data.List.Lex
import Mathlib.Data.List.Pairwise
import Mathlib.Data.List.Perm.Basic
import Mathlib.Order.Lattice

/-! # Ordered maps

A map with keys in a linear order, as the list of its entries with increasing keys: the order in which
an iterator meets them.  Two maps are equal if they find the same values (`OrderedMap.ext_find?`), and a map
is what comes of putting its entries into the empty map one after another (`foldl_insert_entries`). -/

namespace Poco.Lib

/-- Bytes are ordered by their value, and texts like words in a dictionary. -/
instance instLinearOrderUInt8 : LinearOrder UInt8 where
  le_refl _ := UInt8.le_refl _
  le_trans _ _ _ := UInt8.le_trans
  lt_iff_le_not_ge _ _ := by
    rw [UInt8.lt_iff_toNat_lt, UInt8.le_iff_toNat_le, UInt8.le_iff_toNat_le]
    omega
  le_antisymm _ _ := UInt8.le_antisymm
  le_total _ _ := UInt8.le_total _ _
  toDecidableLE := inferInstance

/-- The entries of a map, with increasing keys. -/
structure OrderedMap (κ ν : Type) [LinearOrder κ] where
  entries : List (κ × ν)
  sorted : entries.Pairwise fun a b => a.1 < b.1

namespace OrderedMap

variable {κ ν ξ : Type} [LinearOrder κ]

/-! ### Entries -/

/-- Put an entry in its place; the old value of the key goes away. -/
def insertEntry (k : κ) (v : ν) : List (κ × ν) → List (κ × ν)
  | [] => [(k, v)]
  | e :: l => if k < e.1 then (k, v) :: e :: l else if k = e.1 then (k, v) :: l else e :: insertEntry k v l

theorem mem_insertEntry {k : κ} {v : ν} {e : κ × ν} {l : List (κ × ν)} (h : e ∈ insertEntry k v l) :
    e = (k, v) ∨ e ∈ l := by
  induction l with
  | nil => exact Or.inl (List.mem_singleton.mp h)
  | cons d l ih =>
      rw [insertEntry] at h
      split_ifs at h with hlt heq
      · exact List.mem_cons.mp h
      · exact (List.mem_cons.mp h).imp_right (List.mem_cons_of_mem d)
      · rcases List.mem_cons.mp h with rfl | h
        · exact Or.inr List.mem_cons_self
        · exact (ih h).imp_right (List.mem_cons_of_mem d)

theorem insertEntry_sorted (k : κ) (v : ν) {l : List (κ × ν)} (h : l.Pairwise fun a b => a.1 < b.1) :
    (insertEntry k v l).Pairwise fun a b => a.1 < b.1 := by
  induction l with
  | nil => exact List.pairwise_singleton _ _
  | cons d l ih =>
      obtain ⟨hd, hl⟩ := List.pairwise_cons.mp h
      rw [insertEntry]
      split_ifs with hlt heq
      · refine List.Pairwise.cons (fun e he => ?_) h
        rcases List.mem_cons.mp he with rfl | he
        · exact hlt
        · exact hlt.trans (hd e he)
      · exact List.Pairwise.cons (fun e he => heq ▸ hd e he) hl
      · refine List.Pairwise.cons (fun e he => ?_) (ih hl)
        rcases mem_insertEntry he with rfl | he
        · exact lt_of_le_of_ne (not_lt.mp hlt) (Ne.symm heq)
        · exact hd e he

/-- Take the entry of a key away. -/
def eraseEntry (k : κ) (l : List (κ × ν)) : List (κ × ν) := l.filter fun e => e.1 ≠ k

/-- The value of a key. -/
def findEntry (k : κ) (l : List (κ × ν)) : Option ν := (l.find? fun e => e.1 = k).map Prod.snd

theorem findEntry_cons (k : κ) (e : κ × ν) (l : List (κ × ν)) :
    findEntry k (e :: l) = if e.1 = k then some e.2 else findEntry k l := by
  rw [findEntry, List.find?_cons]
  by_cases h : e.1 = k
  · simp [h]
  · simp [h, findEntry]

theorem findEntry_insertEntry (k k' : κ) (v : ν) (l : List (κ × ν)) :
    findEntry k' (insertEntry k v l) = if k = k' then some v else findEntry k' l := by
  induction l with
  | nil => rw [insertEntry, findEntry_cons]
  | cons d l ih =>
      rw [insertEntry]
      by_cases hlt : k < d.1
      · rw [if_pos hlt, findEntry_cons]
      · by_cases heq : k = d.1
        · rw [if_neg hlt, if_pos heq, findEntry_cons, findEntry_cons]
          by_cases hk : k = k'
          · rw [if_pos hk, if_pos hk]
          · rw [if_neg hk, if_neg hk, if_neg (heq ▸ hk)]
        · rw [if_neg hlt, if_neg heq, findEntry_cons, findEntry_cons, ih]
          by_cases hk : k = k'
          · rw [if_pos hk, if_pos hk, if_neg (hk ▸ fun h => heq h.symm)]
          · rw [if_neg hk, if_neg hk]

theorem findEntry_eraseEntry (k k' : κ) (l : List (κ × ν)) :
    findEntry k' (eraseEntry k l) = if k = k' then none else findEntry k' l := by
  induction l with
  | nil => exact (ite_self none).symm
  | cons d l ih =>
      rw [eraseEntry] at ih ⊢
      rw [List.filter_cons, findEntry_cons]
      by_cases hd : d.1 = k
      · rw [if_neg (by simp [hd]), ih]
        by_cases hk : k = k'
        · rw [if_pos hk, if_pos hk]
        · rw [if_neg hk, if_neg hk, if_neg (hd ▸ hk)]
      · rw [if_pos (by simp [hd]), findEntry_cons, ih]
        by_cases hk : k = k'
        · rw [if_pos hk, if_pos hk, if_neg (hk ▸ hd)]
        · rw [if_neg hk, if_neg hk]

theorem findEntry_eq_some {l : List (κ × ν)} (h : l.Pairwise fun a b => a.1 < b.1) {k : κ} {v : ν} :
    findEntry k l = some v ↔ (k, v) ∈ l := by
  induction l with
  | nil => simp [findEntry]
  | cons d l ih =>
      obtain ⟨hd, hl⟩ := List.pairwise_cons.mp h
      rw [findEntry_cons, List.mem_cons]
      split_ifs with hk
      · subst hk
        constructor
        · intro hv
          exact Or.inl (by rw [← Option.some.inj hv])
        · rintro (hv | hmem)
          · rw [← hv]
          · exact absurd (hd _ hmem) (lt_irrefl _)
      · rw [ih hl]
        constructor
        · exact Or.inr
        · rintro (hv | hmem)
          · exact absurd (by rw [← hv]) hk
          · exact hmem

/-! ### Maps -/

/-- The empty map. -/
def empty : OrderedMap κ ν := ⟨[], List.Pairwise.nil⟩

/-- `find`. -/
def find? (m : OrderedMap κ ν) (k : κ) : Option ν := findEntry k m.entries

/-- `m[k] = v`. -/
def insert (m : OrderedMap κ ν) (k : κ) (v : ν) : OrderedMap κ ν :=
  ⟨insertEntry k v m.entries, insertEntry_sorted k v m.sorted⟩

/-- `try_emplace`: a value that is there stays. -/
def tryEmplace (m : OrderedMap κ ν) (k : κ) (v : ν) : OrderedMap κ ν :=
  if (m.find? k).isSome then m else m.insert k v

/-- `erase`. -/
def erase (m : OrderedMap κ ν) (k : κ) : OrderedMap κ ν :=
  ⟨eraseEntry k m.entries, m.sorted.sublist List.filter_sublist⟩

/-- The first entry whose value meets a test. -/
def findFirst? (m : OrderedMap κ ν) (p : ν → Bool) : Option (κ × ν) := m.entries.find? fun e => p e.2

/-- The values are changed, the keys stay. -/
def mapValues (f : ν → ξ) (m : OrderedMap κ ν) : OrderedMap κ ξ :=
  ⟨m.entries.map fun e => (e.1, f e.2), List.pairwise_map.mpr m.sorted⟩

theorem find?_insert (m : OrderedMap κ ν) (k k' : κ) (v : ν) :
    (m.insert k v).find? k' = if k = k' then some v else m.find? k' := findEntry_insertEntry k k' v m.entries

theorem find?_erase (m : OrderedMap κ ν) (k k' : κ) :
    (m.erase k).find? k' = if k = k' then none else m.find? k' := findEntry_eraseEntry k k' m.entries

theorem find?_eq_some {m : OrderedMap κ ν} {k : κ} {v : ν} : m.find? k = some v ↔ (k, v) ∈ m.entries :=
  findEntry_eq_some m.sorted

theorem find?_tryEmplace (m : OrderedMap κ ν) (k k' : κ) (v : ν) :
    (m.tryEmplace k v).find? k' = if k = k' then some ((m.find? k).getD v) else m.find? k' := by
  rw [tryEmplace]
  cases hk : m.find? k with
  | none => rw [if_neg (by simp), find?_insert, Option.getD_none]
  | some w =>
      rw [if_pos (by simp), Option.getD_some]
      split_ifs with heq
      · rw [← heq, hk]
      · rfl

theorem findFirst?_eq_some {m : OrderedMap κ ν} {p : ν → Bool} {k : κ} {v : ν} :
    m.findFirst? p = some (k, v) ↔
      m.find? k = some v ∧ p v = true ∧ ∀ k' v', m.find? k' = some v' → p v' = true → k ≤ k' := by
  obtain ⟨l, hl⟩ := m
  simp only [findFirst?, find?_eq_some]
  induction l with
  | nil => simp
  | cons d l ih =>
      obtain ⟨hd, hl'⟩ := List.pairwise_cons.mp hl
      rw [List.find?_cons]
      by_cases hp : p d.2 = true
      · simp only [hp, Option.some.injEq]
        constructor
        · rintro rfl
          refine ⟨List.mem_cons_self, hp, fun k' v' hmem _ => ?_⟩
          rcases List.mem_cons.mp hmem with heq | hmem
          · exact (congrArg Prod.fst heq).ge
          · exact (hd _ hmem).le
        · rintro ⟨hmem, -, hle⟩
          rcases List.mem_cons.mp hmem with heq | hmem
          · exact heq.symm
          · exact absurd (hd _ hmem) (not_lt.mpr (hle d.1 d.2 List.mem_cons_self hp))
      · simp only [hp]
        rw [ih hl']
        constructor
        · rintro ⟨hmem, hv, hle⟩
          refine ⟨List.mem_cons_of_mem d hmem, hv, fun k' v' hmem' hv' => ?_⟩
          rcases List.mem_cons.mp hmem' with rfl | hmem'
          · exact absurd hv' hp
          · exact hle k' v' hmem' hv'
        · rintro ⟨hmem, hv, hle⟩
          rcases List.mem_cons.mp hmem with rfl | hmem
          · exact absurd hv hp
          · exact ⟨hmem, hv, fun k' v' hmem' => hle k' v' (List.mem_cons_of_mem d hmem')⟩

theorem ext_entries {m m' : OrderedMap κ ν} (h : m.entries = m'.entries) : m = m' := by
  cases m
  cases m'
  congr

theorem ext_find? {m m' : OrderedMap κ ν} (h : ∀ k, m.find? k = m'.find? k) : m = m' := by
  have hirrefl : ∀ {n : OrderedMap κ ν}, n.entries.Nodup := by
    intro n
    exact n.sorted.imp fun hab heq => hab.ne (congrArg Prod.fst heq)
  refine ext_entries (List.Perm.eq_of_pairwise (fun a b _ _ hab hba => absurd hab (not_lt.mpr hba.le))
    m.sorted m'.sorted ((List.perm_ext_iff_of_nodup hirrefl hirrefl).mpr fun e => ?_))
  obtain ⟨k, v⟩ := e
  rw [← find?_eq_some, ← find?_eq_some, h]

/-- Putting entries with different keys into a map, one after another. -/
theorem find?_foldl_insert {l : List (κ × ν)} (hl : l.Pairwise fun a b => a.1 < b.1) (m : OrderedMap κ ν) (k : κ) :
    (l.foldl (fun m e => m.insert e.1 e.2) m).find? k = (findEntry k l).or (m.find? k) := by
  induction l generalizing m with
  | nil => rfl
  | cons d l ih =>
      obtain ⟨hd, hl⟩ := List.pairwise_cons.mp hl
      rw [List.foldl_cons, ih hl, find?_insert, findEntry_cons]
      by_cases hk : d.1 = k
      · have hnone : findEntry k l = none := by
          rw [Option.eq_none_iff_forall_ne_some]
          intro v hv
          have hlt := hd _ ((findEntry_eq_some hl).mp hv)
          exact absurd hk hlt.ne
        rw [if_pos hk, if_pos hk, hnone]
        rfl
      · rw [if_neg hk, if_neg hk]

theorem foldl_insert_entries (m : OrderedMap κ ν) :
    m.entries.foldl (fun m e => m.insert e.1 e.2) empty = m := by
  apply ext_find?
  intro k
  rw [find?_foldl_insert m.sorted]
  exact Option.or_none

end OrderedMap

end Poco.Lib
