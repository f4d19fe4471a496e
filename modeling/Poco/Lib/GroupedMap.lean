import Mathlib.Data.List.Pairwise
import Mathlib.Data.Setoid.Basic

/-! # Grouped maps

A multimap that keeps the order in which its entries came: the entries with equivalent keys form a group,
in the order of their insertion, and a group stands where its first entry was put.  A map changes one group
at a time (`GroupedMap.replace`). -/

namespace Poco.Lib

variable {κ ν : Type} [Setoid κ]

/-- A multimap as the list of its groups. -/
structure GroupedMap (κ ν : Type) [Setoid κ] where
  groups : List (List (κ × ν))
  nonempty : [] ∉ groups
  uniform : ∀ g ∈ groups, ∀ a ∈ g, ∀ b ∈ g, a.1 ≈ b.1
  distinct : groups.Pairwise fun g h => ∀ a ∈ g, ∀ b ∈ h, ¬a.1 ≈ b.1

namespace GroupedMap

/-- The map without entries. -/
def empty : GroupedMap κ ν := ⟨[], List.not_mem_nil, fun _ hg => absurd hg List.not_mem_nil, .nil⟩

/-- The entries in the order of the map. -/
def entries (m : GroupedMap κ ν) : List (κ × ν) := m.groups.flatten

variable [∀ a b : κ, Decidable (a ≈ b)]

/-- The group is not the one of the key. -/
def other (k : κ) (g : List (κ × ν)) : Bool := g.all fun e => ¬e.1 ≈ k

theorem other_iff {k : κ} {g : List (κ × ν)} : other k g = true ↔ ∀ e ∈ g, ¬e.1 ≈ k := by
  unfold other
  rw [List.all_eq_true]
  exact forall₂_congr fun e _ => decide_eq_true_iff

variable (m : GroupedMap κ ν) (k : κ)

/-- The groups before the one of a key; all of them if the key has none. -/
def before : List (List (κ × ν)) := m.groups.takeWhile (other k)

/-- The group of a key and the groups after it. -/
def rest : List (List (κ × ν)) := m.groups.dropWhile (other k)

/-- The entries of a key. -/
def group : List (κ × ν) := (m.rest k).headD []

/-- The groups after the one of a key. -/
def after : List (List (κ × ν)) := (m.rest k).tail

/-- Where the group of a key begins; the number of all entries if the key has none. -/
def start : ℕ := (m.before k).flatten.length

/-! ### The place of a key -/

theorem before_append_rest : m.before k ++ m.rest k = m.groups := List.takeWhile_append_dropWhile

theorem entries_eq : m.entries = (m.before k).flatten ++ (m.group k ++ (m.after k).flatten) := by
  unfold entries
  rw [← m.before_append_rest k, List.flatten_append]
  congr 1
  unfold group after
  cases m.rest k with
  | nil => rfl
  | cons g gs => rfl

theorem not_equiv_before : ∀ e ∈ (m.before k).flatten, ¬e.1 ≈ k := by
  intro e he
  obtain ⟨g, hg, heg⟩ := List.mem_flatten.mp he
  have hall := List.all_eq_true.mp (List.all_takeWhile (p := other k) (l := m.groups))
  exact other_iff.mp (hall g hg) e heg

theorem equiv_group : ∀ e ∈ m.group k, e.1 ≈ k := by
  unfold group
  cases hr : m.rest k with
  | nil => exact fun e he => absurd he List.not_mem_nil
  | cons g gs =>
      intro e he
      have hg : ¬other k g = true := by
        have hhead := List.head?_dropWhile_not (other k) m.groups
        rw [show m.groups.dropWhile (other k) = g :: gs from hr] at hhead
        exact Bool.eq_false_iff.mp hhead
      have hmem : g ∈ m.groups := by
        rw [← m.before_append_rest k, hr]
        exact List.mem_append_right _ List.mem_cons_self
      rw [other_iff] at hg
      push Not at hg
      obtain ⟨d, hd, hdk⟩ := hg
      exact Setoid.trans (m.uniform g hmem e he d hd) hdk

theorem not_equiv_after : ∀ e ∈ (m.after k).flatten, ¬e.1 ≈ k := by
  unfold after
  cases hr : m.rest k with
  | nil => exact fun e he => absurd he List.not_mem_nil
  | cons g gs =>
      intro e he hek
      obtain ⟨h, hh, heh⟩ := List.mem_flatten.mp he
      have hgroup : m.group k = g := by
        unfold group
        rw [hr]
        rfl
      have hdist := m.distinct
      rw [← m.before_append_rest k, hr] at hdist
      have hgh := List.rel_of_pairwise_cons (List.pairwise_append.mp hdist).2.1 hh
      have hne : g ≠ [] := by
        rintro rfl
        apply m.nonempty
        rw [← m.before_append_rest k, hr]
        exact List.mem_append_right _ List.mem_cons_self
      obtain ⟨d, hd⟩ := List.exists_mem_of_ne_nil g hne
      exact hgh d hd e heh (Setoid.trans (m.equiv_group k d (hgroup ▸ hd)) (Setoid.symm hek))

/-- Without a group of the key there is nothing behind its place. -/
theorem after_of_group_eq_nil (h : m.group k = []) : m.after k = [] := by
  unfold group at h
  unfold after
  cases hr : m.rest k with
  | nil => rfl
  | cons g gs =>
      rw [hr] at h
      obtain rfl : g = [] := h
      refine absurd ?_ m.nonempty
      rw [← m.before_append_rest k, hr]
      exact List.mem_append_right _ List.mem_cons_self

/-! ### Changing a group -/

theorem groups_around_sublist : (m.before k ++ m.after k).Sublist m.groups := by
  rw [← m.before_append_rest k]
  exact (List.Sublist.refl _).append (List.tail_sublist _)

theorem not_equiv_around {g : List (κ × ν)} (hg : g ∈ m.before k ∨ g ∈ m.after k) : ∀ e ∈ g, ¬e.1 ≈ k := by
  intro e he
  rcases hg with hg | hg
  · exact m.not_equiv_before k e (List.mem_flatten.mpr ⟨g, hg, he⟩)
  · exact m.not_equiv_after k e (List.mem_flatten.mpr ⟨g, hg, he⟩)

/-- Give a key other entries.  A key with no entries at all loses its place. -/
def replace (g : List (κ × ν)) (hg : ∀ e ∈ g, e.1 ≈ k) : GroupedMap κ ν where
  groups := m.before k ++ ((if g = [] then [] else [g]) ++ m.after k)
  nonempty := by
    have hsub := m.groups_around_sublist k
    intro hmem
    have hnil : ∀ l : List (List (κ × ν)), l ⊆ m.groups → [] ∉ l := fun l hl h => m.nonempty (hl h)
    have hbefore := hnil _ fun _ h => hsub.subset (List.mem_append_left _ h)
    have hafter := hnil _ fun _ h => hsub.subset (List.mem_append_right _ h)
    rcases List.mem_append.mp hmem with h | h
    · exact hbefore h
    · split_ifs at h with hne
      · exact hafter h
      · rcases List.mem_cons.mp h with h | h
        · exact hne h.symm
        · exact hafter h
  uniform := by
    have hsub := m.groups_around_sublist k
    intro h hh a ha b hb
    have hcases : h ∈ m.before k ++ m.after k ∨ h = g := by
      rcases List.mem_append.mp hh with hh | hh
      · exact Or.inl (List.mem_append_left _ hh)
      · split_ifs at hh with hne
        · exact Or.inl (List.mem_append_right _ hh)
        · rcases List.mem_cons.mp hh with hh | hh
          · exact Or.inr hh
          · exact Or.inl (List.mem_append_right _ hh)
    rcases hcases with hh | rfl
    · exact m.uniform h (hsub.subset hh) a ha b hb
    · exact Setoid.trans (hg a ha) (Setoid.symm (hg b hb))
  distinct := by
    have hpair := m.distinct.sublist (m.groups_around_sublist k)
    split_ifs with hne
    · exact hpair
    · obtain ⟨hbefore, hafter, hacross⟩ := List.pairwise_append.mp hpair
      refine List.pairwise_append.mpr ⟨hbefore, List.pairwise_cons.mpr ⟨?_, hafter⟩, ?_⟩
      · intro h hh a ha b hb hab
        exact m.not_equiv_around k (Or.inr hh) b hb (Setoid.trans (Setoid.symm hab) (hg a ha))
      · intro h hh h' hh' a ha b hb
        rcases List.mem_cons.mp hh' with rfl | hh'
        · intro hab
          exact m.not_equiv_around k (Or.inl hh) a ha (Setoid.trans hab (hg b hb))
        · exact hacross h hh h' hh' a ha b hb

theorem entries_replace (g : List (κ × ν)) (hg : ∀ e ∈ g, e.1 ≈ k) :
    (m.replace k g hg).entries = (m.before k).flatten ++ (g ++ (m.after k).flatten) := by
  unfold replace entries
  dsimp only
  rw [List.flatten_append, List.flatten_append]
  split_ifs with hne
  · rw [hne]
    rfl
  · rw [List.flatten_singleton]

/-- Put an entry at the end of its group. -/
def insert (e : κ × ν) : GroupedMap κ ν :=
  m.replace e.1 (m.group e.1 ++ [e]) fun d hd => (List.mem_append.mp hd).elim (m.equiv_group e.1 d) fun h =>
    List.mem_singleton.mp h ▸ Setoid.refl e.1

/-- Take all entries of a key away. -/
def erase : GroupedMap κ ν := m.replace k [] fun _ he => absurd he List.not_mem_nil

/-- Take the entry at a position away. -/
def eraseAt (i : ℕ) : GroupedMap κ ν :=
  match m.entries[i]? with
  | some e =>
      m.replace e.1 ((m.group e.1).eraseIdx (i - m.start e.1)) fun d hd =>
        m.equiv_group e.1 d (List.mem_of_mem_eraseIdx hd)
  | none => m

/-- Change the value of the first entry of a key; a key without entries first gets one. -/
def modifyFirst (value : ν) (f : ν → ν) : GroupedMap κ ν :=
  match hg : m.group k with
  | [] => m.replace k [(k, f value)] fun _ hd => List.mem_singleton.mp hd ▸ Setoid.refl k
  | e :: g =>
      m.replace k ((e.1, f e.2) :: g) fun d hd => (List.mem_cons.mp hd).elim
        (fun h => h ▸ m.equiv_group k e (hg ▸ List.mem_cons_self))
        fun h => m.equiv_group k d (hg ▸ List.mem_cons_of_mem e h)

theorem entries_eraseAt (i : ℕ) : (m.eraseAt i).entries = m.entries.eraseIdx i := by
  unfold eraseAt
  cases he : m.entries[i]? with
  | none => exact (List.eraseIdx_of_length_le (List.getElem?_eq_none_iff.mp he)).symm
  | some e =>
      dsimp only
      rw [entries_replace, m.entries_eq e.1]
      unfold start
      rw [m.entries_eq e.1] at he
      have hle : (m.before e.1).flatten.length ≤ i := by
        by_contra hlt
        rw [List.getElem?_append_left (not_le.mp hlt)] at he
        exact m.not_equiv_before e.1 e (List.mem_of_getElem? he) (Setoid.refl _)
      have hlt : i - (m.before e.1).flatten.length < (m.group e.1).length := by
        by_contra hge
        rw [List.getElem?_append_right hle, List.getElem?_append_right (not_lt.mp hge)] at he
        exact m.not_equiv_after e.1 e (List.mem_of_getElem? he) (Setoid.refl _)
      rw [List.eraseIdx_append_of_length_le hle, List.eraseIdx_append_of_lt_length hlt]

end GroupedMap

end Poco.Lib
