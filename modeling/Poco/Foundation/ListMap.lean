import Poco.Lib.GroupedMap
import Poco.Net.MessageHeader
import Mathlib.Order.CompletePartialOrder

/-! # `ListMap`

A multimap in a sequence, made for the fields of a message: entries with equal keys stand together, in
the order in which they were inserted.  An iterator is its position in the sequence; a position behind the
last entry stands for no call.  Two keys are equal if the setoid of their type says so; for strings that is
`isEqual` without regard to case.

`erase(key)` takes the key by reference, and the key may be a part of the map itself, as in
`m.erase(m.begin()->first)`.  The container is a vector: when an entry is erased, those behind it move
forward by one place, and the reference shows what has moved to its place (`eraseRef`).

A map made by the default constructor does what a `GroupedMap` does as long as the key that `erase` reads
stays the same; with an `initialReserve` it begins with that many entries instead of room for them
(`agrees_always_iff`). -/

namespace Poco.Foundation

open Poco.Lib

namespace ListMap

variable {κ ν : Type} [Setoid κ] [∀ a b : κ, Decidable (a ≈ b)]

/-! ### The operations -/

/-- `ListMap::isEqual`. -/
def isEqual (val1 val2 : κ) : Bool := decide (val1 ≈ val2)

/-- `ListMap::find`. -/
def find (key : κ) : List (κ × ν) → ℕ
  | [] => 0
  | it :: l => if isEqual it.1 key then 0 else find key l + 1

/-- `ListMap::insert`: the iterator and the container. -/
def insert (val : κ × ν) (container : List (κ × ν)) : ℕ × List (κ × ν) :=
  let it := find val.1 container
  let it := it + ((container.drop it).takeWhile fun e => isEqual e.1 val.1).length
  (it, container.insertIdx it val)

/-- `ListMap::erase(it)`. -/
def eraseIt (it : ℕ) (container : List (κ × ν)) : List (κ × ν) := container.eraseIdx it

/-- The loop of `ListMap::erase(key)`: the count and what stays behind `it`. -/
def eraseLoop (key : κ) (count : ℕ) (removed : Bool) : List (κ × ν) → ℕ × List (κ × ν)
  | [] => (count, [])
  | it :: l =>
      if isEqual it.1 key then eraseLoop key (count + 1) true l
      else if removed then (count, it :: l)
      else
        let r := eraseLoop key count removed l
        (r.1, it :: r.2)

/-- `ListMap::erase(key)`. -/
def erase (key : κ) (container : List (κ × ν)) : ℕ × List (κ × ν) :=
  let it := find key container
  let r := eraseLoop key 0 false (container.drop it)
  (r.1, container.take it ++ r.2)

/-- The loop of `ListMap::erase(key)` for a key that is a part of the entry at the place `i`: the count and
the container.  Nothing when the key is read and no entry is at that place any more. -/
def eraseRefLoop (i : ℕ) (part : κ × ν → κ) (count : ℕ) (removed : Bool) (before : List (κ × ν)) :
    List (κ × ν) → Option (ℕ × List (κ × ν))
  | [] => some (count, before)
  | it :: l =>
      match (before ++ it :: l)[i]? with
      | none => none
      | some e =>
          if isEqual it.1 (part e) then eraseRefLoop i part (count + 1) true before l
          else if removed then some (count, before ++ it :: l)
          else eraseRefLoop i part count removed (before ++ [it]) l

/-- `ListMap::erase(key)` with a reference to a part of the entry at the place `i`. -/
def eraseRef (i : ℕ) (part : κ × ν → κ) (container : List (κ × ν)) : Option (ℕ × List (κ × ν)) :=
  match container[i]? with
  | none => some (0, container)
  | some e =>
      let it := find (part e) container
      eraseRefLoop i part 0 false (container.take it) (container.drop it)

/-- `ListMap::operator []` of a constant map; nothing for the `NotFoundException`. -/
def get? (key : κ) (container : List (κ × ν)) : Option ν := (container[find key container]?).map Prod.snd

/-- `ListMap::operator []`, where `assign` is what the caller does to the value. -/
def index [Inhabited ν] (key : κ) (assign : ν → ν) (container : List (κ × ν)) : List (κ × ν) :=
  let it := find key container
  if it < container.length then container.modify it fun e => (e.1, assign e.2)
  else
    let r := insert (key, default) container
    r.2.modify r.1 fun e => (e.1, assign e.2)

/-- The constructors: none for the default one. -/
def construct [Inhabited κ] [Inhabited ν] (initialReserve : Option ℕ) : List (κ × ν) :=
  match initialReserve with
  | none => []
  | some n => List.replicate n default

/-! ### Runs -/

/-- An operation that changes the map. -/
inductive Op (κ ν : Type) where
  | insert (val : κ × ν)
  | erase (key : κ)
  /-- `erase(key)` where the key is a part of the entry at the place `i`. -/
  | eraseRef (i : ℕ) (part : κ × ν → κ)
  | eraseIt (it : ℕ)
  | index (key : κ) (assign : ν → ν)
  | clear

/-- One operation: the iterator or the number that it returns (0 if neither), and the container. -/
def step [Inhabited ν] (container : List (κ × ν)) : Op κ ν → Option (ℕ × List (κ × ν))
  | .insert val => some (insert val container)
  | .erase key => some (erase key container)
  | .eraseRef i part => eraseRef i part container
  | .eraseIt it => some (0, eraseIt it container)
  | .index key assign => some (0, index key assign container)
  | .clear => some (0, [])

/-- The operation on a grouped map. -/
def groupedStep [Inhabited ν] (m : GroupedMap κ ν) : Op κ ν → ℕ × GroupedMap κ ν
  | .insert val => (m.start val.1 + (m.group val.1).length, m.insert val)
  | .erase key => ((m.group key).length, m.erase key)
  | .eraseRef i part =>
      match m.entries[i]? with
      | none => (0, m)
      | some e => ((m.group (part e)).length, m.erase (part e))
  | .eraseIt it => (0, m.eraseAt it)
  | .index key assign => (0, m.modifyFirst key default assign)
  | .clear => (0, .empty)

/-- What the map shows is what the grouped map says. -/
structure Agrees (container : List (κ × ν)) (m : GroupedMap κ ν) : Prop where
  iterate : container = m.entries
  find : ∀ key, find key container = m.start key
  first : ∀ key, container[ListMap.find key container]? = (m.group key).head?
  get : ∀ key, get? key container = (m.group key).head?.map Prod.snd
  together : ∀ key, ∃ x y, container = x ++ (m.group key ++ y)
  group : ∀ key, m.group key = container.filter fun e => isEqual e.1 key
  erased : ∀ key, erase key container =
    ((m.group key).length, container.filter fun e => !isEqual e.1 key)

/-- In every state of a run the map shows what the grouped map says, and every operation returns what it
returns there. -/
def AgreesThroughout [Inhabited ν] : List (κ × ν) → GroupedMap κ ν → List (Op κ ν) → Prop
  | container, m, [] => Agrees container m
  | container, m, op :: ops => Agrees container m ∧ ∃ r, step container op = some r ∧
      r.1 = (groupedStep m op).1 ∧ AgreesThroughout r.2 (groupedStep m op).2 ops

/-- What is at the place `i` when `n` entries from `start` on have been erased. -/
def shown {α : Type} (container : List α) (start i n : ℕ) : Option α :=
  if i < start then container[i]? else container[i + n]?

/-- The key that is a part of the entry at the place `i` stays the same until all entries of that key have
been erased, and is then not taken for the key of the entry behind them. -/
def KeyStays (container : List (κ × ν)) (i : ℕ) (part : κ × ν → κ) : Prop :=
  ∀ e, container[i]? = some e →
    let start := find (part e) container
    let number := container.countP fun d => isEqual d.1 (part e)
    (∀ n < number, ∃ d, shown container start i n = some d ∧ part d ≈ part e) ∧
      (start + number = container.length ∨ ∃ d b, shown container start i number = some d ∧
        container[start + number]? = some b ∧ ¬b.1 ≈ part d)

/-- The condition on one operation; only a key in the map itself can change. -/
def Stays (container : List (κ × ν)) : Op κ ν → Prop
  | .eraseRef i part => KeyStays container i part
  | _ => True

/-- Every operation of a run meets it. -/
def KeysStay [Inhabited ν] : List (κ × ν) → List (Op κ ν) → Prop
  | _, [] => True
  | container, op :: ops => Stays container op ∧ ∀ r, step container op = some r → KeysStay r.2 ops

theorem shown_zero {α : Type} (container : List α) (start i : ℕ) : shown container start i 0 = container[i]? :=
  ite_self _

theorem shown_succ {α : Type} (x : List α) (e : α) (l : List α) (i n : ℕ) :
    shown (x ++ e :: l) x.length i (n + 1) = shown (x ++ l) x.length i n := by
  unfold shown
  by_cases hi : i < x.length
  · rw [if_pos hi, if_pos hi, List.getElem?_append_left hi, List.getElem?_append_left hi]
  · have hle : x.length ≤ i + n := (Nat.le_of_not_lt hi).trans (Nat.le_add_right i n)
    rw [if_neg hi, if_neg hi, ← Nat.add_assoc, List.getElem?_append_right (Nat.le_succ_of_le hle),
      List.getElem?_append_right hle, Nat.succ_sub hle, List.getElem?_cons_succ]

/-! ### The operations around a group

A map is cut where the group of the key begins and where it ends. -/

section around

variable {key : κ} {x g y : List (κ × ν)}

theorem isEqual_of_equiv {a b : κ} (h : a ≈ b) : isEqual a b = true := decide_eq_true h

theorem isEqual_of_not_equiv {a b : κ} (h : ¬a ≈ b) : isEqual a b = false := decide_eq_false h

theorem find_append (hx : ∀ e ∈ x, ¬e.1 ≈ key) : find key (x ++ g) = x.length + find key g := by
  induction x with
  | nil => exact (Nat.zero_add _).symm
  | cons e x ih =>
      rw [List.forall_mem_cons] at hx
      rw [List.cons_append, find, isEqual_of_not_equiv hx.1, if_neg Bool.false_ne_true, ih hx.2, List.length_cons]
      omega

theorem find_group (hg : ∀ e ∈ g, e.1 ≈ key) (hy : g = [] → y = []) : find key (g ++ y) = 0 := by
  cases g with
  | nil =>
      rw [hy rfl]
      rfl
  | cons e g =>
      rw [List.cons_append, find, isEqual_of_equiv (hg e List.mem_cons_self), if_pos rfl]

theorem find_around (hx : ∀ e ∈ x, ¬e.1 ≈ key) (hg : ∀ e ∈ g, e.1 ≈ key) (hy : g = [] → y = []) :
    find key (x ++ (g ++ y)) = x.length := by
  rw [find_append hx, find_group hg hy, Nat.add_zero]

theorem takeWhile_group (hg : ∀ e ∈ g, e.1 ≈ key) (hy : ∀ e ∈ y, ¬e.1 ≈ key) :
    ((g ++ y).takeWhile fun e => isEqual e.1 key) = g := by
  rw [List.takeWhile_append_of_pos fun e he => isEqual_of_equiv (hg e he)]
  cases y with
  | nil => exact List.append_nil g
  | cons e y =>
      rw [List.takeWhile_cons_of_neg, List.append_nil]
      rw [isEqual_of_not_equiv (hy e List.mem_cons_self)]
      exact Bool.false_ne_true

theorem insertIdx_length {α : Type} (x y : List α) (a : α) : (x ++ y).insertIdx x.length a = x ++ a :: y := by
  induction x with
  | nil => exact List.insertIdx_zero
  | cons d x ih =>
      rw [List.cons_append, List.length_cons, List.insertIdx_succ_cons, ih]
      rfl

theorem insert_around {val : κ × ν} (hx : ∀ e ∈ x, ¬e.1 ≈ val.1) (hg : ∀ e ∈ g, e.1 ≈ val.1)
    (hy : ∀ e ∈ y, ¬e.1 ≈ val.1) (hnil : g = [] → y = []) :
    insert val (x ++ (g ++ y)) = ((x ++ g).length, x ++ (g ++ [val] ++ y)) := by
  unfold insert
  dsimp only
  rw [find_around hx hg hnil, List.drop_left, takeWhile_group hg hy, ← List.length_append,
    ← List.append_assoc, insertIdx_length, List.append_assoc, List.append_assoc]
  rfl

theorem eraseLoop_group (count : ℕ) (removed : Bool) (hg : ∀ e ∈ g, e.1 ≈ key) (hy : ∀ e ∈ y, ¬e.1 ≈ key) :
    (removed = true ∨ g ≠ [] ∨ y = []) → eraseLoop key count removed (g ++ y) = (count + g.length, y) := by
  induction g generalizing count removed with
  | nil =>
      intro h
      cases y with
      | nil => rfl
      | cons e y =>
          have hremoved : removed = true := by
            rcases h with h | h | h
            · exact h
            · exact absurd rfl h
            · exact (nomatch h)
          rw [List.nil_append, eraseLoop, isEqual_of_not_equiv (hy e List.mem_cons_self), hremoved,
            if_neg Bool.false_ne_true, if_pos rfl]
          rfl
  | cons e g ih =>
      intro _
      rw [List.forall_mem_cons] at hg
      rw [List.cons_append, eraseLoop, isEqual_of_equiv hg.1, if_pos rfl, ih _ _ hg.2 (Or.inl rfl),
        List.length_cons]
      congr 1
      omega

theorem erase_around (hx : ∀ e ∈ x, ¬e.1 ≈ key) (hg : ∀ e ∈ g, e.1 ≈ key) (hy : ∀ e ∈ y, ¬e.1 ≈ key)
    (hnil : g = [] → y = []) : erase key (x ++ (g ++ y)) = (g.length, x ++ y) := by
  unfold erase
  dsimp only
  rw [find_around hx hg hnil, List.drop_left, List.take_left]
  have hcase : false = true ∨ g ≠ [] ∨ y = [] := Or.inr (by
    by_cases h : g = []
    · exact Or.inr (hnil h)
    · exact Or.inl h)
  rw [eraseLoop_group 0 false hg hy hcase, Nat.zero_add]

theorem count_le_eraseRefLoop {i count : ℕ} {part : κ × ν → κ} {removed : Bool} {before l : List (κ × ν)}
    {r : ℕ × List (κ × ν)} (h : eraseRefLoop i part count removed before l = some r) : count ≤ r.1 := by
  induction l generalizing count removed before with
  | nil =>
      cases h
      exact le_rfl
  | cons it l ih =>
      unfold eraseRefLoop at h
      split at h
      · cases h
      · split at h
        · exact (Nat.le_succ count).trans (ih h)
        · split at h
          · cases h
            exact le_rfl
          · exact ih h

/-- The loop erases the group and no more just when the key it reads lets it. -/
theorem eraseRefLoop_iff {i : ℕ} {part : κ × ν → κ} (count : ℕ) (removed : Bool)
    (hg : ∀ e ∈ g, e.1 ≈ key) (hfirst : removed = false → g ≠ [] ∧
      ∃ d, (x ++ (g ++ y))[i]? = some d ∧ part d ≈ key) :
    eraseRefLoop i part count removed x (g ++ y) = some (count + g.length, x ++ y) ↔
      (∀ n < g.length, ∃ d, shown (x ++ (g ++ y)) x.length i n = some d ∧ part d ≈ key) ∧
        (y = [] ∨ ∃ d b, shown (x ++ (g ++ y)) x.length i g.length = some d ∧ y.head? = some b ∧
          ¬b.1 ≈ part d) := by
  induction g generalizing count removed with
  | nil =>
      have hremoved : removed = true := by
        cases removed with
        | true => rfl
        | false => exact absurd rfl (hfirst rfl).1
      rw [List.length_nil, shown_zero, List.nil_append, and_iff_right nofun, hremoved]
      cases y with
      | nil => exact iff_of_true (by rw [List.append_nil]; rfl) (Or.inl rfl)
      | cons b y =>
          rw [or_iff_right (List.cons_ne_nil b y), eraseRefLoop]
          cases hd : (x ++ b :: y)[i]? with
          | none => exact iff_of_false nofun nofun
          | some d =>
              dsimp only
              by_cases hbd : b.1 ≈ part d
              · rw [isEqual_of_equiv hbd, if_pos rfl]
                refine iff_of_false (fun h => ?_) ?_
                · exact absurd (count_le_eraseRefLoop h) (Nat.not_succ_le_self count)
                · rintro ⟨d', b', hd', hb', hne⟩
                  cases hd'
                  cases hb'
                  exact hne hbd
              · rw [isEqual_of_not_equiv hbd, if_neg Bool.false_ne_true, if_pos rfl]
                exact iff_of_true rfl ⟨d, b, rfl, rfl, hbd⟩
  | cons e g ih =>
      rw [List.forall_mem_cons] at hg
      rw [List.cons_append, eraseRefLoop]
      cases hd : (x ++ e :: (g ++ y))[i]? with
      | none =>
          refine iff_of_false nofun fun h => ?_
          obtain ⟨d, hd', -⟩ := h.1 0 (Nat.succ_pos _)
          rw [shown_zero, hd] at hd'
          cases hd'
      | some d =>
          dsimp only
          by_cases hkey : part d ≈ key
          · have hsucc := ih (count + 1) true hg.2 nofun
            rw [Nat.add_right_comm] at hsucc
            rw [isEqual_of_equiv (Setoid.trans hg.1 (Setoid.symm hkey)), if_pos rfl, List.length_cons,
              shown_succ, ← Nat.add_assoc, hsucc]
            refine and_congr_left' ⟨fun h n hn => ?_, fun h n hn => ?_⟩
            · cases n with
              | zero => exact ⟨d, (shown_zero _ _ _).trans hd, hkey⟩
              | succ n =>
                  rw [shown_succ]
                  exact h n (Nat.lt_of_succ_lt_succ hn)
            · rw [← shown_succ x e]
              exact h (n + 1) (Nat.succ_lt_succ hn)
          · have hremoved : removed = true := by
              cases removed with
              | true => rfl
              | false =>
                  obtain ⟨-, d', hd', hkey'⟩ := hfirst rfl
                  cases hd.symm.trans hd'
                  exact absurd hkey' hkey
            have hne : ¬e.1 ≈ part d := fun h => hkey (Setoid.trans (Setoid.symm h) hg.1)
            rw [isEqual_of_not_equiv hne, if_neg Bool.false_ne_true, if_pos hremoved]
            refine iff_of_false (fun h => ?_) fun h => ?_
            · have hcount := congrArg Prod.fst (Option.some.inj h)
              rw [List.length_cons] at hcount
              dsimp only at hcount
              omega
            · obtain ⟨d', hd', hkey'⟩ := h.1 0 (Nat.succ_pos _)
              rw [shown_zero] at hd'
              cases hd.symm.trans hd'
              exact hkey hkey'

theorem modify_length {α : Type} (x y : List α) (e : α) (f : α → α) :
    (x ++ e :: y).modify x.length f = x ++ f e :: y := by
  induction x with
  | nil => rfl
  | cons d x ih =>
      rw [List.cons_append, List.length_cons, List.modify_succ_cons, ih]
      rfl

theorem index_around_cons [Inhabited ν] {e : κ × ν} (assign : ν → ν) (hx : ∀ d ∈ x, ¬d.1 ≈ key)
    (hg : ∀ d ∈ e :: g, d.1 ≈ key) :
    index key assign (x ++ (e :: g ++ y)) = x ++ ((e.1, assign e.2) :: g ++ y) := by
  have hlt : x.length < (x ++ (e :: g ++ y)).length := by
    rw [List.length_append]
    exact Nat.lt_add_of_pos_right (Nat.succ_pos _)
  unfold index
  dsimp only
  rw [find_around hx hg nofun, if_pos hlt]
  exact modify_length x (g ++ y) e _

theorem index_around_nil [Inhabited ν] (assign : ν → ν) (hx : ∀ d ∈ x, ¬d.1 ≈ key) :
    index key assign x = x ++ [(key, assign default)] := by
  have hfind : find key x = x.length := by
    have h := find_append (g := []) hx
    rwa [List.append_nil] at h
  have hinsert : insert (key, (default : ν)) x = (x.length, x ++ [(key, default)]) := by
    have h := @insert_around _ _ _ _ x [] [] (key, default) hx (fun _ he => absurd he List.not_mem_nil)
      (fun _ he => absurd he List.not_mem_nil) fun _ => rfl
    rwa [List.append_nil, List.append_nil, List.append_nil, List.nil_append] at h
  unfold index
  dsimp only
  rw [hfind, if_neg (lt_irrefl _), hinsert]
  exact modify_length x [] (key, default) _

end around

/-! ### The map is a grouped map -/

section grouped

variable (m : GroupedMap κ ν)

theorem find_entries (key : κ) : find key m.entries = m.start key := by
  rw [m.entries_eq key]
  refine find_around (m.not_equiv_before key) (m.equiv_group key) fun h => ?_
  rw [m.after_of_group_eq_nil key h]
  rfl

theorem erase_entries (key : κ) : erase key m.entries = ((m.group key).length, (m.erase key).entries) := by
  unfold GroupedMap.erase
  rw [m.entries_replace, m.entries_eq key]
  refine erase_around (m.not_equiv_before key) (m.equiv_group key) (m.not_equiv_after key) fun h => ?_
  rw [m.after_of_group_eq_nil key h]
  rfl

theorem getElem?_find_entries (key : κ) : m.entries[find key m.entries]? = (m.group key).head? := by
  rw [find_entries, m.entries_eq key]
  unfold GroupedMap.start
  rw [List.getElem?_append_right le_rfl, Nat.sub_self]
  cases hg : m.group key with
  | nil =>
      rw [m.after_of_group_eq_nil key hg]
      rfl
  | cons e g => rfl

theorem filter_equiv {key : κ} {l : List (κ × ν)} (h : ∀ e ∈ l, e.1 ≈ key) :
    (l.filter fun e => isEqual e.1 key) = l ∧ (l.filter fun e => !isEqual e.1 key) = [] := by
  constructor
  · exact List.filter_eq_self.mpr fun e he => isEqual_of_equiv (h e he)
  · refine List.filter_eq_nil_iff.mpr fun e he => ?_
    rw [isEqual_of_equiv (h e he)]
    exact Bool.false_ne_true

theorem filter_not_equiv {key : κ} {l : List (κ × ν)} (h : ∀ e ∈ l, ¬e.1 ≈ key) :
    (l.filter fun e => isEqual e.1 key) = [] ∧ (l.filter fun e => !isEqual e.1 key) = l := by
  constructor
  · refine List.filter_eq_nil_iff.mpr fun e he => ?_
    rw [isEqual_of_not_equiv (h e he)]
    exact Bool.false_ne_true
  · refine List.filter_eq_self.mpr fun e he => ?_
    rw [isEqual_of_not_equiv (h e he)]
    rfl

theorem group_eq_filter (key : κ) : m.group key = m.entries.filter fun e => isEqual e.1 key := by
  rw [m.entries_eq key, List.filter_append, List.filter_append,
    (filter_not_equiv (m.not_equiv_before key)).1, (filter_equiv (m.equiv_group key)).1,
    (filter_not_equiv (m.not_equiv_after key)).1, List.nil_append, List.append_nil]

theorem entries_erase_eq_filter (key : κ) :
    (m.erase key).entries = m.entries.filter fun e => !isEqual e.1 key := by
  unfold GroupedMap.erase
  rw [m.entries_replace, m.entries_eq key, List.filter_append, List.filter_append,
    (filter_not_equiv (m.not_equiv_before key)).2, (filter_equiv (m.equiv_group key)).2,
    (filter_not_equiv (m.not_equiv_after key)).2]

/-- What a grouped map says is what the sequence of its entries shows. -/
theorem agrees_entries : Agrees m.entries m where
  iterate := rfl
  find := find_entries m
  first := getElem?_find_entries m
  get key := congrArg (Option.map Prod.snd) (getElem?_find_entries m key)
  together key := ⟨_, _, m.entries_eq key⟩
  group := group_eq_filter m
  erased key := (erase_entries m key).trans (congrArg _ (entries_erase_eq_filter m key))

theorem insert_entries (val : κ × ν) :
    insert val m.entries = (m.start val.1 + (m.group val.1).length, (m.insert val).entries) := by
  unfold GroupedMap.insert GroupedMap.start
  rw [m.entries_replace, m.entries_eq val.1, ← List.length_append, insert_around (m.not_equiv_before _) (m.equiv_group _)
    (m.not_equiv_after _)]
  intro h
  rw [m.after_of_group_eq_nil _ h]
  rfl

theorem index_entries [Inhabited ν] (key : κ) (assign : ν → ν) :
    index key assign m.entries = (m.modifyFirst key default assign).entries := by
  have hsplit := m.entries_eq key
  unfold GroupedMap.modifyFirst
  split
  next hg =>
      rw [hg, m.after_of_group_eq_nil key hg] at hsplit
      rw [m.entries_replace, m.after_of_group_eq_nil key hg, hsplit]
      rw [List.flatten_nil, List.append_nil, List.append_nil, List.append_nil]
      exact index_around_nil assign (m.not_equiv_before key)
  next e g hg =>
      have hgroup := m.equiv_group key
      rw [hg] at hsplit hgroup
      rw [m.entries_replace, hsplit]
      exact index_around_cons assign (m.not_equiv_before key) hgroup

/-- The condition on a key in the map itself, around the group of the key. -/
theorem keyStays_entries_iff {i : ℕ} {part : κ × ν → κ} {e : κ × ν} (he : m.entries[i]? = some e) :
    KeyStays m.entries i part ↔
      (∀ n < (m.group (part e)).length, ∃ d,
        shown m.entries (m.start (part e)) i n = some d ∧ part d ≈ part e) ∧
      ((m.after (part e)).flatten = [] ∨ ∃ d b,
        shown m.entries (m.start (part e)) i (m.group (part e)).length = some d ∧
          (m.after (part e)).flatten.head? = some b ∧ ¬b.1 ≈ part d) := by
  have hnumber : (m.entries.countP fun d => isEqual d.1 (part e)) = (m.group (part e)).length := by
    rw [group_eq_filter, List.countP_eq_length_filter]
  unfold KeyStays
  simp only [he, Option.some.injEq, forall_eq']
  rw [hnumber, find_entries]
  unfold GroupedMap.start
  rw [m.entries_eq (part e)]
  generalize (m.before (part e)).flatten = x
  generalize (m.after (part e)).flatten = y
  generalize m.group (part e) = g
  have hbehind : x.length + g.length = (x ++ (g ++ y)).length ↔ y = [] := by
    rw [List.length_append, List.length_append, ← List.length_eq_zero_iff]
    omega
  have hhead : (x ++ (g ++ y))[x.length + g.length]? = y.head? := by
    rw [← List.append_assoc, ← List.length_append, List.getElem?_append_right le_rfl, Nat.sub_self,
      List.head?_eq_getElem?]
  rw [hbehind, hhead]

/-- A key in the map itself: its group is erased, and no more, just when the key stays the same. -/
theorem eraseRef_entries_iff {i : ℕ} (part : κ × ν → κ) {e : κ × ν} (he : m.entries[i]? = some e) :
    eraseRef i part m.entries = some ((m.group (part e)).length, (m.erase (part e)).entries) ↔
      KeyStays m.entries i part := by
  have hgroup := m.equiv_group (part e)
  have hnil : m.group (part e) = [] → (m.after (part e)).flatten = [] := by
    intro h
    rw [m.after_of_group_eq_nil _ h]
    rfl
  have herase : (m.erase (part e)).entries = (m.before (part e)).flatten ++ (m.after (part e)).flatten :=
    m.entries_replace (part e) [] (fun _ h => absurd h List.not_mem_nil)
  rw [keyStays_entries_iff m he, herase]
  unfold eraseRef
  simp only [he]
  rw [find_entries]
  unfold GroupedMap.start
  rw [m.entries_eq (part e)] at he ⊢
  generalize (m.before (part e)).flatten = x at *
  generalize (m.after (part e)).flatten = y at *
  generalize m.group (part e) = g at *
  rw [List.take_left, List.drop_left]
  by_cases hg : g = []
  · rw [hnil hg, hg, List.nil_append, List.append_nil, eraseRefLoop]
    exact iff_of_true rfl ⟨nofun, Or.inl rfl⟩
  · have h := @eraseRefLoop_iff _ _ _ _ (part e) x g y i part 0 false hgroup
      fun _ => ⟨hg, e, he, Setoid.refl _⟩
    rwa [Nat.zero_add] at h

/-- The key of an entry stays the same just for the first entry of the last group. -/
theorem keyStays_fst_iff {i : ℕ} {e : κ × ν} (he : m.entries[i]? = some e) :
    KeyStays m.entries i Prod.fst ↔ i = m.start e.1 ∧ (m.after e.1).flatten = [] := by
  have hx := m.not_equiv_before e.1
  have hg := m.equiv_group e.1
  have hy := m.not_equiv_after e.1
  rw [keyStays_entries_iff m he]
  unfold GroupedMap.start
  rw [m.entries_eq e.1] at he ⊢
  generalize (m.before e.1).flatten = x at *
  generalize (m.after e.1).flatten = y at *
  generalize m.group e.1 = g at *
  have hle : x.length ≤ i := by
    by_contra hlt
    rw [List.getElem?_append_left (Nat.lt_of_not_le hlt)] at he
    exact hx e (List.mem_of_getElem? he) (Setoid.refl _)
  -- behind `x`, the reference shows the entries one after the other
  obtain ⟨j, rfl⟩ := Nat.exists_eq_add_of_le hle
  have hshown : ∀ n, shown (x ++ (g ++ y)) x.length (x.length + j) n = (g ++ y)[j + n]? := by
    intro n
    unfold shown
    rw [if_neg (Nat.not_lt.mpr hle), Nat.add_assoc, List.getElem?_append_right (Nat.le_add_right _ _),
      Nat.add_sub_cancel_left]
  simp only [hshown]
  rw [List.getElem?_append_right hle, Nat.add_sub_cancel_left] at he
  have hj : j < g.length := by
    by_contra hge
    rw [List.getElem?_append_right (Nat.le_of_not_lt hge)] at he
    exact hy e (List.mem_of_getElem? he) (Setoid.refl _)
  constructor
  · rintro ⟨hsame, hbehind⟩
    have hfirst : j = 0 := by
      by_contra hne
      obtain ⟨d, hd, hkey⟩ := hsame (g.length - j) (by omega)
      rw [Nat.add_sub_cancel' hj.le, List.getElem?_append_right le_rfl, Nat.sub_self] at hd
      exact hy d (List.mem_of_getElem? hd) hkey
    refine ⟨by rw [hfirst, Nat.add_zero], hbehind.resolve_right ?_⟩
    rintro ⟨d, b, hd, hb, hne⟩
    rw [hfirst, Nat.zero_add, List.getElem?_append_right le_rfl, Nat.sub_self, ← List.head?_eq_getElem?] at hd
    cases hd.symm.trans hb
    exact hne (Setoid.refl _)
  · rintro ⟨hi, hnil⟩
    have hfirst : j = 0 := by omega
    refine ⟨fun n hn => ?_, Or.inl hnil⟩
    have hget : (g ++ y)[j + n]? = some g[n] := by
      rw [hfirst, Nat.zero_add, List.getElem?_append_left hn, List.getElem?_eq_getElem hn]
    exact ⟨g[n], hget, hg _ (List.getElem_mem hn)⟩

/-- One operation does what it does on the grouped map just when it meets the condition. -/
theorem step_entries_iff [Inhabited ν] (op : Op κ ν) :
    step m.entries op = some ((groupedStep m op).1, (groupedStep m op).2.entries) ↔ Stays m.entries op := by
  cases op with
  | insert val => exact iff_of_true (congrArg some (insert_entries m val)) trivial
  | erase key => exact iff_of_true (congrArg some (erase_entries m key)) trivial
  | eraseRef i part =>
      cases he : m.entries[i]? with
      | none =>
          have hstay : KeyStays m.entries i part := by
            intro e he'
            cases he.symm.trans he'
          unfold step groupedStep Stays eraseRef
          simp only [he]
          exact (iff_true_intro hstay).symm
      | some e =>
          have h := eraseRef_entries_iff m part he
          unfold step groupedStep Stays
          simp only [he]
          exact h
  | eraseIt it => exact iff_of_true (congrArg (fun l => some (0, l)) (m.entries_eraseAt it).symm) trivial
  | index key assign => exact iff_of_true (congrArg (fun l => some (0, l)) (index_entries m key assign)) trivial
  | clear => exact iff_of_true rfl trivial

theorem agreesThroughout_entries_iff [Inhabited ν] (ops : List (Op κ ν)) :
    AgreesThroughout m.entries m ops ↔ KeysStay m.entries ops := by
  induction ops generalizing m with
  | nil => exact iff_of_true (agrees_entries m) trivial
  | cons op ops ih =>
      have hstep := step_entries_iff m op
      unfold AgreesThroughout KeysStay
      rw [and_iff_right (agrees_entries m)]
      constructor
      · rintro ⟨⟨n, container⟩, hr, hn, hrest⟩
        -- the grouped map and the map it is compared with have the same entries
        have hentries : container = (groupedStep m op).2.entries := by
          cases ops with
          | nil => exact hrest.iterate
          | cons op' ops => exact hrest.1.iterate
        dsimp only at hn hrest
        subst hn hentries
        refine ⟨hstep.mp hr, fun r hr' => ?_⟩
        cases hr.symm.trans hr'
        exact (ih _).mp hrest
      · rintro ⟨hstay, hrest⟩
        exact ⟨_, hstep.mpr hstay, rfl, (ih _).mpr (hrest _ (hstep.mpr hstay))⟩

end grouped

/-- Throughout a run the map does what a grouped map without entries at the beginning does, if and only if
it was made by the default constructor or with no room to begin with, and every key that `erase` reads from
the map itself stays the same. -/
theorem agrees_always_iff [Inhabited κ] [Inhabited ν] (initialReserve : Option ℕ) (ops : List (Op κ ν)) :
    AgreesThroughout (construct initialReserve) GroupedMap.empty ops ↔
      (initialReserve = none ∨ initialReserve = some 0) ∧ KeysStay (construct initialReserve) ops := by
  constructor
  · intro h
    have hempty : construct initialReserve = (GroupedMap.empty : GroupedMap κ ν).entries := by
      cases ops with
      | nil => exact h.iterate
      | cons op ops => exact h.1.iterate
    refine ⟨?_, ?_⟩
    · cases initialReserve with
      | none => exact Or.inl rfl
      | some n => exact Or.inr (congrArg some ((List.replicate_eq_nil_iff _).mp hempty))
    · rw [hempty] at h ⊢
      exact (agreesThroughout_entries_iff _ ops).mp h
  · rintro ⟨hreserve, hstay⟩
    have hempty : construct initialReserve = (GroupedMap.empty : GroupedMap κ ν).entries := by
      rcases hreserve with rfl | rfl
      · rfl
      · rfl
    rw [hempty] at hstay ⊢
    exact (agreesThroughout_entries_iff _ ops).mpr hstay

/-! ### Maps of strings -/

/-- `isEqual` of strings without regard to case. -/
instance caseInsensitive : Setoid (List UInt8) := (⊥ : Setoid (List UInt8)).comap (List.map Net.toLower)

instance instDecidableEquivListUInt8 (a b : List UInt8) : Decidable (a ≈ b) :=
  inferInstanceAs (Decidable (a.map Net.toLower = b.map Net.toLower))

/-- A map of strings with room for one entry has an entry; and of two entries, erasing by the key of the
first takes both and says so. -/
theorem not_agrees_reserved :
    ¬AgreesThroughout (construct (some 1) : List (List UInt8 × List UInt8)) GroupedMap.empty [] ∧
      let ops : List (Op (List UInt8) (List UInt8)) :=
        [.insert ([97], [1]), .insert ([98], [2]), .eraseRef 0 Prod.fst]
      eraseRef 0 Prod.fst [([97], [1]), ([98], [2])] = some (2, ([] : List (List UInt8 × List UInt8))) ∧
      ¬AgreesThroughout (construct none) GroupedMap.empty ops := by
  refine ⟨fun h => absurd h.iterate (by decide), by decide, ?_⟩
  rintro ⟨-, r₁, hr₁, -, -, r₂, hr₂, -, -, r₃, hr₃, hn, -⟩
  cases hr₁
  cases hr₂
  cases hr₃
  exact absurd hn (by decide)

end ListMap

end Poco.Foundation
