import Poco.Lib.OrderedMap

/-! # Trees and paths

A tree consists of objects, whose children have names, and arrays, whose children are numbered.  A path
leads to a tree, which is `empty` when there is nothing (`follow`).  `Put v t p t'` says that `t'` is `t`
with `v` at the end of `p`, where the objects and arrays that `p` needs are there or have been made.  Then
`p` leads to `v` (`Put.follow_eq`), and a path that turns off from `p` leads where it led before
(`Put.follow_apart`). -/

namespace Poco.Lib

/-- A tree with leaves in `α`. -/
inductive Tree (κ α : Type)
  | empty
  | leaf (a : α)
  | object (values : List (κ × Tree κ α))
  | array (values : List (Tree κ α))

/-- A step of a path. -/
inductive Step (κ : Type)
  | name (n : κ)
  | index (i : ℕ)
deriving DecidableEq, Repr

namespace Tree

/-! ### Objects and arrays -/

section Arrays

variable {κ α : Type}

/-- The element of an array. -/
def element (values : List (Tree κ α)) (i : ℕ) : Tree κ α := values.getD i .empty

/-- The array with another element; it grows when it has not got so many. -/
def setElement (values : List (Tree κ α)) (i : ℕ) (t : Tree κ α) : List (Tree κ α) :=
  (values ++ List.replicate (i + 1 - values.length) Tree.empty).set i t

theorem element_append_replicate (values : List (Tree κ α)) (n i : ℕ) :
    element (values ++ List.replicate n Tree.empty) i = element values i := by
  unfold element
  rw [List.getD_eq_getElem?_getD, List.getD_eq_getElem?_getD]
  by_cases hi : i < values.length
  · rw [List.getElem?_append_left hi]
  · rw [List.getElem?_append_right (by omega), List.getElem?_replicate, List.getElem?_eq_none (by omega)]
    split
    · rfl
    · rfl

theorem element_setElement (values : List (Tree κ α)) (i j : ℕ) (t : Tree κ α) :
    element (setElement values i t) j = if i = j then t else element values j := by
  by_cases h : i = j
  · subst h
    have hlen : i < (values ++ List.replicate (i + 1 - values.length) Tree.empty).length := by
      rw [List.length_append, List.length_replicate]
      omega
    rw [if_pos rfl, element, setElement, List.getD_eq_getElem?_getD, List.getElem?_set_self hlen]
    rfl
  · rw [if_neg h, ← element_append_replicate values (i + 1 - values.length) j]
    unfold element setElement
    rw [List.getD_eq_getElem?_getD, List.getD_eq_getElem?_getD, List.getElem?_set_ne h]

theorem setElement_of_lt {values : List (Tree κ α)} {i : ℕ} (h : i < values.length) (t : Tree κ α) :
    setElement values i t = values.set i t := by
  rw [setElement, Nat.sub_eq_zero_of_le h, List.replicate_zero, List.append_nil]

theorem setElement_length (values : List (Tree κ α)) (t : Tree κ α) :
    setElement values values.length t = values ++ [t] := by
  rw [setElement, Nat.add_sub_cancel_left, List.set_append_right _ _ le_rfl, Nat.sub_self]
  rfl

theorem setElement_nil (i : ℕ) (t : Tree κ α) :
    setElement [] i t = List.replicate i Tree.empty ++ [t] := by
  rw [setElement, List.nil_append, List.length_nil, Nat.sub_zero, List.replicate_succ',
    List.set_append_right _ _ (by rw [List.length_replicate]), List.length_replicate, Nat.sub_self]
  rfl

end Arrays

variable {κ α : Type} [LinearOrder κ]

/-- The child of an object. -/
def child (values : List (κ × Tree κ α)) (n : κ) : Tree κ α := (OrderedMap.findEntry n values).getD .empty

/-- The object with another child. -/
def setChild (values : List (κ × Tree κ α)) (n : κ) (t : Tree κ α) : List (κ × Tree κ α) :=
  OrderedMap.insertEntry n t values

theorem child_setChild (values : List (κ × Tree κ α)) (n m : κ) (t : Tree κ α) :
    child (setChild values n t) m = if n = m then t else child values m := by
  rw [child, setChild, OrderedMap.findEntry_insertEntry]
  split
  · rfl
  · rfl

/-! ### Paths -/

/-- Where a path leads; an index of what is not an array is passed over. -/
def follow : List (Step κ) → Tree κ α → Tree κ α
  | [], t => t
  | .name n :: p, .object values => follow p (child values n)
  | .name _ :: _, _ => .empty
  | .index i :: p, .array values => follow p (element values i)
  | .index _ :: p, t => follow p t

@[simp] theorem follow_empty (p : List (Step κ)) : follow p (.empty : Tree κ α) = .empty := by
  induction p with
  | nil => rfl
  | cons s p ih =>
      cases s with
      | name n => rfl
      | index i => exact ih

theorem follow_append (p q : List (Step κ)) (t : Tree κ α) :
    follow (p ++ q) t = follow q (follow p t) := by
  induction p generalizing t with
  | nil => rfl
  | cons s p ih =>
      cases s with
      | name n =>
          cases t with
          | object values => exact ih _
          | empty | leaf a | array values => exact (follow_empty q).symm
      | index i =>
          cases t with
          | array values => exact ih _
          | empty | leaf a | object values => exact ih _

/-! ### Putting a tree at the end of a path -/

/-- `t'` is `t` with `v` at the end of the path. -/
inductive Put (v : Tree κ α) : Tree κ α → List (Step κ) → Tree κ α → Prop
  | here (t : Tree κ α) : Put v t [] v
  | object {values : List (κ × Tree κ α)} {n : κ} {p : List (Step κ)} {t' : Tree κ α} :
      Put v (child values n) p t' → Put v (.object values) (.name n :: p) (.object (setChild values n t'))
  | newObject {n : κ} {p : List (Step κ)} {t' : Tree κ α} :
      Put v .empty p t' → Put v .empty (.name n :: p) (.object (setChild [] n t'))
  | array {values : List (Tree κ α)} {i : ℕ} {p : List (Step κ)} {t' : Tree κ α} :
      Put v (element values i) p t' → Put v (.array values) (.index i :: p) (.array (setElement values i t'))
  | newArray {i : ℕ} {p : List (Step κ)} {t' : Tree κ α} :
      Put v .empty p t' → Put v .empty (.index i :: p) (.array (setElement [] i t'))

theorem Put.follow_eq {v t t' : Tree κ α} {p : List (Step κ)} (h : Put v t p t') : follow p t' = v := by
  induction h with
  | here t => rfl
  | object h ih | newObject h ih =>
      rw [follow, child_setChild, if_pos rfl]
      exact ih
  | array h ih | newArray h ih =>
      rw [follow, element_setElement, if_pos rfl]
      exact ih

/-- Where the paths separate, `p` has a name and `q` an index. -/
def IndexForName (p q : List (Step κ)) : Prop :=
  ∃ (front : List (Step κ)) (n : κ) (i : ℕ), front ++ [.name n] <+: p ∧ front ++ [.index i] <+: q

omit [LinearOrder κ] in
theorem IndexForName.cons {p q : List (Step κ)} (h : IndexForName p q) (s : Step κ) :
    IndexForName (s :: p) (s :: q) := by
  obtain ⟨front, n, i, hp, hq⟩ := h
  exact ⟨s :: front, n, i, List.cons_prefix_cons.mpr ⟨rfl, hp⟩, List.cons_prefix_cons.mpr ⟨rfl, hq⟩⟩

/-- **A path that turns off leads where it led before**, unless it has an index for a name. -/
theorem Put.follow_apart {v t t' : Tree κ α} {p q : List (Step κ)} (h : Put v t p t')
    (hpq : ¬ p <+: q) (hqp : ¬ q <+: p) (hkind : ¬ IndexForName p q) : follow q t' = follow q t := by
  induction h generalizing q with
  | here t => exact absurd List.nil_prefix hpq
  | @object values n p t' h ih =>
      match q with
      | [] => exact absurd List.nil_prefix hqp
      | .index i :: q => exact absurd ⟨[], n, i, by simp, by simp⟩ hkind
      | .name m :: q =>
          rw [follow, follow, child_setChild]
          split
          · rename_i hm
            subst hm
            rw [List.cons_prefix_cons] at hpq hqp
            exact ih (fun h => hpq ⟨rfl, h⟩) (fun h => hqp ⟨rfl, h⟩) fun h => hkind (h.cons _)
          · rfl
  | @newObject n p t' h ih =>
      match q with
      | [] => exact absurd List.nil_prefix hqp
      | .index i :: q => exact absurd ⟨[], n, i, by simp, by simp⟩ hkind
      | .name m :: q =>
          rw [follow_empty, follow, child_setChild]
          split
          · rename_i hm
            subst hm
            rw [List.cons_prefix_cons] at hpq hqp
            rw [ih (fun h => hpq ⟨rfl, h⟩) (fun h => hqp ⟨rfl, h⟩) fun h => hkind (h.cons _), follow_empty]
          · exact follow_empty q
  | @array values i p t' h ih =>
      match q with
      | [] => exact absurd List.nil_prefix hqp
      | .name m :: q => rfl
      | .index j :: q =>
          rw [follow, follow, element_setElement]
          split
          · rename_i hj
            subst hj
            rw [List.cons_prefix_cons] at hpq hqp
            exact ih (fun h => hpq ⟨rfl, h⟩) (fun h => hqp ⟨rfl, h⟩) fun h => hkind (h.cons _)
          · rfl
  | @newArray i p t' h ih =>
      match q with
      | [] => exact absurd List.nil_prefix hqp
      | .name m :: q => rfl
      | .index j :: q =>
          rw [follow_empty, follow, element_setElement]
          split
          · rename_i hj
            subst hj
            rw [List.cons_prefix_cons] at hpq hqp
            rw [ih (fun h => hpq ⟨rfl, h⟩) (fun h => hqp ⟨rfl, h⟩) fun h => hkind (h.cons _), follow_empty]
          · exact follow_empty q

end Tree

end Poco.Lib
