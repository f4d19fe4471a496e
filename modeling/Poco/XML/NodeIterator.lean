import Poco.XML.DocumentOrder

/-! # `NodeIterator`

An iterator goes forward and backward over the nodes of a tree that its mask and its filter accept.
`iterate_eq` says that, as long as the tree does not change, it is a cursor on the list of these nodes in document
order: from each of them it goes to its neighbours in the list, and from the state in which it is at no node, at the
beginning and behind both ends, to the first and to the last. -/

namespace Poco.XML

open Poco.Lib

variable {ν : Type} [DecidableEq ν]

/-- The bits of `NodeFilter::WhatToShow`. -/
def NodeType.mask : NodeType → ℕ
  | ELEMENT_NODE => 0x00000001
  | ATTRIBUTE_NODE => 0x00000002
  | TEXT_NODE => 0x00000004
  | CDATA_SECTION_NODE => 0x00000008
  | ENTITY_REFERENCE_NODE => 0x00000010
  | ENTITY_NODE => 0x00000020
  | PROCESSING_INSTRUCTION_NODE => 0x00000040
  | COMMENT_NODE => 0x00000080
  | DOCUMENT_NODE => 0x00000100
  | DOCUMENT_TYPE_NODE => 0x00000200
  | DOCUMENT_FRAGMENT_NODE => 0x00000400
  | NOTATION_NODE => 0x00000800

namespace NodeFilter

def FILTER_ACCEPT : ℕ := 1

def FILTER_REJECT : ℕ := 2

def FILTER_SKIP : ℕ := 3

end NodeFilter

/-- The members of `NodeIterator`; a filter is the function `acceptNode`. -/
structure NodeIterator (ν : Type) where
  _pRoot : Option ν
  _whatToShow : ℕ
  _pFilter : Option (ν → ℕ)
  _pCurrent : Option ν := none

namespace NodeIterator

variable (K : Kinds ν) (s : Links ν) (fuel : ℕ)

/-- `accept`. -/
def accept (it : NodeIterator ν) (n : ν) : Bool :=
  let accept : Bool := it._whatToShow &&& (K.nodeType n).mask ≠ 0
  match it._pFilter with
  | some filter => accept && filter n == NodeFilter.FILTER_ACCEPT
  | none => accept

/-- The loop of `last`. -/
def lastLoop (step : ν → Option (Option ν)) : ℕ → Option ν → Option ν → Option (Option ν)
  | _, none, pLast => some pLast
  | 0, some _, _ => none
  | fuel + 1, some n, _ =>
    match step n with
    | none => none
    | some m => lastLoop step fuel m (some n)

/-- The end of `nextNode` and `previousNode`: on to an accepted node, which becomes the current one. -/
def moveTo (it : NodeIterator ν) (step : ν → Option (Option ν)) (start : Option (Option ν)) :
    Option (Except Thrown (Option ν) × NodeIterator ν) :=
  match start with
  | none => none
  | some n => (skip step (it.accept K) fuel n).map fun r => (.ok r, { it with _pCurrent := r })

/-- `nextNode`. -/
def nextNode (it : NodeIterator ν) : Option (Except Thrown (Option ν) × NodeIterator ν) :=
  match it._pRoot with
  | none => some (.error .INVALID_STATE_ERR, it)
  | some root =>
    let step := next s._pFirstChild s root fuel
    it.moveTo K fuel step (match it._pCurrent with | some n => step n | none => some (some root))

/-- `previousNode`. -/
def previousNode (it : NodeIterator ν) : Option (Except Thrown (Option ν) × NodeIterator ν) :=
  match it._pRoot with
  | none => some (.error .INVALID_STATE_ERR, it)
  | some root =>
    let step := previous (AbstractContainerNode.lastChild fuel s) s root fuel
    it.moveTo K fuel step
      (match it._pCurrent with
      | some n => step n
      | none => lastLoop (next s._pFirstChild s root fuel) fuel (some root) none)

/-- `detach`. -/
def detach (it : NodeIterator ν) : NodeIterator ν := { it with _pRoot := none, _pCurrent := none }

inductive Call
  | nextNode
  | previousNode
  | detach
deriving DecidableEq, Repr

/-- A run of calls, and what they return; `detach` returns no node. -/
def iterate : List Call → NodeIterator ν → Option (List (Except Thrown (Option ν)))
  | [], _ => some []
  | .nextNode :: calls, it => do
    let (r, it) ← it.nextNode K s fuel
    return r :: (← iterate calls it)
  | .previousNode :: calls, it => do
    let (r, it) ← it.previousNode K s fuel
    return r :: (← iterate calls it)
  | .detach :: calls, it => do return .ok none :: (← iterate calls it.detach)

/-! ### The cursor -/

/-- The next of the nodes `l`. -/
def following (l : List ν) : Option ν → Option ν
  | none => l.head?
  | some n => (l.dropWhile (· ≠ n)).tail.head?

/-- The previous of the nodes `l`. -/
def preceding (l : List ν) : Option ν → Option ν
  | none => l.getLast?
  | some n => (l.takeWhile (· ≠ n)).getLast?

/-- What a cursor on the nodes `l` returns, at a node or at none; `none` is a cursor that was detached. -/
def answers (l : List ν) : List Call → Option (Option ν) → List (Except Thrown (Option ν))
  | [], _ => []
  | .detach :: calls, _ => .ok none :: answers l calls none
  | .nextNode :: calls, some n => .ok (following l n) :: answers l calls (some (following l n))
  | .previousNode :: calls, some n => .ok (preceding l n) :: answers l calls (some (preceding l n))
  | _ :: calls, none => .error .INVALID_STATE_ERR :: answers l calls none

variable {K s fuel} {f : Forest ν} {root n : ν} {it : NodeIterator ν} {u v : List ν}

theorem following_split (h : n ∉ u) : following (u ++ n :: v) (some n) = v.head? := by
  rw [following, List.dropWhile_append_of_pos fun a ha => by simpa using ne_of_mem_of_not_mem ha h]
  simp

theorem preceding_split (h : n ∉ u) : preceding (u ++ n :: v) (some n) = u.getLast? := by
  rw [preceding, List.takeWhile_append_of_pos fun a ha => by simpa using ne_of_mem_of_not_mem ha h]
  simp

omit [DecidableEq ν] in
theorem head?_preorder : (f.preorder root).head? = some root := by rw [Forest.preorder_eq, List.head?_cons]

theorem sees_all (h : Represents s f) (hfuel : (f.preorder root).length ≤ fuel) :
    Sees s f root fuel s._pFirstChild (AbstractContainerNode.lastChild fuel s) := by
  have hchildren {p : ν} (hp : Forest.Below f.children p root) : (f.children p).length ≤ fuel :=
    (Forest.length_children_lt p).le.trans ((Forest.length_preorder_le hp).trans hfuel)
  exact {
    first := h.firstChild_eq
    last := fun p hp => lastChild_eq h (hchildren hp)
    parent := h.parent.mpr
    sibling := h.next_eq
    before := fun hp hsplit => previousSibling_eq h hsplit (hchildren hp)
    enough := hfuel }

theorem lastLoop_eq {firstChild : ν → Option ν} {lastChild : ν → Option (Option ν)} {k : ℕ} {l : List ν}
    (pLast : Option ν) (h : Sees s f root fuel firstChild lastChild) (hsplit : f.preorder root = u ++ l)
    (hk : l.length ≤ k) : lastLoop (next firstChild s root fuel) k l.head? pLast = some (l.getLast?.or pLast) := by
  induction l generalizing u k pLast with
  | nil => cases k <;> rfl
  | cons a l ih =>
      obtain ⟨k, rfl⟩ := Nat.exists_eq_succ_of_ne_zero (Nat.pos_iff_ne_zero.mp (Nat.zero_lt_of_lt hk))
      rw [List.head?_cons, lastLoop, h.next_eq hsplit]
      refine (ih (some a) (u := u ++ [a]) (by rw [hsplit, List.append_assoc]; rfl) (Nat.le_of_succ_le_succ hk)).trans ?_
      rw [List.getLast?_cons]
      cases l.getLast? <;> rfl

/-- The nodes that an iterator at `root` accepts, in document order. -/
noncomputable def accepted (K : Kinds ν) (f : Forest ν) (root : ν) (it : NodeIterator ν) : List ν :=
  (f.preorder root).filter (it.accept K)

omit [DecidableEq ν] in
theorem accepted_split (hn : n ∈ it.accepted K f root) :
    ∃ u v, f.preorder root = u ++ n :: v ∧ n ∉ u.filter (it.accept K) ∧
      it.accepted K f root = u.filter (it.accept K) ++ n :: v.filter (it.accept K) := by
  obtain ⟨hmem, haccept⟩ := List.mem_filter.mp hn
  obtain ⟨u, v, hsplit⟩ := List.append_of_mem hmem
  have hnodup := Forest.nodup_preorder (f := f) root
  rw [hsplit] at hnodup
  refine ⟨u, v, hsplit, fun hu => ?_, ?_⟩
  · exact (List.nodup_append.mp hnodup).2.2 n (List.mem_filter.mp hu).1 n List.mem_cons_self rfl
  · rw [accepted, hsplit, List.filter_append, List.filter_cons_of_pos haccept]

theorem nextNode_eq (h : Represents s f) (hfuel : (f.preorder root).length ≤ fuel) (hroot : it._pRoot = some root)
    (hcurrent : ∀ n, it._pCurrent = some n → n ∈ it.accepted K f root) :
    it.nextNode K s fuel =
      some (.ok (following (it.accepted K f root) it._pCurrent),
        { it with _pCurrent := following (it.accepted K f root) it._pCurrent }) := by
  have hsees := sees_all h hfuel
  simp only [nextNode, hroot]
  cases hcur : it._pCurrent with
  | none =>
      have hskip := hsees.skip_next (it.accept K) (List.nil_append _).symm hfuel
      rw [head?_preorder, ← List.head?_filter] at hskip
      simp only [moveTo, hskip, Option.map_some, hroot]
      rfl
  | some n =>
      obtain ⟨u, v, hsplit, hnot, haccepted⟩ := accepted_split (hcurrent n hcur)
      have hsplit' : f.preorder root = (u ++ [n]) ++ v := by rw [hsplit, List.append_assoc]; rfl
      have hlen : v.length ≤ fuel := hsees.length_le_enough (hsplit' ▸ List.sublist_append_right _ v)
      have hskip := hsees.skip_next (it.accept K) hsplit' hlen
      simp only [moveTo, hsees.next_eq hsplit, hskip, Option.map_some, hroot]
      rw [haccepted, following_split hnot, List.head?_filter]

theorem previousNode_eq (h : Represents s f) (hfuel : (f.preorder root).length ≤ fuel) (hroot : it._pRoot = some root)
    (hcurrent : ∀ n, it._pCurrent = some n → n ∈ it.accepted K f root) :
    it.previousNode K s fuel =
      some (.ok (preceding (it.accepted K f root) it._pCurrent),
        { it with _pCurrent := preceding (it.accepted K f root) it._pCurrent }) := by
  have hsees := sees_all h hfuel
  simp only [previousNode, hroot]
  cases hcur : it._pCurrent with
  | none =>
      have hlast := lastLoop_eq none hsees (List.nil_append _).symm hfuel
      rw [head?_preorder, Option.or_none] at hlast
      have hskip := hsees.skip_previous (it.accept K) (u := (f.preorder root).reverse) (l := [])
        (by simp) (by simpa using hfuel)
      rw [List.head?_reverse, ← List.head?_filter, List.filter_reverse, List.head?_reverse] at hskip
      simp only [moveTo, hlast, hskip, Option.map_some, hroot]
      rfl
  | some n =>
      obtain ⟨u, v, hsplit, hnot, haccepted⟩ := accepted_split (hcurrent n hcur)
      have hlen : u.reverse.length ≤ fuel := by
        rw [List.length_reverse]
        exact hsees.length_le_enough (hsplit ▸ List.sublist_append_left u _)
      have hskip := hsees.skip_previous (it.accept K) (u := u.reverse) (by rwa [List.reverse_reverse]) hlen
      rw [List.head?_reverse, ← List.head?_filter, List.filter_reverse, List.head?_reverse] at hskip
      simp only [moveTo, hsees.previous_eq hsplit, hskip, Option.map_some, hroot]
      rw [haccepted, preceding_split hnot]

theorem following_mem {l : List ν} {m : Option ν} (h : following l m = some n) : n ∈ l := by
  cases m with
  | none => exact List.mem_of_head? h
  | some m => exact (List.dropWhile_sublist _).mem (List.mem_of_mem_tail (List.mem_of_head? h))

theorem preceding_mem {l : List ν} {m : Option ν} (h : preceding l m = some n) : n ∈ l := by
  cases m with
  | none => exact List.mem_of_getLast? h
  | some m => exact (List.takeWhile_sublist _).mem (List.mem_of_getLast? h)

theorem iterate_detached (it : NodeIterator ν) (calls : List Call) (l : List ν) (hroot : it._pRoot = none) :
    it.iterate K s fuel calls = some (answers l calls none) := by
  induction calls generalizing it with
  | nil => rfl
  | cons call calls ih =>
      cases call with
      | nextNode => simp [iterate, nextNode, hroot, ih it hroot, answers]
      | previousNode => simp [iterate, previousNode, hroot, ih it hroot, answers]
      | detach => simp [iterate, ih it.detach rfl, answers]

/-- An iterator at one of its nodes, or at none, is a cursor. -/
theorem iterate_answers (h : Represents s f) (hfuel : (f.preorder root).length ≤ fuel) (calls : List Call)
    (hroot : it._pRoot = some root) (hcurrent : ∀ n, it._pCurrent = some n → n ∈ it.accepted K f root) :
    it.iterate K s fuel calls = some (answers (it.accepted K f root) calls (some it._pCurrent)) := by
  induction calls generalizing it with
  | nil => rfl
  | cons call calls ih =>
      cases call with
      | nextNode =>
          have hrest := @ih { it with _pCurrent := following (it.accepted K f root) it._pCurrent } hroot
            fun n hn => following_mem hn
          simp only [iterate, nextNode_eq h hfuel hroot hcurrent, Option.bind_eq_bind, Option.bind_some, hrest, answers]
          rfl
      | previousNode =>
          have hrest := @ih { it with _pCurrent := preceding (it.accepted K f root) it._pCurrent } hroot
            fun n hn => preceding_mem hn
          simp only [iterate, previousNode_eq h hfuel hroot hcurrent, Option.bind_eq_bind, Option.bind_some, hrest,
            answers]
          rfl
      | detach => simp [iterate, iterate_detached it.detach calls (it.accepted K f root) rfl, answers]

/-- **Main result.** A new iterator over a tree is a cursor on the nodes of the tree that its mask and its filter
accept, in document order, for every sequence of calls. -/
theorem iterate_eq (h : Represents s f) (hfuel : (f.preorder root).length ≤ fuel) (whatToShow : ℕ)
    (pFilter : Option (ν → ℕ)) (calls : List Call) :
    let it : NodeIterator ν := { _pRoot := some root, _whatToShow := whatToShow, _pFilter := pFilter }
    it.iterate K s fuel calls = some (answers ((f.preorder root).filter (it.accept K)) calls (some none)) := by
  intro it
  exact iterate_answers h hfuel calls rfl (by simp [it])

omit [DecidableEq ν] in
/-- The elements of a tree with a root and two children, the first of which is a text. -/
theorem iterate_eq_elements :
    let K : Kinds (Fin 3) := ⟨fun n => if n = 1 then .TEXT_NODE else .ELEMENT_NODE, fun _ => none⟩
    NodeIterator.iterate K twoChildren 3 [.nextNode, .nextNode, .nextNode, .previousNode, .detach, .nextNode]
        { _pRoot := some 0, _whatToShow := 1, _pFilter := none } =
      some [.ok (some 0), .ok (some 2), .ok none, .ok (some 2), .ok none, .error .INVALID_STATE_ERR] := by
  intro K
  obtain ⟨f, hrepresents, hpreorder⟩ := exists_represents_twoChildren
  have henough : (f.preorder 0).length ≤ 3 := by simp [hpreorder]
  have hrun := iterate_eq (K := K) hrepresents henough 1 none
    [.nextNode, .nextNode, .nextNode, .previousNode, .detach, .nextNode]
  have helements : [0, 1, 2].filter (accept K { _pRoot := some 0, _whatToShow := 1, _pFilter := none }) = [0, 2] := by
    decide
  dsimp only at hrun
  rw [hpreorder, helements] at hrun
  exact hrun

end NodeIterator

end Poco.XML
