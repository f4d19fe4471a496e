import Poco.XML.DocumentOrder

/-! # `ElementsByTagNameList` and `ElementsByTagNameListNS`

The lists of elements with a name are searched anew at each call, from the node at which they were made.  They are
the elements below this node that match, in document order (`item_length_eq`; `item_length_NS` for names with a
namespace). -/

namespace Poco.XML

open Poco.Lib

variable {ν : Type}

/-- The names of a node. -/
structure Names (ν : Type) where
  nodeName : ν → List UInt8
  localName : ν → List UInt8
  namespaceURI : ν → List UInt8

/-- The name that stands for every name. -/
def asterisk : List UInt8 := [0x2a]

/-- `ULONG_MAX`. -/
def ULONG_MAX : ℕ := 0xFFFFFFFFFFFFFFFF

/-- The test of `ElementsByTagNameList::find`. -/
def matchesName (K : Kinds ν) (N : Names ν) (name : List UInt8) (n : ν) : Bool :=
  K.nodeType n == .ELEMENT_NODE && (name == asterisk || N.nodeName n == name)

/-- The test of `ElementsByTagNameListNS::find`. -/
def matchesNameNS (K : Kinds ν) (N : Names ν) (uri localName : List UInt8) (n : ν) : Bool :=
  K.nodeType n == .ELEMENT_NODE && (localName == asterisk || N.localName n == localName) &&
    (uri == asterisk || N.namespaceURI n == uri)

namespace ElementsByTagNameList

variable (test : ν → Bool) (s : Links ν)

/-- The loop of `find` over siblings, which calls itself for the children; it returns the count with the node. -/
def findFrom (index : ℕ) : ℕ → Option ν → ℕ → Option (Option ν × ℕ)
  | _, none, count => some (none, count)
  | 0, some _, _ => none
  | fuel + 1, some cur, count =>
    if test cur && count == index then some (some cur, count)
    else
      match findFrom index fuel (s._pFirstChild cur) (if test cur then count + 1 else count) with
      | none => none
      | some (some node, count) => some (some node, count)
      | some (none, count) => findFrom index fuel (s._pNext cur) count

/-- `item`. -/
def item (fuel : ℕ) (pParent : ν) (index : ℕ) : Option (Option ν) :=
  (findFrom test s index fuel (s._pFirstChild pParent) 0).map Prod.fst

/-- `length`. -/
def length (fuel : ℕ) (pParent : ν) : Option ℕ :=
  (findFrom test s ULONG_MAX fuel (s._pFirstChild pParent) 0).map Prod.snd

variable {s} {f : Forest ν} {index fuel count : ℕ} {start : Option ν} {l : List ν}

/-- The search finds the matching node with the number `index` in the trees below the siblings, or counts all. -/
theorem findFrom_spec (h : Represents s f) (hlinked : Linked s._pNext start l none) (hcount : count ≤ index)
    (hfuel : (l.flatMap f.preorder).length ≤ fuel) :
    ∃ c, findFrom test s index fuel start count =
        some (((l.flatMap f.preorder).filter test)[index - count]?, c) ∧
      (((l.flatMap f.preorder).filter test).length ≤ index - count →
        c = count + ((l.flatMap f.preorder).filter test).length) := by
  induction fuel generalizing start l count with
  | zero =>
      have hnil : l = [] := by
        cases l with
        | nil => rfl
        | cons a l =>
            rw [List.flatMap_cons, Forest.preorder_eq, List.cons_append] at hfuel
            exact absurd hfuel (by simp)
      subst hnil
      obtain rfl : start = none := hlinked
      exact ⟨count, rfl, fun _ => rfl⟩
  | succ fuel ih =>
      cases l with
      | nil =>
          obtain rfl : start = none := hlinked
          exact ⟨count, rfl, fun _ => rfl⟩
      | cons a l =>
          obtain ⟨rfl, hrest⟩ := hlinked
          rw [List.flatMap_cons, List.length_append, Forest.preorder_eq, List.length_cons] at hfuel
          have hlist : ((a :: l).flatMap f.preorder).filter test = [a].filter test ++
              (((f.children a).flatMap f.preorder).filter test ++ (l.flatMap f.preorder).filter test) := by
            rw [List.flatMap_cons, Forest.preorder_eq, List.cons_append, ← List.singleton_append, List.filter_append,
              List.filter_append]
          rw [hlist, findFrom]
          by_cases hfound : test a = true ∧ count = index
          · obtain ⟨ha, rfl⟩ := hfound
            refine ⟨count, by simp [ha], fun hlen => ?_⟩
            simp [ha] at hlen
          have hnot : (test a && count == index) = false := by
            cases ha : test a with
            | false => rfl
            | true => simpa using fun heq => hfound ⟨ha, heq⟩
          rw [hnot, if_neg Bool.false_ne_true]
          -- the node itself, then its children, then its siblings
          generalize hself : [a].filter test = own
          obtain ⟨hown, hle⟩ : (if test a then count + 1 else count) = count + own.length ∧
              count + own.length ≤ index := by
            cases ha : test a with
            | false =>
                rw [List.filter_cons_of_neg (by simp [ha])] at hself
                subst hself
                exact ⟨rfl, hcount⟩
            | true =>
                rw [List.filter_cons_of_pos ha] at hself
                subst hself
                exact ⟨rfl, Nat.lt_of_le_of_ne hcount fun heq => hfound ⟨ha, heq⟩⟩
          obtain ⟨c₁, hchildren, hc₁⟩ := ih (h.linked a) hle (by omega)
          rw [hown, hchildren, List.getElem?_append_right (by omega), Nat.sub_sub]
          simp only [List.length_append]
          cases hnode : ((f.children a).flatMap f.preorder |>.filter test)[index - (count + own.length)]? with
          | some node =>
              have hlt := (List.getElem?_eq_some_iff.mp hnode).1
              rw [List.getElem?_append_left hlt, hnode]
              exact ⟨c₁, rfl, fun hlen => by omega⟩
          | none =>
              have hge := List.getElem?_eq_none_iff.mp hnode
              obtain rfl := hc₁ hge
              obtain ⟨c₂, hsiblings, hc₂⟩ := ih hrest (show _ ≤ index from Nat.add_le_of_le_sub' hle hge) (by omega)
              refine ⟨c₂, ?_, fun hlen => ?_⟩
              · rw [List.getElem?_append_right hge, Nat.sub_sub]
                exact hsiblings
              · rw [hc₂ (by omega)]
                omega

/-- The nodes below `n` that match, in document order. -/
noncomputable def matching (test : ν → Bool) (f : Forest ν) (n : ν) : List ν := (f.preorder n).tail.filter test

theorem item_length_matching (h : Represents s f) {pParent : ν} (hfuel : (f.preorder pParent).length ≤ fuel)
    (hsmall : (f.preorder pParent).length ≤ ULONG_MAX) (index : ℕ) :
    item test s fuel pParent index = some (matching test f pParent)[index]? ∧
      length test s fuel pParent = some (matching test f pParent).length := by
  have htail : (f.preorder pParent).tail = (f.children pParent).flatMap f.preorder := by rw [Forest.preorder_eq]; rfl
  have hlen : ((f.children pParent).flatMap f.preorder).length ≤ (f.preorder pParent).length := by
    rw [← htail, List.length_tail]
    exact Nat.sub_le _ _
  constructor
  · obtain ⟨c, hfind, -⟩ := findFrom_spec test h (h.linked pParent) (Nat.zero_le index) (hlen.trans hfuel)
    rw [item, hfind, Option.map_some, matching, htail, Nat.sub_zero]
  · obtain ⟨c, hfind, hc⟩ := findFrom_spec test h (h.linked pParent) (Nat.zero_le ULONG_MAX)
      (hlen.trans hfuel)
    have hcount := hc ((List.length_filter_le _ _).trans (hlen.trans hsmall))
    rw [length, hfind, Option.map_some, matching, htail, hcount, Nat.zero_add]

theorem mem_matching_NS (K : Kinds ν) (N : Names ν) (uri localName : List UInt8) (f : Forest ν) (pParent n : ν) :
    n ∈ matching (matchesNameNS K N uri localName) f pParent ↔
      n ∈ (f.preorder pParent).tail ∧ K.nodeType n = .ELEMENT_NODE ∧
        (localName = asterisk ∨ N.localName n = localName) ∧ (uri = asterisk ∨ N.namespaceURI n = uri) := by
  rw [matching, List.mem_filter, matchesNameNS, Bool.and_eq_true, Bool.and_eq_true, Bool.or_eq_true, Bool.or_eq_true,
    beq_iff_eq, beq_iff_eq, beq_iff_eq, beq_iff_eq, beq_iff_eq, and_assoc]

/-- The list with namespaces: the elements below the node with this local name and this namespace, where an
asterisk stands for any, in document order. -/
theorem item_length_NS (K : Kinds ν) (N : Names ν) (uri localName : List UInt8) (h : Represents s f) {pParent : ν}
    (hfuel : (f.preorder pParent).length ≤ fuel) (hsmall : (f.preorder pParent).length ≤ ULONG_MAX) :
    ∃ l : List ν, l.Sublist (f.preorder pParent).tail ∧
      (∀ n, n ∈ l ↔ n ∈ (f.preorder pParent).tail ∧ K.nodeType n = .ELEMENT_NODE ∧
        (localName = asterisk ∨ N.localName n = localName) ∧ (uri = asterisk ∨ N.namespaceURI n = uri)) ∧
      (∀ index, item (matchesNameNS K N uri localName) s fuel pParent index = some l[index]?) ∧
      length (matchesNameNS K N uri localName) s fuel pParent = some l.length := by
  refine ⟨matching (matchesNameNS K N uri localName) f pParent, List.filter_sublist,
    mem_matching_NS K N uri localName f pParent, fun index => ?_, ?_⟩
  · exact (item_length_matching _ h hfuel hsmall index).1
  · exact (item_length_matching _ h hfuel hsmall 0).2

/-- **Main result.** `item` returns the element with the number `index` among those that match below the node, in
document order, and none beyond their end; `length` is their number. -/
theorem item_length_eq (h : Represents s f) {pParent : ν} (hfuel : (f.preorder pParent).length ≤ fuel)
    (hsmall : (f.preorder pParent).length ≤ ULONG_MAX) (index : ℕ) :
    item test s fuel pParent index = some (matching test f pParent)[index]? ∧
      length test s fuel pParent = some (matching test f pParent).length :=
  item_length_matching test h hfuel hsmall index

/-- The elements `b` below a root with two children `b`, the first of which is a text. -/
theorem item_length_eq_second :
    let K : Kinds (Fin 3) := ⟨fun n => if n = 1 then .TEXT_NODE else .ELEMENT_NODE, fun _ => none⟩
    let N : Names (Fin 3) := ⟨fun n => if n = 0 then [0x61] else [0x62], fun _ => [], fun _ => []⟩
    item (matchesName K N [0x62]) twoChildren 3 0 0 = some (some 2) ∧
      length (matchesName K N [0x62]) twoChildren 3 0 = some 1 := by
  intro K N
  obtain ⟨f, hrepresents, hpreorder⟩ := exists_represents_twoChildren
  have hthree : (f.preorder 0).length = 3 := by rw [hpreorder]; rfl
  obtain ⟨hitem, hlength⟩ := item_length_eq (matchesName K N [0x62]) hrepresents hthree.le
    (by rw [hthree]; decide) 0
  have hmatching : matching (matchesName K N [0x62]) f 0 = [2] := by
    rw [matching, hpreorder]
    decide
  rw [hmatching] at hitem hlength
  exact ⟨hitem, hlength⟩

end ElementsByTagNameList

end Poco.XML
