import Poco.XML.NodeIterator

/-! # `TreeWalker`

A walker moves in the tree that is left when what is below rejected nodes is hidden; what its mask does not show is
rejected, where the documentation of the class has its children considered all the same.  It stops at nodes that
are accepted only, but goes on below those that are skipped, if it goes in document order; the children and
siblings it finds are those of the document, and not of skipped nodes between.

`walk_spec` says what each of the seven members returns, for every sequence of calls, in terms of that tree
(`Moves`).  A call that finds no node leaves the walker where it is. -/

namespace Poco.XML

open Poco.Lib

open Forest (Below mem_preorder relisted)

variable {ν : Type} [DecidableEq ν]

/-- The members of `TreeWalker`. -/
structure TreeWalker (ν : Type) where
  _pRoot : ν
  _whatToShow : ℕ
  _pFilter : Option (ν → ℕ)
  _pCurrent : Option ν

namespace TreeWalker

/-- The members that move. -/
inductive Call
  | parentNode
  | firstChild
  | lastChild
  | previousSibling
  | nextSibling
  | previousNode
  | nextNode
deriving DecidableEq, Repr

section

variable (K : Kinds ν) (s : Links ν) (fuel : ℕ) (w : TreeWalker ν)

/-- `accept`. -/
def accept (n : ν) : ℕ :=
  let accept : Bool := w._whatToShow &&& (K.nodeType n).mask ≠ 0
  match accept, w._pFilter with
  | true, some filter => filter n
  | true, none => NodeFilter.FILTER_ACCEPT
  | false, _ => NodeFilter.FILTER_REJECT

/-- The comparisons of the loops. -/
def accepts (n : ν) : Bool := w.accept K n == NodeFilter.FILTER_ACCEPT

def rejects (n : ν) : Bool := w.accept K n == NodeFilter.FILTER_REJECT

/-- `next`. -/
def next (n : ν) : Option (Option ν) :=
  XML.next (fun n => if w.rejects K n then none else s._pFirstChild n) s w._pRoot fuel n

/-- `previous`. -/
def previous (n : ν) : Option (Option ν) :=
  XML.previous (fun n => if w.rejects K n then some none else AbstractContainerNode.lastChild fuel s n) s w._pRoot fuel
    n

/-- `parentNode`. -/
def parentNode (n : ν) : Option (Option ν) :=
  if n = w._pRoot then some none
  else
    match seek s._pParent (fun p => p = w._pRoot || w.accepts K p) fuel (s._pParent n) with
    | none => none
    | some none => some none
    | some (some p) => some (if w.accepts K p then some p else none)

/-- `firstChild`. -/
def firstChild (n : ν) : Option (Option ν) :=
  seek s._pNext (w.accepts K) fuel (if w.rejects K n then none else s._pFirstChild n)

/-- `lastChild`. -/
def lastChild (n : ν) : Option (Option ν) :=
  match (if w.rejects K n then some none else AbstractContainerNode.lastChild fuel s n) with
  | none => none
  | some child => skip (AbstractNode.previousSibling fuel s) (w.accepts K) fuel child

/-- `previousSibling`. -/
def previousSibling (n : ν) : Option (Option ν) :=
  match AbstractNode.previousSibling fuel s n with
  | none => none
  | some sibling => skip (AbstractNode.previousSibling fuel s) (w.accepts K) fuel sibling

/-- `nextSibling`. -/
def nextSibling (n : ν) : Option (Option ν) := seek s._pNext (w.accepts K) fuel (s._pNext n)

/-- `previousNode`. -/
def previousNode (n : ν) : Option (Option ν) :=
  match w.previous K s fuel n with
  | none => none
  | some m => skip (w.previous K s fuel) (w.accepts K) fuel m

/-- `nextNode`. -/
def nextNode (n : ν) : Option (Option ν) :=
  match w.next K s fuel n with
  | none => none
  | some m => skip (w.next K s fuel) (w.accepts K) fuel m

/-- What a member finds from the node `n`. -/
def find (n : ν) : Call → Option (Option ν)
  | .parentNode => w.parentNode K s fuel n
  | .firstChild => w.firstChild K s fuel n
  | .lastChild => w.lastChild K s fuel n
  | .previousSibling => w.previousSibling K s fuel n
  | .nextSibling => w.nextSibling K s fuel n
  | .previousNode => w.previousNode K s fuel n
  | .nextNode => w.nextNode K s fuel n

/-- A call: the node that is found becomes the current one. -/
def perform (call : Call) : Option (Option ν × TreeWalker ν) :=
  match w._pCurrent with
  | none => some (none, w)
  | some n => (w.find K s fuel n call).map fun r => (r, if r.isSome then { w with _pCurrent := r } else w)

end

/-- A run of calls, and what they return. -/
def walk (K : Kinds ν) (s : Links ν) (fuel : ℕ) : List Call → TreeWalker ν → Option (List (Option ν))
  | [], _ => some []
  | call :: calls, w =>
    match w.perform K s fuel call with
    | none => none
    | some (r, w) => (walk K s fuel calls w).map (r :: ·)

/-! ### The view -/

/-- What a call returns at the node `n` of the tree below `root`. -/
def Moves (g : Forest ν) (root : ν) (accepts : ν → Bool) (call : Call) (n : ν) (r : Option ν) : Prop :=
  match call with
  | .parentNode => ∃ l, List.IsChain (fun c p => c ∈ g.children p) (n :: l) ∧ (n :: l).getLast? = some root ∧
      r = l.find? accepts
  | .firstChild => r = (g.children n).find? accepts
  | .lastChild => r = (g.children n).reverse.find? accepts
  | .previousSibling => n = root ∧ r = none ∨ ∃ p u v, g.children p = u ++ n :: v ∧ r = u.reverse.find? accepts
  | .nextSibling => n = root ∧ r = none ∨ ∃ p u v, g.children p = u ++ n :: v ∧ r = v.find? accepts
  | .previousNode => ∃ u v, g.preorder root = u ++ n :: v ∧ r = u.reverse.find? accepts
  | .nextNode => ∃ u v, g.preorder root = u ++ n :: v ∧ r = v.find? accepts

/-- A run of calls from the node `n`: a call that finds no node does not move. -/
def Walks (g : Forest ν) (root : ν) (accepts : ν → Bool) : List Call → ν → List (Option ν) → Prop
  | [], _, rs => rs = []
  | call :: calls, n, rs => ∃ r rs', rs = r :: rs' ∧ Moves g root accepts call n r ∧
      Walks g root accepts calls (r.getD n) rs'

variable {K : Kinds ν} {s : Links ν} {fuel : ℕ} {w : TreeWalker ν} {f : Forest ν} {n : ν} {call : Call}
  {r : Option ν}

/-- The tree that the walker sees. -/
def view (K : Kinds ν) (f : Forest ν) (w : TreeWalker ν) : Forest ν := f.prune (w.rejects K)

omit [DecidableEq ν] in
theorem view_children {p : ν} (h : (w.view K f).children p ≠ []) : (w.view K f).children p = f.children p := by
  rw [view, Forest.prune_children] at h ⊢
  split_ifs at h ⊢
  · exact absurd rfl h
  · rfl

omit [DecidableEq ν] in
theorem below_view {a p : ν} (h : Below (w.view K f).children a p) : Below f.children a p :=
  h.mono fun q => by
    rw [view, Forest.prune_children]
    split_ifs
    · exact List.nil_subset _
    · exact List.Subset.refl _

omit [DecidableEq ν] in
theorem linked_behind (h : Represents s f) {p : ν} {u v : List ν} (hsplit : f.children p = u ++ n :: v) :
    Linked s._pNext (s._pNext n) v none := by
  have hlinked := h.linked p
  rw [hsplit] at hlinked
  obtain ⟨m, -, -, hrest⟩ := Linked.append_iff.mp hlinked
  exact hrest

theorem skip_siblings (h : Represents s f) {accepts : ν → Bool} {p : ν} {u v : List ν}
    (hsplit : f.children p = u ++ v) (hfuel : (f.children p).length ≤ fuel) :
    skip (AbstractNode.previousSibling fuel s) accepts fuel u.getLast? = some (u.reverse.find? accepts) := by
  have hlen : u.reverse.length ≤ fuel := by
    rw [List.length_reverse]
    exact (hsplit ▸ List.sublist_append_left u v).length_le.trans hfuel
  rw [← List.head?_reverse]
  refine skip_eq (fun c t ht => ?_) hlen
  obtain ⟨x, hx⟩ := ht
  have hu : u = t.reverse ++ c :: x.reverse := by
    rw [← List.reverse_reverse u, ← hx]
    simp
  have hbefore : f.children p = t.reverse ++ c :: (x.reverse ++ v) := by
    rw [hsplit, hu, List.append_assoc]
    rfl
  rw [previousSibling_eq h hbefore hfuel, List.getLast?_reverse]

variable (h : Represents s f) (hfuel : (f.preorder w._pRoot).length ≤ fuel)

include hfuel

omit [DecidableEq ν] in
theorem length_children_le {p : ν} (hp : Below (w.view K f).children p w._pRoot) : (f.children p).length ≤ fuel :=
  (Forest.length_children_lt p).le.trans ((Forest.length_preorder_le (below_view hp)).trans hfuel)

include h

/-- The loops of the walker see the children that are not hidden. -/
theorem sees_view : Sees s (w.view K f) w._pRoot fuel (fun n => if w.rejects K n then none else s._pFirstChild n)
    (fun n => if w.rejects K n then some none else AbstractContainerNode.lastChild fuel s n) where
  first p := by
    rw [view, Forest.prune_children]
    split_ifs
    · rfl
    · exact h.firstChild_eq p
  last p hp := by
    have hlen := length_children_le hfuel hp
    rw [view, Forest.prune_children]
    split_ifs
    · rfl
    · exact lastChild_eq h hlen
  parent hc := h.parent.mpr (view_children (List.ne_nil_of_mem hc) ▸ hc)
  sibling hsplit := h.next_eq ((view_children (by simp [hsplit])).symm.trans hsplit)
  before hp hsplit := previousSibling_eq h ((view_children (by simp [hsplit])).symm.trans hsplit)
    (length_children_le hfuel hp)
  enough := (Forest.length_preorder_prune _ _).trans hfuel

omit h hfuel in
theorem parentNode_eq {g : Forest ν} (hparent : ∀ {p c : ν}, c ∈ g.children p → s._pParent c = some p) {l : List ν}
    (hchain : List.IsChain (fun c p => c ∈ g.children p) (n :: l)) (hlast : (n :: l).getLast? = some w._pRoot)
    {k : ℕ} (hk : l.length ≤ k) : w.parentNode K s k n = some (l.find? (w.accepts K)) := by
  have hlen := Forest.length_ancestors hchain hlast
  induction l generalizing n k with
  | nil =>
      obtain rfl : n = w._pRoot := Option.some.inj hlast
      rw [parentNode, if_pos rfl]
      rfl
  | cons q l ih =>
      obtain ⟨hnq, hchain⟩ := List.isChain_cons_cons.mp hchain
      rw [List.getLast?_cons_cons] at hlast
      have hne : n ≠ w._pRoot := by
        rintro rfl
        rw [List.length_cons] at hlen
        omega
      have hle := Forest.length_ancestors hchain hlast
      obtain ⟨k, rfl⟩ := Nat.exists_eq_succ_of_ne_zero (Nat.pos_iff_ne_zero.mp (Nat.zero_lt_of_lt hk))
      rw [parentNode, if_neg hne, hparent hnq, seek, List.find?_cons]
      by_cases hq : q = w._pRoot
      · obtain rfl : l = [] := by
          rw [hq] at hle
          exact List.eq_nil_of_length_eq_zero (by omega)
        subst hq
        cases haccepts : w.accepts K w._pRoot <;> simp [haccepts]
      cases haccepts : w.accepts K q with
      | true => simp [haccepts]
      | false =>
          have hrest := ih hchain hlast (Nat.le_of_succ_le_succ hk) hle
          rw [parentNode, if_neg hq] at hrest
          simpa [hq] using hrest

/-- Every member finds what it should, in the tree below the root. -/
theorem find_spec (hroot : ∀ p, w._pRoot ∉ f.children p) (call : Call) (hn : n ∈ (w.view K f).preorder w._pRoot) :
    ∃ r, w.find K s fuel n call = some r ∧ Moves (w.view K f) w._pRoot (w.accepts K) call n r ∧
      ∀ m, r = some m → m ∈ (w.view K f).preorder w._pRoot := by
  have hsees := sees_view (K := K) h hfuel
  have hbelow := mem_preorder.mp hn
  have hchild {l : List ν} (hl : l ⊆ (w.view K f).children n) {m : ν} (hm : l.find? (w.accepts K) = some m) :
      m ∈ (w.view K f).preorder w._pRoot :=
    mem_preorder.mpr ((Forest.below_child (hl (List.mem_of_find?_eq_some hm))).trans hbelow)
  have horphan : s._pParent w._pRoot = none := by
    cases hparent : s._pParent w._pRoot with
    | none => rfl
    | some p => exact absurd (h.parent.mp hparent) (hroot p)
  have hsibling {p m : ν} (hp : Below (w.view K f).children p w._pRoot) (hm : m ∈ (w.view K f).children p) :
      m ∈ (w.view K f).preorder w._pRoot := mem_preorder.mpr ((Forest.below_child hm).trans hp)
  cases call with
  | parentNode =>
      obtain ⟨l, hchain, hlast⟩ := Forest.exists_ancestors hbelow
      have hlen := Forest.length_ancestors hchain hlast
      refine ⟨_, parentNode_eq hsees.parent hchain hlast ?_, ⟨l, hchain, hlast, rfl⟩, fun m hm => ?_⟩
      · exact (Nat.le_of_add_right_le hlen).trans hsees.enough
      · have hml := List.mem_cons_of_mem n (List.mem_of_find?_eq_some hm)
        exact mem_preorder.mpr (Forest.below_ancestor hchain hlast hml)
  | firstChild =>
      refine ⟨_, ?_, rfl, fun m => hchild (List.Subset.refl _)⟩
      have hlinked : Linked s._pNext (if w.rejects K n then none else s._pFirstChild n)
          ((w.view K f).children n) none := by
        rw [view, Forest.prune_children]
        split_ifs
        · rfl
        · exact h.linked n
      refine seek_find hlinked ?_
      exact (Forest.length_children_lt n).le.trans ((Forest.length_preorder_le hbelow).trans hsees.enough)
  | lastChild =>
      refine ⟨_, ?_, rfl, fun m => hchild (List.reverse_subset.mpr (List.Subset.refl _))⟩
      rw [find, lastChild, hsees.last n hbelow]
      by_cases hnil : (w.view K f).children n = []
      · rw [hnil]
        cases fuel <;> rfl
      · have hchildren := view_children hnil
        exact skip_siblings h (v := []) (by rw [hchildren, List.append_nil]) (length_children_le hfuel hbelow)
  | previousSibling =>
      rcases Relation.ReflTransGen.cases_head hbelow with rfl | ⟨p, hp, hbelowp⟩
      · refine ⟨none, ?_, .inl ⟨rfl, rfl⟩, fun m hm => by cases hm⟩
        rw [find, previousSibling, AbstractNode.previousSibling, horphan]
        cases fuel <;> rfl
      · obtain ⟨u, v, hsplit⟩ := List.append_of_mem hp
        have hchildren := view_children (List.ne_nil_of_mem hp)
        have hlen := length_children_le hfuel hbelowp
        refine ⟨_, ?_, .inr ⟨p, u, v, hsplit, rfl⟩, fun m hm => hsibling hbelowp ?_⟩
        · rw [find, previousSibling, hsees.before hbelowp hsplit]
          exact skip_siblings h (hchildren.symm.trans hsplit) hlen
        · rw [hsplit]
          exact List.mem_append_left _ (List.mem_reverse.mp (List.mem_of_find?_eq_some hm))
  | nextSibling =>
      rcases Relation.ReflTransGen.cases_head hbelow with rfl | ⟨p, hp, hbelowp⟩
      · refine ⟨none, ?_, .inl ⟨rfl, rfl⟩, fun m hm => by cases hm⟩
        rw [find, nextSibling, h.orphan horphan]
        cases fuel <;> rfl
      · obtain ⟨u, v, hsplit⟩ := List.append_of_mem hp
        have hchildren := view_children (List.ne_nil_of_mem hp)
        have hlen := length_children_le hfuel hbelowp
        rw [← hchildren, hsplit, List.length_append, List.length_cons] at hlen
        refine ⟨_, ?_, .inr ⟨p, u, v, hsplit, rfl⟩, fun m hm => hsibling hbelowp ?_⟩
        · exact seek_find (linked_behind h (hchildren.symm.trans hsplit)) (by omega)
        · rw [hsplit]
          exact List.mem_append_right _ (List.mem_cons_of_mem _ (List.mem_of_find?_eq_some hm))
  | previousNode =>
      obtain ⟨u, v, hsplit⟩ := List.append_of_mem hn
      have hlen : u.reverse.length ≤ fuel := by
        rw [List.length_reverse]
        exact hsees.length_le_enough (hsplit ▸ List.sublist_append_left u _)
      refine ⟨_, ?_, ⟨u, v, hsplit, rfl⟩, fun m hm => ?_⟩
      · have hskip := hsees.skip_previous (w.accepts K) (u := u.reverse) (by rwa [List.reverse_reverse]) hlen
        rw [List.head?_reverse] at hskip
        simp only [find, previousNode, previous, hsees.previous_eq hsplit]
        exact hskip
      · rw [hsplit]
        exact List.mem_append_left _ (List.mem_reverse.mp (List.mem_of_find?_eq_some hm))
  | nextNode =>
      obtain ⟨u, v, hsplit⟩ := List.append_of_mem hn
      have hsplit' : (w.view K f).preorder w._pRoot = (u ++ [n]) ++ v := by
        rw [hsplit, List.append_assoc]
        rfl
      refine ⟨_, ?_, ⟨u, v, hsplit, rfl⟩, fun m hm => ?_⟩
      · simp only [find, nextNode, next, hsees.next_eq hsplit]
        exact hsees.skip_next (w.accepts K) hsplit' (hsees.length_le_enough (hsplit' ▸ List.sublist_append_right _ v))
      · rw [hsplit]
        exact List.mem_append_right _ (List.mem_cons_of_mem _ (List.mem_of_find?_eq_some hm))

/-- **Main result.** Over a tree that does not change, every sequence of calls from the root returns what the tree
without what is below rejected nodes prescribes: in document order and upward the nearest accepted node, and among
the children and the siblings the first or the last accepted one.  The root has no siblings. -/
theorem walk_spec (hroot : ∀ p, w._pRoot ∉ f.children p) (calls : List Call) (hcurrent : w._pCurrent = some w._pRoot) :
    ∃ rs, w.walk K s fuel calls = some rs ∧ Walks (w.view K f) w._pRoot (w.accepts K) calls w._pRoot rs := by
  suffices hall : ∀ (calls : List Call) (n : ν) (w' : TreeWalker ν), w'._pRoot = w._pRoot →
      w'._whatToShow = w._whatToShow → w'._pFilter = w._pFilter → w'._pCurrent = some n →
      n ∈ (w.view K f).preorder w._pRoot →
      ∃ rs, w'.walk K s fuel calls = some rs ∧ Walks (w.view K f) w._pRoot (w.accepts K) calls n rs from
    hall calls w._pRoot w rfl rfl rfl hcurrent (mem_preorder.mpr (Below.refl _))
  intro calls
  induction calls with
  | nil => exact fun n w' _ _ _ _ _ => ⟨[], rfl, rfl⟩
  | cons call calls ih =>
      rintro n ⟨root, whatToShow, pFilter, current⟩ rfl rfl rfl rfl hn
      obtain ⟨r, hfind, hmoves, hmem⟩ := find_spec h hfuel hroot call hn
      have hfind' : TreeWalker.find K s fuel ⟨w._pRoot, w._whatToShow, w._pFilter, some n⟩ n call = some r := hfind
      obtain ⟨rs, hwalk, hwalks⟩ := ih (r.getD n)
        (if r.isSome then ⟨w._pRoot, w._whatToShow, w._pFilter, r⟩ else ⟨w._pRoot, w._whatToShow, w._pFilter, some n⟩)
        (by split_ifs <;> rfl) (by split_ifs <;> rfl) (by split_ifs <;> rfl) (by cases r <;> rfl)
        (by
          cases r with
          | none => exact hn
          | some m => exact hmem m rfl)
      refine ⟨r :: rs, ?_, r, rs, rfl, hmoves, hwalks⟩
      rw [walk, perform]
      simp only [hfind', Option.map_some, hwalk]

omit [DecidableEq ν] h hfuel in
/-- A root with two children, the first of which is skipped and has a child itself. -/
theorem walk_spec_skipped :
    let K : Kinds (Fin 4) := ⟨fun _ => .ELEMENT_NODE, fun _ => none⟩
    let s : Links (Fin 4) :=
      ⟨fun n => if n = 0 then none else if n = 2 then some 1 else some 0, fun n => if n = 1 then some 3 else none,
        fun n => if n = 0 then some 1 else if n = 1 then some 2 else none⟩
    let w : TreeWalker (Fin 4) :=
      { _pRoot := 0, _whatToShow := 1, _pFilter := some fun n => if n = 1 then NodeFilter.FILTER_SKIP else 1,
        _pCurrent := some 0 }
    let calls : List Call := [.nextNode, .nextSibling, .nextNode, .previousSibling, .previousNode, .parentNode,
      .firstChild]
    let rs := [some 2, none, some 3, none, some 2, some 0, some 3]
    ∃ f, Represents s f ∧ w.walk K s 4 calls = some rs ∧ Walks (w.view K f) 0 (w.accepts K) calls 0 rs := by
  intro K s w calls rs
  let f₁ : Forest (Fin 4) := Forest.bare.relist 1 [2] (by decide)
    fun c hc => Forest.not_below (by revert hc; revert c; decide) fun d hd => by cases hd
  have hleaf (p : Fin 4) (hp : f₁.children p = []) (hne : (0 : Fin 4) ≠ p) : ¬Below f₁.children 0 p :=
    Forest.not_below hne fun d hd => by rw [hp] at hd; cases hd
  let f : Forest (Fin 4) := f₁.relist 0 [1, 3] (by decide) fun c hc => by
    rcases List.mem_cons.mp hc with rfl | hc
    · refine Forest.not_below (by decide) fun d hd => ?_
      obtain rfl : d = 2 := List.mem_singleton.mp hd
      exact hleaf 2 rfl (by decide)
    · obtain rfl := List.mem_singleton.mp hc
      exact hleaf 3 rfl (by decide)
  have hrepresents : Represents s f := by
    refine ⟨fun p => ?_, ?_, fun {c} _ => ?_, by simp⟩
    · revert p
      simp only [Fin.forall_fin_succ]
      exact ⟨⟨rfl, rfl, rfl⟩, ⟨rfl, rfl⟩, rfl, rfl, by simp⟩
    · intro c _ p
      show s._pParent c = some p ↔ c ∈ relisted (relisted (fun _ => []) 1 [2]) 0 [1, 3] p
      revert c p
      decide
    · revert c
      decide
  have hroot (p : Fin 4) : w._pRoot ∉ f.children p := by
    show 0 ∉ relisted (relisted (fun _ => []) 1 [2]) 0 [1, 3] p
    revert p
    decide
  have henough : (f.preorder w._pRoot).length ≤ 4 := by
    have hleaf' (p : Fin 4) (hp : f.children p = []) : f.preorder p = [p] := by
      rw [Forest.preorder_eq, hp, List.flatMap_nil]
    have hone : f.preorder 1 = [1, 2] := by
      rw [Forest.preorder_eq, show f.children 1 = [2] from rfl]
      simp [hleaf' 2 rfl]
    rw [Forest.preorder_eq, show f.children w._pRoot = [1, 3] from rfl]
    simp [hone, hleaf' 3 rfl]
  obtain ⟨rs', hwalk, hwalks⟩ := walk_spec hrepresents henough hroot calls rfl
  obtain rfl : rs = rs' := Option.some.inj ((show some rs = w.walk K s 4 calls by decide).trans hwalk)
  exact ⟨f, hrepresents, hwalk, hwalks⟩

end TreeWalker

end Poco.XML
