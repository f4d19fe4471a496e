import Poco.XML.ChildLinks

/-! # Document order

`NodeIterator` and `TreeWalker` go from node to node with the same two loops.  Forward, to the first child, or else
up to the first node with a next sibling; backward, to the last node of the tree below the previous sibling, or
else to the parent.  They differ in the children they see: a `TreeWalker` sees none below a node that is rejected.

If what is seen are the children in a forest (`Sees`), the loops lead from every node below the root to the next and
to the previous one in document order (`next_eq`, `previous_eq`), and end at the root's ends. -/

namespace Poco.XML

open Poco.Lib

open Forest (Below mem_preorder preorder_eq)

variable {ν : Type} [DecidableEq ν]

/-- The way up to a node with a next sibling, if there is one below the root. -/
def climb (s : Links ν) (root : ν) : ℕ → ν → Option (Option ν)
  | 0, _ => none
  | fuel + 1, n =>
    if n = root then some none
    else
      match s._pNext n with
      | some sibling => some (some sibling)
      | none =>
        match s._pParent n with
        | none => some none
        | some parent => climb s root fuel parent

/-- `next`, for the function that gives the first child that is seen. -/
def next (firstChild : ν → Option ν) (s : Links ν) (root : ν) (fuel : ℕ) (n : ν) : Option (Option ν) :=
  match firstChild n with
  | some child => some (some child)
  | none => climb s root fuel n

/-- The way down to the last node of a tree. -/
def descend (lastChild : ν → Option (Option ν)) : ℕ → ν → Option ν
  | 0, _ => none
  | fuel + 1, n =>
    match lastChild n with
    | none => none
    | some none => some n
    | some (some child) => descend lastChild fuel child

/-- `previous`, for the function that gives the last child that is seen. -/
def previous (lastChild : ν → Option (Option ν)) (s : Links ν) (root : ν) (fuel : ℕ) (n : ν) : Option (Option ν) :=
  if n = root then some none
  else
    match AbstractNode.previousSibling fuel s n with
    | none => none
    | some none => some (s._pParent n)
    | some (some sibling) => (descend lastChild fuel sibling).map some

/-- The loop of both classes that goes on until a node is accepted. -/
def skip (step : ν → Option (Option ν)) (accept : ν → Bool) : ℕ → Option ν → Option (Option ν)
  | _, none => some none
  | 0, some _ => none
  | fuel + 1, some n =>
    if accept n then some (some n)
    else
      match step n with
      | none => none
      | some m => skip step accept fuel m

/-- The children that are seen below the root are those of the forest. -/
structure Sees (s : Links ν) (f : Forest ν) (root : ν) (fuel : ℕ) (firstChild : ν → Option ν)
    (lastChild : ν → Option (Option ν)) : Prop where
  first : ∀ p, firstChild p = (f.children p).head?
  last : ∀ p, Below f.children p root → lastChild p = some (f.children p).getLast?
  parent : ∀ {p c : ν}, c ∈ f.children p → s._pParent c = some p
  sibling : ∀ {p c : ν} {l₁ l₂ : List ν}, f.children p = l₁ ++ c :: l₂ → s._pNext c = l₂.head?
  before : ∀ {p c : ν} {l₁ l₂ : List ν}, Below f.children p root → f.children p = l₁ ++ c :: l₂ →
    AbstractNode.previousSibling fuel s c = some l₁.getLast?
  enough : (f.preorder root).length ≤ fuel

variable {s : Links ν} {f : Forest ν} {root p : ν} {fuel : ℕ} {firstChild : ν → Option ν}
  {lastChild : ν → Option (Option ν)} {l₁ l₂ : List ν}

theorem lastChild_eq (h : Represents s f) (hfuel : (f.children p).length ≤ fuel) :
    AbstractContainerNode.lastChild fuel s p = some (f.children p).getLast? := by
  have hlinked := h.linked p
  rw [AbstractContainerNode.lastChild]
  rcases List.eq_nil_or_concat (f.children p) with hnil | ⟨l, c, hsplit⟩
  · rw [h.firstChild_eq, hnil]
    rfl
  · rw [List.concat_eq_append] at hsplit
    rw [hsplit] at hlinked hfuel
    rw [hsplit, List.getLast?_concat]
    rw [List.length_append] at hfuel
    have hstart : s._pFirstChild p = (l ++ [c]).head? := hlinked.start_eq
    cases hfirst : s._pFirstChild p with
    | none =>
        rw [hfirst] at hstart
        cases l <;> cases hstart
    | some first =>
        rw [hfirst] at hlinked
        exact seek_before hlinked (by simp) hfuel

theorem previousSibling_eq (h : Represents s f) {c : ν} (hsplit : f.children p = l₁ ++ c :: l₂)
    (hfuel : (f.children p).length ≤ fuel) :
    AbstractNode.previousSibling fuel s c = some l₁.getLast? := by
  have hc : c ∈ f.children p := by simp [hsplit]
  have hnodup := f.nodup p
  have hlinked := h.linked p
  rw [hsplit] at hnodup hlinked hfuel
  rw [AbstractNode.previousSibling, h.parent.mpr hc]
  rcases List.eq_nil_or_concat l₁ with rfl | ⟨l, q, rfl⟩
  · -- the loop goes on to the end
    rw [← hsplit] at hfuel
    have hloop := seek_eq_none (p := fun sibling => s._pNext sibling = some c) (h.linked p) (fun b hb => ?_) hfuel
    · exact hloop
    · obtain ⟨u, v, huv⟩ := List.append_of_mem hb
      refine decide_eq_false fun hnext => ?_
      rw [h.next_eq huv] at hnext
      rw [List.nil_append] at hnodup hsplit
      rw [hsplit] at huv
      cases u with
      | nil =>
          obtain ⟨rfl, rfl⟩ := List.cons.inj huv
          exact (List.nodup_cons.mp hnodup).1 (List.mem_of_head? hnext)
      | cons a u =>
          obtain ⟨rfl, rfl⟩ := List.cons.inj huv
          refine (List.nodup_cons.mp hnodup).1 (List.mem_append_right _ (List.mem_cons_of_mem _ ?_))
          exact List.mem_of_head? hnext
  · rw [List.concat_eq_append] at *
    obtain ⟨m, hto, hm⟩ := Linked.append_iff.mp hlinked
    obtain ⟨rfl, -⟩ := hm
    rw [List.getLast?_concat]
    refine seek_before hto (fun a ha hmem => ?_) ?_
    · rw [← Option.some.inj ha] at hmem
      exact (List.nodup_append.mp hnodup).2.2 c hmem c List.mem_cons_self rfl
    · simp only [List.length_append, List.length_cons, List.length_nil] at hfuel
      omega

omit [DecidableEq ν] in
/-- The loop along a list ends at the first accepted node. -/
theorem skip_eq {step : ν → Option (Option ν)} {accept : ν → Bool} {l : List ν}
    (h : ∀ c t, c :: t <:+ l → step c = some t.head?) {n : ℕ} (hn : l.length ≤ n) :
    skip step accept n l.head? = some (l.find? accept) := by
  induction l generalizing n with
  | nil => cases n <;> rfl
  | cons a l ih =>
      obtain ⟨n, rfl⟩ := Nat.exists_eq_succ_of_ne_zero (Nat.pos_iff_ne_zero.mp (Nat.zero_lt_of_lt hn))
      rw [List.head?_cons, skip, List.find?_cons]
      cases accept a with
      | true => rfl
      | false =>
          simp only [Bool.false_eq_true, if_false, h a l (List.suffix_refl _)]
          exact ih (fun c t ht => h c t (ht.trans (List.suffix_cons a l))) (Nat.le_of_succ_le_succ hn)

namespace Sees

variable (h : Sees s f root fuel firstChild lastChild)

include h

/-! ### Forward -/

theorem ne_root {p c : ν} (hp : Below f.children p root) (hc : c ∈ f.children p) : c ≠ root := by
  rintro rfl
  exact Forest.not_below_child hc hp

/-- From the tree below `p` the loop leads on to what comes behind it, if it does so from `p` after `d` rounds. -/
theorem next_below {B : List ν} {d : ℕ} (hp : Below f.children p root)
    (hclimb : ∀ n, d ≤ n → climb s root n p = some B.head?)
    (hd : d + (f.preorder p).length ≤ (f.preorder root).length + 1) {x : ν}
    (hsplit : f.preorder p = l₁ ++ x :: l₂) : next firstChild s root fuel x = some (l₂ ++ B).head? := by
  induction p using f.induction generalizing B d x l₁ l₂ with
  | h p ih =>
      have hpos : 0 < (f.preorder p).length := List.length_pos_of_mem (mem_preorder.mpr (Forest.Below.refl p))
      have henough := h.enough
      rw [preorder_eq] at hsplit
      cases l₁ with
      | nil =>
          obtain ⟨rfl, rfl⟩ := List.cons.inj hsplit
          rw [next, h.first]
          cases hchildren : f.children p with
          | nil => exact hclimb fuel (by omega)
          | cons c l => simp [preorder_eq f c]
      | cons a l₁ =>
          rw [List.cons_append, List.cons.injEq] at hsplit
          obtain ⟨rfl, hsplit⟩ := hsplit
          -- the child whose tree holds the node
          obtain ⟨u, c, v, k₁, k₂, hchildren, hc, rfl, rfl⟩ := Forest.flatMap_split hsplit
          have hmem : c ∈ f.children p := by simp [hchildren]
          have hlt := Forest.length_preorder_child hmem
          rw [List.append_assoc]
          refine ih c hmem (Forest.Below.trans (Forest.below_child hmem) hp) (d := d + 1) (fun n hn => ?_) (by omega) hc
          obtain ⟨n, rfl⟩ := Nat.exists_eq_succ_of_ne_zero (by omega : n ≠ 0)
          rw [climb, if_neg (h.ne_root hp hmem), h.sibling hchildren]
          cases v with
          | nil => simpa [h.parent hmem] using hclimb n (by omega)
          | cons e v => simp [preorder_eq f e]

/-- The loop forward goes to the next node in document order. -/
theorem next_eq {x : ν} (hsplit : f.preorder root = l₁ ++ x :: l₂) :
    next firstChild s root fuel x = some l₂.head? := by
  have hroot : ∀ n, 1 ≤ n → climb s root n root = some ([] : List ν).head? := by
    intro n hn
    obtain ⟨n, rfl⟩ := Nat.exists_eq_succ_of_ne_zero (by omega : n ≠ 0)
    rw [climb, if_pos rfl]
    rfl
  have hnext := h.next_below (Forest.Below.refl root) hroot (by omega) hsplit
  rwa [List.append_nil] at hnext

/-! ### Backward -/

theorem descend_eq {n : ℕ} (hp : Below f.children p root) (hn : (f.preorder p).length ≤ n) :
    descend lastChild n p = (f.preorder p).getLast? := by
  induction p using f.induction generalizing n with
  | h p ih =>
      have hpos : 0 < (f.preorder p).length := List.length_pos_of_mem (mem_preorder.mpr (Forest.Below.refl p))
      obtain ⟨n, rfl⟩ := Nat.exists_eq_succ_of_ne_zero (by omega : n ≠ 0)
      rw [descend, h.last p hp]
      rcases List.eq_nil_or_concat (f.children p) with hnil | ⟨u, c, hchildren⟩
      · simp [hnil, preorder_eq f p]
      · rw [List.concat_eq_append] at hchildren
        have hmem : c ∈ f.children p := by simp [hchildren]
        have hlt := Forest.length_preorder_child hmem
        have hne : f.preorder c ≠ [] := by
          rw [preorder_eq]
          exact List.cons_ne_nil _ _
        rw [hchildren, List.getLast?_concat, preorder_eq f p, hchildren, List.flatMap_append, List.flatMap_singleton,
          ← List.cons_append, List.getLast?_append_of_ne_nil _ hne]
        exact ih c hmem ((Forest.below_child hmem).trans hp) (by omega)

/-- Within the tree below `p` the loop leads back to what comes before, if it does so from `p`. -/
theorem previous_below {B : List ν} (hp : Below f.children p root)
    (hback : previous lastChild s root fuel p = some B.getLast?) {x : ν} (hsplit : f.preorder p = l₁ ++ x :: l₂) :
    previous lastChild s root fuel x = some (B ++ l₁).getLast? := by
  induction p using f.induction generalizing B x l₁ l₂ with
  | h p ih =>
      rw [preorder_eq] at hsplit
      cases l₁ with
      | nil =>
          obtain ⟨rfl, rfl⟩ := List.cons.inj hsplit
          rwa [List.append_nil]
      | cons a l₁ =>
          rw [List.cons_append, List.cons.injEq] at hsplit
          obtain ⟨rfl, hsplit⟩ := hsplit
          obtain ⟨u, c, v, k₁, k₂, hchildren, hc, rfl, rfl⟩ := Forest.flatMap_split hsplit
          have hmem : c ∈ f.children p := by simp [hchildren]
          have hlist : B ++ p :: (u.flatMap f.preorder ++ k₁) = (B ++ p :: u.flatMap f.preorder) ++ k₁ := by simp
          rw [hlist]
          refine ih c hmem ((Forest.below_child hmem).trans hp) ?_ hc
          rw [previous, if_neg (h.ne_root hp hmem), h.before hp hchildren]
          rcases List.eq_nil_or_concat u with rfl | ⟨w, e, rfl⟩
          · simp [h.parent hmem]
          · rw [List.concat_eq_append] at *
            have hsibling : e ∈ f.children p := by simp [hchildren]
            have hsize := Forest.length_preorder_le ((Forest.below_child hsibling).trans hp)
            have hne : f.preorder e ≠ [] := by
              rw [preorder_eq]
              exact List.cons_ne_nil _ _
            rw [List.getLast?_concat]
            simp only [h.descend_eq ((Forest.below_child hsibling).trans hp) (hsize.trans h.enough)]
            rw [List.flatMap_append, List.flatMap_singleton, ← List.cons_append, ← List.append_assoc,
              List.getLast?_append_of_ne_nil _ hne]
            obtain ⟨last, hlast⟩ := Option.ne_none_iff_exists'.mp (mt List.getLast?_eq_none_iff.mp hne)
            rw [hlast]
            rfl

/-- The loop backward goes to the previous node in document order. -/
theorem previous_eq {x : ν} (hsplit : f.preorder root = l₁ ++ x :: l₂) :
    previous lastChild s root fuel x = some l₁.getLast? := by
  have hroot : previous lastChild s root fuel root = some ([] : List ν).getLast? := by
    rw [previous, if_pos rfl]
    rfl
  exact h.previous_below (Forest.Below.refl root) hroot hsplit

/-! ### To the next accepted node -/

theorem length_le_enough {l : List ν} (hsub : List.Sublist l (f.preorder root)) : l.length ≤ fuel :=
  hsub.length_le.trans h.enough

/-- Forward from a node, the loop ends at the first accepted node behind it. -/
theorem skip_next (accept : ν → Bool) {u l : List ν} (hsplit : f.preorder root = u ++ l) {n : ℕ} (hn : l.length ≤ n) :
    skip (next firstChild s root fuel) accept n l.head? = some (l.find? accept) := by
  refine skip_eq (fun c t ht => ?_) hn
  obtain ⟨w, rfl⟩ := ht
  have hsplit' : f.preorder root = (u ++ w) ++ c :: t := by rw [hsplit, List.append_assoc]
  exact h.next_eq hsplit'

/-- Backward from a node, the loop ends at the last accepted node before it. -/
theorem skip_previous (accept : ν → Bool) {u l : List ν} (hsplit : f.preorder root = u.reverse ++ l) {n : ℕ}
    (hn : u.length ≤ n) :
    skip (previous lastChild s root fuel) accept n u.head? = some (u.find? accept) := by
  refine skip_eq (fun c t ht => ?_) hn
  obtain ⟨w, rfl⟩ := ht
  rw [List.reverse_append, List.reverse_cons, List.append_assoc, List.append_assoc, List.singleton_append] at hsplit
  rw [h.previous_eq hsplit, List.getLast?_reverse]

end Sees

/-! ### A root with two children -/

/-- The links of a root `0` with the children `1` and `2`. -/
def twoChildren : Links (Fin 3) :=
  ⟨fun n => if n = 0 then none else some 0, fun n => if n = 1 then some 2 else none,
    fun n => if n = 0 then some 1 else none⟩

theorem exists_represents_twoChildren : ∃ f, Represents twoChildren f ∧ f.preorder 0 = [0, 1, 2] := by
  let f : Forest (Fin 3) := Forest.bare.relist 0 [1, 2] (by decide)
    fun c hc => Forest.not_below (by revert hc; revert c; decide) fun d hd => by cases hd
  refine ⟨f, ⟨fun p => ?_, ?_, fun {c} _ => ?_, by simp⟩, ?_⟩
  · revert p
    simp only [Fin.forall_fin_succ]
    exact ⟨⟨rfl, rfl, rfl⟩, rfl, rfl, by simp⟩
  · intro c _ p
    revert c p
    decide
  · revert c
    decide
  · have hleaf (p : Fin 3) (hp : f.children p = []) : f.preorder p = [p] := by
      rw [preorder_eq, hp, List.flatMap_nil]
    rw [preorder_eq, show f.children 0 = [1, 2] from rfl]
    simp [hleaf 1 rfl, hleaf 2 rfl]

end Poco.XML
