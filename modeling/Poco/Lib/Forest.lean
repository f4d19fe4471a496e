import Mathlib.Data.List.Flatten
import Mathlib.Data.List.Nodup
import Mathlib.Logic.Relation
import Mathlib.Order.WellFounded

/-! # Forests

A forest gives every node an ordered list of children.  No node stands twice in these lists, and every way
down ends, so that no node is its own ancestor (`Forest.not_below_child`).

* `Below children a p`: the node `a` is `p` or stands in the tree below it;
* `preorder p`: the nodes of this tree in document order, each before its children;
* `relist t l`: the list of children of `t` becomes `l`, and nodes of `l` are taken away from where they stood
  before.  This covers every way of inserting, moving, replacing and removing children, and is again a forest if
  `t` is not below a node of `l`.

An induction over the tree below a node is `Forest.induction`. -/

namespace Poco.Lib

/-- Ordered lists of children, without repetition and without cycles. -/
@[ext] structure Forest (α : Type) where
  children : α → List α
  nodup : ∀ p, (children p).Nodup
  unique : ∀ {p q c : α}, c ∈ children p → c ∈ children q → p = q
  descends : WellFounded fun c p => c ∈ children p

namespace Forest

variable {α : Type} (f : Forest α)

/-- The forest in which no node has children. -/
def bare : Forest α where
  children _ := []
  nodup _ := List.nodup_nil
  unique h := by cases h
  descends := ⟨fun _ => ⟨_, fun _ h => by cases h⟩⟩

/-- Induction over the tree below a node: what holds of a node if it holds of its children, holds. -/
theorem induction {C : α → Prop} (h : ∀ p, (∀ c ∈ f.children p, C c) → C p) (p : α) : C p :=
  f.descends.induction p h

/-- A node of the tree below `p`, or `p`. -/
def Below (children : α → List α) (a p : α) : Prop := Relation.ReflTransGen (fun c p => c ∈ children p) a p

section

variable {children : α → List α} {a b c p : α}

theorem Below.refl (p : α) : Below children p p := Relation.ReflTransGen.refl

theorem Below.trans (hab : Below children a b) (hbc : Below children b c) : Below children a c :=
  Relation.ReflTransGen.trans hab hbc

theorem below_child (h : c ∈ children p) : Below children c p := Relation.ReflTransGen.single h

/-- A node is not below another one if it is not below its children. -/
theorem not_below (hne : a ≠ p) (h : ∀ c ∈ children p, ¬Below children a c) : ¬Below children a p := by
  intro hbelow
  rcases Relation.ReflTransGen.cases_tail hbelow with rfl | ⟨c, hac, hc⟩
  · exact hne rfl
  · exact h c hc hac

theorem Below.mono {children' : α → List α} (h : Below children' a p) (hsub : ∀ p, children' p ⊆ children p) :
    Below children a p := Relation.ReflTransGen.mono (fun _ _ hc => hsub _ hc) a p h

end

variable {f}

/-- A node is below another one if it is this one or below one of its children. -/
theorem below_iff {a p : α} : Below f.children a p ↔ a = p ∨ ∃ c ∈ f.children p, Below f.children a c := by
  constructor
  · intro h
    rcases Relation.ReflTransGen.cases_tail h with rfl | ⟨c, hac, hc⟩
    · exact .inl rfl
    · exact .inr ⟨c, hc, hac⟩
  · rintro (rfl | ⟨c, hc, hac⟩)
    · exact Below.refl a
    · exact hac.trans (below_child hc)

theorem not_below_child {c p : α} (h : c ∈ f.children p) : ¬Below f.children p c := by
  induction p using f.induction generalizing c with
  | h p ih =>
      intro hbelow
      rcases below_iff.mp hbelow with rfl | ⟨d, hd, hpd⟩
      · exact ih p h h (Below.refl p)
      · exact ih c h hd ((below_child h).trans hpd)

theorem Below.linear {a p q : α} (hp : Below f.children a p) (hq : Below f.children a q) :
    Below f.children p q ∨ Below f.children q p := by
  induction hp with
  | refl => exact .inl hq
  | @tail b c _ hb ih =>
      rcases ih with h | h
      · rcases Relation.ReflTransGen.cases_head h with rfl | ⟨d, hd, hdq⟩
        · exact .inr (below_child hb)
        · exact .inl (f.unique hd hb ▸ hdq)
      · exact .inr (h.trans (below_child hb))

/-- The trees below two children of a node have no node in common. -/
theorem disjoint_children {p c d a : α} (hc : c ∈ f.children p) (hd : d ∈ f.children p) (hac : Below f.children a c)
    (had : Below f.children a d) : c = d := by
  rcases hac.linear had with h | h
  · rcases Relation.ReflTransGen.cases_head h with rfl | ⟨e, he, hed⟩
    · rfl
    · exact absurd (f.unique he hc ▸ hed) (not_below_child hd)
  · rcases Relation.ReflTransGen.cases_head h with rfl | ⟨e, he, hec⟩
    · rfl
    · exact absurd (f.unique he hd ▸ hec) (not_below_child hc)

/-! ### Document order -/

variable (f)

/-- The tree below a node in document order. -/
noncomputable def preorder : α → List α :=
  f.descends.fix fun p below => p :: (f.children p).attach.flatMap fun c => below c.1 c.2

theorem preorder_eq (p : α) : f.preorder p = p :: (f.children p).flatMap f.preorder := by
  have hattach : (f.children p).attach.flatMap (fun c => f.preorder c.1) = (f.children p).flatMap f.preorder := by
    rw [List.flatMap_subtype fun c hc => rfl, List.unattach_attach]
  rw [← hattach, preorder, WellFounded.fix_eq]

variable {f}

theorem mem_preorder {a p : α} : a ∈ f.preorder p ↔ Below f.children a p := by
  induction p using f.induction with
  | h p ih =>
      rw [preorder_eq, List.mem_cons, List.mem_flatMap, below_iff]
      refine or_congr_right (exists_congr fun c => ?_)
      exact and_congr_right fun hc => ih c hc

theorem nodup_preorder (p : α) : (f.preorder p).Nodup := by
  induction p using f.induction with
  | h p ih =>
      rw [preorder_eq, List.nodup_cons, List.nodup_flatMap]
      refine ⟨fun hp => ?_, ih, ?_⟩
      · obtain ⟨c, hc, hpc⟩ := List.mem_flatMap.mp hp
        exact not_below_child hc (mem_preorder.mp hpc)
      · refine (f.nodup p).imp_of_mem ?_
        intro c d hc hd hne a hac had
        exact hne (disjoint_children hc hd (mem_preorder.mp hac) (mem_preorder.mp had))

theorem length_preorder_child {c p : α} (h : c ∈ f.children p) : (f.preorder c).length < (f.preorder p).length := by
  have hle := ((List.singleton_sublist.mpr h).flatMap f.preorder).length_le
  rw [List.flatMap_singleton] at hle
  rw [preorder_eq f p, List.length_cons]
  exact Nat.lt_succ_of_le hle

theorem length_preorder_le {a p : α} (h : Below f.children a p) : (f.preorder a).length ≤ (f.preorder p).length := by
  induction h with
  | refl => exact Nat.le_refl _
  | tail _ hc ih => exact ih.trans (length_preorder_child hc).le

theorem length_children_lt (p : α) : (f.children p).length < (f.preorder p).length := by
  have hle : ∀ l : List α, l.length ≤ (l.flatMap f.preorder).length := by
    intro l
    induction l with
    | nil => exact Nat.le_refl 0
    | cons c l ih =>
        rw [List.flatMap_cons, List.length_append, List.length_cons, preorder_eq, List.length_cons]
        omega
  rw [preorder_eq, List.length_cons]
  exact Nat.lt_succ_of_le (hle _)

theorem exists_ancestors {a p : α} (h : Below f.children a p) :
    ∃ l, List.IsChain (fun c q => c ∈ f.children q) (a :: l) ∧ (a :: l).getLast? = some p := by
  induction h using Relation.ReflTransGen.head_induction_on with
  | refl => exact ⟨[], by simp, rfl⟩
  | @head a b hab _ ih =>
      obtain ⟨l, hchain, hlast⟩ := ih
      exact ⟨b :: l, List.isChain_cons_cons.mpr ⟨hab, hchain⟩, by rwa [List.getLast?_cons_cons]⟩

theorem below_ancestor {a p x : α} {l : List α} (hchain : List.IsChain (fun c q => c ∈ f.children q) (a :: l))
    (hlast : (a :: l).getLast? = some p) (hx : x ∈ a :: l) : Below f.children x p := by
  induction l generalizing a x with
  | nil =>
      obtain rfl := Option.some.inj hlast
      obtain rfl := List.mem_singleton.mp hx
      exact Below.refl x
  | cons b l ih =>
      obtain ⟨hab, hrest⟩ := List.isChain_cons_cons.mp hchain
      rw [List.getLast?_cons_cons] at hlast
      rcases List.mem_cons.mp hx with rfl | hx
      · exact (below_child hab).trans (ih hrest hlast List.mem_cons_self)
      · exact ih hrest hlast hx

theorem length_ancestors {a p : α} {l : List α} (hchain : List.IsChain (fun c q => c ∈ f.children q) (a :: l))
    (hlast : (a :: l).getLast? = some p) : l.length + (f.preorder a).length ≤ (f.preorder p).length := by
  induction l generalizing a with
  | nil =>
      obtain rfl := Option.some.inj hlast
      simp
  | cons b l ih =>
      obtain ⟨hab, hchain⟩ := List.isChain_cons_cons.mp hchain
      rw [List.getLast?_cons_cons] at hlast
      have hlt := length_preorder_child hab
      have hle := ih hchain hlast
      rw [List.length_cons]
      omega

/-- The forest in which some nodes have no children. -/
def prune (f : Forest α) (hidden : α → Bool) : Forest α where
  children p := if hidden p then [] else f.children p
  nodup p := by
    split_ifs
    · exact List.nodup_nil
    · exact f.nodup p
  unique {p q c} hp hq := by
    split_ifs at hp hq
    · cases hp
    · cases hp
    · cases hq
    · exact f.unique hp hq
  descends := Subrelation.wf (fun {c p} h => by
    split_ifs at h
    · cases h
    · exact h) f.descends

theorem prune_children {hidden : α → Bool} {p : α} :
    (f.prune hidden).children p = if hidden p then [] else f.children p := rfl

theorem length_preorder_prune (hidden : α → Bool) (p : α) :
    ((f.prune hidden).preorder p).length ≤ (f.preorder p).length := by
  induction p using f.induction with
  | h p ih =>
      rw [preorder_eq, preorder_eq, prune_children]
      split_ifs
      · simp
      · have hle : ∀ l : List α, (∀ c ∈ l, ((f.prune hidden).preorder c).length ≤ (f.preorder c).length) →
            (l.flatMap (f.prune hidden).preorder).length ≤ (l.flatMap f.preorder).length := by
          intro l hl
          induction l with
          | nil => exact Nat.le_refl 0
          | cons c l ihl =>
              obtain ⟨hc, hl⟩ := List.forall_mem_cons.mp hl
              simp only [List.flatMap_cons, List.length_append]
              exact Nat.add_le_add hc (ihl hl)
        exact Nat.succ_le_succ (hle _ ih)

theorem flatMap_split {β : Type} {g : α → List β} {l : List α} {l₁ l₂ : List β} {x : β}
    (h : l.flatMap g = l₁ ++ x :: l₂) :
    ∃ u c v k₁ k₂, l = u ++ c :: v ∧ g c = k₁ ++ x :: k₂ ∧ l₁ = u.flatMap g ++ k₁ ∧ l₂ = k₂ ++ v.flatMap g := by
  induction l generalizing l₁ with
  | nil => simp at h
  | cons a l ih =>
      have hlater {t : List β} (hl₁ : l₁ = g a ++ t) (ht : l.flatMap g = t ++ x :: l₂) :
          ∃ u c v k₁ k₂, a :: l = u ++ c :: v ∧ g c = k₁ ++ x :: k₂ ∧ l₁ = u.flatMap g ++ k₁ ∧
            l₂ = k₂ ++ v.flatMap g := by
        obtain ⟨u, c, v, k₁, k₂, rfl, hc, rfl, hl₂⟩ := ih ht
        exact ⟨a :: u, c, v, k₁, k₂, rfl, hc, by simp [hl₁], hl₂⟩
      rw [List.flatMap_cons] at h
      rcases List.append_eq_append_iff.mp h with ⟨t, hl₁, ht⟩ | ⟨t, ha, ht⟩
      · exact hlater hl₁ ht
      · cases t with
        | nil => exact hlater (t := []) (by simpa using ha.symm) ht.symm
        | cons b t =>
            obtain ⟨rfl, rfl⟩ := List.cons.inj ht
            exact ⟨[], a, l, l₁, t, rfl, ha, rfl, rfl⟩

/-! ### Changing the children of a node -/

/-- The list of children of `t` becomes `l`; from elsewhere the nodes of `l` are taken away. -/
def relisted [DecidableEq α] (children : α → List α) (t : α) (l : List α) (p : α) : List α :=
  if p = t then l else (children p).filter (· ∉ l)

variable [DecidableEq α]

theorem mem_relisted {t : α} {l : List α} {c p : α} (h : c ∈ relisted f.children t l p) :
    p = t ∧ c ∈ l ∨ p ≠ t ∧ c ∈ f.children p ∧ c ∉ l := by
  rw [relisted] at h
  split_ifs at h with hp
  · exact .inl ⟨hp, h⟩
  · exact .inr ⟨hp, by simpa using h⟩

/-- The ways down still end if `t` is not below a node of `l`. -/
theorem wellFounded_relisted {t : α} {l : List α} (h : ∀ c ∈ l, ¬Below f.children t c) :
    WellFounded fun c p => c ∈ relisted f.children t l p := by
  -- nothing has changed below a node that is not above `t`
  have hapart (a : α) : ¬Below f.children t a → Acc (fun c p => c ∈ relisted f.children t l p) a := by
    induction a using f.induction with
    | h a ih =>
        intro ha
        refine ⟨a, fun c hc => ?_⟩
        obtain ⟨rfl, -⟩ | ⟨-, hc, -⟩ := mem_relisted hc
        · exact absurd (Below.refl a) ha
        · exact ih c hc fun ht => ha (ht.trans (below_child hc))
  refine ⟨fun a => ?_⟩
  induction a using f.induction with
  | h a ih =>
      refine ⟨a, fun c hc => ?_⟩
      obtain ⟨-, hc⟩ | ⟨-, hc, -⟩ := mem_relisted hc
      · exact hapart c (h c hc)
      · exact ih c hc

/-- The forest with `l` as the list of children of `t`. -/
def relist (f : Forest α) (t : α) (l : List α) (hl : l.Nodup) (h : ∀ c ∈ l, ¬Below f.children t c) : Forest α where
  children := relisted f.children t l
  nodup p := by
    rw [relisted]
    split_ifs
    · exact hl
    · exact (f.nodup p).filter _
  unique {p q c} hp hq := by
    obtain ⟨rfl, hc⟩ | ⟨-, hp, hc⟩ := mem_relisted hp
    · obtain ⟨rfl, -⟩ | ⟨-, -, hc'⟩ := mem_relisted hq
      · rfl
      · exact absurd hc hc'
    · obtain ⟨rfl, hc'⟩ | ⟨-, hq, -⟩ := mem_relisted hq
      · exact absurd hc' hc
      · exact f.unique hp hq
  descends := wellFounded_relisted h

@[simp] theorem relist_children {t : α} {l : List α} (hl : l.Nodup) (h : ∀ c ∈ l, ¬Below f.children t c) :
    (f.relist t l hl h).children = relisted f.children t l := rfl

theorem relisted_self (children : α → List α) (t : α) (l : List α) : relisted children t l t = l := if_pos rfl

theorem relisted_of_ne (children : α → List α) {t p : α} (l : List α) (h : p ≠ t) :
    relisted children t l p = (children p).filter (· ∉ l) := if_neg h

/-- The forest without some nodes as children. -/
def without (f : Forest α) (l : List α) : Forest α where
  children p := (f.children p).filter (· ∉ l)
  nodup p := (f.nodup p).filter _
  unique hp hq := f.unique (List.mem_filter.mp hp).1 (List.mem_filter.mp hq).1
  descends := Subrelation.wf (fun h => (List.mem_filter.mp h).1) f.descends

@[simp] theorem mem_without {l : List α} {c p : α} : c ∈ (f.without l).children p ↔ c ∈ f.children p ∧ c ∉ l := by
  simp [without]

theorem without_eq {l : List α} (h : ∀ c ∈ l, ∀ p, c ∉ f.children p) : f.without l = f := by
  ext p : 2
  exact List.filter_eq_self.mpr fun c hc => decide_eq_true fun hl => h c hl p hc

/-- Nodes that are put into a list of children were taken away before. -/
theorem relisted_without {t : α} {l l' : List α} (h : l ⊆ l') :
    relisted (f.without l).children t l' = relisted f.children t l' := by
  funext p
  rw [relisted, relisted]
  split_ifs
  · rfl
  · rw [without, List.filter_filter]
    refine List.filter_congr fun c _ => ?_
    have hsub := @h c
    by_cases hc : c ∈ l' <;> simp_all

end Forest

end Poco.Lib
