import Poco.Lib.Forest
import Poco.XML.AbstractContainerNode

/-! # The links of a forest

`Represents s f` says that the links `s` stand for the forest `f`: from the first child of a node the links to the
next sibling lead through its list of children, the parent of a node is the one whose child it is, and a node
without a parent has no next sibling.  While new children are between their old and their new place, the links
stand for the forest of the other nodes: `RepresentsBut s f l`.

The parts of the members of `AbstractContainerNode` are shown here to keep this: `removeChild_spec`, `take_spec`,
`splice_represents` for the links that an insertion changes, and `exchange_spec`. -/

namespace Poco.XML

open Poco.Lib

open Forest (Below relisted relisted_self relisted_of_ne mem_without)

variable {ν : Type} {s s' : Links ν} {f : Forest ν} {l l₀ l₁ l₂ : List ν} {this new old : ν} {fuel : ℕ}

/-- The links stand for a forest, apart from the nodes `l`, which are no children in it. -/
structure RepresentsBut (s : Links ν) (f : Forest ν) (l : List ν) : Prop where
  linked : ∀ p, Linked s._pNext (s._pFirstChild p) (f.children p) none
  parent : ∀ {c : ν}, c ∉ l → ∀ {p : ν}, s._pParent c = some p ↔ c ∈ f.children p
  orphan : ∀ {c : ν}, c ∉ l → s._pParent c = none → s._pNext c = none
  loose : ∀ c ∈ l, ∀ p, c ∉ f.children p

/-- The links stand for a forest. -/
def Represents (s : Links ν) (f : Forest ν) : Prop := RepresentsBut s f []

theorem Represents.parent (h : Represents s f) {c p : ν} : s._pParent c = some p ↔ c ∈ f.children p :=
  RepresentsBut.parent h List.not_mem_nil

theorem Represents.orphan (h : Represents s f) {c : ν} (hc : s._pParent c = none) : s._pNext c = none :=
  RepresentsBut.orphan h List.not_mem_nil hc

theorem represents_bare : Represents (ν := ν) ⟨fun _ => none, fun _ => none, fun _ => none⟩ Forest.bare where
  linked _ := rfl
  parent := by simp [Forest.bare]
  orphan _ _ := rfl
  loose _ hc := by cases hc

theorem RepresentsBut.firstChild_eq (h : RepresentsBut s f l) (p : ν) : s._pFirstChild p = (f.children p).head? :=
  (h.linked p).start_eq

theorem RepresentsBut.next_eq (h : RepresentsBut s f l) {p c : ν} (hc : f.children p = l₁ ++ c :: l₂) :
    s._pNext c = l₂.head? := by
  have hlinked := h.linked p
  rw [hc] at hlinked
  exact hlinked.next_eq

theorem Represents.but (h : Represents s f) (hl : ∀ c ∈ l, ∀ p, c ∉ f.children p) : RepresentsBut s f l where
  linked := h.linked
  parent _ := h.parent
  orphan _ := h.orphan
  loose := hl

variable [DecidableEq ν]

/-- The links of a new list of children: those of its nodes and of the children that are no longer there have
changed, and the new nodes are in it. -/
theorem RepresentsBut.relist (h : RepresentsBut s f l₀) {t : ν} (hl : l.Nodup)
    (hbelow : ∀ c ∈ l, ¬Below f.children t c) (hlinked : Linked s'._pNext (s'._pFirstChild t) l none)
    (hfirst : ∀ p, p ≠ t → s'._pFirstChild p = s._pFirstChild p)
    (hother : ∀ c, c ∉ l → c ∉ f.children t → s'._pNext c = s._pNext c ∧ s'._pParent c = s._pParent c)
    (hin : ∀ c ∈ l, s'._pParent c = some t)
    (hout : ∀ c ∈ f.children t, c ∉ l → s'._pParent c = none ∧ s'._pNext c = none)
    (hfrom : ∀ c ∈ l, c ∈ f.children t ∨ c ∈ l₀) (hto : l₀ ⊆ l) : Represents s' (f.relist t l hl hbelow) := by
  have hkeep : ∀ {p : ν}, p ≠ t → ∀ c ∈ f.children p, c ∉ l := by
    intro p hp c hc hcl
    rcases hfrom c hcl with hct | hcl₀
    · exact hp (f.unique hc hct)
    · exact h.loose c hcl₀ p hc
  have hchildren {p : ν} (hp : p ≠ t) : relisted f.children t l p = f.children p := by
    rw [relisted_of_ne _ _ hp]
    exact List.filter_eq_self.mpr fun c hc => decide_eq_true (hkeep hp c hc)
  constructor
  case linked =>
    intro p
    rw [Forest.relist_children]
    by_cases hp : p = t
    · rw [hp, relisted_self]
      exact hlinked
    · rw [hchildren hp, hfirst p hp]
      refine (h.linked p).congr fun c hc => (hother c (hkeep hp c hc) fun hct => ?_).1
      exact hp (f.unique hc hct)
  case parent =>
    intro c _ p
    rw [Forest.relist_children]
    by_cases hcl : c ∈ l
    · rw [hin c hcl, Option.some_inj]
      by_cases hp : p = t
      · simp [hp, relisted_self, hcl]
      · simp only [Ne.symm hp, relisted_of_ne _ _ hp, List.mem_filter, hcl, not_true_eq_false, decide_false,
          Bool.false_eq_true, and_false]
    by_cases hct : c ∈ f.children t
    · rw [(hout c hct hcl).1]
      by_cases hp : p = t
      · simp [hp, relisted_self, hcl]
      · rw [hchildren hp]
        exact ⟨(fun hnone => by cases hnone), fun hc => absurd (f.unique hc hct) hp⟩
    · rw [(hother c hcl hct).2, h.parent fun hl₀ => hcl (hto hl₀)]
      by_cases hp : p = t
      · simp [hp, relisted_self, hcl, hct]
      · rw [hchildren hp]
  case orphan =>
    intro c _ hc
    by_cases hcl : c ∈ l
    · rw [hin c hcl] at hc
      cases hc
    by_cases hct : c ∈ f.children t
    · exact (hout c hct hcl).2
    · rw [(hother c hcl hct).2] at hc
      rw [(hother c hcl hct).1]
      exact h.orphan (fun hl₀ => hcl (hto hl₀)) hc
  case loose =>
    intro c hc
    cases hc

/-! ### Removing -/

theorem seek_before {next : ν → Option ν} {start stop : Option ν} {q : ν} (h : Linked next start (l ++ [q]) stop)
    (hstop : ∀ a, stop = some a → a ∉ l ++ [q]) (hfuel : l.length < fuel) :
    seek next (fun c => next c = stop) fuel start = some (some q) := by
  refine seek_eq h (fun b hb => ?_) (decide_eq_true h.last_eq) hfuel
  obtain ⟨u, v, rfl⟩ := List.append_of_mem hb
  -- the next node is one of the list
  rw [List.append_assoc, List.cons_append] at h
  obtain ⟨m, -, -, hrest⟩ := Linked.append_iff.mp h
  refine decide_eq_false fun hnext => ?_
  rw [hnext] at hrest
  cases v with
  | nil => exact hstop q hrest.1 (by simp)
  | cons c v => exact hstop c hrest.1 (by simp)

omit [DecidableEq ν] in
theorem firstChild_of_split (h : Represents s f) (hsplit : f.children this = old :: l₂) :
    s._pFirstChild this = some old := by
  rw [h.firstChild_eq, hsplit, List.head?_cons]

theorem seek_of_split (h : Represents s f) (hsplit : f.children this = l ++ [q] ++ old :: l₂)
    (hfuel : (f.children this).length ≤ fuel) :
    s._pFirstChild this ≠ some old ∧
      seek s._pNext (fun c => s._pNext c = some old) fuel (s._pFirstChild this) = some (some q) ∧
      Linked s._pNext (s._pFirstChild this) (l ++ [q]) (some old) := by
  have hnodup := f.nodup this
  have hlinked := h.linked this
  rw [hsplit] at hnodup hlinked hfuel
  have hold : old ∉ l ++ [q] := fun hmem => (List.nodup_append.mp hnodup).2.2 old hmem old List.mem_cons_self rfl
  obtain ⟨m, hto, hm⟩ := Linked.append_iff.mp hlinked
  obtain ⟨rfl, -⟩ := hm
  refine ⟨?_, ?_, hto⟩
  · rw [h.firstChild_eq, hsplit, List.head?_append_of_ne_nil _ (by simp)]
    exact fun hmem => hold (List.mem_of_head? hmem)
  · refine seek_before hto (fun a ha => ?_) ?_
    · rwa [← Option.some.inj ha]
    · simp only [List.length_append, List.length_cons] at hfuel
      omega

theorem relist_eq_without (hsplit : f.children this = l₁ ++ old :: l₂) (hlist : (l₁ ++ l₂).Nodup)
    (hbelow : ∀ c ∈ l₁ ++ l₂, ¬Below f.children this c) :
    f.relist this (l₁ ++ l₂) hlist hbelow = f.without [old] := by
  have hnodup := f.nodup this
  rw [hsplit] at hnodup
  have hold₁ : old ∉ l₁ := fun hmem => (List.nodup_append.mp hnodup).2.2 old hmem old List.mem_cons_self rfl
  have hold₂ : old ∉ l₂ := (List.nodup_cons.mp hnodup.of_append_right).1
  ext p : 2
  show relisted f.children this (l₁ ++ l₂) p = (f.children p).filter (· ∉ [old])
  by_cases hp : p = this
  · rw [hp, relisted_self, hsplit, List.filter_append, List.filter_cons_of_neg (by simp)]
    rw [List.filter_eq_self.mpr fun c hc => by simpa using ne_of_mem_of_not_mem hc hold₁,
      List.filter_eq_self.mpr fun c hc => by simpa using ne_of_mem_of_not_mem hc hold₂]
  · rw [relisted_of_ne _ _ hp]
    refine List.filter_congr fun c hc => ?_
    have hct : c ∉ f.children this := fun hct => hp (f.unique hc hct)
    rw [hsplit, List.mem_append, List.mem_cons, not_or, not_or] at hct
    simp [hct]

/-- The links without a child, whose neighbours are linked. -/
theorem represents_removed (h : Represents s f) (hsplit : f.children this = l₁ ++ old :: l₂) {s' : Links ν}
    (hs : s'._pParent = fun c => if c = old then none else s._pParent c)
    (hnext : ∀ c, c ∉ l₁ → c ≠ old → s'._pNext c = s._pNext c) (hnone : s'._pNext old = none)
    (hfirst : ∀ p, p ≠ this → s'._pFirstChild p = s._pFirstChild p)
    (hlinked : Linked s'._pNext (s'._pFirstChild this) (l₁ ++ l₂) none) :
    Represents s' (f.without [old]) ∧ s'._pParent old = none := by
  have hnodup := f.nodup this
  rw [hsplit] at hnodup
  have hlist : (l₁ ++ l₂).Nodup := hnodup.sublist ((List.sublist_cons_self old l₂).append_left l₁)
  have hold : old ∉ l₁ ++ l₂ := (List.nodup_cons.mp ((List.perm_middle : (l₁ ++ old :: l₂).Perm _).nodup_iff.mp hnodup)).1
  have hmem {c : ν} : c ∈ f.children this ↔ c = old ∨ c ∈ l₁ ++ l₂ := by
    rw [hsplit]
    simp only [List.mem_append, List.mem_cons]
    tauto
  have hbelow : ∀ c ∈ l₁ ++ l₂, ¬Below f.children this c := fun c hc => Forest.not_below_child (hmem.mpr (.inr hc))
  rw [← relist_eq_without hsplit hlist hbelow]
  refine ⟨RepresentsBut.relist h hlist hbelow hlinked hfirst ?_ ?_ ?_ ?_ (List.nil_subset _), by simp [hs]⟩
  · intro c hc hct
    rw [hmem, not_or] at hct
    exact ⟨hnext c (fun hc₁ => hc (List.mem_append_left _ hc₁)) hct.1, by simp [hs, hct.1]⟩
  · intro c hc
    have hne : c ≠ old := ne_of_mem_of_not_mem hc hold
    rw [hs]
    simp only [hne, if_false]
    exact h.parent.mpr (hmem.mpr (.inr hc))
  · intro c hct hc
    obtain rfl := (hmem.mp hct).resolve_right hc
    exact ⟨by simp [hs], hnone⟩
  · exact fun c hc => .inl (hmem.mpr (.inr hc))

theorem removeChild_spec (h : Represents s f) (hold : old ∈ f.children this)
    (hfuel : (f.children this).length ≤ fuel) :
    ∃ s', AbstractContainerNode.removeChild fuel this (some old) s = .returned old s' ∧
      Represents s' (f.without [old]) ∧ s'._pParent old = none := by
  obtain ⟨l₁, l₂, hsplit⟩ := List.append_of_mem hold
  have hnodup := f.nodup this
  have hlinked := h.linked this
  rw [hsplit] at hnodup hlinked
  have hold₂ : old ∉ l₂ := (List.nodup_cons.mp hnodup.of_append_right).1
  rcases List.eq_nil_or_concat l₁ with rfl | ⟨l, q, rfl⟩
  case inl =>
      have hhead := firstChild_of_split h hsplit
      refine ⟨_, by rw [AbstractContainerNode.removeChild, if_pos hhead], represents_removed h hsplit rfl ?_ ?_ ?_ ?_⟩
      · intro c _ hc
        simp [hc]
      · simp
      · intro p hp
        simp [hp]
      · rw [List.nil_append] at hlinked
        simp only [Links.setParent_pFirstChild, Links.setNext_pFirstChild, Links.setFirstChild_pFirstChild, if_true,
          List.nil_append]
        exact hlinked.2.congr fun c hc => by simp [ne_of_mem_of_not_mem hc hold₂]
  case inr =>
      rw [List.concat_eq_append] at *
      obtain ⟨hhead, hseek, hto⟩ := seek_of_split h hsplit hfuel
      have hold₁ : old ∉ l ++ [q] := fun hmem => (List.nodup_append.mp hnodup).2.2 old hmem old List.mem_cons_self rfl
      have hq : q ≠ old := fun heq => hold₁ (by simp [heq])
      obtain ⟨m, -, hm⟩ := Linked.append_iff.mp hlinked
      obtain ⟨-, hrest⟩ := hm
      refine ⟨_, by rw [AbstractContainerNode.removeChild, if_neg hhead, hseek],
        represents_removed h hsplit rfl ?_ ?_ ?_ ?_⟩
      · intro c hc hne
        have hcq : c ≠ q := by
          rintro rfl
          exact hc (by simp)
        simp [hne, hcq]
      · simp
      · intro p _
        rfl
      · have hlast : ∀ c ∈ l, c ≠ q ∧ c ≠ old := by
          intro c hc
          refine ⟨?_, fun heq => hold₁ (heq ▸ List.mem_append_left _ hc)⟩
          exact (List.nodup_append.mp hnodup.of_append_left).2.2 c hc q (by simp)
        refine Linked.append (m := s._pNext old) (hto.redirect ?_ fun c hc => ?_) (hrest.congr fun c hc => ?_)
        · simp [hq]
        · simp [hlast c hc]
        · have hne : c ≠ old := ne_of_mem_of_not_mem hc hold₂
          have hcq : c ≠ q := by
            rintro rfl
            exact (List.nodup_append.mp hnodup).2.2 c (by simp) c (List.mem_cons_of_mem _ hc) rfl
          simp [hne, hcq]

theorem removeChild_thrown (h : Represents s f) (hold : old ∉ f.children this)
    (hfuel : (f.children this).length ≤ fuel) :
    AbstractContainerNode.removeChild fuel this (some old) s = .thrown .NOT_FOUND_ERR s := by
  have hlinked := h.linked this
  have hhead : s._pFirstChild this ≠ some old := by
    rw [h.firstChild_eq]
    exact fun hmem => hold (List.mem_of_head? hmem)
  have hseek : seek s._pNext (fun c => s._pNext c = some old) fuel (s._pFirstChild this) = some none := by
    refine seek_eq_none hlinked (fun b hb => decide_eq_false fun hnext => ?_) hfuel
    obtain ⟨l₁, l₂, hsplit⟩ := List.append_of_mem hb
    rw [h.next_eq hsplit] at hnext
    refine hold (hsplit ▸ ?_)
    exact List.mem_append_right _ (List.mem_cons_of_mem _ (List.mem_of_head? hnext))
  rw [AbstractContainerNode.removeChild, if_neg hhead, hseek]

/-! ### Taking new children -/

/-- The new children of a call: those of a fragment, or the node itself. -/
def inserted (K : Kinds ν) (children : ν → List ν) (new : ν) : List ν :=
  if K.nodeType new = .DOCUMENT_FRAGMENT_NODE then children new else [new]

theorem detach_spec (new : ν) (h : Represents s f) (hfuel : ∀ p, (f.children p).length ≤ fuel) :
    ∃ s', AbstractContainerNode.detach fuel new s = .returned () s' ∧ Represents s' (f.without [new]) ∧
      s'._pParent new = none := by
  rw [AbstractContainerNode.detach]
  cases hparent : s._pParent new with
  | none =>
      have hwithout : f.without [new] = f := by
        refine Forest.without_eq fun c hc p hp => ?_
        obtain rfl := List.mem_singleton.mp hc
        rw [h.parent.mpr hp] at hparent
        cases hparent
      exact ⟨s, rfl, by rwa [hwithout], hparent⟩
  | some p =>
      obtain ⟨s', hremove, hs'⟩ := removeChild_spec h (h.parent.mp hparent) (hfuel p)
      exact ⟨s', by simp only [hremove, Outcome.andThen], hs'⟩

theorem adopt_spec (this : ν) {a : ν} (h : Linked s._pNext (some a) (l ++ [new]) none) (hfuel : l.length ≤ fuel) :
    ∃ s', AbstractContainerNode.adopt this fuel a s = some (new, s') ∧ s'._pNext = s._pNext ∧
      s'._pFirstChild = s._pFirstChild ∧
      ∀ c, s'._pParent c = if c ∈ l ++ [new] then some this else s._pParent c := by
  induction l generalizing a s fuel with
  | nil =>
      obtain ⟨ha, hnone⟩ := h
      obtain rfl := Option.some.inj ha
      refine ⟨s.setParent a (some this), ?_, rfl, rfl, by simp⟩
      have hend : s._pNext a = none := hnone
      cases fuel <;> simp [AbstractContainerNode.adopt, hend]
  | cons b l ih =>
      obtain ⟨ha, hrest⟩ := h
      obtain rfl := Option.some.inj ha
      obtain ⟨fuel, rfl⟩ := Nat.exists_eq_succ_of_ne_zero (Nat.pos_iff_ne_zero.mp (Nat.zero_lt_of_lt hfuel))
      obtain ⟨c, hc⟩ : ∃ c, s._pNext a = some c := by
        rw [hrest.start_eq]
        cases l <;> exact ⟨_, rfl⟩
      rw [hc] at hrest
      obtain ⟨s', hadopt, hnext, hfirst, hparent⟩ :=
        ih (s := s.setParent a (some this)) hrest (Nat.le_of_succ_le_succ hfuel)
      refine ⟨s', ?_, hnext, hfirst, fun d => ?_⟩
      · simp only [AbstractContainerNode.adopt, hc]
        exact hadopt
      · rw [hparent]
        by_cases hda : d = a <;> by_cases hdl : d ∈ l ++ [new] <;> simp_all

/-- The ends of a list of new children. -/
def ends : List ν → Option (ν × ν)
  | [] => none
  | c :: l => some (c, (c :: l).getLast (List.cons_ne_nil c l))

/-- The first part of an insertion takes the new children away and makes `this` their parent. -/
theorem take_spec {K : Kinds ν} (this : ν) (h : Represents s f) (hfuel : ∀ p, (f.children p).length ≤ fuel)
    (hl : inserted K f.children new = l) :
    ∃ s', AbstractContainerNode.take K fuel this new s = .returned (ends l) s' ∧
      RepresentsBut s' (f.without l) l ∧ Linked s'._pNext l.head? l none ∧ ∀ c ∈ l, s'._pParent c = some this := by
  have hloose : ∀ c ∈ l, ∀ p, c ∉ (f.without l).children p := by
    intro c hc p
    rw [mem_without]
    exact fun hp => hp.2 hc
  rw [AbstractContainerNode.take]
  by_cases hfragment : K.nodeType new = .DOCUMENT_FRAGMENT_NODE
  case neg =>
    rw [inserted, if_neg hfragment] at hl
    subst hl
    rw [if_neg hfragment]
    obtain ⟨s', hdetach, hs', hparent⟩ := detach_spec new h hfuel
    refine ⟨s'.setParent new (some this), by simp only [hdetach, Outcome.andThen]; rfl, ?_, ?_, by simp⟩
    · have hbut := hs'.but hloose
      refine ⟨hbut.linked, fun {c} hc {p} => ?_, fun {c} hc hnone => ?_, hloose⟩
      · rw [List.mem_singleton] at hc
        simp only [Links.setParent_pParent, hc, if_false]
        exact hs'.parent
      · rw [List.mem_singleton] at hc
        simp only [Links.setParent_pParent, hc, if_false] at hnone
        exact hs'.orphan hnone
    · exact ⟨rfl, hs'.orphan hparent⟩
  case pos =>
    rw [inserted, if_pos hfragment] at hl
    rw [if_pos hfragment]
    have hlinked := h.linked new
    have hchildren {p : ν} (hp : p ≠ new) : (f.without l).children p = f.children p :=
      List.filter_eq_self.mpr fun c hc => decide_eq_true fun hcl => hp (f.unique hc (hl ▸ hcl))
    have hnone : (f.without l).children new = [] := by
      refine List.filter_eq_nil_iff.mpr fun c hc => ?_
      simpa using hl ▸ hc
    have hbut (s' : Links ν) (hnext : s'._pNext = s._pNext)
        (hfirst : ∀ p, s'._pFirstChild p = if p = new then none else s._pFirstChild p)
        (hparent : ∀ c, s'._pParent c = if c ∈ l then some this else s._pParent c) :
        RepresentsBut s' (f.without l) l ∧ Linked s'._pNext l.head? l none ∧ ∀ c ∈ l, s'._pParent c = some this := by
      refine ⟨⟨fun p => ?_, fun {c} hc {p} => ?_, fun {c} hc hc' => ?_, hloose⟩, ?_, fun c hc => by simp [hparent, hc]⟩
      · rw [hnext, hfirst]
        split_ifs with hp
        · rw [hp, hnone]
          rfl
        · rw [hchildren hp]
          exact h.linked p
      · rw [hparent, if_neg hc, h.parent, mem_without]
        exact ⟨fun hp => ⟨hp, hc⟩, fun hp => hp.1⟩
      · rw [hparent, if_neg hc] at hc'
        rw [hnext]
        exact h.orphan hc'
      · rw [hnext, ← hl, ← h.firstChild_eq]
        exact hlinked
    rcases List.eq_nil_or_concat l with rfl | ⟨l', last, rfl⟩
    case inl =>
        rw [hl] at hlinked
        have hstart : s._pFirstChild new = none := hlinked
        refine ⟨s.setFirstChild new none, by simp only [hstart]; rfl, hbut _ rfl (fun p => rfl) (fun c => ?_)⟩
        simp
    case inr =>
        rw [List.concat_eq_append] at *
        obtain ⟨first, hfirst⟩ : ∃ first, s._pFirstChild new = some first := by
          rw [h.firstChild_eq, hl]
          cases l' <;> exact ⟨_, rfl⟩
        rw [hl, hfirst] at hlinked
        have hlen := hfuel new
        rw [hl, List.length_append] at hlen
        obtain ⟨s', hadopt, hnext', hfirst', hparent'⟩ :=
          adopt_spec this hlinked (Nat.le_of_add_right_le hlen)
        refine ⟨s'.setFirstChild new none, ?_, hbut _ hnext' (fun p => by simp [hfirst']) hparent'⟩
        have hends : ends (l' ++ [last]) = some (first, last) := by
          have hhead := hlinked.start_eq
          cases l' with
          | nil =>
              obtain rfl := Option.some.inj hhead
              rfl
          | cons c l' =>
              obtain rfl := Option.some.inj hhead
              rw [List.cons_append, ends]
              congr 2
              exact List.getLast_append_singleton (l := first :: l')
        simp only [hfirst, hadopt, hends]

/-! ### Putting new children in -/

/-- The links that an insertion between two parts of the list of children changes: that of the last new child, and
that of the node before the place or of the parent. -/
theorem RepresentsBut.splice (h : RepresentsBut s f l) {first last : ν} (hends : ends l = some (first, last))
    (hl : l.Nodup) (hchain : Linked s._pNext l.head? l none) (hparents : ∀ c ∈ l, s._pParent c = some this)
    (hsplit : f.children this = l₁ ++ l₂) (hparent : s'._pParent = s._pParent)
    (hlast : s'._pNext last = l₂.head?)
    (hnext : ∀ c, c ≠ last → l₁.getLast? ≠ some c → s'._pNext c = s._pNext c)
    (hbefore : ∀ q, l₁.getLast? = some q → s'._pNext q = some first)
    (hthis : s'._pFirstChild this = if l₁ = [] then some first else s._pFirstChild this)
    (hfirst : ∀ p, p ≠ this → s'._pFirstChild p = s._pFirstChild p)
    (hbelow : ∀ c ∈ l, ¬Below f.children this c) :
    ∃ hnodup hbelow', Represents s' (f.relist this (l₁ ++ l ++ l₂) hnodup hbelow') := by
  obtain ⟨m, rfl, hm⟩ : ∃ m, l = m ++ [last] ∧ (m ++ [last]).head? = some first := by
    cases l with
    | nil => cases hends
    | cons c l =>
        obtain ⟨rfl, rfl⟩ := Prod.mk.inj (Option.some.inj hends)
        exact ⟨_, (List.dropLast_append_getLast (List.cons_ne_nil c l)).symm,
          by rw [List.dropLast_append_getLast]; rfl⟩
  have hloose {c : ν} (hc : c ∈ m ++ [last]) : c ∉ l₁ ∧ c ∉ l₂ := by
    have hnot := h.loose c hc this
    rwa [hsplit, List.mem_append, not_or] at hnot
  have hnodup : (l₁ ++ (m ++ [last]) ++ l₂).Nodup := by
    have hboth := f.nodup this
    rw [hsplit] at hboth
    rw [List.append_assoc]
    refine (List.perm_append_comm_assoc l₁ (m ++ [last]) l₂).nodup_iff.mpr (hl.append hboth ?_)
    intro c hc hc'
    exact h.loose c hc this (hsplit ▸ hc')
  have hmem {c : ν} : c ∈ l₁ ++ (m ++ [last]) ++ l₂ ↔ c ∈ m ++ [last] ∨ c ∈ f.children this := by
    rw [hsplit]
    simp only [List.mem_append]
    tauto
  have hbelow' : ∀ c ∈ l₁ ++ (m ++ [last]) ++ l₂, ¬Below f.children this c := by
    intro c hc
    rcases hmem.mp hc with hc | hc
    · exact hbelow c hc
    · exact Forest.not_below_child hc
  refine ⟨hnodup, hbelow', h.relist hnodup hbelow' ?_ hfirst ?_ ?_ ?_ ?_ ?_⟩
  · -- from the node before the place to the new children, and from the last of them to the rest
    have hlinked := h.linked this
    rw [hsplit] at hlinked
    obtain ⟨mid, hto, hrest⟩ := Linked.append_iff.mp hlinked
    have hdisjoint := (List.nodup_append.mp (List.append_assoc .. ▸ hnodup)).2.2
    have hnew : Linked s'._pNext (some first) (m ++ [last]) l₂.head? := by
      rw [hm] at hchain
      refine hchain.redirect hlast fun c hc => hnext c ?_ fun hq => ?_
      · exact (List.nodup_append.mp hl).2.2 c hc last (by simp)
      · exact (hloose (List.mem_append_left _ hc)).1 (List.mem_of_getLast? hq)
    have hafter : Linked s'._pNext l₂.head? l₂ none := by
      rw [← hrest.start_eq]
      refine hrest.congr fun c hc => hnext c ?_ fun hq => ?_
      · rintro rfl
        exact (hloose (by simp)).2 hc
      · exact hdisjoint c (List.mem_of_getLast? hq) c (List.mem_append_right _ hc) rfl
    refine Linked.append (Linked.append ?_ hnew) hafter
    rw [hthis]
    rcases List.eq_nil_or_concat l₁ with rfl | ⟨l, q, rfl⟩
    · exact rfl
    · rw [List.concat_eq_append] at *
      rw [if_neg (by simp)]
      refine hto.redirect (hbefore q (by simp)) fun c hc => hnext c ?_ ?_
      · rintro rfl
        exact (hloose (by simp)).1 (List.mem_append_left _ hc)
      · rw [List.getLast?_concat, Option.some_inj.ne]
        rintro rfl
        exact (List.nodup_append.mp (List.nodup_append.mp (List.append_assoc .. ▸ hnodup)).1).2.2 q hc q (by simp) rfl
  · intro c hc hct
    rw [hmem, not_or] at hc
    refine ⟨hnext c ?_ fun hq => hct ?_, by rw [hparent]⟩
    · rintro rfl
      exact hc.1 (by simp)
    · exact hsplit ▸ List.mem_append_left _ (List.mem_of_getLast? hq)
  · intro c hc
    rw [hparent]
    rcases hmem.mp hc with hc | hc
    · exact hparents c hc
    · exact (h.parent fun hl => h.loose c hl this hc).mpr hc
  · intro c hct hc
    exact absurd (hmem.mpr (.inr hct)) hc
  · intro c hc
    exact (hmem.mp hc).symm
  · intro c hc
    exact hmem.mpr (.inl hc)

end Poco.XML
