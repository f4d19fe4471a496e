import Mathlib.Data.Fintype.Card
import Poco.XML.ChildLinks

/-! # Runs of calls on child nodes

What the members that insert, replace and remove children do to the lists of children is documented; here it is
`Call.documented`, over lists of children alone.  `performAll_documented` says that the links stand for a forest
with the documented lists after every run of calls, and that a call that throws changes nothing.

The code does not check three things that this needs (`Call.Sound`): a new child may not be an ancestor, an empty
fragment may be inserted into a node without children only, and `insertAfterNP` needs a reference child unless there
are no other children. -/

namespace Poco.XML

open Poco.Lib

open Forest (Below relisted relisted_self relisted_without mem_without)

variable {ν : Type} [DecidableEq ν]

/-! ### Documented behaviour -/

/-- The list of children with the node `r` replaced. -/
def substitute (r : ν) (new l : List ν) : List ν := l.flatMap fun c => if c = r then new else [c]

/-- Before the reference child, or at the end. -/
def before (refChild : Option ν) (new l : List ν) : List ν :=
  match refChild with
  | none => l ++ new
  | some r => substitute r (new ++ [r]) l

/-- Behind the reference child, or at the beginning. -/
def after (refChild : Option ν) (new l : List ν) : List ν :=
  match refChild with
  | none => new ++ l
  | some r => substitute r (r :: new) l

section

variable (K : Kinds ν) (children : ν → List ν)

/-- The lists after the nodes `new` were taken from where they were and put among the children of `this`. -/
def moved (place : List ν → List ν → List ν) (this new : ν) : ν → List ν :=
  relisted children this
    (place (inserted K children new) ((children this).filter (· ∉ inserted K children new)))

/-- What an insertion or a replacement does: it returns a node, with new lists, or throws. -/
def documentedWith (place : List ν → List ν → List ν) (this : ν) (result : ν → ν) (newChild refChild : Option ν) :
    Except Thrown (ν × (ν → List ν)) :=
  match newChild with
  | none => .error .NullPointerException
  | some new =>
    if K._pOwner new ≠ K._pOwner this ∧ K._pOwner new ≠ some this then .error .WRONG_DOCUMENT_ERR
    else if refChild.any (· ∉ children this) then .error .NOT_FOUND_ERR
    else if newChild = refChild then .ok (new, children)
    else if this = new then .error .HIERARCHY_REQUEST_ERR
    else .ok (result new, moved K children place this new)

/-- What a call does to the lists of children. -/
def Call.documented : Call ν → Except Thrown (ν × (ν → List ν))
  | insertBefore this new ref =>
    if (K.nodeType this).isContainer then documentedWith K children (before ref) this id new ref
    else .error .HIERARCHY_REQUEST_ERR
  | insertAfterNP this new ref =>
    if (K.nodeType this).isContainer then documentedWith K children (after ref) this id new ref
    else .error .HIERARCHY_REQUEST_ERR
  | replaceChild this new old =>
    if (K.nodeType this).isContainer then
      match old with
      | none => .error .NullPointerException
      | some o => documentedWith K children (substitute o) this (fun _ => o) new old
    else .error .HIERARCHY_REQUEST_ERR
  | removeChild this old =>
    if (K.nodeType this).isContainer then
      match old with
      | none => .error .NullPointerException
      | some o =>
        if o ∈ children this then .ok (o, fun p => (children p).filter (· ∉ [o])) else .error .NOT_FOUND_ERR
    else .error .NO_MODIFICATION_ALLOWED_ERR
  | appendChild this new =>
    if (K.nodeType this).isContainer then documentedWith K children (before none) this id new none
    else .error .HIERARCHY_REQUEST_ERR

/-- A new child is not an ancestor, and not an empty fragment for a node with children. -/
def Insertable (this : ν) (newChild : Option ν) : Prop :=
  ∀ new, newChild = some new → new ≠ this → ¬Below children this new ∧
    (inserted K children new = [] → children this = [])

/-- What the calls need and do not check. -/
def Call.Sound : Call ν → Prop
  | insertBefore this new _ | replaceChild this new _ | appendChild this new => Insertable K children this new
  | insertAfterNP this new ref => Insertable K children this new ∧
      (ref = none → ∀ n, new = some n → ∀ c ∈ children this, c ∈ inserted K children n)
  | removeChild _ _ => True

end

/-- The links after a call stand for the documented lists; if the call throws, they are as before. -/
def Agrees (s : Links ν) (o : Outcome ν ν) (documented : Except Thrown (ν × (ν → List ν))) : Prop :=
  match documented with
  | .error e => o = .thrown e s
  | .ok (n, children) => ∃ s' f, o = .returned n s' ∧ Represents s' f ∧ f.children = children

variable {s : Links ν} {f : Forest ν} {l l₁ l₂ : List ν} {this new old : ν} {fuel : ℕ}

theorem substitute_split {r : ν} (hl : (l₁ ++ r :: l₂).Nodup) (new : List ν) :
    substitute r new (l₁ ++ r :: l₂) = l₁ ++ new ++ l₂ := by
  have hkeep : ∀ l : List ν, r ∉ l → (l.flatMap fun c => if c = r then new else [c]) = l := by
    intro l hr
    induction l with
    | nil => rfl
    | cons c l ih =>
        rw [List.mem_cons, not_or] at hr
        rw [List.flatMap_cons, if_neg (Ne.symm hr.1), ih hr.2, List.singleton_append]
  have hr := List.nodup_append.mp hl
  rw [substitute, List.flatMap_append, List.flatMap_cons, if_pos rfl,
    hkeep l₁ fun hmem => hr.2.2 r hmem r List.mem_cons_self rfl, hkeep l₂ (List.nodup_cons.mp hr.2.1).1,
    List.append_assoc]

theorem before_split {ref : Option ν} (hl : l.Nodup) (href : ∀ r, ref = some r → r ∈ l) (new : List ν) :
    ∃ l₁ l₂, l = l₁ ++ l₂ ∧ ref = l₂.head? ∧ before ref new l = l₁ ++ new ++ l₂ := by
  cases ref with
  | none => exact ⟨l, [], (List.append_nil l).symm, rfl, (List.append_nil _).symm⟩
  | some r =>
      obtain ⟨l₁, l₂, rfl⟩ := List.append_of_mem (href r rfl)
      refine ⟨l₁, r :: l₂, rfl, rfl, ?_⟩
      rw [before, substitute_split hl]
      simp

theorem after_split {ref : Option ν} (hl : l.Nodup) (href : ∀ r, ref = some r → r ∈ l) (hnone : ref = none → l = [])
    (new : List ν) :
    ∃ l₁ l₂, l = l₁ ++ l₂ ∧ ref = l₁.getLast? ∧ (l₁ = [] → l₂ = []) ∧ after ref new l = l₁ ++ new ++ l₂ := by
  cases ref with
  | none =>
      obtain rfl := hnone rfl
      exact ⟨[], [], rfl, rfl, fun _ => rfl, by simp [after]⟩
  | some r =>
      obtain ⟨l₁, l₂, rfl⟩ := List.append_of_mem (href r rfl)
      refine ⟨l₁ ++ [r], l₂, by simp, by simp, by simp, ?_⟩
      rw [after, substitute_split hl]
      simp

/-! ### The second parts -/

/-- The new children `l` of `this` were taken away and have it as their parent. -/
structure Taken (s : Links ν) (f : Forest ν) (l : List ν) (this : ν) : Prop extends RepresentsBut s f l where
  nodup : l.Nodup
  chain : Linked s._pNext l.head? l none
  parents : ∀ c ∈ l, s._pParent c = some this
  below : ∀ c ∈ l, ¬Below f.children this c
  empty : l = [] → f.children this = []

section

variable {refChild : Option ν} (h : Taken s f l this) (hsplit : f.children this = l₁ ++ l₂)

include h hsplit

theorem represents_first (hnil : f.children this = []) :
    ∃ hnodup hbelow', Represents (s.setFirstChild this ((ends l).map Prod.fst))
      (f.relist this (l₁ ++ l ++ l₂) hnodup hbelow') := by
  obtain ⟨rfl, rfl⟩ := List.append_eq_nil_iff.mp (hsplit.symm.trans hnil)
  cases hends : ends l with
  | none =>
      obtain rfl : l = [] := by
        cases l
        · rfl
        · cases hends
      refine ⟨List.nodup_nil, by simp, h.relist _ _ ?_ ?_ ?_ ?_ ?_ ?_ ?_⟩ <;> simp +contextual [hnil]
  | some e =>
      obtain ⟨first, last⟩ := e
      obtain ⟨m, rfl⟩ : ∃ m, l = m ++ [last] := by
        cases l with
        | nil => cases hends
        | cons c l =>
            obtain ⟨rfl, rfl⟩ := Prod.mk.inj (Option.some.inj hends)
            exact ⟨_, (List.dropLast_append_getLast (List.cons_ne_nil c l)).symm⟩
      exact h.splice hends h.nodup h.chain h.parents hsplit rfl h.chain.last_eq (fun _ _ _ => rfl) (by simp) (by simp)
        (fun p hp => by simp [hp]) h.below

theorem represents_behind {q first last : ν} (hends : ends l = some (first, last)) (hq : l₁.getLast? = some q) :
    ∃ hnodup hbelow', Represents ((s.setNext last (s._pNext q)).setNext q (some first))
      (f.relist this (l₁ ++ l ++ l₂) hnodup hbelow') := by
  obtain ⟨l', rfl⟩ := List.getLast?_eq_some_iff.mp hq
  have hlast : last ∈ l := by
    cases l with
    | nil => cases hends
    | cons c l =>
        obtain ⟨-, rfl⟩ := Prod.mk.inj (Option.some.inj hends)
        exact List.getLast_mem _
  have hne : last ≠ q := by
    rintro rfl
    exact h.loose last hlast this (hsplit ▸ List.mem_append_left _ (by simp))
  have hnext : s._pNext q = l₂.head? := by
    have hsplit' : f.children this = l' ++ q :: l₂ := by
      rw [hsplit, List.append_assoc]
      rfl
    exact h.next_eq hsplit'
  refine h.splice hends h.nodup h.chain h.parents hsplit rfl ?_ ?_ ?_ ?_ (fun p _ => rfl) h.below
  · simp [hne, hnext]
  · intro c hc hcq
    rw [hq, Option.some_inj.ne] at hcq
    simp [hc, Ne.symm hcq]
  · intro c hc
    rw [hq] at hc
    simp [← Option.some.inj hc]
  · simp

theorem spliceBefore_spec (href : refChild = l₂.head?) (hfuel : (f.children this).length ≤ fuel) :
    ∃ s', AbstractContainerNode.spliceBefore fuel this refChild (ends l) s = .returned () s' ∧
      ∃ hnodup hbelow', Represents s' (f.relist this (l₁ ++ l ++ l₂) hnodup hbelow') := by
  have hfirstChild := h.firstChild_eq this
  cases hnil : f.children this with
  | nil =>
      rw [hnil] at hfirstChild
      refine ⟨_, ?_, represents_first h hsplit hnil⟩
      unfold AbstractContainerNode.spliceBefore
      simp only [hfirstChild, List.head?_nil]
  | cons cur rest =>
      rw [hnil] at hfirstChild
      obtain ⟨⟨first, last⟩, hends⟩ : ∃ e, ends l = some e := by
        cases l with
        | nil => exact absurd (h.empty rfl) (hnil ▸ List.cons_ne_nil _ _)
        | cons c l => exact ⟨_, rfl⟩
      unfold AbstractContainerNode.spliceBefore
      simp only [hfirstChild, List.head?_cons, hends]
      rcases List.eq_nil_or_concat l₁ with rfl | ⟨l', q, rfl⟩
      case inl =>
          have hcur : refChild = some cur := by rw [href, ← List.nil_append l₂, ← hsplit, hnil, List.head?_cons]
          refine ⟨_, by rw [if_pos hcur.symm], ?_⟩
          refine h.splice hends h.nodup h.chain h.parents hsplit rfl ?_ ?_ (by simp) (by simp)
            (fun p hp => by simp [hp]) h.below
          · simp [← hcur, href]
          · intro c hc _
            simp [hc]
      case inr =>
          rw [List.concat_eq_append] at *
          have hnodup := f.nodup this
          rw [hsplit] at hnodup hfuel
          have hapart : ∀ a, refChild = some a → a ∉ l' ++ [q] := by
            intro a ha hmem
            rw [href] at ha
            exact (List.nodup_append.mp hnodup).2.2 a hmem a (List.mem_of_head? ha) rfl
          have hcur : some cur ≠ refChild := by
            intro heq
            refine hapart cur heq.symm ?_
            rw [hsplit] at hnil
            cases l' <;> simp_all
          have hlinked := h.linked this
          rw [hsplit, hfirstChild, List.head?_cons] at hlinked
          obtain ⟨m, hto, hrest⟩ := Linked.append_iff.mp hlinked
          rw [hrest.start_eq, ← href] at hto
          have hseek : seek s._pNext (fun c => s._pNext c = refChild) fuel (some cur) = some (some q) :=
            seek_before hto hapart (by simp at hfuel; omega)
          refine ⟨_, by rw [if_neg hcur, hseek], ?_⟩
          exact represents_behind h hsplit hends (by simp)

theorem spliceAfter_spec (href : refChild = l₁.getLast?) (hnone : l₁ = [] → l₂ = [])
    (hfuel : (f.children this).length ≤ fuel) :
    ∃ s', AbstractContainerNode.spliceAfter fuel this refChild (ends l) s = .returned () s' ∧
      ∃ hnodup hbelow', Represents s' (f.relist this (l₁ ++ l ++ l₂) hnodup hbelow') := by
  have hfirstChild := h.firstChild_eq this
  cases hnil : f.children this with
  | nil =>
      rw [hnil] at hfirstChild
      refine ⟨_, ?_, represents_first h hsplit hnil⟩
      unfold AbstractContainerNode.spliceAfter
      simp only [hfirstChild, List.head?_nil]
  | cons cur rest =>
      rw [hnil] at hfirstChild
      obtain ⟨⟨first, last⟩, hends⟩ : ∃ e, ends l = some e := by
        cases l with
        | nil => exact absurd (h.empty rfl) (hnil ▸ List.cons_ne_nil _ _)
        | cons c l => exact ⟨_, rfl⟩
      obtain ⟨l', q, rfl⟩ : ∃ l' q, l₁ = l' ++ [q] := by
        rcases List.eq_nil_or_concat l₁ with rfl | ⟨l', q, rfl⟩
        · rw [hnone rfl, List.append_nil, hnil] at hsplit
          cases hsplit
        · exact ⟨l', q, List.concat_eq_append⟩
      rw [List.getLast?_concat] at href
      have hlinked := h.linked this
      rw [hsplit, hfirstChild, List.head?_cons] at hlinked
      obtain ⟨m, hto, -⟩ := Linked.append_iff.mp hlinked
      have hnodup := f.nodup this
      rw [hsplit] at hnodup hfuel
      have hseek : seek s._pNext (fun c => some c = refChild) fuel (some cur) = some (some q) := by
        refine seek_eq hto (fun c hc => decide_eq_false ?_) (decide_eq_true href.symm) (by simp at hfuel; omega)
        rw [href, Option.some_inj]
        exact (List.nodup_append.mp hnodup.of_append_left).2.2 c hc q (by simp)
      refine ⟨_, ?_, represents_behind h hsplit hends (List.getLast?_concat)⟩
      unfold AbstractContainerNode.spliceAfter
      simp only [hfirstChild, List.head?_cons, hends, hseek]

end

/-- The links with a child in the place of another one. -/
theorem represents_exchanged (h : Represents s f) (hnew : ∀ p, new ∉ f.children p)
    (hbelow : ¬Below f.children this new) (hsplit : f.children this = l₁ ++ old :: l₂) {s' : Links ν}
    (hparent : ∀ c, s'._pParent c = if c = old then none else if c = new then some this else s._pParent c)
    (hnext : s'._pNext new = l₂.head?) (hold : s'._pNext old = none)
    (hother : ∀ c, c ∉ l₁ → c ≠ new → c ≠ old → s'._pNext c = s._pNext c)
    (hfirst : ∀ p, p ≠ this → s'._pFirstChild p = s._pFirstChild p)
    (hlinked' : Linked s'._pNext (s'._pFirstChild this) l₁ (some new)) :
    ∃ hnodup hbelow', Represents s' (f.relist this (l₁ ++ [new] ++ l₂) hnodup hbelow') := by
  have hnodup := f.nodup this
  have hlinked := h.linked this
  have hloose := hnew this
  rw [hsplit] at hnodup hlinked hloose
  have hmem {c : ν} : c ∈ f.children this ↔ c = old ∨ c ∈ l₁ ++ l₂ := by
    rw [hsplit]
    simp only [List.mem_append, List.mem_cons]
    tauto
  have hmem' {c : ν} : c ∈ l₁ ++ [new] ++ l₂ ↔ c = new ∨ c ∈ l₁ ++ l₂ := by
    simp only [List.mem_append, List.mem_singleton]
    tauto
  have hapart := (List.perm_middle : (l₁ ++ old :: l₂).Perm _).nodup_iff.mp hnodup
  have hold' : old ∉ l₁ ++ l₂ := (List.nodup_cons.mp hapart).1
  have hloose' : new ∉ l₁ ++ l₂ := fun hmem => hloose (by
    rcases List.mem_append.mp hmem with hmem | hmem <;> simp [hmem])
  have hne : new ≠ old := by
    rintro rfl
    exact hloose (by simp)
  have hlist : (l₁ ++ [new] ++ l₂).Nodup := by
    rw [List.append_assoc]
    exact (List.perm_middle : (l₁ ++ new :: l₂).Perm _).nodup_iff.mpr
      (List.nodup_cons.mpr ⟨hloose', (List.nodup_cons.mp hapart).2⟩)
  have hbelow' : ∀ c ∈ l₁ ++ [new] ++ l₂, ¬Below f.children this c := by
    intro c hc
    rcases hmem'.mp hc with rfl | hc
    · exact hbelow
    · exact Forest.not_below_child (hmem.mpr (.inr hc))
  refine ⟨hlist, hbelow', RepresentsBut.relist (h.but (l := [new]) ?_) hlist hbelow' ?_ hfirst ?_ ?_ ?_ ?_ ?_⟩
  · intro c hc
    rw [List.mem_singleton.mp hc]
    exact hnew
  · obtain ⟨m, -, hm⟩ := Linked.append_iff.mp hlinked
    have hrest := hm.2
    rw [h.next_eq hsplit] at hrest
    refine Linked.append (m := l₂.head?) (hlinked'.append ⟨rfl, hnext⟩) (hrest.congr fun c hc => hother c ?_ ?_ ?_)
    · exact fun hc₁ => (List.nodup_append.mp hnodup).2.2 c hc₁ c (List.mem_cons_of_mem _ hc) rfl
    · exact ne_of_mem_of_not_mem (List.mem_append_right l₁ hc) hloose'
    · exact ne_of_mem_of_not_mem (List.mem_append_right l₁ hc) hold'
  · intro c hc hct
    rw [hmem', not_or] at hc
    rw [hmem, not_or] at hct
    refine ⟨hother c (fun hc₁ => hc.2 (List.mem_append_left _ hc₁)) hc.1 hct.1, ?_⟩
    rw [hparent, if_neg hct.1, if_neg hc.1]
  · intro c hc
    rw [hparent]
    rcases hmem'.mp hc with rfl | hkept
    · rw [if_neg hne, if_pos rfl]
    · rw [if_neg (ne_of_mem_of_not_mem hkept hold'), if_neg (ne_of_mem_of_not_mem hkept hloose')]
      exact h.parent.mpr (hmem.mpr (.inr hkept))
  · intro c hct hc
    obtain rfl := (hmem.mp hct).resolve_right fun hc' => hc (hmem'.mpr (.inr hc'))
    exact ⟨by rw [hparent, if_pos rfl], hold⟩
  · intro c hc
    rcases hmem'.mp hc with rfl | hc
    · exact .inr (List.mem_singleton_self c)
    · exact .inl (hmem.mpr (.inr hc))
  · intro c hc
    exact hmem'.mpr (.inl (List.mem_singleton.mp hc))

theorem exchange_spec (h : Represents s f) (hnew : ∀ p, new ∉ f.children p) (hbelow : ¬Below f.children this new)
    (hsplit : f.children this = l₁ ++ old :: l₂) (hfuel : (f.children this).length ≤ fuel) :
    ∃ s', AbstractContainerNode.exchange fuel this new old s = .returned () s' ∧
      ∃ hnodup hbelow', Represents s' (f.relist this (l₁ ++ [new] ++ l₂) hnodup hbelow') := by
  have hnodup := f.nodup this
  have hloose := hnew this
  have hnext := h.next_eq hsplit
  rw [hsplit] at hnodup hloose
  have hne : new ≠ old := by
    rintro rfl
    exact hloose (by simp)
  rw [AbstractContainerNode.exchange]
  rcases List.eq_nil_or_concat l₁ with rfl | ⟨l', q, rfl⟩
  case inl =>
      have hhead := firstChild_of_split h hsplit
      refine ⟨_, by rw [if_pos hhead], represents_exchanged h hnew hbelow hsplit (fun c => rfl) ?_ ?_ ?_ ?_ ?_⟩
      · simp [hne, hnext]
      · simp
      · intro c _ hc hc'
        simp [hc, hc']
      · intro p hp
        simp [hp]
      · simp
  case inr =>
      rw [List.concat_eq_append] at *
      obtain ⟨hhead, hseek, hto⟩ := seek_of_split h hsplit hfuel
      have hold₁ : old ∉ l' ++ [q] := fun hmem => (List.nodup_append.mp hnodup).2.2 old hmem old List.mem_cons_self rfl
      have hloose₁ : new ∉ l' ++ [q] := fun hmem => hloose (List.mem_append_left _ hmem)
      have hqnew : new ≠ q := fun heq => hloose₁ (by simp [heq])
      have hqold : old ≠ q := fun heq => hold₁ (by simp [heq])
      refine ⟨_, by rw [if_neg hhead, hseek], ?_⟩
      refine represents_exchanged h hnew hbelow hsplit (fun c => rfl) ?_ ?_ ?_ (fun p _ => rfl) ?_
      · simp [hne, hnext, hqnew]
      · simp [hqold]
      · intro c hc hc' hc''
        have hcq : c ≠ q := by
          rintro rfl
          exact hc (by simp)
        simp [hc', hc'', hcq]
      · refine hto.redirect (by simp) fun c hc => ?_
        have hcq : c ≠ q := (List.nodup_append.mp hnodup.of_append_left).2.2 c hc q (by simp)
        have hcnew : c ≠ new := fun heq => hloose₁ (heq ▸ List.mem_append_left _ hc)
        have hcold : c ≠ old := fun heq => hold₁ (heq ▸ List.mem_append_left _ hc)
        simp [hcq, hcnew, hcold]

/-! ### Calls -/

variable {K : Kinds ν} {newChild refChild : Option ν}

theorem taken_spec (h : Represents s f) (hfuel : ∀ p, (f.children p).length ≤ fuel)
    (hinsertable : Insertable K f.children this (some new)) (hne : new ≠ this) (hl : inserted K f.children new = l) :
    ∃ s', AbstractContainerNode.take K fuel this new s = .returned (ends l) s' ∧ Taken s' (f.without l) l this := by
  obtain ⟨hbelow, hempty⟩ := hinsertable new rfl hne
  obtain ⟨s', htake, hbut, hchain, hparents⟩ := take_spec this h hfuel hl
  refine ⟨s', htake, { hbut with nodup := ?_, chain := hchain, parents := hparents, below := ?_, empty := ?_ }⟩
  · rw [← hl, inserted]
    split_ifs
    · exact f.nodup new
    · exact List.nodup_singleton new
  · intro c hc hthis
    have hthis' : Below f.children this c := hthis.mono fun p => List.filter_subset_self _
    rw [← hl, inserted] at hc
    split_ifs at hc
    · exact hbelow (hthis'.trans (Forest.below_child hc))
    · exact hbelow (List.mem_singleton.mp hc ▸ hthis')
  · intro hnil
    show (f.children this).filter _ = []
    rw [hempty (hl.trans hnil), List.filter_nil]

/-- An insertion agrees with its documentation if its second part does. -/
theorem insertWith_agrees {splice : ν → Option ν → Option (ν × ν) → Links ν → Outcome ν Unit}
    {place : List ν → List ν → List ν} (h : Represents s f) (hfuel : ∀ p, (f.children p).length ≤ fuel)
    (hinsertable : Insertable K f.children this newChild)
    (hsplice : ∀ {s : Links ν} {f' : Forest ν} {l : List ν} {n : ν}, Taken s f' l this → newChild = some n →
      f'.children this = (f.children this).filter (· ∉ inserted K f.children n) →
      (∀ r, refChild = some r → r ∈ f'.children this) → (f'.children this).length ≤ fuel →
      ∃ l₁ l₂ s', place l (f'.children this) = l₁ ++ l ++ l₂ ∧ splice this refChild (ends l) s = .returned () s' ∧
        ∃ hnodup hbelow, Represents s' (f'.relist this (l₁ ++ l ++ l₂) hnodup hbelow)) :
    Agrees s (AbstractContainerNode.insertWith K fuel splice this newChild refChild s)
      (documentedWith K f.children place this id newChild refChild) := by
  cases newChild with
  | none => rfl
  | some new =>
      have hany : refChild.any (fun ref => s._pParent ref ≠ some this) = refChild.any (· ∉ f.children this) := by
        cases refChild with
        | none => rfl
        | some r => simp only [Option.any_some, ne_eq, h.parent]
      rw [AbstractContainerNode.insertWith, documentedWith]
      simp only [hany]
      by_cases howner : K._pOwner new ≠ K._pOwner this ∧ K._pOwner new ≠ some this
      · rw [if_pos howner, if_pos howner]
        rfl
      rw [if_neg howner, if_neg howner]
      by_cases hfound : refChild.any (· ∉ f.children this) = true
      · rw [if_pos hfound, if_pos hfound]
        rfl
      rw [if_neg hfound, if_neg hfound]
      by_cases hsame : some new = refChild
      · rw [if_pos hsame, if_pos hsame]
        exact ⟨s, f, rfl, h, rfl⟩
      rw [if_neg hsame, if_neg hsame]
      by_cases hself : this = new
      · rw [if_pos hself, if_pos hself]
        rfl
      rw [if_neg hself, if_neg hself]
      obtain ⟨s₁, htake, htaken⟩ := taken_spec h hfuel hinsertable (Ne.symm hself) rfl
      have href : ∀ r, refChild = some r → r ∈ (f.without (inserted K f.children new)).children this := by
        rintro r rfl
        have hr : r ∈ f.children this := by simpa using hfound
        refine mem_without.mpr ⟨hr, ?_⟩
        rw [inserted]
        split_ifs
        · exact fun hr' => hself (f.unique hr hr')
        · simpa using fun heq => hsame (congrArg some heq.symm)
      have hlen := (List.length_filter_le (· ∉ inserted K f.children new) (f.children this)).trans (hfuel this)
      obtain ⟨l₁, l₂, s', hplace, hsplice, hnodup, hbelow, hrepresents⟩ := hsplice htaken rfl rfl href hlen
      refine ⟨s', _, by rw [htake, Outcome.andThen, hsplice, Outcome.andThen]; rfl, hrepresents, ?_⟩
      rw [Forest.relist_children, relisted_without fun c hc => by simp [hc], ← hplace]
      rfl

theorem insertBefore_agrees (refChild : Option ν) (h : Represents s f) (hfuel : ∀ p, (f.children p).length ≤ fuel)
    (hinsertable : Insertable K f.children this newChild) :
    Agrees s (AbstractContainerNode.insertBefore K fuel this newChild refChild s)
      (documentedWith K f.children (before refChild) this id newChild refChild) := by
  refine insertWith_agrees h hfuel hinsertable fun htaken _ _ href hlen => ?_
  obtain ⟨l₁, l₂, hsplit, hhead, hplace⟩ := before_split (Forest.nodup _ this) href _
  obtain ⟨s', hsplice, hrepresents⟩ := spliceBefore_spec htaken hsplit hhead hlen
  exact ⟨l₁, l₂, s', hplace, hsplice, hrepresents⟩

theorem insertAfterNP_agrees (h : Represents s f) (hfuel : ∀ p, (f.children p).length ≤ fuel)
    (hinsertable : Insertable K f.children this newChild)
    (hnone : refChild = none → ∀ n, newChild = some n → ∀ c ∈ f.children this, c ∈ inserted K f.children n) :
    Agrees s (AbstractContainerNode.insertAfterNP K fuel this newChild refChild s)
      (documentedWith K f.children (after refChild) this id newChild refChild) := by
  refine insertWith_agrees h hfuel hinsertable fun htaken hnew hchildren href hlen => ?_
  obtain ⟨l₁, l₂, hsplit, hlast, hnil, hplace⟩ := after_split (Forest.nodup _ this) href
    (fun href => by
      rw [hchildren, List.filter_eq_nil_iff]
      simpa using hnone href _ hnew) _
  obtain ⟨s', hsplice, hrepresents⟩ := spliceAfter_spec htaken hsplit hlast hnil hlen
  exact ⟨l₁, l₂, s', hplace, hsplice, hrepresents⟩

/-- Replacing by a fragment is inserting its children before the old child, which is then removed. -/
theorem without_moved (hold : old ∈ f.children this) (hnew : old ∉ inserted K f.children new) {f' : Forest ν}
    (hf' : f'.children = moved K f.children (before (some old)) this new) :
    (f'.without [old]).children = moved K f.children (substitute old) this new := by
  have hrest : old ∈ (f.without (inserted K f.children new)).children this := mem_without.mpr ⟨hold, hnew⟩
  obtain ⟨l₁, l₂, hsplit⟩ := List.append_of_mem hrest
  have hnodup := (f.without (inserted K f.children new)).nodup this
  rw [hsplit] at hnodup
  have hsplit' : (f.children this).filter (· ∉ inserted K f.children new) = l₁ ++ old :: l₂ := hsplit
  have hold₁ : old ∉ l₁ := fun hmem => (List.nodup_append.mp hnodup).2.2 old hmem old List.mem_cons_self rfl
  have hold₂ : old ∉ l₂ := (List.nodup_cons.mp hnodup.of_append_right).1
  funext p
  show (f'.children p).filter (· ∉ [old]) = _
  rw [hf', moved, moved, before, hsplit', substitute_split hnodup, substitute_split hnodup]
  by_cases hp : p = this
  · rw [hp, relisted_self, relisted_self, List.filter_append, List.filter_append, List.filter_append]
    have hkeep : ∀ l : List ν, old ∉ l → l.filter (· ∉ [old]) = l := fun l hl =>
      List.filter_eq_self.mpr fun c hc => by simpa using ne_of_mem_of_not_mem hc hl
    rw [hkeep l₁ hold₁, hkeep l₂ hold₂, hkeep _ hnew]
    simp
  · rw [Forest.relisted_of_ne _ _ hp, Forest.relisted_of_ne _ _ hp, List.filter_filter]
    refine List.filter_congr fun c hc => ?_
    have hne : c ≠ old := fun heq => hp (f.unique hc (heq ▸ hold))
    simp [hne]

variable [Fintype ν]

omit [DecidableEq ν] in
theorem length_children_le (f : Forest ν) (hfuel : Fintype.card ν ≤ fuel) (p : ν) : (f.children p).length ≤ fuel :=
  (f.nodup p).length_le_card.trans hfuel

theorem replaceChild_agrees (h : Represents s f) (hfuel : Fintype.card ν ≤ fuel)
    (hinsertable : Insertable K f.children this newChild) :
    Agrees s (AbstractContainerNode.replaceChild K fuel this newChild (some old) s)
      (documentedWith K f.children (substitute old) this (fun _ => old) newChild (some old)) := by
  cases newChild with
  | none => rfl
  | some new =>
      have hinsert := insertBefore_agrees (some old) h (length_children_le f hfuel) hinsertable
      rw [documentedWith] at hinsert
      rw [AbstractContainerNode.replaceChild, documentedWith]
      simp only [Option.any_some, decide_not, Bool.not_eq_true', decide_eq_false_iff_not] at hinsert ⊢
      by_cases howner : K._pOwner new ≠ K._pOwner this ∧ K._pOwner new ≠ some this
      · rw [if_pos howner, if_pos howner]
        rfl
      rw [if_neg howner] at hinsert
      rw [if_neg howner, if_neg howner]
      by_cases hold : old ∈ f.children this
      case neg =>
        rw [if_pos (h.parent.not.mpr hold), if_pos hold]
        rfl
      rw [if_neg (not_not.mpr hold)] at hinsert
      rw [if_neg (not_not.mpr (h.parent.mpr hold)), if_neg (not_not.mpr hold)]
      by_cases hsame : some new = some old
      · rw [if_pos hsame, if_pos hsame]
        exact ⟨s, f, by rw [Option.some.inj hsame], h, rfl⟩
      rw [if_neg hsame] at hinsert
      rw [if_neg hsame, if_neg hsame]
      by_cases hself : this = new
      · rw [if_pos hself, if_pos hself]
        rfl
      rw [if_neg hself] at hinsert
      rw [if_neg hself, if_neg hself]
      by_cases hfragment : K.nodeType new = .DOCUMENT_FRAGMENT_NODE
      case pos =>
        rw [if_pos hfragment]
        have hnew : old ∉ inserted K f.children new := by
          rw [inserted, if_pos hfragment]
          exact fun hmem => hself (f.unique hold hmem)
        obtain ⟨s₁, f₁, hbefore, hrepresents₁, hchildren⟩ := hinsert
        have hold₁ : old ∈ f₁.children this := by
          rw [hchildren, moved, relisted_self, before, substitute]
          exact List.mem_flatMap.mpr ⟨old, mem_without.mpr ⟨hold, hnew⟩, by simp⟩
        obtain ⟨s₂, hremove, hrepresents₂, -⟩ := removeChild_spec hrepresents₁ hold₁ (length_children_le f₁ hfuel this)
        refine ⟨s₂, _, ?_, hrepresents₂, without_moved hold hnew hchildren⟩
        rw [hbefore, Outcome.andThen, hremove, Outcome.andThen]
      case neg =>
        rw [if_neg hfragment]
        have hinserted : inserted K f.children new = [new] := if_neg hfragment
        obtain ⟨s₁, hdetach, hrepresents₁, -⟩ := detach_spec new h (length_children_le f hfuel)
        have hrest : old ∈ (f.without [new]).children this :=
          mem_without.mpr ⟨hold, by simpa using fun heq => hsame (congrArg some heq.symm)⟩
        obtain ⟨l₁, l₂, hsplit⟩ := List.append_of_mem hrest
        have hnodup := (f.without [new]).nodup this
        rw [hsplit] at hnodup
        obtain ⟨s₂, hexchange, hlist, hbelow, hrepresents₂⟩ :=
          exchange_spec hrepresents₁ (fun p => by simp)
            (fun hthis => (hinsertable new rfl (Ne.symm hself)).1 (hthis.mono fun p => List.filter_subset_self _))
            hsplit (length_children_le _ hfuel this)
        refine ⟨s₂, _, ?_, hrepresents₂, ?_⟩
        · rw [hdetach, Outcome.andThen, hexchange, Outcome.andThen]
        · rw [Forest.relist_children, relisted_without (by simp), moved, hinserted]
          show _ = relisted f.children this (substitute old [new] ((f.without [new]).children this))
          rw [hsplit, substitute_split hnodup]

theorem perform_agrees (h : Represents s f) (hfuel : Fintype.card ν ≤ fuel) {call : Call ν}
    (hsound : call.Sound K f.children) : Agrees s (call.perform K fuel s) (call.documented K f.children) := by
  have hlen := length_children_le f hfuel
  cases call with
  | insertBefore this new ref =>
      rw [Call.perform, Call.documented]
      split_ifs
      · exact insertBefore_agrees _ h hlen hsound
      · rfl
  | insertAfterNP this new ref =>
      rw [Call.perform, Call.documented]
      split_ifs
      · exact insertAfterNP_agrees h hlen hsound.1 hsound.2
      · rfl
  | replaceChild this new old =>
      unfold Call.perform Call.documented
      dsimp only
      split_ifs
      · cases old with
        | none => cases new <;> rfl
        | some o => exact replaceChild_agrees h hfuel hsound
      · rfl
  | removeChild this old =>
      unfold Call.perform Call.documented
      dsimp only
      split_ifs
      · cases old with
        | none => rfl
        | some o =>
            by_cases ho : o ∈ f.children this
            · obtain ⟨s', hremove, hrepresents, -⟩ := removeChild_spec h ho (hlen this)
              simp only [ho, if_true]
              exact ⟨s', _, hremove, hrepresents, rfl⟩
            · simp only [ho, if_false]
              exact removeChild_thrown h ho (hlen this)
      · rfl
  | appendChild this new =>
      rw [Call.perform, Call.documented]
      split_ifs
      · exact insertBefore_agrees _ h hlen hsound
      · rfl

/-! ### Runs -/

/-- A run of calls, each on the links that the one before it left, and what they return or throw. -/
def performAll (K : Kinds ν) (fuel : ℕ) : List (Call ν) → Links ν → Option (List (Except Thrown ν) × Links ν)
  | [], s => some ([], s)
  | call :: calls, s =>
    match call.perform K fuel s with
    | .returned n s => (performAll K fuel calls s).map fun r => (.ok n :: r.1, r.2)
    | .thrown e s => (performAll K fuel calls s).map fun r => (.error e :: r.1, r.2)
    | .unfinished => none

/-- What a run does to the lists of children. -/
def documentedAll (K : Kinds ν) : List (Call ν) → (ν → List ν) → List (Except Thrown ν) × (ν → List ν)
  | [], children => ([], children)
  | call :: calls, children =>
    match call.documented K children with
    | .ok (n, children) => ((documentedAll K calls children).map (.ok n :: ·) id)
    | .error e => ((documentedAll K calls children).map (.error e :: ·) id)

/-- Every call of a run has what it needs. -/
def SoundAll (K : Kinds ν) : List (Call ν) → (ν → List ν) → Prop
  | [], _ => True
  | call :: calls, children =>
    call.Sound K children ∧
      match call.documented K children with
      | .ok (_, children) => SoundAll K calls children
      | .error _ => SoundAll K calls children

/-- **Main result.** Calls that insert, move, replace and remove children, in any order, return and throw what is
documented, and leave links that stand for the forest with the documented lists of children: no node is twice among
the children or its own ancestor, and none is lost.  A call that throws changes nothing. -/
theorem performAll_documented (hfuel : Fintype.card ν ≤ fuel) (calls : List (Call ν)) (h : Represents s f)
    (hsound : SoundAll K calls f.children) :
    ∃ s' f', performAll K fuel calls s = some ((documentedAll K calls f.children).1, s') ∧ Represents s' f' ∧
      f'.children = (documentedAll K calls f.children).2 := by
  induction calls generalizing s f with
  | nil => exact ⟨s, f, rfl, h, rfl⟩
  | cons call calls ih =>
      obtain ⟨hcall, hcalls⟩ := hsound
      have hagrees := perform_agrees h hfuel hcall
      rw [performAll, documentedAll]
      cases hdocumented : call.documented K f.children with
      | error e =>
          rw [hdocumented] at hagrees hcalls
          have hperform : call.perform K fuel s = .thrown e s := hagrees
          obtain ⟨s', f', hrun, hs', hf'⟩ := ih h hcalls
          exact ⟨s', f', by simp [hperform, hrun], hs', hf'⟩
      | ok r =>
          obtain ⟨n, children⟩ := r
          rw [hdocumented] at hagrees hcalls
          obtain ⟨s₁, f₁, hperform, hs₁, rfl⟩ := hagrees
          obtain ⟨s', f', hrun, hs', hf'⟩ := ih hs₁ hcalls
          exact ⟨s', f', by simp [hperform, hrun], hs', hf'⟩

/-- A document, a fragment and two elements: the fragment is inserted before a child, a call throws, and a child is
moved behind another one. -/
theorem performAll_documented_five :
    let K : Kinds (Fin 4) :=
      ⟨fun n => if n = 0 then .DOCUMENT_NODE else if n = 1 then .DOCUMENT_FRAGMENT_NODE else .ELEMENT_NODE,
        fun n => if n = 0 then none else some 0⟩
    ∃ s' f', performAll K 4 [.appendChild 0 (some 2), .appendChild 1 (some 3), .insertBefore 0 (some 1) (some 2),
          .removeChild 0 (some 1), .insertAfterNP 0 (some 3) (some 2)]
          ⟨fun _ => none, fun _ => none, fun _ => none⟩ =
        some ([.ok 2, .ok 3, .ok 1, .error .NOT_FOUND_ERR, .ok 3], s') ∧
      Represents s' f' ∧ f'.children 0 = [2, 3] := by
  intro K
  have hleaf {children : Fin 4 → List (Fin 4)} {a p : Fin 4} (hne : a ≠ p) (hp : children p = []) :
      ¬Below children a p := Forest.not_below hne (by simp [hp])
  have hsound : SoundAll K [.appendChild 0 (some 2), .appendChild 1 (some 3), .insertBefore 0 (some 1) (some 2),
      .removeChild 0 (some 1), .insertAfterNP 0 (some 3) (some 2)] Forest.bare.children := by
    refine ⟨?_, ?_, ?_, trivial, ⟨?_, ?_⟩, trivial⟩
    · rintro new ⟨⟩ -
      exact ⟨hleaf (by decide) (by decide), by decide⟩
    · rintro new ⟨⟩ -
      exact ⟨hleaf (by decide) (by decide), by decide⟩
    · rintro new ⟨⟩ -
      refine ⟨Forest.not_below (by decide) fun c hc => ?_, by decide⟩
      obtain rfl : c = 3 := by revert hc; revert c; decide
      exact hleaf (by decide) (by decide)
    · rintro new ⟨⟩ -
      exact ⟨hleaf (by decide) (by decide), by decide⟩
    · intro href
      cases href
  obtain ⟨s', f', hrun, hs', hf'⟩ := performAll_documented (Nat.le_refl 4) _ represents_bare hsound
  exact ⟨s', f', hrun, hs', by rw [hf']; decide⟩

end Poco.XML
