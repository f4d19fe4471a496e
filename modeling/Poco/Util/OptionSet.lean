import Mathlib.Data.List.Perm.Basic
import Mathlib.Data.List.Nodup
import Mathlib.Data.Int.Notation
import Poco.Foundation.Ascii

/-! # `OptionSet`

`getOption` goes once through the options and settles for the first one that matches partly, unless the second
one that does is a full match.  A full match behind two others is therefore not reached: whether it is found
depends on the order in which the options were added (`independent_iff_decided`). -/

namespace Poco.Util

/-! ### Options -/

/-- `Poco::Util::Option`, with its names. -/
structure UtilOption where
  _shortName : List UInt8
  _fullName : List UInt8
deriving DecidableEq, Repr

namespace UtilOption

export Poco.Foundation.Ascii (toLower)

/-- The loop of `icompare` between two ranges. -/
def icompare : List UInt8 → List UInt8 → ℤ
  | [], [] => 0
  | [], _ :: _ => -1
  | _ :: _, [] => 1
  | it1 :: end1, it2 :: end2 =>
    let c1 := (toLower it1).toInt8
    let c2 := (toLower it2).toInt8
    if c1 < c2 then -1 else if c2 < c1 then 1 else icompare end1 end2

/-- `find_first_of(":=")`, or the length of the whole string. -/
def len (option : List UInt8) : ℕ :=
  (option.findIdx? fun c => c == ':'.toUInt8 || c == '='.toUInt8).getD option.length

variable (opt : UtilOption) (option : List UInt8)

def matchesShort : Bool :=
  0 < option.length && opt._shortName ≠ [] && option.take opt._shortName.length == opt._shortName

def matchesFull : Bool :=
  len option == opt._fullName.length &&
    icompare (option.take (len option)) (opt._fullName.take (len option)) == 0

def matchesPartial : Bool :=
  0 < option.length && icompare (option.take (len option)) (opt._fullName.take (len option)) == 0

variable {opt option}

/-- A full match is a partial one, as the name is not empty. -/
theorem matchesPartial_of_matchesFull (hname : opt._fullName ≠ []) (hfull : opt.matchesFull option = true) :
    opt.matchesPartial option = true := by
  rw [matchesFull, Bool.and_eq_true, beq_iff_eq] at hfull
  obtain ⟨hlen, hsame⟩ := hfull
  rw [matchesPartial, hsame, Bool.and_true, decide_eq_true_iff, List.length_pos_iff]
  rintro rfl
  exact hname (List.length_eq_zero_iff.mp hlen.symm)

end UtilOption

/-! ### Sets -/

/-- An `OptionSet`: no two options have one full name, and none has an empty one. -/
structure OptionSet where
  _options : List UtilOption
  distinct : (_options.map UtilOption._fullName).Nodup
  named : ∀ opt ∈ _options, opt._fullName ≠ []

namespace OptionSet

/-- The exceptions of the lookup and of `addOption`. -/
inductive Exn
  | assertionViolation
  | duplicateOption (name : List UInt8)
  | unknownOption (name : List UInt8)
  | ambiguousOption (name : List UInt8)
deriving DecidableEq, Repr

def addOption (s : OptionSet) (option : UtilOption) : Except Exn OptionSet :=
  if hname : option._fullName = [] then throw .assertionViolation
  else if hnew : ∃ opt ∈ s._options, opt._fullName = option._fullName then throw (.duplicateOption option._fullName)
  else
    pure {
      _options := s._options ++ [option]
      distinct := by
        rw [List.map_append, List.map_singleton]
        exact s.distinct.append (List.nodup_singleton _) (List.disjoint_singleton.mpr (mt List.mem_map.mp hnew))
      named := by
        intro opt hopt
        rcases List.mem_append.mp hopt with hold | hlast
        · exact s.named opt hold
        · rw [List.mem_singleton.mp hlast]
          exact hname }

/-- A new set. -/
def empty : OptionSet := ⟨[], List.nodup_nil, fun _ hopt => absurd hopt List.not_mem_nil⟩

/-- The options are added one after the other. -/
def addOptions (s : OptionSet) (options : List UtilOption) : Except Exn OptionSet := options.foldlM addOption s

/-- The loop of `getOption`. -/
def getOptionLoop (name : List UInt8) (matchShort : Bool) :
    List UtilOption → Option UtilOption → Except Exn (Option UtilOption)
  | [], pOption => pure pOption
  | opt :: rest, pOption =>
    if matchShort && opt.matchesShort name || !matchShort && opt.matchesPartial name then
      match pOption with
      | none =>
        if !matchShort && opt.matchesFull name then pure (some opt) else getOptionLoop name matchShort rest (some opt)
      | some _ =>
        if !matchShort && opt.matchesFull name then pure (some opt) else throw (.ambiguousOption name)
    else getOptionLoop name matchShort rest pOption

def getOption (s : OptionSet) (name : List UInt8) (matchShort : Bool) : Except Exn UtilOption := do
  match ← getOptionLoop name matchShort s._options none with
  | some option => pure option
  | none => throw (.unknownOption name)

/-! ### The property -/

/-- The lookup gives the same for every order in which the options are added, and an option with just this name
if there is one. -/
def Independent (s : OptionSet) (name : List UInt8) : Prop :=
  (∀ order : List UtilOption, order.Perm s._options →
    ∃ t : OptionSet, empty.addOptions order = .ok t ∧ t.getOption name false = s.getOption name false) ∧
    ∀ opt ∈ s._options, opt.matchesFull name = true → s.getOption name false = .ok opt

/-- No option matches fully, or one does and at most one other option matches partly. -/
def Decided (s : OptionSet) (name : List UInt8) : Prop :=
  s._options.countP (·.matchesFull name) = 0 ∨
    s._options.countP (·.matchesFull name) = 1 ∧ s._options.countP (·.matchesPartial name) ≤ 2

/-! ### What the loop finds -/

/-- What becomes of the options that match partly. -/
def select (name : List UInt8) : List UtilOption → Except Exn UtilOption
  | [] => throw (.unknownOption name)
  | [first] => pure first
  | first :: second :: _ =>
    if first.matchesFull name then pure first
    else if second.matchesFull name then pure second
    else throw (.ambiguousOption name)

/-- The rest of the loop behind a first option that matches only partly. -/
theorem getOptionLoop_some {name : List UInt8} {first : UtilOption} (hfirst : first.matchesFull name = false)
    (options : List UtilOption) :
    getOptionLoop name false options (some first) =
      (select name (first :: options.filter (·.matchesPartial name))).map some := by
  induction options with
  | nil => rfl
  | cons opt rest ih =>
      rw [getOptionLoop, List.filter_cons]
      by_cases hpart : opt.matchesPartial name = true
      · rw [if_pos hpart, select, hfirst]
        by_cases hfull : opt.matchesFull name = true <;> simp [hpart, hfull] <;> rfl
      · rw [if_neg hpart, ← ih]
        simp [hpart]

/-- Only the options that match partly count, in their order. -/
theorem getOption_eq (s : OptionSet) (name : List UInt8) :
    s.getOption name false = select name (s._options.filter (·.matchesPartial name)) := by
  rw [getOption]
  induction s._options with
  | nil => rfl
  | cons opt rest ih =>
      rw [getOptionLoop, List.filter_cons]
      by_cases hpart : opt.matchesPartial name = true
      · rw [if_pos hpart]
        by_cases hfull : opt.matchesFull name = true
        · cases rest.filter (·.matchesPartial name) <;> simp [hpart, hfull, select]
        · rw [Bool.not_eq_true] at hfull
          simp only [hpart, hfull, getOptionLoop_some hfull]
          cases select name (opt :: rest.filter (·.matchesPartial name)) <;> rfl
      · rw [if_neg hpart, ← ih]
        simp [hpart]

/-! ### Orders -/

/-- Options with different names are all added, in their order. -/
theorem addOptions_eq {s t : OptionSet} {options : List UtilOption} (hall : s._options ++ options = t._options) :
    s.addOptions options = .ok t := by
  induction options generalizing s with
  | nil =>
      rw [List.append_nil] at hall
      cases s
      cases t
      cases hall
      rfl
  | cons option rest ih =>
      have hdistinct := t.distinct
      rw [← hall, List.map_append, List.map_cons] at hdistinct
      have hname : option._fullName ≠ [] := t.named option (by simp [← hall])
      have hnew : ¬∃ opt ∈ s._options, opt._fullName = option._fullName := fun ⟨_, hold, hsame⟩ =>
        (List.nodup_append.mp hdistinct).2.2 _ (List.mem_map_of_mem hold) _ List.mem_cons_self hsame
      rw [addOptions, List.foldlM_cons, addOption, dif_neg hname, dif_neg hnew]
      apply ih
      rw [List.append_assoc, List.singleton_append, hall]

theorem exists_addOptions (s : OptionSet) {order : List UtilOption} (horder : order.Perm s._options) :
    ∃ t : OptionSet, t._options = order ∧ empty.addOptions order = .ok t := by
  let t : OptionSet := {
    _options := order
    distinct := (horder.map UtilOption._fullName).nodup_iff.mpr s.distinct
    named := fun opt hopt => s.named opt (horder.mem_iff.mp hopt) }
  exact ⟨t, rfl, addOptions_eq rfl⟩

section Counts
variable {name : List UInt8}

/-- The options with just this name are among those that match partly. -/
theorem filter_full (s : OptionSet) (name : List UInt8) :
    (s._options.filter (·.matchesPartial name)).filter (·.matchesFull name) =
      s._options.filter (·.matchesFull name) := by
  rw [List.filter_filter]
  apply List.filter_congr
  intro opt hopt
  by_cases hfull : opt.matchesFull name = true
  · rw [hfull, UtilOption.matchesPartial_of_matchesFull (s.named opt hopt) hfull, Bool.and_self]
  · rw [Bool.not_eq_true] at hfull
    rw [hfull, Bool.false_and]

/-- Without a full match the number of partial ones decides. -/
theorem select_of_none {options order : List UtilOption} (horder : order.Perm options)
    (hnone : ∀ opt ∈ options, opt.matchesFull name = false) : select name order = select name options := by
  match options, order, horder with
  | [], order, horder => rw [List.perm_nil.mp horder]
  | [opt], order, horder => rw [List.perm_singleton.mp horder]
  | first :: second :: rest, order, horder =>
      have hlength : order.length = rest.length + 2 := horder.length_eq
      obtain ⟨first', second', rest', rfl⟩ : ∃ first' second' rest', order = first' :: second' :: rest' := by
        match order, hlength with
        | first' :: second' :: rest', _ => exact ⟨first', second', rest', rfl⟩
      have hfirst' := hnone first' (horder.mem_iff.mp (by simp))
      have hsecond' := hnone second' (horder.mem_iff.mp (by simp))
      simp only [select, hfirst', hsecond', hnone first (by simp), hnone second (by simp), Bool.false_eq_true, if_false]

/-- The one full match is found if there is at most one other partial match. -/
theorem select_of_one {options : List UtilOption} {opt : UtilOption}
    (hone : options.filter (·.matchesFull name) = [opt]) (hlength : options.length ≤ 2) :
    select name options = .ok opt := by
  match options, hlength with
  | [], _ => cases hone
  | [first], _ =>
      by_cases hfirst : first.matchesFull name = true <;> simp [hfirst] at hone
      rw [select, hone]
      rfl
  | [first, second], _ =>
      by_cases hfirst : first.matchesFull name = true <;> by_cases hsecond : second.matchesFull name = true <;>
        simp [hfirst, hsecond] at hone <;> subst hone <;> simp [select, hfirst, hsecond] <;> rfl

/-- Two partial matches in front of the full one hide it. -/
theorem exists_hidden {options : List UtilOption} (hone : options.countP (·.matchesFull name) = 1)
    (hthree : 2 < options.length) :
    ∃ order : List UtilOption, order.Perm options ∧ select name order = .error (.ambiguousOption name) := by
  have hboth := List.length_eq_length_filter_add (l := options) (UtilOption.matchesFull · name)
  rw [← List.countP_eq_length_filter, hone] at hboth
  obtain ⟨first, second, rest, hothers⟩ :
      ∃ first second rest, (options.filter fun opt => !opt.matchesFull name) = first :: second :: rest := by
    cases hothers : options.filter fun opt => !opt.matchesFull name with
    | nil =>
        rw [hothers, List.length_nil] at hboth
        omega
    | cons first rest =>
        cases rest with
        | nil =>
            rw [hothers, List.length_singleton] at hboth
            omega
        | cons second rest => exact ⟨first, second, rest, rfl⟩
  have hfull : ∀ opt ∈ first :: second :: rest, opt.matchesFull name = false := by
    intro opt hopt
    rw [← hothers] at hopt
    simpa using (List.mem_filter.mp hopt).2
  refine ⟨first :: second :: rest ++ options.filter (·.matchesFull name), ?_, ?_⟩
  · rw [← hothers]
    exact List.perm_append_comm.trans (List.filter_append_perm (·.matchesFull name) options)
  · simp only [List.cons_append, select, hfull first (by simp), hfull second (by simp), Bool.false_eq_true, if_false]
    rfl

end Counts

/-! ### Main result -/

theorem independent_of_decided {s : OptionSet} {name : List UInt8} (hdecided : s.Decided name) :
    s.Independent name := by
  rcases hdecided with hnone | ⟨hone, htwo⟩
  · rw [List.countP_eq_zero] at hnone
    constructor
    · intro order horder
      obtain ⟨t, rfl, ht⟩ := s.exists_addOptions horder
      refine ⟨t, ht, ?_⟩
      rw [getOption_eq, getOption_eq]
      apply select_of_none (horder.filter _)
      intro opt hopt
      exact Bool.not_eq_true _ ▸ hnone opt (List.mem_filter.mp hopt).1
    · intro opt hopt hfull
      exact absurd hfull (hnone opt hopt)
  · rw [List.countP_eq_length_filter, List.length_eq_one_iff] at hone
    obtain ⟨opt, hone⟩ := hone
    have hfound : ∀ t : OptionSet, t._options.Perm s._options → t.getOption name false = .ok opt := by
      intro t ht
      rw [getOption_eq]
      apply select_of_one
      · rw [filter_full]
        exact List.perm_singleton.mp (hone ▸ ht.filter _)
      · rw [← List.countP_eq_length_filter, ht.countP_eq]
        exact htwo
    constructor
    · intro order horder
      obtain ⟨t, rfl, ht⟩ := s.exists_addOptions horder
      exact ⟨t, ht, (hfound t horder).trans (hfound s (List.Perm.refl _)).symm⟩
    · intro other hother hfull
      have hmem : other ∈ s._options.filter (·.matchesFull name) := List.mem_filter.mpr ⟨hother, hfull⟩
      rw [hone, List.mem_singleton] at hmem
      rw [hmem, hfound s (List.Perm.refl _)]

/-- **Main result.**  The lookup of a name does not depend on the order of the options exactly if no option has
just this name, or one has it and at most one other begins with it. -/
theorem independent_iff_decided (s : OptionSet) (name : List UInt8) : s.Independent name ↔ s.Decided name := by
  refine ⟨?_, independent_of_decided⟩
  rintro ⟨horders, hexact⟩
  match hfull : s._options.filter (·.matchesFull name) with
  | [] => exact Or.inl (by rw [List.countP_eq_length_filter, hfull, List.length_nil])
  | [opt] =>
      have hone : s._options.countP (·.matchesFull name) = 1 := by
        rw [List.countP_eq_length_filter, hfull, List.length_singleton]
      refine Or.inr ⟨hone, ?_⟩
      by_contra hthree
      have hmem := List.mem_filter.mp
        (hfull ▸ List.mem_singleton_self opt : opt ∈ s._options.filter (·.matchesFull name))
      rw [← filter_full] at hfull
      obtain ⟨order, horder, hhidden⟩ := @exists_hidden name (s._options.filter (·.matchesPartial name))
        (by rw [List.countP_eq_length_filter, hfull, List.length_singleton])
        (by rw [← List.countP_eq_length_filter]; exact Nat.lt_of_not_le hthree)
      have hperm := (horder.append_right _).trans (List.filter_append_perm (·.matchesPartial name) s._options)
      obtain ⟨t, hoptions, ht⟩ := s.exists_addOptions hperm
      obtain ⟨t', ht', hget⟩ := horders _ hperm
      obtain rfl : t = t' := Except.ok.inj (ht.symm.trans ht')
      have hpart : t._options.filter (·.matchesPartial name) = order := by
        rw [hoptions, List.filter_append, List.filter_eq_self.mpr, List.filter_filter]
        · simp
        · exact fun opt hopt => (List.mem_filter.mp (horder.mem_iff.mp hopt)).2
      rw [getOption_eq t, hpart, hhidden, hexact opt hmem.1 hmem.2] at hget
      cases hget
  | first :: second :: rest =>
      have hfirst := List.mem_filter.mp (hfull ▸ List.mem_cons_self : first ∈ s._options.filter (·.matchesFull name))
      have hsecond := List.mem_filter.mp
        (hfull ▸ List.mem_cons_of_mem _ List.mem_cons_self : second ∈ s._options.filter (·.matchesFull name))
      have hsame := (hexact first hfirst.1 hfirst.2).symm.trans (hexact second hsecond.1 hsecond.2)
      have hnodup := (List.Nodup.of_map _ s.distinct).filter (·.matchesFull name)
      rw [hfull, Except.ok.inj hsame] at hnodup
      exact absurd List.mem_cons_self (List.nodup_cons.mp hnodup).1

/-- The options "foobar", "foobaz" and "foo", in this order. -/
def threeOptions : OptionSet where
  _options := [⟨[], [102, 111, 111, 98, 97, 114]⟩, ⟨[], [102, 111, 111, 98, 97, 122]⟩, ⟨[], [102, 111, 111]⟩]
  distinct := by decide
  named := by decide

/-- "foo" is ambiguous there, although there is an option with this name. -/
theorem not_independent_third : ¬∀ (s : OptionSet) (name : List UInt8), s.Independent name := by
  intro hall
  have hexact := (hall threeOptions [102, 111, 111]).2 ⟨[], [102, 111, 111]⟩ (by decide) (by decide)
  have hget : threeOptions.getOption [102, 111, 111] false = .error (.ambiguousOption [102, 111, 111]) := by
    decide
  rw [hget] at hexact
  cases hexact

end OptionSet

end Poco.Util
