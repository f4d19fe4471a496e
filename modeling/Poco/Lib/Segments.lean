import Mathlib.Data.List.Infix
import Mathlib.Data.List.Induction
import Mathlib.Tactic.Linarith

/-! # Segments of a text and stacks of segments

A text is cut at its separators into *segments*, each ended by a separator, and a rest without
separators.  `scan` is the loop of a parser that collects a segment letter by letter and hands
it on when the separator is met; `split` gives the segments as a list, and `scan` is a fold
over it.

The second half is about normalisation.  A segment is skipped, closes the last name, or is a
name of its own; `push` puts it on a stack, on which a closing segment takes the last name away.
Below the bottom, closing segments vanish (at a root) or pile up.  Which name ends at the bottom
of the stack is told by counting: `Cancels` says that nothing is left of the segments, `Climbs`
that nothing below them is touched. -/

namespace Poco.Lib

/-! ### The front of a text -/

section

variable {α : Type*} {p : α → Bool}

/-- The text does not begin with an element that `p` holds for. -/
def NoHead (p : α → Bool) (text : List α) : Prop := ∀ c ∈ text.head?, p c = false

theorem noHead_nil (p : α → Bool) : NoHead p [] := by
  intro c hc
  cases hc

theorem noHead_cons {c : α} {text : List α} (h : p c = false) : NoHead p (c :: text) := by
  intro c' hc
  obtain rfl : c = c' := by simpa using hc
  exact h

theorem NoHead.dropWhile {text : List α} (h : NoHead p text) : text.dropWhile p = text := by
  cases text with
  | nil => rfl
  | cons c text =>
      have hc : p c = false := h c (by simp)
      simp [hc]

theorem NoHead.takeWhile {text : List α} (h : NoHead p text) : text.takeWhile p = [] := by
  cases text with
  | nil => rfl
  | cons c text =>
      have hc : p c = false := h c (by simp)
      simp [hc]

theorem dropWhile_append_of_noHead {front text : List α} (hfront : ∀ c ∈ front, p c = true)
    (h : NoHead p text) : (front ++ text).dropWhile p = text := by
  rw [List.dropWhile_append_of_pos hfront, h.dropWhile]

theorem takeWhile_append_of_noHead {front text : List α} (hfront : ∀ c ∈ front, p c = true)
    (h : NoHead p text) : (front ++ text).takeWhile p = front := by
  rw [List.takeWhile_append_of_pos hfront, h.takeWhile, List.append_nil]

end

/-! ### Cutting a text -/

section

variable {α β : Type*} (sep : α → Bool)

/-- The segments that end in a separator (without it), and what is behind the last one. -/
def split : List α → List (List α) × List α
  | [] => ([], [])
  | c :: s =>
    if sep c then ([] :: (split s).1, (split s).2)
    else
      match split s with
      | ([], n) => ([], c :: n)
      | (d :: ds, n) => ((c :: d) :: ds, n)

/-- A parser's loop: `name` collects the letters of a segment, `f` takes the segment. -/
def scan (f : β → List α → β) : β → List α → List α → β × List α
  | b, name, [] => (b, name)
  | b, name, c :: s => if sep c then scan f (f b name) [] s else scan f b (name ++ [c]) s

/-- Every segment followed by the separator `c`. -/
def join (c : α) (ds : List (List α)) : List α := ds.flatMap (· ++ [c])

variable {sep}

theorem split_nil : split sep [] = ([], []) := rfl

theorem split_cons_sep {c : α} {s : List α} (h : sep c = true) :
    split sep (c :: s) = ([] :: (split sep s).1, (split sep s).2) := if_pos h

theorem split_cons_no_sep {c : α} {s : List α} (h : ¬sep c = true) :
    split sep (c :: s) =
      match split sep s with
      | ([], n) => ([], c :: n)
      | (d :: ds, n) => ((c :: d) :: ds, n) := if_neg h

theorem split_append_sep {w s : List α} {c : α} (hw : ∀ a ∈ w, sep a = false) (hc : sep c = true) :
    split sep (w ++ c :: s) = (w :: (split sep s).1, (split sep s).2) := by
  induction w with
  | nil => exact split_cons_sep hc
  | cons a w ih =>
      have ha : ¬sep a = true := by simp [hw a List.mem_cons_self]
      rw [List.cons_append, split_cons_no_sep ha, ih fun b hb => hw b (List.mem_cons_of_mem _ hb)]

theorem split_of_no_sep {n : List α} (hn : ∀ a ∈ n, sep a = false) : split sep n = ([], n) := by
  induction n with
  | nil => rfl
  | cons a n ih =>
      have ha : ¬sep a = true := by simp [hn a List.mem_cons_self]
      rw [split_cons_no_sep ha, ih fun b hb => hn b (List.mem_cons_of_mem _ hb)]

theorem join_split [DecidableEq α] (c : α) (s : List α) :
    join c (split (· == c) s).1 ++ (split (· == c) s).2 = s := by
  induction s with
  | nil => rfl
  | cons a s ih =>
      by_cases h : (a == c) = true
      · rw [@split_cons_sep _ (· == c) _ _ h]
        rw [beq_iff_eq] at h
        simpa [join, h] using ih
      · rw [@split_cons_no_sep _ (· == c) _ _ h]
        cases hs : split (· == c) s with
        | mk ds n =>
            rw [hs] at ih
            cases ds with
            | nil => simpa [join] using ih
            | cons d ds => simpa [join] using ih

theorem split_join {c : α} {ds : List (List α)} {n : List α} (hc : sep c = true)
    (hds : ∀ d ∈ ds, ∀ a ∈ d, sep a = false) (hn : ∀ a ∈ n, sep a = false) :
    split sep (join c ds ++ n) = (ds, n) := by
  induction ds with
  | nil => exact split_of_no_sep hn
  | cons d ds ih =>
      have ih := ih fun e he => hds e (List.mem_cons_of_mem _ he)
      rw [join, List.flatMap_cons, List.append_assoc, List.append_assoc, List.singleton_append,
        split_append_sep (hds d List.mem_cons_self) hc]
      rw [join] at ih
      rw [ih]

theorem split_no_sep (sep : α → Bool) (s : List α) :
    (∀ d ∈ (split sep s).1, ∀ a ∈ d, sep a = false) ∧ ∀ a ∈ (split sep s).2, sep a = false := by
  induction s with
  | nil => simp [split_nil]
  | cons c s ih =>
      by_cases hc : sep c = true
      · rw [split_cons_sep hc]
        simpa using ih
      · rw [split_cons_no_sep hc]
        rw [Bool.not_eq_true] at hc
        rcases hs : split sep s with ⟨_ | ⟨d, ds⟩, n⟩
        · rw [hs] at ih
          simpa [hc] using ih
        · rw [hs] at ih
          simpa [hc] using ih

theorem scan_eq_foldl (f : β → List α → β) (b : β) (name s : List α) :
    scan sep f b name s =
      match split sep s with
      | ([], n) => (b, name ++ n)
      | (d :: ds, n) => (ds.foldl f (f b (name ++ d)), n) := by
  induction s generalizing b name with
  | nil => simp [scan, split_nil]
  | cons c s ih =>
      by_cases hc : sep c = true
      · rw [scan, if_pos hc, ih, split_cons_sep hc]
        rcases split sep s with ⟨_ | ⟨d, ds⟩, n⟩ <;> simp
      · rw [scan, if_neg hc, ih, split_cons_no_sep hc]
        rcases split sep s with ⟨_ | ⟨d, ds⟩, n⟩ <;> simp

theorem scan_nil (f : β → List α → β) (b : β) (s : List α) :
    scan sep f b [] s = ((split sep s).1.foldl f b, (split sep s).2) := by
  rw [scan_eq_foldl]
  rcases split sep s with ⟨_ | ⟨d, ds⟩, n⟩ <;> simp

end

/-! ### All segments -/

section

variable {α : Type*} {sep : α → Bool}

/-- The segments of a text and what is behind the last separator. -/
def allSegments (sep : α → Bool) (s : List α) : List (List α) := (split sep s).1 ++ [(split sep s).2]

theorem allSegments_of_no_sep {n : List α} (hn : ∀ a ∈ n, sep a = false) : allSegments sep n = [n] := by
  rw [allSegments, split_of_no_sep hn]
  rfl

theorem allSegments_append_sep (s : List α) {c : α} (hc : sep c = true) (t : List α) :
    allSegments sep (s ++ c :: t) = allSegments sep s ++ allSegments sep t := by
  induction s with
  | nil => simp [allSegments, split_cons_sep hc, split_nil]
  | cons a s ih =>
      rw [List.cons_append]
      by_cases ha : sep a = true
      · simp only [allSegments, split_cons_sep ha] at ih ⊢
        simpa using ih
      · simp only [allSegments, split_cons_no_sep ha] at ih ⊢
        rcases hs : split sep s with ⟨_ | ⟨d, ds⟩, n⟩
        · rw [hs] at ih
          rcases hst : split sep (s ++ c :: t) with ⟨_ | ⟨d', ds'⟩, n'⟩
          · simp [hst] at ih
          · rw [hst] at ih
            simp only [List.nil_append, List.cons_append, List.cons.injEq] at ih ⊢
            exact ⟨⟨trivial, ih.1⟩, ih.2⟩
        · rw [hs] at ih
          rcases hst : split sep (s ++ c :: t) with ⟨_ | ⟨d', ds'⟩, n'⟩
          · simp [hst] at ih
          · rw [hst] at ih
            simp only [List.cons_append, List.cons.injEq] at ih ⊢
            exact ⟨⟨trivial, ih.1⟩, ih.2⟩

/-- A text without separators is the first segment, or there is a first separator. -/
theorem first_sep_cases (sep : α → Bool) (s : List α) :
    (∀ a ∈ s, sep a = false) ∨
      ∃ w c t, s = w ++ c :: t ∧ (∀ a ∈ w, sep a = false) ∧ sep c = true := by
  induction s with
  | nil => exact Or.inl (by simp)
  | cons a s ih =>
      by_cases ha : sep a = true
      · exact Or.inr ⟨[], a, s, rfl, by simp, ha⟩
      · rw [Bool.not_eq_true] at ha
        rcases ih with h | ⟨w, c, t, rfl, hw, hc⟩
        · exact Or.inl (by simpa [ha] using h)
        · exact Or.inr ⟨a :: w, c, t, rfl, by simpa [ha] using hw, hc⟩

/-- A segment is the whole text, or stands in front of it, behind it or within it. -/
theorem mem_allSegments {d : List α} (hd : ∀ a ∈ d, sep a = false) {s : List α} :
    d ∈ allSegments sep s ↔
      s = d ∨ (∃ c t, sep c = true ∧ s = d ++ c :: t) ∨ (∃ u c, sep c = true ∧ s = u ++ c :: d) ∨
        ∃ u c c' t, sep c = true ∧ sep c' = true ∧ s = u ++ c :: (d ++ c' :: t) := by
  constructor
  · intro h
    induction hlen : s.length using Nat.strong_induction_on generalizing s with
    | _ len ih =>
        rcases first_sep_cases sep s with hs | ⟨w, c, t, rfl, hw, hc⟩
        · rw [allSegments_of_no_sep hs] at h
          exact Or.inl (List.mem_singleton.mp h).symm
        · rw [allSegments_append_sep w hc, allSegments_of_no_sep hw, List.singleton_append, List.mem_cons] at h
          rcases h with rfl | h
          · exact Or.inr (Or.inl ⟨c, t, hc, rfl⟩)
          · have ht : t.length < len := by
              simp only [List.length_append, List.length_cons] at hlen
              omega
            rcases ih t.length ht h rfl with rfl | ⟨c', t', hc', rfl⟩ | ⟨u, c', hc', rfl⟩ |
              ⟨u, c', c'', t', hc', hc'', rfl⟩
            · exact Or.inr (Or.inr (Or.inl ⟨w, c, hc, rfl⟩))
            · exact Or.inr (Or.inr (Or.inr ⟨w, c, c', t', hc, hc', rfl⟩))
            · exact Or.inr (Or.inr (Or.inl ⟨w ++ c :: u, c', hc', by simp⟩))
            · exact Or.inr (Or.inr (Or.inr ⟨w ++ c :: u, c', c'', t', hc', hc'', by simp⟩))
  · rintro (rfl | ⟨c, t, hc, rfl⟩ | ⟨u, c, hc, rfl⟩ | ⟨u, c, c', t, hc, hc', rfl⟩)
    · simp [allSegments_of_no_sep hd]
    · simp [allSegments_append_sep _ hc, allSegments_of_no_sep hd]
    · simp [allSegments_append_sep _ hc, allSegments_of_no_sep hd]
    · simp [allSegments_append_sep _ hc, allSegments_append_sep _ hc', allSegments_of_no_sep hd]

/-- Cutting at more places keeps the segments that have none of the places. -/
theorem mem_allSegments_of_imp {sep' : α → Bool} (himp : ∀ a, sep' a = true → sep a = true) {d : List α}
    (hd : ∀ a ∈ d, sep a = false) {s : List α} (h : d ∈ allSegments sep' s) : d ∈ allSegments sep s := by
  have hd' : ∀ a ∈ d, sep' a = false := by
    intro a ha
    by_contra hsep
    rw [Bool.not_eq_false] at hsep
    have hfalse := hd a ha
    rw [himp a hsep] at hfalse
    cases hfalse
  rw [mem_allSegments hd'] at h
  rw [mem_allSegments hd]
  rcases h with rfl | ⟨c, t, hc, rfl⟩ | ⟨u, c, hc, rfl⟩ | ⟨u, c, c', t, hc, hc', rfl⟩
  · exact Or.inl rfl
  · exact Or.inr (Or.inl ⟨c, t, himp c hc, rfl⟩)
  · exact Or.inr (Or.inr (Or.inl ⟨u, c, himp c hc, rfl⟩))
  · exact Or.inr (Or.inr (Or.inr ⟨u, c, c', t, himp c hc, himp c' hc', rfl⟩))

end

/-! ### Stacks of segments -/

/-- What a segment does to the stack. -/
inductive Kind
  | skip
  | up
  | name
deriving DecidableEq, Repr

section

variable {α : Type*} (kind : α → Kind)

/-- A segment meets the stack; the last element is on top. -/
def push (root : Bool) (dirs : List α) (d : α) : List α :=
  match kind d with
  | .skip => dirs
  | .name => dirs ++ [d]
  | .up =>
    if ∃ e ∈ dirs.getLast?, kind e ≠ .up then dirs.dropLast
    else if root then dirs else dirs ++ [d]

/-- Closing segments stand only at the bottom, and not at all above a root. -/
def Normal (root : Bool) (dirs : List α) : Prop :=
  ∃ us ns, dirs = us ++ ns ∧ (∀ u ∈ us, kind u = .up) ∧ (∀ n ∈ ns, kind n = .name) ∧
    (root = true → us = [])

variable {kind} {root : Bool}

theorem mem_push {dirs : List α} {d e : α} (h : e ∈ push kind root dirs d) : e ∈ dirs ∨ e = d := by
  rw [push] at h
  split at h
  · exact Or.inl h
  · simpa using h
  · split at h
    · exact Or.inl (List.mem_of_mem_dropLast h)
    · split at h
      · exact Or.inl h
      · simpa using h

theorem mem_foldl_push {dirs w : List α} {e : α} (h : e ∈ w.foldl (push kind root) dirs) :
    e ∈ dirs ∨ e ∈ w := by
  induction w generalizing dirs with
  | nil => exact Or.inl h
  | cons d w ih =>
      rcases ih h with h | h
      · rcases mem_push h with h | rfl
        · exact Or.inl h
        · exact Or.inr List.mem_cons_self
      · exact Or.inr (List.mem_cons_of_mem _ h)

theorem mem_head?_push {dirs : List α} {d e : α} (h : e ∈ (push kind root dirs d).head?) :
    e ∈ dirs.head? ∨ dirs = [] ∧ e = d := by
  have happend (h : e ∈ (dirs ++ [d]).head?) : e ∈ dirs.head? ∨ dirs = [] ∧ e = d := by
    cases dirs with
    | nil => simp_all
    | cons a dirs => exact Or.inl h
  rw [push] at h
  split at h
  · exact Or.inl h
  · exact happend h
  · split at h
    · rcases dirs with _ | ⟨a, _ | ⟨b, dirs⟩⟩
      · simp at h
      · simp at h
      · exact Or.inl h
    · split at h
      · exact Or.inl h
      · exact happend h

theorem Normal.nil : Normal kind root [] := ⟨[], [], by simp⟩

theorem Normal.of_names {dirs : List α} (h : ∀ d ∈ dirs, kind d = .name) : Normal kind root dirs :=
  ⟨[], dirs, by simpa using h⟩

theorem Normal.not_skip {dirs : List α} (h : Normal kind root dirs) :
    ∀ d ∈ dirs, kind d ≠ .skip := by
  obtain ⟨us, ns, rfl, hus, hns, -⟩ := h
  intro d hd
  rcases List.mem_append.mp hd with hd | hd
  · simp [hus d hd]
  · simp [hns d hd]

theorem Normal.names {dirs : List α} (h : Normal kind true dirs) : ∀ d ∈ dirs, kind d = .name := by
  obtain ⟨us, ns, rfl, -, hns, hroot⟩ := h
  simpa [hroot rfl] using hns

theorem Normal.dropLast {dirs : List α} (h : Normal kind root dirs) :
    Normal kind root dirs.dropLast := by
  obtain ⟨us, ns, rfl, hus, hns, hroot⟩ := h
  rcases List.eq_nil_or_concat ns with rfl | ⟨ns, n, rfl⟩
  · refine ⟨us.dropLast, [], by simp, ?_, by simp, ?_⟩
    · intro u hu
      exact hus u (List.mem_of_mem_dropLast hu)
    · intro hr
      rw [hroot hr, List.dropLast_nil]
  · refine ⟨us, ns, ?_, hus, ?_, hroot⟩
    · rw [List.concat_eq_append, ← List.append_assoc, List.dropLast_concat]
    · intro m hm
      apply hns
      simp [hm]

theorem Normal.append_name {dirs : List α} {d : α} (h : Normal kind root dirs)
    (hd : kind d = .name) : Normal kind root (dirs ++ [d]) := by
  obtain ⟨us, ns, rfl, hus, hns, hroot⟩ := h
  refine ⟨us, ns ++ [d], by simp, hus, ?_, hroot⟩
  intro n hn
  rcases List.mem_append.mp hn with hn | hn
  · exact hns n hn
  · rw [List.mem_singleton.mp hn, hd]

theorem Normal.append_up {dirs : List α} {d : α} (h : ∀ e ∈ dirs, kind e = .up)
    (hd : kind d = .up) : Normal kind false (dirs ++ [d]) := by
  refine ⟨dirs ++ [d], [], by simp, ?_, by simp, by simp⟩
  intro u hu
  rcases List.mem_append.mp hu with hu | hu
  · exact h u hu
  · rw [List.mem_singleton.mp hu, hd]

/-- A stack whose top is a closing segment, or that is empty, has nothing else. -/
theorem Normal.all_up {dirs : List α} (h : Normal kind root dirs)
    (htop : ¬∃ e ∈ dirs.getLast?, kind e ≠ .up) : ∀ e ∈ dirs, kind e = .up := by
  obtain ⟨us, ns, rfl, hus, hns, -⟩ := h
  rcases List.eq_nil_or_concat ns with rfl | ⟨ns, n, rfl⟩
  · simpa using hus
  · exfalso
    apply htop
    refine ⟨n, by simp, ?_⟩
    simp [hns n (by simp)]

/-- A closing segment gets on a stack that has none only where there is nothing to close. -/
theorem push_up_mem {dirs : List α} {d : α} (h : Normal kind root dirs) (hd : d ∉ dirs)
    (hup : ∀ e, kind e = .up ↔ e = d) (hmem : d ∈ push kind root dirs d) :
    dirs = [] ∧ root = false := by
  simp only [push, (hup d).mpr rfl] at hmem
  split at hmem
  · exact absurd (List.mem_of_mem_dropLast hmem) hd
  · rename_i htop
    cases root with
    | true => exact absurd hmem hd
    | false =>
        have hall := h.all_up htop
        refine ⟨List.eq_nil_iff_forall_not_mem.mpr ?_, rfl⟩
        intro e he
        exact hd ((hup e).mp (hall e he) ▸ he)

theorem Normal.push {dirs : List α} (h : Normal kind root dirs) (d : α) :
    Normal kind root (push kind root dirs d) := by
  rw [Lib.push]
  split
  · exact h
  · rename_i hd
    exact h.append_name hd
  · rename_i hd
    split
    · exact h.dropLast
    · rename_i htop
      cases root with
      | true => exact h
      | false => exact Normal.append_up (h.all_up htop) hd

theorem Normal.foldl {dirs : List α} (h : Normal kind root dirs) (w : List α) :
    Normal kind root (w.foldl (Lib.push kind root) dirs) := by
  induction w generalizing dirs with
  | nil => exact h
  | cons d w ih => exact ih (h.push d)

/-- Two normal stacks put on each other without pushing. -/
theorem normal_append_iff {root' : Bool} {ds es : List α} (hds : Normal kind root ds)
    (hes : Normal kind root' es) :
    Normal kind root (ds ++ es) ↔
      (∀ e ∈ es, kind e ≠ .up) ∨ root = false ∧ ∀ d ∈ ds, kind d = .up := by
  constructor
  · rintro ⟨us, ns, heq, hus, hns, hroot⟩
    rcases List.append_eq_append_iff.mp heq with ⟨a, rfl, rfl⟩ | ⟨c, rfl, rfl⟩
    · cases a with
      | nil =>
          left
          intro e he
          simp [hns e he]
      | cons b a =>
          right
          constructor
          · cases root with
            | false => rfl
            | true => simp at hroot
          · intro d hd
            exact hus d (List.mem_append_left _ hd)
    · left
      intro e he
      simp [hns e (List.mem_append_right _ he)]
  · rintro (hno | ⟨rfl, hall⟩)
    · obtain ⟨us, ns, rfl, hus, hns, hroot⟩ := hds
      refine ⟨us, ns ++ es, by simp, hus, ?_, hroot⟩
      intro n hn
      rcases List.mem_append.mp hn with hn | hn
      · exact hns n hn
      · have hskip := hes.not_skip n hn
        have hup := hno n hn
        cases h : kind n <;> simp_all
    · obtain ⟨us, ns, rfl, hus, hns, -⟩ := hes
      refine ⟨ds ++ us, ns, by simp, ?_, hns, by simp⟩
      intro u hu
      rcases List.mem_append.mp hu with hu | hu
      · exact hall u hu
      · exact hus u hu

theorem Normal.push_top {dirs : List α} {d : α} (h : Normal kind root (dirs ++ [d])) :
    Lib.push kind root dirs d = dirs ++ [d] := by
  rw [Lib.push]
  split
  · rename_i hd
    exact absurd hd (h.not_skip d (by simp))
  · rfl
  · rename_i hd
    -- below a closing segment there are only closing segments, and no root
    obtain ⟨us, ns, heq, hus, hns, hroot⟩ := h
    rcases List.eq_nil_or_concat ns with rfl | ⟨ns, n, rfl⟩
    · rw [List.append_nil] at heq
      have hr : root = false := by
        cases root with
        | false => rfl
        | true =>
            rw [hroot rfl] at heq
            simp at heq
      have htop : ¬∃ e ∈ dirs.getLast?, kind e ≠ .up := by
        rintro ⟨e, he, hne⟩
        apply hne
        apply hus
        rw [← heq]
        exact List.mem_append_left _ (List.mem_of_getLast? he)
      rw [if_neg htop, hr]
      rfl
    · rw [List.concat_eq_append, ← List.append_assoc] at heq
      have hn : d = n := (List.append_inj' heq rfl).2 |> List.singleton_inj.mp
      rw [hn, hns n (by simp)] at hd
      cases hd

/-- Segments that close nothing leave what is on the stack. -/
theorem prefix_foldl_push {w : List α} (h : ∀ d ∈ w, kind d ≠ .up) (dirs : List α) :
    dirs <+: w.foldl (Lib.push kind root) dirs := by
  induction w generalizing dirs with
  | nil => exact List.prefix_rfl
  | cons d w ih =>
      refine List.IsPrefix.trans ?_ (ih (fun e he => h e (List.mem_cons_of_mem _ he)) _)
      have hd := h d List.mem_cons_self
      rw [Lib.push]
      split
      · exact List.prefix_rfl
      · exact List.prefix_append dirs [d]
      · rename_i hup
        exact absurd hup hd

theorem foldl_push_of_names {w : List α} (h : ∀ d ∈ w, kind d = .name) (dirs : List α) :
    w.foldl (Lib.push kind root) dirs = dirs ++ w := by
  induction w generalizing dirs with
  | nil => simp
  | cons d w ih =>
      have hd := h d List.mem_cons_self
      rw [List.foldl_cons, ih fun e he => h e (List.mem_cons_of_mem _ he)]
      simp [Lib.push, hd]

/-- What is normal stays as it is when it is pushed again. -/
theorem Normal.foldl_self {dirs : List α} (h : Normal kind root dirs) :
    dirs.foldl (Lib.push kind root) [] = dirs := by
  induction dirs using List.reverseRecOn with
  | nil => rfl
  | append_singleton dirs d ih =>
      have hinit : Normal kind root dirs := by simpa using h.dropLast
      rw [List.foldl_append, ih hinit, List.foldl_cons, List.foldl_nil, h.push_top]

end

/-! ### What is left at the bottom -/

section

variable {α : Type*} (kind : α → Kind)

/-- The number of names. -/
def names (w : List α) : ℕ := w.countP (kind · = .name)

/-- The number of closing segments. -/
def ups (w : List α) : ℕ := w.countP (kind · = .up)

/-- The segments close nothing below them: no beginning has more closing segments than names. -/
def Climbs (w : List α) : Prop := ∀ q ∈ w.inits, ups kind q ≤ names kind q

/-- Every name is closed again: no end has more names than closing segments. -/
def Falls (w : List α) : Prop := ∀ t ∈ w.tails, names kind t ≤ ups kind t

/-- Nothing is left of the segments.  At a root, closing segments without a name vanish. -/
def Cancels (root : Bool) (w : List α) : Prop :=
  Falls kind w ∧ (root = false → Climbs kind w)

/-- `x` is a name that nothing closes, and nothing is left of what stands before it. -/
def Bottom (root : Bool) (w : List α) (x : α) : Prop :=
  ∃ pre post, w = pre ++ x :: post ∧ Cancels kind root pre ∧ Climbs kind post

instance (w : List α) : Decidable (Climbs kind w) := inferInstanceAs (Decidable (∀ q ∈ w.inits, _))

instance (w : List α) : Decidable (Falls kind w) := inferInstanceAs (Decidable (∀ t ∈ w.tails, _))

instance (root : Bool) (w : List α) : Decidable (Cancels kind root w) :=
  inferInstanceAs (Decidable (_ ∧ _))

variable {kind} {root : Bool}

theorem climbs_concat {w : List α} {c : α} :
    Climbs kind (w ++ [c]) ↔
      Climbs kind w ∧ ups kind (w ++ [c]) ≤ names kind (w ++ [c]) := by
  simp only [Climbs, List.mem_inits, List.prefix_concat_iff]
  constructor
  · intro h
    exact ⟨fun q hq => h q (Or.inr hq), h _ (Or.inl rfl)⟩
  · rintro ⟨h, hw⟩ q (rfl | hq)
    · exact hw
    · exact h q hq

/-- On a stack of names a closing segment takes one away, if there is one. -/
theorem push_up_of_names {dirs : List α} {d : α} (h : ∀ e ∈ dirs, kind e = .name)
    (hd : kind d = .up) : push kind true dirs d = dirs.dropLast := by
  rw [push, hd]
  rcases List.eq_nil_or_concat dirs with rfl | ⟨dirs, e, rfl⟩
  · simp
  · have he : kind e ≠ .up := by simp [h e (by simp)]
    simp [he]

/-- Above a root the height of the stack is known from the ends of what has been pushed. -/
theorem length_foldl_le {w : List α} {m : ℕ} :
    (w.foldl (push kind true) []).length ≤ m ↔ ∀ t ∈ w.tails, names kind t ≤ ups kind t + m := by
  induction w using List.reverseRecOn generalizing m with
  | nil => simp [names]
  | append_singleton w c ih =>
      have hnames : ∀ d ∈ w.foldl (push kind true) [], kind d = .name := (Normal.nil.foldl w).names
      have hends : (∀ t ∈ (w ++ [c]).tails, names kind t ≤ ups kind t + m) ↔
          ∀ t ∈ w.tails, names kind (t ++ [c]) ≤ ups kind (t ++ [c]) + m := by
        simp only [List.mem_tails, List.suffix_concat_iff]
        constructor
        · intro h t ht
          exact h _ (Or.inr ⟨t, rfl, ht⟩)
        · rintro h t (rfl | ⟨t, rfl, ht⟩)
          · simp [names]
          · exact h t ht
      rw [hends, List.foldl_append, List.foldl_cons, List.foldl_nil]
      generalize w.foldl (push kind true) [] = dirs at *
      simp only [names, ups, List.countP_append] at ih ⊢
      cases hc : kind c with
      | skip => simpa [push, hc] using ih
      | name =>
          simp only [push, hc, List.length_append, List.length_singleton]
          constructor
          · intro h t ht
            have := (ih (m := m - 1)).mp (by omega) t ht
            simp [hc]
            omega
          · intro h
            have hnil := h [] (by simp)
            simp only [hc, List.countP_nil, List.countP_singleton] at hnil
            have := (ih (m := m - 1)).mpr fun t ht => by
              have := h t ht
              simp [hc] at this
              omega
            simp at hnil
            omega
      | up =>
          rw [push_up_of_names hnames hc, List.length_dropLast, Nat.sub_le_iff_le_add, ih]
          simp [hc, Nat.add_assoc, Nat.add_comm 1]

theorem foldl_root_eq_nil {w : List α} : w.foldl (push kind true) [] = [] ↔ Falls kind w := by
  rw [← List.length_eq_zero_iff, ← Nat.le_zero, length_foldl_le]
  rfl

/-- Segments that climb leave what is below them, and add the same above whatever is below. -/
theorem foldl_of_climbs (root : Bool) {w : List α} (h : Climbs kind w) (dirs : List α) :
    w.foldl (push kind root) dirs = dirs ++ w.foldl (push kind true) [] ∧
      (w.foldl (push kind true) []).length = names kind w - ups kind w := by
  induction w using List.reverseRecOn with
  | nil => simp [names]
  | append_singleton w c ih =>
      obtain ⟨hw, hcount⟩ := climbs_concat.mp h
      obtain ⟨hframe, hlen⟩ := ih hw
      have hle : ups kind w ≤ names kind w := hw w (by simp)
      have hnames : ∀ d ∈ w.foldl (push kind true) [], kind d = .name := (Normal.nil.foldl w).names
      rw [List.foldl_append, List.foldl_append, hframe]
      simp only [List.foldl_cons, List.foldl_nil]
      generalize w.foldl (push kind true) [] = st at *
      simp only [names, ups, List.countP_append, List.countP_singleton] at hcount hlen hle ⊢
      cases hc : kind c with
      | skip => simpa [push, hc] using hlen
      | name =>
          simp only [push, hc, List.append_assoc, List.length_append, hlen]
          simp
          omega
      | up =>
          simp only [hc] at hcount
          simp at hcount
          obtain ⟨st, n, rfl⟩ : ∃ st' n, st = st' ++ [n] := by
            rcases List.eq_nil_or_concat st with rfl | ⟨st', n, rfl⟩
            · simp at hlen
              omega
            · exact ⟨st', n, List.concat_eq_append⟩
          have hn : kind n ≠ .up := by simp [hnames n (by simp)]
          simp at hlen
          simp [push, hc, hn, ← List.append_assoc]
          omega

theorem length_foldl_of_climbs {w : List α} (h : Climbs kind w) :
    (w.foldl (push kind true) []).length = names kind w - ups kind w :=
  (foldl_of_climbs true h []).2

/-- A closing segment at the bottom is never taken away. -/
theorem foldl_up_cons (root : Bool) {u : α} (hu : kind u = .up) (dirs w : List α) :
    ∃ rest, w.foldl (push kind root) (u :: dirs) = u :: rest := by
  induction w generalizing dirs with
  | nil => exact ⟨dirs, rfl⟩
  | cons c w ih =>
      rw [List.foldl_cons]
      obtain ⟨rest, hrest⟩ : ∃ rest, push kind root (u :: dirs) c = u :: rest := by
        rw [push]
        split
        · exact ⟨dirs, rfl⟩
        · exact ⟨dirs ++ [c], rfl⟩
        · split
          · rename_i htop
            cases dirs with
            | nil => simp [hu] at htop
            | cons d dirs => exact ⟨(d :: dirs).dropLast, rfl⟩
          · split
            · exact ⟨dirs, rfl⟩
            · exact ⟨dirs ++ [c], rfl⟩
      rw [hrest]
      exact ih rest

theorem climbs_nil : Climbs kind ([] : List α) := by simp [Climbs, ups]

/-- Without a root, what does not climb leaves a closing segment at the bottom. -/
theorem foldl_of_not_climbs {w : List α} (h : ¬Climbs kind w) :
    ∃ u rest, kind u = .up ∧ w.foldl (push kind false) [] = u :: rest := by
  induction w using List.reverseRecOn with
  | nil => exact absurd climbs_nil h
  | append_singleton w c ih =>
      rw [List.foldl_append]
      by_cases hw : Climbs kind w
      · have hcount : ¬ups kind (w ++ [c]) ≤ names kind (w ++ [c]) := fun hcount =>
          h (climbs_concat.mpr ⟨hw, hcount⟩)
        have hle : ups kind w ≤ names kind w := hw w (by simp)
        have hlen := length_foldl_of_climbs hw
        rw [(foldl_of_climbs false hw []).1, List.nil_append]
        simp only [names, ups, List.countP_append] at hcount hle hlen
        cases hc : kind c with
        | skip =>
            simp [hc] at hcount
            omega
        | name =>
            simp [hc] at hcount
            omega
        | up =>
            -- as many names as closing segments so far: the stack is empty
            simp [hc] at hcount
            have hnil : w.foldl (push kind true) [] = [] := by
              rw [← List.length_eq_zero_iff]
              omega
            rw [hnil]
            exact ⟨c, [], hc, by simp [push, hc]⟩
      · obtain ⟨u, rest, hu, heq⟩ := ih hw
        rw [heq]
        obtain ⟨rest', h'⟩ := foldl_up_cons false hu rest [c]
        exact ⟨u, rest', hu, h'⟩

theorem foldl_eq_nil {w : List α} : w.foldl (push kind root) [] = [] ↔ Cancels kind root w := by
  cases root with
  | true => simpa [Cancels] using foldl_root_eq_nil
  | false =>
      by_cases hw : Climbs kind w
      · rw [(foldl_of_climbs false hw []).1, List.nil_append, foldl_root_eq_nil]
        simp [Cancels, hw]
      · obtain ⟨u, rest, -, heq⟩ := foldl_of_not_climbs hw
        simp [Cancels, heq, hw]

theorem push_cons (x : α) (st : List α) (c : α) :
    (∃ st', push kind root (x :: st) c = x :: st') ∨
      st = [] ∧ kind c = .up ∧ push kind root (x :: st) c = [] := by
  rw [push]
  split
  · exact Or.inl ⟨st, rfl⟩
  · exact Or.inl ⟨st ++ [c], rfl⟩
  · rename_i hc
    split
    · cases st with
      | nil => exact Or.inr ⟨rfl, hc, rfl⟩
      | cons d st => exact Or.inl ⟨(d :: st).dropLast, rfl⟩
    · split
      · exact Or.inl ⟨st, rfl⟩
      · exact Or.inl ⟨st ++ [c], rfl⟩

theorem foldl_of_bottom {pre post : List α} {x : α} (hx : kind x = .name)
    (hpre : Cancels kind root pre) (hpost : Climbs kind post) :
    (pre ++ x :: post).foldl (push kind root) [] = x :: post.foldl (push kind true) [] := by
  have hpush : push kind root [] x = [x] := by simp [push, hx]
  rw [List.foldl_append, foldl_eq_nil.mpr hpre, List.foldl_cons, hpush,
    (foldl_of_climbs root hpost [x]).1, List.singleton_append]

theorem bottom_of_foldl {w : List α} {x : α} {rest : List α} (hx : kind x = .name)
    (h : w.foldl (push kind root) [] = x :: rest) : Bottom kind root w x := by
  induction w using List.reverseRecOn generalizing rest with
  | nil => cases h
  | append_singleton w c ih =>
      rw [List.foldl_append, List.foldl_cons, List.foldl_nil] at h
      rcases hst : w.foldl (push kind root) [] with _ | ⟨y, st⟩
      · have hw := foldl_eq_nil.mp hst
        rw [hst, push] at h
        split at h
        · cases h
        · obtain ⟨rfl, -⟩ := List.cons.inj h
          exact ⟨w, [], rfl, hw, climbs_nil⟩
        · rename_i hc
          cases root with
          | true => simp at h
          | false =>
              obtain ⟨rfl, -⟩ : c = x ∧ [] = rest := by simpa using h
              rw [hc] at hx
              cases hx
      · rw [hst] at h
        rcases push_cons y st c with ⟨st', h'⟩ | ⟨-, -, h'⟩
        · rw [h'] at h
          obtain ⟨rfl, -⟩ := List.cons.inj h
          obtain ⟨pre, post, rfl, hpre, hpost⟩ := ih hst
          refine ⟨pre, post ++ [c], by simp, hpre, climbs_concat.mpr ⟨hpost, ?_⟩⟩
          -- the names above `y` are those that `post` has left over
          rw [foldl_of_bottom hx hpre hpost] at hst
          obtain ⟨-, rfl⟩ := List.cons.inj hst
          have hle : ups kind post ≤ names kind post := hpost post (by simp)
          have hlen := length_foldl_of_climbs hpost
          simp only [names, ups, List.countP_append] at hle hlen ⊢
          cases hc : kind c with
          | skip => simpa [hc] using hle
          | name =>
              simp [hc]
              omega
          | up =>
              have hne : post.foldl (push kind true) [] ≠ [] := by
                intro hnil
                simp [hnil, push, hc, hx] at h'
              have := List.length_pos_iff.mpr hne
              simp [hc]
              omega
        · rw [h'] at h
          cases h

theorem foldl_eq_cons {w : List α} {x : α} (hx : kind x = .name) :
    (∃ rest, w.foldl (push kind root) [] = x :: rest) ↔ Bottom kind root w x := by
  constructor
  · rintro ⟨rest, h⟩
    exact bottom_of_foldl hx h
  · rintro ⟨pre, post, rfl, hpre, hpost⟩
    exact ⟨_, foldl_of_bottom hx hpre hpost⟩

end

end Poco.Lib
