import Poco.Lib.Traversal
import Mathlib.Data.List.Perm.Subperm
import Mathlib.Data.List.Range
import Mathlib.Tactic.NormNum

/-! # `RecordSet`

A record set holds the columns of a query and shows the rows that its filter allows.  The cursor moves over them in
both directions, iterators go from `begin()` to `end()`, `rowCount` counts them and `row` makes a row of
one.  `traversed_iff` says for which record sets they all agree with the filter.

`RowFilter::isAllowed`, which compares the values of a row, is taken as a total predicate on rows. -/

namespace Poco.Data

open Poco.Lib

/-- The exceptions of a record set. -/
inductive RecordSetExn
  /-- `RangeException`. -/
  | rangeException (message : String)
  /-- `InvalidAccessException`. -/
  | invalidAccessException (message : String)
deriving DecidableEq, Repr

/-- What a record set asks its `RowFilter`. -/
structure Filter where
  isEmpty : Bool
  isAllowed : ℕ → Bool

/-- A row: its names and values. -/
abbrev Row (β : Type) := List (String × β)

/-- The data members of a record set, and what it asks its statement: the columns with their names, the number of
their rows, and how many of them had been extracted when the iterators were made.  `invalidRow` is the message of
`Column::value` for a row that is not there: `"Invalid row number."` where the column is a list, else what the
`at` of its container says. -/
structure RecordSet (β : Type) where
  columns : List (String × List β)
  invalidRow : String
  subTotalRowCount : ℕ
  rowsExtracted : ℕ
  _currentRow : ℕ
  _pFilter : Option Filter
  _rowMap : List (ℕ × Row β)
  length_eq : ∀ c ∈ columns, c.2.length = subTotalRowCount
  columns_nil : columns = [] → subTotalRowCount = 0
  extracted_le : rowsExtracted ≤ subTotalRowCount
  size_lt : subTotalRowCount < 2 ^ 64

namespace RecordSet

variable {β : Type}

/-- `isFiltered()`. -/
def isFiltered (rs : RecordSet β) : Bool :=
  match rs._pFilter with
  | some f => !f.isEmpty
  | none => false

/-- `isAllowed(row)`. -/
def isAllowed (rs : RecordSet β) (row : ℕ) : Bool :=
  match rs._pFilter with
  | some f => if rs.isFiltered then f.isAllowed row else true
  | none => true

/-- `count - 1`, of type `std::size_t`. -/
def pred64 (count : ℕ) : ℕ := (count + 2 ^ 64 - 1) % 2 ^ 64

/-- `subTotalRowCount() - 1`. -/
def last (rs : RecordSet β) : ℕ := pred64 rs.subTotalRowCount

/-! ### Rows -/

/-- `value(col, row)`. -/
def value (rs : RecordSet β) (column : String × List β) (row : ℕ) : Except RecordSetExn β :=
  if rs.isFiltered && !rs.isAllowed row then .error (.invalidAccessException "Row not allowed")
  else
    match column.2[row]? with
    | some v => .ok v
    | none => .error (.rangeException rs.invalidRow)

/-- `rowCount()`. -/
def rowCount (rs : RecordSet β) : ℕ :=
  if rs.columns = [] then 0
  else if rs.isFiltered then ((List.range rs.subTotalRowCount).filter rs.isAllowed).length
  else rs.subTotalRowCount

/-- `row(pos)`. -/
def row (rs : RecordSet β) (pos : ℕ) : Except RecordSetExn (Row β × RecordSet β) :=
  if rs.rowCount = 0 ∨ pos > rs.rowCount - 1 then .error (.rangeException "Invalid recordset row requested.")
  else
    match rs._rowMap.lookup pos with
    | some r => .ok (r, rs)
    | none => do
        let r ← rs.columns.mapM fun column => do return (column.1, ← rs.value column pos)
        return (r, { rs with _rowMap := (pos, r) :: rs._rowMap })

/-! ### The cursor -/

/-- The loop of `moveFirst`. -/
def moveFirstLoop (allowed : ℕ → Bool) (last currentRow : ℕ) : Option ℕ :=
  if allowed currentRow then some currentRow
  else if currentRow ≥ last then none
  else moveFirstLoop allowed last (currentRow + 1)
termination_by last - currentRow

/-- The loop of `moveNext`. -/
def moveNextLoop (allowed : ℕ → Bool) (last currentRow : ℕ) : Option ℕ :=
  if currentRow ≥ last then none
  else if allowed (currentRow + 1) then some (currentRow + 1)
  else moveNextLoop allowed last (currentRow + 1)
termination_by last - currentRow

/-- The loop of `movePrevious`. -/
def movePreviousLoop (allowed : ℕ → Bool) : ℕ → Option ℕ
  | 0 => none
  | currentRow + 1 => if allowed currentRow then some currentRow else movePreviousLoop allowed currentRow

/-- The loop of `moveLast`. -/
def moveLastLoop (allowed : ℕ → Bool) : ℕ → Option ℕ
  | 0 => if allowed 0 then some 0 else none
  | currentRow + 1 => if allowed (currentRow + 1) then some (currentRow + 1) else moveLastLoop allowed currentRow

/-- The cursor is set, or stays where it is. -/
def moveTo (rs : RecordSet β) : Option ℕ → RecordSet β × Bool
  | some currentRow => ({ rs with _currentRow := currentRow }, true)
  | none => (rs, false)

/-- `moveFirst()`. -/
def moveFirst (rs : RecordSet β) : RecordSet β × Bool :=
  if rs.subTotalRowCount > 0 then
    rs.moveTo (if rs.isFiltered then moveFirstLoop rs.isAllowed rs.last 0 else some 0)
  else (rs, false)

/-- `moveNext()`. -/
def moveNext (rs : RecordSet β) : RecordSet β × Bool :=
  rs.moveTo (moveNextLoop (fun row => !(rs.isFiltered && !rs.isAllowed row)) rs.last rs._currentRow)

/-- `movePrevious()`. -/
def movePrevious (rs : RecordSet β) : RecordSet β × Bool :=
  rs.moveTo (movePreviousLoop (fun row => !(rs.isFiltered && !rs.isAllowed row)) rs._currentRow)

/-- `moveLast()`. -/
def moveLast (rs : RecordSet β) : RecordSet β × Bool :=
  if rs.subTotalRowCount > 0 then
    rs.moveTo (if rs.isFiltered then moveLastLoop rs.isAllowed rs.last else some rs.last)
  else (rs, false)

/-! ### Iterators -/

/-- The position of `begin()`; `none` is `POSITION_END`, the position of `end()`. -/
def begin (rs : RecordSet β) : Option ℕ := if rs.rowsExtracted = 0 then none else some 0

mutual

/-- `increment` from a position that is not the end; the result is behind this position. -/
def increment (filtered : Bool) (allowed : ℕ → Bool) (last position : ℕ) :
    {q : Option ℕ // ∀ x ∈ q, position < x ∧ x ≤ last} :=
  if h : position < last then
    if filtered then
      ⟨(skip filtered allowed last (position + 1)).val, fun x hx =>
        ⟨((skip filtered allowed last (position + 1)).property x hx).1, by
          rcases ((skip filtered allowed last (position + 1)).property x hx).2 with hle | rfl
          · exact hle
          · exact h⟩⟩
    else ⟨some (position + 1), fun x hx => by
      obtain rfl := Option.some.inj hx
      exact ⟨Nat.lt_succ_self _, h⟩⟩
  else ⟨none, by simp⟩
termination_by (last - position, 0)

/-- The loop of `increment` over the positions that are not allowed. -/
def skip (filtered : Bool) (allowed : ℕ → Bool) (last position : ℕ) :
    {q : Option ℕ // ∀ x ∈ q, position ≤ x ∧ (x ≤ last ∨ x = position)} :=
  if allowed position then ⟨some position, by simp⟩
  else
    match increment filtered allowed last position with
    | ⟨none, _⟩ => ⟨none, by simp⟩
    | ⟨some p, h⟩ =>
        have hp := h p rfl
        ⟨(skip filtered allowed last p).val, fun x hx => by
          obtain ⟨hle, hlast | rfl⟩ := (skip filtered allowed last p).property x hx
          · exact ⟨by omega, Or.inl hlast⟩
          · exact ⟨by omega, Or.inl hp.2⟩⟩
termination_by (last - position, 1)

end

/-- `++` of an iterator that is not at the end. -/
def next (rs : RecordSet β) (position : ℕ) : Option ℕ :=
  (increment rs._pFilter.isSome rs.isAllowed rs.last position).val

/-! ### The rows behind and before a row -/

section Rows

variable {A : ℕ → Bool} {last p : ℕ}

/-- The allowed rows behind a row. -/
def above (A : ℕ → Bool) (last p : ℕ) : List ℕ := (List.range' (p + 1) (last - p)).filter A

/-- The allowed rows before a row, the nearest first. -/
def below (A : ℕ → Bool) (p : ℕ) : List ℕ := ((List.range p).filter A).reverse

theorem above_of_le (h : last ≤ p) : above A last p = [] := by
  rw [above, Nat.sub_eq_zero_of_le h]
  rfl

theorem above_of_lt (h : p < last) :
    above A last p = if A (p + 1) then (p + 1) :: above A last (p + 1) else above A last (p + 1) := by
  have hcount : last - p = (last - (p + 1)) + 1 := by omega
  rw [above, hcount, List.range'_succ, List.filter_cons]
  rfl

theorem below_succ (A : ℕ → Bool) (p : ℕ) : below A (p + 1) = if A p then p :: below A p else below A p := by
  rw [below, List.range_succ, List.filter_append, List.reverse_append]
  cases hA : A p with
  | true => simp [hA, below]
  | false => simp [hA, below]

theorem moveNextLoop_spec (A : ℕ → Bool) (last p : ℕ) :
    (moveNextLoop A last p = none ∧ above A last p = []) ∨
      ∃ q, moveNextLoop A last p = some q ∧ above A last p = q :: above A last q := by
  fun_induction moveNextLoop A last p with
  | case1 p hge => exact Or.inl ⟨rfl, above_of_le hge⟩
  | case2 p hlt hA =>
      refine Or.inr ⟨p + 1, rfl, ?_⟩
      rw [above_of_lt (Nat.not_le.mp hlt), if_pos hA]
  | case3 p hlt hA ih =>
      rw [above_of_lt (Nat.not_le.mp hlt), if_neg hA]
      exact ih

theorem moveFirstLoop_eq (A : ℕ → Bool) (last p : ℕ) :
    moveFirstLoop A last p = if A p then some p else moveNextLoop A last p := by
  fun_induction moveFirstLoop A last p with
  | case1 p hA => rw [if_pos hA]
  | case2 p hA hge => rw [if_neg hA, moveNextLoop, if_pos hge]
  | case3 p hA hlt ih =>
      rw [if_neg hA, moveNextLoop, if_neg hlt]
      exact ih

theorem movePreviousLoop_spec (A : ℕ → Bool) (p : ℕ) :
    (movePreviousLoop A p = none ∧ below A p = []) ∨
      ∃ q, movePreviousLoop A p = some q ∧ below A p = q :: below A q := by
  induction p with
  | zero => exact Or.inl ⟨rfl, rfl⟩
  | succ p ih =>
      rw [movePreviousLoop, below_succ]
      split_ifs with hA
      · exact Or.inr ⟨p, rfl, rfl⟩
      · exact ih

theorem moveLastLoop_eq (A : ℕ → Bool) (p : ℕ) : moveLastLoop A p = movePreviousLoop A (p + 1) := by
  induction p with
  | zero =>
      rw [moveLastLoop, movePreviousLoop]
      rfl
  | succ p ih => rw [moveLastLoop, movePreviousLoop, ih]

/-- The iterator goes to the next row that the cursor goes to. -/
theorem increment_eq {filtered : Bool} (h : filtered = false → ∀ row, A row = true) (last p : ℕ) :
    (increment filtered A last p).val = moveNextLoop A last p := by
  induction hn : last - p using Nat.strong_induction_on generalizing p with
  | _ n ih =>
      rw [increment, moveNextLoop]
      by_cases hlt : p < last
      · rw [dif_pos hlt, if_neg (Nat.not_le.mpr hlt)]
        cases filtered with
        | false => rw [if_neg Bool.false_ne_true, h rfl, if_pos rfl]
        | true =>
            have hnext := ih (last - (p + 1)) (by omega) (p + 1) rfl
            rw [if_pos rfl]
            show (skip true A last (p + 1)).val = _
            rw [skip]
            split_ifs with hA
            · rfl
            · -- one step further the increment ends at a row that is allowed
              split
              · next hnone heq =>
                  rw [heq] at hnext
                  exact hnext
              · next q hq heq =>
                  rw [heq] at hnext
                  rcases moveNextLoop_spec A last (p + 1) with ⟨hnone, -⟩ | ⟨q', hsome, habove⟩
                  · rw [hnone] at hnext
                    cases hnext
                  · rw [hsome] at hnext
                    obtain rfl := Option.some.inj hnext
                    have hallowed : A q = true := by
                      have hmem : q ∈ above A last (p + 1) := by
                        rw [habove]
                        exact List.mem_cons_self
                      exact (List.mem_filter.mp hmem).2
                    rw [hsome]
                    show (skip true A last q).val = some q
                    rw [skip, if_pos hallowed]
      · rw [dif_neg hlt, if_pos (Nat.not_lt.mp hlt)]

theorem filter_range {n : ℕ} (hn : 0 < n) :
    (List.range n).filter A = if A 0 then 0 :: above A (n - 1) 0 else above A (n - 1) 0 := by
  obtain ⟨m, rfl⟩ := Nat.exists_eq_add_of_lt hn
  rw [Nat.zero_add, List.range_eq_range', List.range'_succ, List.filter_cons]
  rfl

end Rows

/-! ### What is visited -/

section Visits

variable {rs : RecordSet β}

theorem isAllowed_of_not_filtered (h : rs.isFiltered = false) (row : ℕ) : rs.isAllowed row = true := by
  unfold isAllowed
  rw [h]
  cases rs._pFilter with
  | none => rfl
  | some f => rfl

theorem shown_eq (rs : RecordSet β) : (fun row => !(rs.isFiltered && !rs.isAllowed row)) = rs.isAllowed := by
  funext row
  cases hf : rs.isFiltered with
  | false => rw [isAllowed_of_not_filtered hf, Bool.false_and, Bool.not_false]
  | true => rw [Bool.true_and, Bool.not_not]

theorem last_eq (h : 0 < rs.subTotalRowCount) : rs.last = rs.subTotalRowCount - 1 := by
  have hlt := rs.size_lt
  unfold last pred64
  omega

/-- A move to another place. -/
def moved (move : RecordSet β → RecordSet β × Bool) (rs : RecordSet β) : Option (RecordSet β) :=
  if (move rs).2 then some (move rs).1 else none

/-- The rows at which the cursor stands, from its first move until a move fails. -/
def Visits (start next : RecordSet β → RecordSet β × Bool) (rs : RecordSet β) (l : List ℕ) : Prop :=
  ∃ states, Traverses (moved next) (moved start rs) states ∧ states.map _currentRow = l

theorem Visits.unique {start next : RecordSet β → RecordSet β × Bool} {l l' : List ℕ} (h : Visits start next rs l)
    (h' : Visits start next rs l') : l = l' := by
  obtain ⟨states, htraverses, rfl⟩ := h
  obtain ⟨states', htraverses', rfl⟩ := h'
  rw [htraverses.unique htraverses']

/-- The cursor at a row. -/
def atRow (rs : RecordSet β) (row : ℕ) : RecordSet β := { rs with _currentRow := row }

theorem atRow_isAllowed (rs : RecordSet β) (row : ℕ) : (rs.atRow row).isAllowed = rs.isAllowed := rfl

theorem atRow_last (rs : RecordSet β) (row : ℕ) : (rs.atRow row).last = rs.last := rfl

theorem atRow_atRow (rs : RecordSet β) (row : ℕ) : (rs.atRow row).atRow = rs.atRow := rfl

theorem atRow_currentRow (rs : RecordSet β) (row : ℕ) : (rs.atRow row)._currentRow = row := rfl

theorem moved_moveTo {move : RecordSet β → RecordSet β × Bool} {q : Option ℕ} (h : move rs = rs.moveTo q) :
    moved move rs = q.map rs.atRow := by
  unfold moved
  rw [h]
  cases q with
  | none => rfl
  | some q => rfl

theorem traverses_above (A : ℕ → Bool) (last p : ℕ) :
    Traverses (moveNextLoop A last) (moveNextLoop A last p) (above A last p) :=
  .of_rest (moveNextLoop_spec A last) p

theorem traverses_below (A : ℕ → Bool) (p : ℕ) :
    Traverses (movePreviousLoop A) (movePreviousLoop A p) (below A p) :=
  .of_rest (movePreviousLoop_spec A) p

theorem moved_moveNext (rs : RecordSet β) (p : ℕ) :
    moved moveNext (rs.atRow p) = (moveNextLoop rs.isAllowed rs.last p).map rs.atRow := by
  have hmove : moveNext (rs.atRow p) = (rs.atRow p).moveTo (moveNextLoop rs.isAllowed rs.last p) := by
    rw [moveNext, shown_eq, atRow_isAllowed, atRow_last, atRow_currentRow]
  rw [moved_moveTo hmove, atRow_atRow]

theorem moved_movePrevious (rs : RecordSet β) (p : ℕ) :
    moved movePrevious (rs.atRow p) = (movePreviousLoop rs.isAllowed p).map rs.atRow := by
  have hmove : movePrevious (rs.atRow p) = (rs.atRow p).moveTo (movePreviousLoop rs.isAllowed p) := by
    rw [movePrevious, shown_eq, atRow_isAllowed, atRow_currentRow]
  rw [moved_moveTo hmove, atRow_atRow]

theorem map_currentRow (rs : RecordSet β) (l : List ℕ) : (l.map rs.atRow).map _currentRow = l := by
  rw [List.map_map]
  exact List.map_id l

/-- The rows that the record set shows. -/
def shownRows (rs : RecordSet β) : List ℕ := (List.range rs.subTotalRowCount).filter rs.isAllowed

theorem visits_forward (rs : RecordSet β) : Visits moveFirst moveNext rs rs.shownRows := by
  suffices h : ∃ start, moveFirst rs = rs.moveTo start ∧
      Traverses (moveNextLoop rs.isAllowed rs.last) start rs.shownRows by
    obtain ⟨start, hmove, htraverses⟩ := h
    refine ⟨rs.shownRows.map rs.atRow, ?_, rs.map_currentRow _⟩
    rw [moved_moveTo hmove]
    exact htraverses.map rs.moved_moveNext
  rcases Nat.eq_zero_or_pos rs.subTotalRowCount with hzero | hpos
  · refine ⟨none, ?_, ?_⟩
    · rw [moveFirst, if_neg (by omega)]
      rfl
    · rw [shownRows, hzero]
      exact .stop
  · refine ⟨moveFirstLoop rs.isAllowed rs.last 0, ?_, ?_⟩
    · rw [moveFirst, if_pos hpos]
      cases hf : rs.isFiltered with
      | true => rw [if_pos rfl]
      | false => rw [moveFirstLoop_eq, if_pos (isAllowed_of_not_filtered hf 0), if_neg Bool.false_ne_true]
    · rw [moveFirstLoop_eq, shownRows, filter_range hpos, ← last_eq hpos]
      split_ifs with hA
      · exact .visit (traverses_above _ _ 0)
      · exact traverses_above _ _ 0

theorem visits_backward (rs : RecordSet β) : Visits moveLast movePrevious rs rs.shownRows.reverse := by
  suffices h : moveLast rs = rs.moveTo (movePreviousLoop rs.isAllowed rs.subTotalRowCount) by
    have htraverses := traverses_below rs.isAllowed rs.subTotalRowCount
    refine ⟨rs.shownRows.reverse.map rs.atRow, ?_, rs.map_currentRow _⟩
    rw [moved_moveTo h]
    exact htraverses.map rs.moved_movePrevious
  rcases Nat.eq_zero_or_pos rs.subTotalRowCount with hzero | hpos
  · rw [moveLast, if_neg (by omega), hzero]
    rfl
  · have hcount : rs.last + 1 = rs.subTotalRowCount := by
      rw [last_eq hpos]
      omega
    rw [moveLast, if_pos hpos, ← hcount]
    cases hf : rs.isFiltered with
    | true => rw [if_pos rfl, moveLastLoop_eq]
    | false => rw [movePreviousLoop, if_pos (isAllowed_of_not_filtered hf _), if_neg Bool.false_ne_true]

theorem next_eq (rs : RecordSet β) (p : ℕ) : rs.next p = moveNextLoop rs.isAllowed rs.last p := by
  refine increment_eq (fun hnone row => ?_) rs.last p
  unfold isAllowed
  rw [Option.isSome_eq_false_iff, Option.isNone_iff_eq_none] at hnone
  rw [hnone]

/-- Iterators begin at the first row, whether it is allowed or not. -/
theorem traverses_next (rs : RecordSet β) :
    Traverses rs.next rs.begin (if rs.rowsExtracted = 0 then [] else 0 :: above rs.isAllowed rs.last 0) := by
  unfold begin
  split_ifs
  · exact .stop
  · refine .visit (Traverses.of_rest (fun p => ?_) 0)
    rw [next_eq]
    exact moveNextLoop_spec rs.isAllowed rs.last p

theorem rowCount_eq (rs : RecordSet β) : rs.rowCount = rs.shownRows.length := by
  unfold rowCount shownRows
  split_ifs with hcolumns hf
  · rw [rs.columns_nil hcolumns]
    rfl
  · rfl
  · have hall : (List.range rs.subTotalRowCount).filter rs.isAllowed = List.range rs.subTotalRowCount :=
      List.filter_eq_self.mpr fun row _ => isAllowed_of_not_filtered (Bool.eq_false_of_not_eq_true hf) row
    rw [hall, List.length_range]

/-- A row that is shown can be made, if its position is below their number. -/
theorem row_ok {pos : ℕ} (hshown : pos ∈ rs.shownRows) (hlt : pos < rs.rowCount) :
    ∃ r rs', rs.row pos = .ok (r, rs') := by
  have hrange : ¬(rs.rowCount = 0 ∨ pos > rs.rowCount - 1) := by omega
  rw [shownRows, List.mem_filter, List.mem_range] at hshown
  have hvalue : ∀ column ∈ rs.columns, ∃ v, rs.value column pos = .ok v := by
    intro column hcolumn
    have hpos : pos < column.2.length := by
      rw [rs.length_eq column hcolumn]
      exact hshown.1
    refine ⟨column.2[pos], ?_⟩
    rw [value, hshown.2, Bool.not_true, Bool.and_false, if_neg Bool.false_ne_true, List.getElem?_eq_getElem hpos]
  have hmap : ∀ columns : List (String × List β), (∀ column ∈ columns, ∃ v, rs.value column pos = .ok v) →
      ∃ r : Row β, (columns.mapM fun column => do return (column.1, ← rs.value column pos)) = .ok r := by
    intro columns
    induction columns with
    | nil => exact fun _ => ⟨[], rfl⟩
    | cons column columns ih =>
        intro h
        rw [List.forall_mem_cons] at h
        obtain ⟨v, hv⟩ := h.1
        obtain ⟨r, hr⟩ := ih h.2
        refine ⟨(column.1, v) :: r, ?_⟩
        rw [List.mapM_cons, hv, hr]
        rfl
  rw [row, if_neg hrange]
  cases rs._rowMap.lookup pos with
  | some r => exact ⟨r, rs, rfl⟩
  | none =>
      obtain ⟨r, hr⟩ := hmap rs.columns hvalue
      rw [hr]
      exact ⟨r, _, rfl⟩

theorem lt_of_row_ok {pos : ℕ} {r : Row β} {rs' : RecordSet β} (h : rs.row pos = .ok (r, rs')) :
    pos < rs.rowCount := by
  by_contra hge
  rw [row, if_pos (by omega)] at h
  cases h

/-! ### The filter -/

/-- The filter allows a row. -/
def allows (rs : RecordSet β) (row : ℕ) : Bool :=
  match rs._pFilter with
  | some f => f.isAllowed row
  | none => true

/-- The rows that the filter allows, in order. -/
def allowedRows (rs : RecordSet β) : List ℕ := (List.range rs.subTotalRowCount).filter rs.allows

/-- All ways through the record set agree with the filter. -/
structure Traversed (rs : RecordSet β) : Prop where
  forward : Visits moveFirst moveNext rs rs.allowedRows
  backward : Visits moveLast movePrevious rs rs.allowedRows.reverse
  iterators : Traverses rs.next rs.begin rs.allowedRows
  count : rs.rowCount = rs.allowedRows.length
  rows : ∀ pos ∈ rs.allowedRows, ∃ r rs', rs.row pos = .ok (r, rs')

/-- The filter has comparisons of its own, or allows all rows; the allowed rows come before all others; and
iterators start at the end if and only if no row is allowed. -/
structure Suitable (rs : RecordSet β) : Prop where
  filter : ∀ f ∈ rs._pFilter, f.isEmpty = true → ∀ row < rs.subTotalRowCount, f.isAllowed row = true
  initial : ∀ j < rs.subTotalRowCount, rs.allows j = true → ∀ i < j, rs.allows i = true
  start : (rs.rowsExtracted = 0 ∧ rs.allowedRows = []) ∨ (rs.rowsExtracted ≠ 0 ∧ rs.allows 0 = true)

theorem isAllowed_eq_allows_iff : (∀ row < rs.subTotalRowCount, rs.isAllowed row = rs.allows row) ↔
    ∀ f ∈ rs._pFilter, f.isEmpty = true → ∀ row < rs.subTotalRowCount, f.isAllowed row = true := by
  unfold isAllowed allows isFiltered
  cases rs._pFilter with
  | none => exact ⟨fun _ => nofun, fun _ _ _ => rfl⟩
  | some f =>
      cases he : f.isEmpty with
      | false => simp [he]
      | true =>
          have hsymm : ∀ row, true = f.isAllowed row ↔ f.isAllowed row = true := fun row => eq_comm
          simp [he, hsymm]

theorem allowedRows_eq_range (h : ∀ pos ∈ rs.allowedRows, pos < rs.allowedRows.length) :
    ∀ i < rs.allowedRows.length, i ∈ rs.allowedRows := by
  have hnodup : rs.allowedRows.Nodup := List.nodup_range.filter _
  have hsub : rs.allowedRows ⊆ List.range rs.allowedRows.length := fun pos hpos => List.mem_range.mpr (h pos hpos)
  have hperm := (hnodup.subperm hsub).perm_of_length_le (by rw [List.length_range])
  exact fun i hi => hperm.mem_iff.mpr (List.mem_range.mpr hi)

theorem lt_length_of_initial (h : ∀ j < rs.subTotalRowCount, rs.allows j = true → ∀ i < j, rs.allows i = true)
    {pos : ℕ} (hpos : pos ∈ rs.allowedRows) : pos < rs.allowedRows.length := by
  rw [allowedRows, List.mem_filter, List.mem_range] at hpos
  have hsub : (List.range (pos + 1)).Sublist (List.range rs.subTotalRowCount) := List.range_sublist.mpr hpos.1
  have hself : (List.range (pos + 1)).filter rs.allows = List.range (pos + 1) := by
    refine List.filter_eq_self.mpr fun i hi => ?_
    rcases Nat.lt_succ_iff_lt_or_eq.mp (List.mem_range.mp hi) with hlt | rfl
    · exact h pos hpos.1 hpos.2 i hlt
    · exact hpos.2
  have hle := (hsub.filter rs.allows).length_le
  rw [hself, List.length_range] at hle
  exact hle

/-- **Main result.** The cursor in both directions, the iterators, the count and the rows agree with the filter if and
only if the record set is suitable. -/
theorem traversed_iff (rs : RecordSet β) : rs.Traversed ↔ rs.Suitable := by
  constructor
  · intro h
    have hshown : rs.shownRows = rs.allowedRows := (visits_forward rs).unique h.forward
    have hinitial : ∀ j < rs.subTotalRowCount, rs.allows j = true → ∀ i < j, rs.allows i = true := by
      intro j hj hallowed i hi
      have hlt : ∀ pos ∈ rs.allowedRows, pos < rs.allowedRows.length := by
        intro pos hpos
        obtain ⟨r, rs', hrow⟩ := h.rows pos hpos
        rw [← h.count]
        exact lt_of_row_ok hrow
      have hmem : j ∈ rs.allowedRows := List.mem_filter.mpr ⟨List.mem_range.mpr hj, hallowed⟩
      exact (List.mem_filter.mp (allowedRows_eq_range hlt i (lt_trans hi (hlt j hmem)))).2
    refine ⟨isAllowed_eq_allows_iff.mp fun row hrow => ?_, hinitial, ?_⟩
    · have hiff : row ∈ rs.shownRows ↔ row ∈ rs.allowedRows := by rw [hshown]
      rw [shownRows, allowedRows, List.mem_filter, List.mem_filter, List.mem_range] at hiff
      exact Bool.eq_iff_iff.mpr ⟨fun ha => (hiff.mp ⟨hrow, ha⟩).2, fun ha => (hiff.mpr ⟨hrow, ha⟩).2⟩
    · have hvisited := (traverses_next rs).unique h.iterators
      split_ifs at hvisited with hzero
      · exact Or.inl ⟨hzero, hvisited.symm⟩
      · right
        have hmem : 0 ∈ rs.allowedRows := by
          rw [← hvisited]
          exact List.mem_cons_self
        exact ⟨hzero, (List.mem_filter.mp hmem).2⟩
  · intro h
    have hallowed := isAllowed_eq_allows_iff.mpr h.filter
    have hshown : rs.shownRows = rs.allowedRows :=
      List.filter_congr fun row hrow => hallowed row (List.mem_range.mp hrow)
    have hcount : rs.rowCount = rs.allowedRows.length := by rw [rowCount_eq, hshown]
    refine ⟨?_, ?_, ?_, hcount, fun pos hpos => ?_⟩
    · rw [← hshown]
      exact visits_forward rs
    · rw [← hshown]
      exact visits_backward rs
    · have hvisited := traverses_next rs
      rcases h.start with ⟨hzero, hnil⟩ | ⟨hsome, hfirst⟩
      · rwa [if_pos hzero, ← hnil] at hvisited
      · have hpos : 0 < rs.subTotalRowCount := lt_of_lt_of_le (Nat.pos_of_ne_zero hsome) rs.extracted_le
        have hrange := @filter_range rs.isAllowed _ hpos
        rw [hallowed 0 hpos, if_pos hfirst, ← last_eq hpos] at hrange
        rwa [if_neg hsome, ← hrange, ← shownRows, hshown] at hvisited
    · refine row_ok (by rwa [hshown]) ?_
      rw [hcount]
      exact lt_length_of_initial h.initial hpos

/-- One column with two rows, of which the filter hides the first. -/
def hiddenFirst : RecordSet ℕ where
  columns := [("a", [1, 2])]
  invalidRow := "Invalid row number."
  subTotalRowCount := 2
  rowsExtracted := 2
  _currentRow := 0
  _pFilter := some ⟨false, fun row => row == 1⟩
  _rowMap := []
  length_eq := by simp
  columns_nil := nofun
  extracted_le := le_rfl
  size_lt := by decide

/-- The cursor visits row 1, of which no row can be made, and the iterators visit row 0. -/
theorem not_traversed_hiddenFirst :
    ¬(∀ pos ∈ hiddenFirst.allowedRows, ∃ r rs', hiddenFirst.row pos = .ok (r, rs')) ∧
      ¬Traverses hiddenFirst.next hiddenFirst.begin hiddenFirst.allowedRows ∧ ¬∀ rs : RecordSet ℕ, rs.Traversed := by
  have hallowed : hiddenFirst.allowedRows = [1] := rfl
  have hcount : hiddenFirst.rowCount = 1 := rfl
  have hextracted : hiddenFirst.rowsExtracted = 2 := rfl
  have hrows : ¬∀ pos ∈ hiddenFirst.allowedRows, ∃ r rs', hiddenFirst.row pos = .ok (r, rs') := by
    intro h
    obtain ⟨r, rs', hrow⟩ := h 1 (by rw [hallowed]; exact List.mem_cons_self)
    have hlt := lt_of_row_ok hrow
    rw [hcount] at hlt
    exact Nat.lt_irrefl 1 hlt
  refine ⟨hrows, fun h => ?_, fun h => hrows (h hiddenFirst).rows⟩
  have hvisited := (traverses_next hiddenFirst).unique h
  have hmem : 0 ∈ hiddenFirst.allowedRows := by
    rw [← hvisited, hextracted, if_neg (by decide)]
    exact List.mem_cons_self
  rw [hallowed, List.mem_singleton] at hmem
  exact Nat.zero_ne_one hmem

end Visits

end RecordSet

end Poco.Data
