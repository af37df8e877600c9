import MergeScan.Filter.Any
import MergeScan.Proofs.Matcher.Judged

/-! # Filters on complete rows

A filter that decides on complete rows takes every cell while a row is read. So a matcher that has
such a filter decides on each cell as it does without, and the filter comes into play only when
the row is complete.
-/

namespace MergeScan

/-- A filter that lets every row and every cell pass while it is read, and drops complete rows for
their cells. No question changes it. -/
structure CellFilter.JudgesRows {φ : Type} [CellFilter φ] (drops : List Cell → Bool)
    (filter : φ) : Prop where
  reset : CellFilter.reset filter = filter
  goesOn : CellFilter.stopsScan filter = false
  judgeRow row : CellFilter.judgeRow filter row = (false, filter)
  judgeCell cell : CellFilter.judgeCell filter cell = (.keep, filter)
  reshape cell : CellFilter.reshape filter cell = cell
  needsWholeRow : CellFilter.needsWholeRow filter = true
  judgeWholeRow cells : CellFilter.judgeWholeRow filter cells = (drops cells, filter)

/-- The filter on the newest value of a column decides on complete rows only. -/
theorem ColumnValue.judgesRows (filter : ColumnValue) :
    CellFilter.JudgesRows filter.drops (AnyFilter.columnValue filter) where
  reset := rfl
  goesOn := rfl
  judgeRow _ := rfl
  judgeCell _ := rfl
  reshape _ := rfl
  needsWholeRow := rfl
  judgeWholeRow _ := rfl

namespace Matcher

variable {φ : Type} {matcher : Matcher φ} {filter : φ}

/-- The same matcher with another filter, for which sources are positioned directly or not. -/
def refitted (matcher : Matcher φ) (filter : Option φ) (exactColumn : Bool) : Matcher φ :=
  { matcher with filter, exactColumn }

/-- The same matcher with a filter on complete rows. Direct positioning is for matchers without any
filter. -/
def judging (matcher : Matcher φ) (filter : φ) : Matcher φ :=
  matcher.refitted (some filter) false

theorem ofScan_judging (family : Family) (scan : Scan φ) (filter : φ) :
    Matcher.ofScan family { scan with filter := some filter } =
      (Matcher.ofScan family scan).judging filter := by
  simp only [ofScan, judging, refitted, Option.isNone_some, Bool.and_false]

/-! ## Decisions that have no use for the filter -/

section Refitted

variable {cell : Cell} {kept : Option φ} {exactColumn : Bool}

theorem isMasked_refitted (matcher : Matcher φ) (kept : Option φ) (exactColumn : Bool)
    (cell : Cell) :
    (matcher.refitted kept exactColumn).isMasked cell =
      (matcher.isMasked cell).map fun found => (found.1, found.2.refitted kept exactColumn) := by
  have hmarkers : (matcher.refitted kept exactColumn).markers = matcher.markers := rfl
  rw [isMasked, isMasked, hmarkers]
  split
  next => rfl
  next => cases matcher.markers.masks cell.qualifier cell.timestamp <;> rfl

theorem decideMarker_refitted (matcher : Matcher φ) (kept : Option φ) (exactColumn : Bool)
    (cell : Cell) :
    (matcher.refitted kept exactColumn).decideMarker cell =
      (matcher.decideMarker cell).map id (·.refitted kept exactColumn) := by
  have htime : (matcher.refitted kept exactColumn).timeRange = matcher.timeRange := rfl
  rw [decideMarker, decideMarker, htime]
  cases matcher.timeRange.reaches cell.timestamp <;> rfl

theorem decideVersion_refitted (matcher : Matcher φ) (kept : Option φ) (exactColumn : Bool)
    (cell : Cell) :
    (matcher.refitted kept exactColumn).decideVersion cell =
      (matcher.decideVersion cell).map id (·.refitted kept exactColumn) := by
  have hcolumns : (matcher.refitted kept exactColumn).columns = matcher.columns := rfl
  rw [decideVersion, decideVersion, hcolumns]
  cases matcher.columns.check cell.qualifier cell.timestamp <;> rfl

variable [CellFilter φ]

/-- A filter is asked about values that are not deleted, within the time range. Where its answer
makes no difference, it has no part in the decision on a cell of a row. -/
theorem decideCell_refitted
    (hvalue : ∀ after, matcher.columns.rule.rulesOut cell.timestamp = false →
      cell.isDelete = false → matcher.isMasked cell = .ok (false, after) →
      after.timeRange.position cell.timestamp = .eq →
      ((after.refitted kept exactColumn).decideValue cell).value =
        (after.decideValue cell).value.map id (·.refitted kept exactColumn)) :
    ((matcher.refitted kept exactColumn).decideCell cell).value =
      (matcher.decideCell cell).value.map id (·.refitted kept exactColumn) := by
  have hcolumns : (matcher.refitted kept exactColumn).columns = matcher.columns := rfl
  unfold decideCell
  rw [isMasked_refitted, hcolumns]
  split
  next => rfl
  next hage =>
    split
    next =>
      rw [decideMarker_refitted]
      rfl
    next hdelete =>
      cases hfound : matcher.isMasked cell with
      | error failure => rfl
      | ok found =>
          obtain ⟨masked, after⟩ := found
          cases masked with
          | true => rfl
          | false =>
              have htime : (after.refitted kept exactColumn).timeRange = after.timeRange := rfl
              simp only [Except.map, htime]
              cases hposition : after.timeRange.position cell.timestamp with
              | gt => rfl
              | lt => rfl
              | eq =>
                  exact hvalue after (Bool.eq_false_iff.mpr hage) (Bool.eq_false_iff.mpr hdelete)
                    hfound hposition

/-- Unless it ends the scan, a filter has no part in the decision on a row. -/
theorem decideRow_refitted (hnone : matcher.filter = none)
    (hstopped : (matcher.refitted kept exactColumn).isStopped = false) (cell : Cell) :
    (matcher.refitted kept exactColumn).decideRow cell = matcher.decideRow cell := by
  have hstops : (matcher.refitted kept exactColumn).isStopped = matcher.isStopped := by
    rw [hstopped, isStopped, hnone]
  unfold decideRow
  rw [hstops]
  rfl

theorem decide_refitted (hnone : matcher.filter = none)
    (hstopped : (matcher.refitted kept exactColumn).isStopped = false)
    (hvalue : ∀ after, matcher.decideRow cell = none →
      matcher.columns.rule.rulesOut cell.timestamp = false →
      cell.isDelete = false → matcher.isMasked cell = .ok (false, after) →
      after.timeRange.position cell.timestamp = .eq →
      ((after.refitted kept exactColumn).decideValue cell).value =
        (after.decideValue cell).value.map id (·.refitted kept exactColumn)) :
    ((matcher.refitted kept exactColumn).decide cell).value =
      (matcher.decide cell).value.map id (·.refitted kept exactColumn) := by
  unfold Matcher.decide
  rw [decideRow_refitted hnone hstopped]
  cases hrow : matcher.decideRow cell with
  | some decision => rfl
  | none => exact decideCell_refitted fun after => hvalue after hrow

end Refitted

variable [CellFilter φ] {drops : List Cell → Bool}

theorem refuses_judging (hfilter : CellFilter.needsWholeRow filter = true) (limit : Option Nat) :
    (matcher.judging filter).refuses limit =
      limit.map fun count => .incompatibleFilter count (CellFilter.describe filter) := by
  cases limit with
  | none => rfl
  | some count => exact if_pos hfilter

variable (hjudges : CellFilter.JudgesRows drops filter)
include hjudges

theorem enterRow_judging (hnone : matcher.filter = none) (row : Bytes) :
    ((matcher.judging filter).enterRow row).value =
      (matcher.enterRow row).value.judging filter := by
  have hdropped : CellFilter.judgeRow (CellFilter.reset filter) row = (false, filter) := by
    rw [hjudges.reset, hjudges.judgeRow]
  simp only [enterRow, judging, refitted, hnone, Noted.value_bind, Noted.value_pure, hdropped]
  rfl

theorem reshape_judging (cell : Cell) : ((matcher.judging filter).reshape cell).value = cell := by
  simp only [reshape, judging, refitted, Noted.value_bind, Noted.value_pure, hjudges.reshape]

/-- A complete row is dropped as a whole, or handed out as it is. -/
theorem completeRow_judging (cells : List Cell) :
    ((matcher.judging filter).completeRow cells).value =
      (if drops cells then [] else cells, matcher.judging filter) := by
  simp only [completeRow, judging, refitted, hjudges.needsWholeRow, hjudges.judgeWholeRow,
    Bool.true_and]
  cases cells with
  | nil => simp
  | cons first rest => rfl

variable (hnone : matcher.filter = none)
include hnone

theorem decideValue_judging (cell : Cell) :
    ((matcher.judging filter).decideValue cell).value =
      (matcher.decideValue cell).value.map id (judging · filter) := by
  simp only [decideValue, judging, refitted, hnone, hjudges.judgeCell, Noted.value_bind,
    applyVerdict, Noted.value_pure, decideVersion]
  split <;> rfl

/-- A filter on complete rows has no part in the decision on a cell. -/
theorem decide_judging (cell : Cell) :
    ((matcher.judging filter).decide cell).value =
      (matcher.decide cell).value.map id (judging · filter) := by
  refine decide_refitted hnone hjudges.goesOn fun after _ _ _ hmasked _ => ?_
  have hafter : after.filter = none := by
    rw [(Prod.mk.inj (eq_of_isMasked hmasked)).2]
    exact hnone
  exact decideValue_judging hjudges hafter cell

end Matcher

end MergeScan
