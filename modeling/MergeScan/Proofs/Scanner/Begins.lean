import MergeScan.Proofs.Scanner.Batches

/-! # Where a scan begins

A scan that begins at a later row hands out what the whole scan hands out from that row on: a
matcher looks at where the rows of its scan begin only to pass over those before.
-/

namespace MergeScan

open CellOrder

namespace Matcher

variable {φ : Type} [CellFilter φ] {matcher : Matcher φ} {cell : Cell} {rest ahead : List Cell}
variable {family : Bytes} (row : Bytes) (key : Cell)

/-- The matcher of the same scan from another row on. -/
def startingAt (matcher : Matcher φ) (row : Bytes) (key : Cell) : Matcher φ :=
  { matcher with rows := { matcher.rows with start := row }, startKey := key }

omit [CellFilter φ] in
theorem decideVersion_startingAt (matcher : Matcher φ) (cell : Cell) :
    (matcher.startingAt row key).decideVersion cell =
      ((matcher.decideVersion cell).1, (matcher.decideVersion cell).2.startingAt row key) := by
  have hcolumns : (matcher.startingAt row key).columns = matcher.columns := rfl
  unfold decideVersion
  rw [hcolumns]
  split <;> rfl

theorem decideValue_startingAt (matcher : Matcher φ) (cell : Cell) :
    ((matcher.startingAt row key).decideValue cell).value =
      ((matcher.decideValue cell).value.1,
        (matcher.decideValue cell).value.2.startingAt row key) := by
  have hfilter : (matcher.startingAt row key).filter = matcher.filter := rfl
  unfold decideValue
  rw [hfilter]
  split
  · exact decideVersion_startingAt row key matcher cell
  next filter _ =>
    simp only [Noted.value_bind]
    generalize CellFilter.judgeCell filter cell = judged
    obtain ⟨verdict, filter⟩ := judged
    cases verdict with
    | keep => exact decideVersion_startingAt row key { matcher with filter := some filter } cell
    | skip | nextColumn | nextRow => rfl
    | seekHint =>
        simp only [applyVerdict, Noted.value_bind]
        split <;> rfl

omit [CellFilter φ] in
theorem isMasked_startingAt (matcher : Matcher φ) (cell : Cell) :
    (matcher.startingAt row key).isMasked cell =
      (matcher.isMasked cell).map fun found => (found.1, found.2.startingAt row key) := by
  have hmarkers : (matcher.startingAt row key).markers = matcher.markers := rfl
  unfold isMasked
  rw [hmarkers]
  split
  · rfl
  · cases matcher.markers.masks cell.qualifier cell.timestamp <;> rfl

omit [CellFilter φ] in
theorem decideMarker_startingAt (matcher : Matcher φ) (cell : Cell) :
    (matcher.startingAt row key).decideMarker cell =
      ((matcher.decideMarker cell).1, (matcher.decideMarker cell).2.startingAt row key) := by
  have htimes : (matcher.startingAt row key).timeRange = matcher.timeRange := rfl
  unfold decideMarker
  rw [htimes]
  cases matcher.timeRange.reaches cell.timestamp <;> rfl

theorem decideCell_startingAt (matcher : Matcher φ) (cell : Cell) :
    ((matcher.startingAt row key).decideCell cell).value =
      ((matcher.decideCell cell).value.1,
        (matcher.decideCell cell).value.2.startingAt row key) := by
  have hcolumns : (matcher.startingAt row key).columns = matcher.columns := rfl
  unfold decideCell
  rw [hcolumns, isMasked_startingAt, decideMarker_startingAt]
  split
  · rfl
  split
  · rfl
  · cases matcher.isMasked cell with
    | error failure => rfl
    | ok found =>
        obtain ⟨_ | _, next⟩ := found
        · have htimes : (next.startingAt row key).timeRange = next.timeRange := rfl
          simp only [Except.map, htimes]
          split
          · rfl
          · rfl
          · exact decideValue_startingAt row key next cell
        · rfl

/-- What is decided on a cell depends on where the rows of the scan begin only if that is behind
the cell. -/
theorem decide_startingAt (hstarted : matcher.rows.startsAfter cell.row = false)
    (hrow : row ≤ cell.row) :
    ((matcher.startingAt row key).decide cell).value =
      ((matcher.decide cell).value.1, (matcher.decide cell).value.2.startingAt row key) := by
  have hlater : (matcher.startingAt row key).rows.startsAfter cell.row = false := by
    rw [Bool.eq_false_iff, ne_eq, RowRange.startsAfter_iff]
    exact Std.not_lt.mpr hrow
  have hsame : (matcher.startingAt row key).decideRow cell = matcher.decideRow cell := by
    unfold decideRow
    rw [hlater, hstarted]
    rfl
  unfold decide
  rw [hsame]
  cases matcher.decideRow cell with
  | some decision => rfl
  | none => exact decideCell_startingAt row key matcher cell

theorem inspect_startingAt (hstarted : matcher.rows.startsAfter cell.row = false)
    (hrow : row ≤ cell.row) (rest : List Cell) :
    (matcher.startingAt row key).inspect cell rest =
      { matcher.inspect cell rest with
        next := (matcher.inspect cell rest).next.startingAt row key } := by
  have hdecide := decide_startingAt row key hstarted hrow
  have hjudge : (matcher.startingAt row key).judge cell =
      ((matcher.judge cell).1, (matcher.judge cell).2.startingAt row key) := by
    unfold judge
    rw [hdecide]
    generalize (matcher.decide cell).value = decided
    obtain ⟨_ | _, next⟩ := decided <;> rfl
  unfold inspect
  rw [hjudge]
  rfl

theorem atRow_startingAt (matcher : Matcher φ) (entered : Bytes) :
    (matcher.startingAt row key).atRow entered = (matcher.atRow entered).startingAt row key := by
  have hsame : (matcher.startingAt row key).row = matcher.row := rfl
  unfold atRow
  rw [hsame]
  split
  · rfl
  · have hfilter : (matcher.startingAt row key).filter = matcher.filter := rfl
    unfold enterRow
    rw [hfilter]
    split <;> rfl

/-- What a scan hands out of the cells ahead does not depend on where its rows begin, as long as
that is before all of them. -/
theorem Primed.gather_startingAt (hprimed : matcher.Primed family ahead)
    (hrows : ∀ cell ∈ ahead, row ≤ cell.row) :
    (matcher.startingAt row key).gather ahead = matcher.gather ahead := by
  induction matcher, ahead using gather_induction with
  | nil matcher => rw [gather_nil, gather_nil]
  | ends matcher cell rest ending hcourse =>
      have hinspect := inspect_startingAt row key (hprimed.atRow.started cell List.mem_cons_self)
        (hrows cell List.mem_cons_self) rest
      have hatRow := atRow_startingAt row key matcher cell.row
      rw [gather_cons_error hatRow (by rw [hinspect, hcourse]), hinspect,
        gather_cons_error rfl hcourse]
  | goOn matcher cell rest further hcourse ih =>
      have hinspect := inspect_startingAt row key (hprimed.atRow.started cell List.mem_cons_self)
        (hrows cell List.mem_cons_self) rest
      have hatRow := atRow_startingAt row key matcher cell.row
      have hlater (other : Cell) (hother : other ∈ further) :=
        hrows other (List.mem_cons_of_mem _ ((inspect_suffix hcourse).subset hother))
      rw [gather_cons_ok hatRow (by rw [hinspect, hcourse]), hinspect, gather_cons_ok rfl hcourse,
        ih (hprimed.atRow.inspect (row_atRow matcher cell.row) hcourse).1 hlater]

end Matcher

end MergeScan
