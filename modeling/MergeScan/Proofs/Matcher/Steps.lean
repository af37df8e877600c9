import MergeScan.Proofs.Matcher.Judged

/-! # What a decision leaves behind

Whatever the grounds of a decision are, the matcher still belongs to the same scan,
and the cells that come after still come in order. To leave a column is to go on
behind the cell. A cell that was handed out or passed over is passed over when it
comes again, and nothing changes then; so copies of a cell make no difference.
-/

namespace MergeScan.Matcher

variable {φ : Type} [CellFilter φ] {matcher next : Matcher φ} {cell : Cell} {decision : Decision}

/-! ## Which cells are looked at -/

theorem decideRow_mem (hrow : matcher.decideRow cell = some decision) :
    decision ∈ [Decision.scanDone, .nextRow, .rowDone] := by
  simp only [decideRow] at hrow
  repeat' split at hrow
  all_goals cases hrow <;> simp

theorem decideRow_eq_none_iff (hplain : Plain matcher) :
    matcher.decideRow cell = none ↔
      (matcher.rows.endsBefore cell.row = false ∧ matcher.rows.startsAfter cell.row = false) ∧
        matcher.compareRow cell = .eq ∧
        (matcher.rowOver = false ∧ matcher.columns.isFinished = false) := by
  simp only [decideRow, isStopped, hplain.filter, Bool.false_or]
  split
  · simp_all
  · split
    · simp_all
    · split <;> simp_all

theorem row_eq_of_decideRow (hplain : Plain matcher) (hrow : matcher.decideRow cell = none)
    (hentered : matcher.row.isSome = true) : matcher.row = some cell.row := by
  obtain ⟨row, hsome⟩ := Option.isSome_iff_exists.mp hentered
  have hsame := ((decideRow_eq_none_iff hplain).mp hrow).2.1
  rw [compareRow, hsome, hplain.order] at hsame
  rw [hsome, Std.LawfulEqCmp.eq_of_compare hsame]

/-- A cell is looked at, or its row alone decides and nothing is remembered of it. -/
theorem Judged.decideRow_or (hjudged : Judged matcher cell decision next) :
    matcher.decideRow cell = none ∨ matcher.decideRow cell = some decision ∧ next = matcher := by
  cases hjudged with
  | row decision hdecided => exact .inr ⟨hdecided, rfl⟩
  | expired hnone hage => exact .inl hnone
  | marker hconsiders hdelete => exact .inl hconsiders.row
  | masked hconsiders hvalue hhides => exact .inl hconsiders.row
  | tooNew hlive hposition => exact .inl hlive.row
  | tooOld hlive hposition => exact .inl hlive.row
  | version decision columns hlive hposition hchecked => exact .inl hlive.row

/-- A decision that a row does not make is about a cell that is looked at. -/
theorem Judged.looked (hjudged : Judged matcher cell decision next)
    (hdecision : decision ∉ [Decision.scanDone, .nextRow, .rowDone]) :
    matcher.decideRow cell = none :=
  hjudged.decideRow_or.resolve_right fun hrow => hdecision (decideRow_mem hrow.1)

theorem Judged.looked_of_stays (hjudged : Judged matcher cell decision next)
    (hstays : decision = .emit ∨ decision = .skip) : matcher.decideRow cell = none := by
  apply hjudged.looked
  rcases hstays with rfl | rfl <;> simp

/-- Of a cell of another row, nothing but its row is looked at. -/
theorem Judged.of_row_ne (hjudged : Judged matcher cell decision next) (hplain : Plain matcher)
    (hentered : matcher.row.isSome = true) (hrow : matcher.row ≠ some cell.row) :
    matcher.decideRow cell = some decision ∧ next = matcher :=
  hjudged.decideRow_or.resolve_left fun hnone => hrow (row_eq_of_decideRow hplain hnone hentered)

/-! ## The scan stays the same -/

omit [CellFilter φ] in
theorem giveUpColumn_reset (matcher : Matcher φ) (cell : Cell) :
    (matcher.giveUpColumn cell).2.reset = matcher.reset := by
  simp only [giveUpColumn, reset, ColumnProgress.giveUp_reset]

omit [CellFilter φ] in
theorem decideMarker_reset (matcher : Matcher φ) (cell : Cell) :
    (matcher.decideMarker cell).2.reset = matcher.reset := by
  simp only [decideMarker]
  split <;> rfl

/-- A decision changes only what belongs to the current row. -/
theorem Judged.reset_eq (hjudged : Judged matcher cell decision next) :
    next.reset = matcher.reset := by
  cases hjudged with
  | row decision hrow => rfl
  | expired hrow hage => exact giveUpColumn_reset matcher cell
  | marker hconsiders hdelete => exact decideMarker_reset matcher cell
  | masked hconsiders hvalue hhides => rfl
  | tooNew hlive hposition => rfl
  | tooOld hlive hposition => exact giveUpColumn_reset (matcher.afterMarkers cell) cell
  | version decision columns hlive hposition hchecked =>
      simp only [reset, withProgress, afterMarkers, hchecked.reset_eq]

section Reset

omit [CellFilter φ]
variable (hreset : next.reset = matcher.reset)
include hreset

theorem row_of_reset : next.row = matcher.row := (congrArg row hreset :)

theorem rows_of_reset : next.rows = matcher.rows := (congrArg rows hreset :)

theorem timeRange_of_reset : next.timeRange = matcher.timeRange := (congrArg timeRange hreset :)

theorem filter_of_reset : next.filter = matcher.filter := (congrArg filter hreset :)

theorem order_of_reset : next.order = matcher.order := (congrArg order hreset :)

theorem retainDeletes_of_reset : next.retainDeletes = matcher.retainDeletes :=
  (congrArg retainDeletes hreset :)

theorem rule_of_reset : next.columns.rule = matcher.columns.rule :=
  (congrArg (fun matcher : Matcher φ => matcher.columns.rule) hreset :)

end Reset

theorem Judged.columns_ascending (hjudged : Judged matcher cell decision next)
    (hcolumns : matcher.columns.Ascending) : next.columns.Ascending := by
  cases hjudged with
  | row decision hrow => exact hcolumns
  | expired hrow hage => exact hcolumns.giveUp _
  | marker hconsiders hdelete =>
      simp only [decideMarker]
      split <;> exact hcolumns
  | masked hconsiders hvalue hhides => exact hcolumns
  | tooNew hlive hposition => exact hcolumns
  | tooOld hlive hposition =>
      have hafter : (matcher.afterMarkers cell).columns.Ascending := hcolumns
      exact hafter.giveUp _
  | version decision columns hlive hposition hchecked => exact hchecked.ascending hcolumns

theorem Judged.plain (hjudged : Judged matcher cell decision next) (hplain : Plain matcher) :
    Plain next where
  filter := (filter_of_reset hjudged.reset_eq).trans hplain.filter
  order := (order_of_reset hjudged.reset_eq).trans hplain.order
  columns := hjudged.columns_ascending hplain.columns

/-! ## Cells still come in order -/

omit [CellFilter φ] in
/-- A later cell of the row comes in order as well. -/
theorem Fits.mono (hfits : Fits matcher cell) {other : Cell}
    (hle : cell.qualifier ≤ other.qualifier) : Fits matcher other where
  column column hcolumn := Std.le_trans (hfits.column column hcolumn) hle
  marker marker hmarker := Std.le_trans (hfits.marker marker hmarker) hle

omit [CellFilter φ] in
theorem Fits.afterMarkers (hfits : Fits matcher cell) : Fits (matcher.afterMarkers cell) cell where
  column := hfits.column
  marker marker hmarker := hfits.marker marker (RowMarkers.column_after hmarker)

omit [CellFilter φ] in
theorem Fits.giveUpColumn (hfits : Fits matcher cell) :
    Fits (matcher.giveUpColumn cell).2 cell where
  column column hcolumn := hfits.column column (ColumnProgress.giveUp_column hcolumn)
  marker := hfits.marker

theorem Judged.fits (hjudged : Judged matcher cell decision next) (hfits : Fits matcher cell) :
    Fits next cell := by
  cases hjudged with
  | row decision hrow => exact hfits
  | expired hrow hage => exact hfits.giveUpColumn
  | marker hconsiders hdelete =>
      simp only [decideMarker]
      split
      · refine ⟨hfits.column, fun marker hmarker => ?_⟩
        rcases RowMarkers.column_add hmarker with hsame | rfl
        · exact hfits.marker marker hsame
        · exact Std.le_refl _
      · exact hfits
  | masked hconsiders hvalue hhides => exact hfits.afterMarkers
  | tooNew hlive hposition => exact hfits.afterMarkers
  | tooOld hlive hposition => exact hfits.afterMarkers.giveUpColumn
  | version decision columns hlive hposition hchecked =>
      refine ⟨fun column hcolumn => ?_, hfits.afterMarkers.marker⟩
      rw [hchecked.column_le hcolumn]
      exact Std.le_refl _

/-! ## Where a decision goes on -/

theorem Judged.ne_seekTo (hjudged : Judged matcher cell decision next) (key : Cell) :
    decision ≠ .seekTo key := by
  cases hjudged with
  | row decision hrow =>
      rintro rfl
      simpa using decideRow_mem hrow
  | expired hrow hage =>
      rcases matcher.columns.giveUp_decision cell.qualifier with heq | heq <;>
        simp [giveUpColumn, heq]
  | marker hconsiders hdelete =>
      rcases matcher.markerDecision_eq with ⟨heq, -⟩ | ⟨heq, -⟩ <;> simp [heq]
  | masked hconsiders hvalue hhides => exact nofun
  | tooNew hlive hposition => exact nofun
  | tooOld hlive hposition =>
      rcases matcher.columns.giveUp_decision cell.qualifier with heq | heq <;>
        simp [giveUpColumn, afterMarkers, heq]
  | version decision columns hlive hposition hchecked =>
      rintro rfl
      have := hchecked.decision_mem
      simp at this

/-- That the row or the scan is over, its row alone decides. -/
theorem Judged.of_done (hjudged : Judged matcher cell decision next)
    (hdone : decision = .rowDone ∨ decision = .scanDone) :
    next = matcher ∧ matcher.decideRow cell = some decision := by
  cases hjudged with
  | row decision hrow => exact ⟨rfl, hrow⟩
  | expired hrow hage =>
      rcases matcher.columns.giveUp_decision cell.qualifier with heq | heq <;>
        simp [giveUpColumn, heq] at hdone
  | marker hconsiders hdelete =>
      rcases matcher.markerDecision_eq with ⟨heq, -⟩ | ⟨heq, -⟩ <;> simp [heq] at hdone
  | masked hconsiders hvalue hhides => simp at hdone
  | tooNew hlive hposition => simp at hdone
  | tooOld hlive hposition =>
      rcases matcher.columns.giveUp_decision cell.qualifier with heq | heq <;>
        simp [giveUpColumn, afterMarkers, heq] at hdone
  | version decision columns hlive hposition hchecked =>
      have hmem := hchecked.decision_mem
      rcases hdone with rfl | rfl <;> simp at hmem

omit [CellFilter φ] in
theorem row_nextColumnKey (matcher : Matcher φ) (cell : Cell) :
    (matcher.nextColumnKey cell).row = cell.row := by
  unfold nextColumnKey
  split <;> rfl

omit [CellFilter φ] in
theorem lt_nextColumnKey (hkind : cell.kind ≠ .minimum)
    (hnext : ∀ column, matcher.columns.next? = some column → cell.qualifier < column) :
    Cell.compareKeys cell (matcher.nextColumnKey cell) = .lt := by
  unfold nextColumnKey
  split
  next column hcolumn =>
    rw [Cell.lt_firstOnColumn_iff hkind]
    exact .inr ⟨rfl, .inr ⟨rfl, hnext column hcolumn⟩⟩
  next => exact Cell.lt_lastOnColumn_self hkind

/-- If the column of a cell is left, the next one of the list is a later one. -/
theorem Judged.lt_next (hjudged : Judged matcher cell decision next)
    (hcolumns : matcher.columns.Ascending)
    (hleaves : decision = .nextColumn ∨ decision = .emitThenNextColumn) {column : Bytes}
    (hcolumn : next.columns.next? = some column) : cell.qualifier < column := by
  cases hjudged with
  | row decision hrow =>
      have := decideRow_mem hrow
      rcases hleaves with rfl | rfl <;> simp at this
  | expired hrow hage => exact hcolumns.lt_next_giveUp hcolumn
  | marker hconsiders hdelete =>
      rcases matcher.markerDecision_eq with ⟨heq, -⟩ | ⟨heq, -⟩ <;> simp [heq] at hleaves
  | masked hconsiders hvalue hhides => simp at hleaves
  | tooNew hlive hposition => simp at hleaves
  | tooOld hlive hposition => exact hcolumns.lt_next_giveUp hcolumn
  | version decision columns hlive hposition hchecked =>
      exact hchecked.lt_next hcolumns hleaves hcolumn

/-- To leave a column is to go on behind the cell. -/
theorem Judged.lt_nextColumnKey (hjudged : Judged matcher cell decision next)
    (hplain : Plain matcher) (hreal : cell.IsReal)
    (hleaves : decision = .nextColumn ∨ decision = .emitThenNextColumn) :
    Cell.compareKeys cell (next.nextColumnKey cell) = .lt :=
  Matcher.lt_nextColumnKey hreal.1 fun _ => hjudged.lt_next hplain.columns hleaves

omit [CellFilter φ] in
theorem lt_nextRowKey (hkind : cell.kind ≠ .minimum) :
    Cell.compareKeys cell (matcher.nextRowKey cell) = .lt :=
  (Cell.lt_lastOnRow_iff hkind cell.row).mpr (Std.le_refl _)

/-! ## Copies of a cell -/

/-- The row of a cell is being read, and the cell and its copies are passed over without
any change. -/
structure Settled (matcher : Matcher φ) (cell : Cell) : Prop where
  row : matcher.row = some cell.row
  skips other : other.IsReal → Cell.compareKeys other cell = .eq →
    (matcher.decide other).value = (.ok .skip, matcher)

theorem Settled.congr (hsettled : Settled matcher cell) {other : Cell} (hreal : other.IsReal)
    (hcell : cell.IsReal) (hsame : Cell.compareKeys other cell = .eq) : Settled matcher other where
  row := by
    have hcoordinates := (Cell.compareKeys_eq_eq_iff hreal.not_lastOnRow
      hcell.not_lastOnRow).mp hsame
    rw [hsettled.row, hcoordinates.1]
  skips third hthird heq := hsettled.skips third hthird (Std.TransCmp.eq_trans heq hsame)

/-- The row of a cell goes on being read as long as its column is not left. -/
theorem Judged.decideRow_again (hjudged : Judged matcher cell decision next)
    (hplain : Plain matcher) (hrow : matcher.decideRow cell = none)
    (hstays : decision = .emit ∨ decision = .skip) : next.decideRow cell = none := by
  have hreset := hjudged.reset_eq
  rw [decideRow_eq_none_iff hplain] at hrow
  rw [decideRow_eq_none_iff (hjudged.plain hplain), compareRow, rows_of_reset hreset,
    row_of_reset hreset, order_of_reset hreset, ← compareRow]
  refine ⟨hrow.1, hrow.2.1, ?_⟩
  cases hjudged with
  | row decision hnot => exact hrow.2.2
  | expired hrow hage =>
      rcases matcher.columns.giveUp_decision cell.qualifier with heq | heq <;>
        simp [giveUpColumn, heq] at hstays
  | marker hconsiders hdelete =>
      simp only [decideMarker]
      split <;> exact hrow.2.2
  | masked hconsiders hvalue hhides => exact hrow.2.2
  | tooNew hlive hposition => exact hrow.2.2
  | tooOld hlive hposition =>
      rcases matcher.columns.giveUp_decision cell.qualifier with heq | heq <;>
        simp [giveUpColumn, afterMarkers, heq] at hstays
  | version decision columns hlive hposition hchecked =>
      refine ⟨?_, hchecked.isFinished_eq hstays⟩
      rcases hstays with rfl | rfl <;> simpa [withProgress, afterMarkers] using hrow.2.2.1

omit [CellFilter φ] in
theorem decideMarker_again (matcher : Matcher φ) (cell : Cell) :
    ((matcher.decideMarker cell).2.decideMarker cell).2 = (matcher.decideMarker cell).2 := by
  unfold decideMarker
  by_cases hreaches : matcher.timeRange.reaches cell.timestamp = true
  · simp only [hreaches, if_true, RowMarkers.add_add]
  · simp only [hreaches, Bool.false_eq_true, if_false]

omit [CellFilter φ] in
theorem afterMarkers_again (matcher : Matcher φ) (cell : Cell) :
    (matcher.afterMarkers cell).afterMarkers cell = matcher.afterMarkers cell := by
  simp only [afterMarkers, RowMarkers.after_after]

/-- What is decided on a copy of a cell whose column was not left: it is passed over, unless
it is a marker and those are handed out. -/
def copyDecision (matcher : Matcher φ) (cell : Cell) : Decision :=
  if cell.isDelete then matcher.markerDecision else .skip

omit [CellFilter φ] in
theorem copyDecision_of_valuesOnly (hvalues : matcher.retainDeletes = false) (cell : Cell) :
    matcher.copyDecision cell = .skip := by
  rw [copyDecision, markerDecision_of_valuesOnly hvalues, ite_self]

theorem Judged.decideCell_again (hjudged : Judged matcher cell decision next)
    (hplain : Plain matcher) (hfits : Fits matcher cell)
    (hstays : decision = .emit ∨ decision = .skip) (value : Bytes) :
    (next.decideCell (cell.withValue value)).value = (.ok (next.copyDecision cell), next) := by
  have hnext := hjudged.plain hplain
  have hfits : Fits next (cell.withValue value) := ⟨(hjudged.fits hfits).column,
    (hjudged.fits hfits).marker⟩
  have hrule := rule_of_reset hjudged.reset_eq
  have htime := timeRange_of_reset hjudged.reset_eq
  have hskips (hvalue : cell.isDelete = false) (other : Matcher φ) :
      other.copyDecision cell = .skip := by simp [copyDecision, hvalue]
  -- a decision that leaves the row or the column is none of the two that stay
  cases hjudged with
  | row decision hrow =>
      have := decideRow_mem hrow
      rcases hstays with rfl | rfl <;> simp at this
  | expired hrow hage =>
      rcases matcher.columns.giveUp_decision cell.qualifier with heq | heq <;>
        simp [giveUpColumn, heq] at hstays
  | marker hconsiders hdelete =>
      rw [copyDecision, if_pos hdelete]
      have hdelete : (cell.withValue value).isDelete = true := hdelete
      rw [decideCell_marker (hrule ▸ hconsiders.age) hdelete]
      exact congrArg _ (decideMarker_again matcher cell)
  | masked hconsiders hvalue hhides =>
      rw [hskips hvalue, decideCell_masked (isMasked_eq hfits) hconsiders.age hvalue]
      · exact congrArg _ (afterMarkers_again matcher cell)
      · exact RowMarkers.hides_after.trans hhides
  | tooNew hlive hposition =>
      rw [hskips hlive.value, decideCell_live (isMasked_eq hfits) hlive.age hlive.value
        (RowMarkers.hides_after.trans hlive.live)]
      have hposition : (matcher.afterMarkers cell).timeRange.position
          (cell.withValue value).timestamp = .gt := hposition
      rw [hposition]
      exact congrArg _ (afterMarkers_again matcher cell)
  | tooOld hlive hposition =>
      rcases matcher.columns.giveUp_decision cell.qualifier with heq | heq <;>
        simp [giveUpColumn, afterMarkers, heq] at hstays
  | version decision columns hlive hposition hchecked =>
      rw [hskips hlive.value, decideCell_live (isMasked_eq hfits) (hrule ▸ hlive.age) hlive.value
        (RowMarkers.hides_after.trans hlive.live), htime]
      have hposition : matcher.timeRange.position (cell.withValue value).timestamp = .eq :=
        hposition
      rw [hposition]
      simp only
      have hcheck : columns.check (cell.withValue value).qualifier
          (cell.withValue value).timestamp = .ok (.skip, columns) := hchecked.check_again hstays
      rw [decideValue_plain (hnext.afterMarkers _) hcheck]
      simp [withProgress, afterMarkers, Cell.withValue]

/-- The decision on a copy of a cell whose column was not left changes nothing. -/
theorem Judged.decide_again (hjudged : Judged matcher cell decision next) (hplain : Plain matcher)
    (hfits : Fits matcher cell) (hreal : cell.IsReal)
    (hstays : decision = .emit ∨ decision = .skip) {other : Cell} (hother : other.IsReal)
    (hsame : Cell.compareKeys other cell = .eq) :
    (next.decide other).value = (.ok (next.copyDecision cell), next) := by
  have hagain := hjudged.decideRow_again hplain (hjudged.looked_of_stays hstays) hstays
  rw [Cell.eq_withValue hreal hother hsame, Matcher.decide]
  have hsameRow : next.decideRow (cell.withValue other.value) = next.decideRow cell := rfl
  rw [hsameRow, hagain]
  exact hjudged.decideCell_again hplain hfits hstays other.value

/-- Where values only are handed out, a cell that was handed out or passed over is settled. -/
theorem Judged.settled (hjudged : Judged matcher cell decision next) (hplain : Plain matcher)
    (hvalues : matcher.retainDeletes = false) (hfits : Fits matcher cell) (hreal : cell.IsReal)
    (hrow : matcher.row = some cell.row) (hstays : decision = .emit ∨ decision = .skip) :
    Settled next cell where
  row := (row_of_reset hjudged.reset_eq).trans hrow
  skips other hother hsame := by
    rw [hjudged.decide_again hplain hfits hreal hstays hother hsame,
      copyDecision_of_valuesOnly ((retainDeletes_of_reset hjudged.reset_eq).trans hvalues)]

end MergeScan.Matcher
