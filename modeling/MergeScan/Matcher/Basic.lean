import MergeScan.Family
import MergeScan.Journal
import MergeScan.Matcher.Progress
import MergeScan.Matcher.Markers
import MergeScan.Scan.Spec

/-! # Matching cells

A matcher decides what a scan does with each cell, in the order in which the
merge presents them. It keeps what it has to know about the current row, and
asks the filter last, about values only that everything else lets pass.
-/

namespace MergeScan

/-- The decisions of one scan on cells. -/
structure Matcher (φ : Type) where
  /-- The row that is being read. -/
  row : Option Bytes
  rows : RowRange
  columns : ColumnProgress
  markers : RowMarkers
  timeRange : TimeRange
  filter : Option φ
  order : CellOrder
  retainDeletes : Bool
  /-- Whether the rest of the row is passed over. -/
  rowOver : Bool
  /-- Whether the scan asks for the newest version of one column, so that
  sources can be positioned on it directly. -/
  exactColumn : Bool
  /-- The key at which the scan begins. -/
  startKey : Cell

namespace Matcher

variable {φ : Type} [CellFilter φ]

/-- The matcher of a scan. What expires is settled here, once for the scan. -/
def ofScan (family : Family) (scan : Scan φ) : Matcher φ :=
  let maxVersions := family.versionsFor scan.maxVersions
  { row := none
    rows := scan.rows
    columns := .start ⟨maxVersions, family.minVersions, family.oldestUnexpired⟩ scan.columns
    markers := .empty
    timeRange := scan.timeRange
    filter := scan.filter
    order := family.order
    retainDeletes := scan.retainDeletes
    rowOver := false
    exactColumn := scan.columns.length = 1 && maxVersions = 1 && scan.filter.isNone
    startKey := Cell.firstOnColumn scan.rows.start family.name [] }

/-- Forget what belongs to the current row. -/
def reset (matcher : Matcher φ) : Matcher φ :=
  { matcher with columns := matcher.columns.reset, markers := .empty, rowOver := false }

/-- Enter a row. The filter can drop it for its key. -/
def enterRow (matcher : Matcher φ) (row : Bytes) : Noted (Matcher φ) :=
  match matcher.filter with
  | none => pure { matcher.reset with row := some row }
  | some filter => do
    Noted.noteAll [.consulted .reset, .consulted .judgeRow]
    let (dropped, filter) := CellFilter.judgeRow (CellFilter.reset filter) row
    pure { matcher.reset with row := some row, filter := some filter, rowOver := dropped }

/-- Where the current row lies with respect to the one of a cell. -/
def compareRow (matcher : Matcher φ) (cell : Cell) : Ordering :=
  match matcher.row with
  | some row => matcher.order.compareRows row cell.row
  | none => .eq

/-- Whether the filter ends the scan. -/
def isStopped (matcher : Matcher φ) : Bool :=
  match matcher.filter with
  | some filter => CellFilter.stopsScan filter
  | none => false

/-- The decision that the row of a cell leads to, unless the cell itself has to
be looked at. -/
def decideRow (matcher : Matcher φ) (cell : Cell) : Option Decision :=
  if matcher.isStopped || matcher.rows.endsBefore cell.row then some .scanDone
  else if matcher.rows.startsAfter cell.row then some .nextRow
  else
    match matcher.compareRow cell with
    | .lt => some .rowDone
    | .gt => some .nextRow
    | .eq => if matcher.rowOver || matcher.columns.isFinished then some .nextRow else none

/-- Give up the column of a cell. -/
def giveUpColumn (matcher : Matcher φ) (cell : Cell) : Decision × Matcher φ :=
  let (decision, columns) := matcher.columns.giveUp cell.qualifier
  (decision, { matcher with columns })

/-- Decide on a marker: it is remembered if it can delete a version in the time
range or a newer one. -/
def decideMarker (matcher : Matcher φ) (cell : Cell) : Decision × Matcher φ :=
  (if matcher.retainDeletes then .emit else .skip,
    if matcher.timeRange.reaches cell.timestamp then
      { matcher with
        markers := matcher.markers.add cell.qualifier cell.kind cell.timestamp }
    else matcher)

/-- Whether a value is deleted by a marker of its row. -/
def isMasked (matcher : Matcher φ) (cell : Cell) : Except ScanError (Bool × Matcher φ) :=
  if matcher.markers.isEmpty then .ok (false, matcher)
  else do
    let (masked, markers) ← matcher.markers.masks cell.qualifier cell.timestamp
    return (masked, { matcher with markers })

/-- Decide on a value by the versions of its column. -/
def decideVersion (matcher : Matcher φ) (cell : Cell) : Except ScanError Decision × Matcher φ :=
  match matcher.columns.check cell.qualifier cell.timestamp with
  | .error failure => (.error failure, matcher)
  | .ok (decision, columns) =>
    (.ok decision,
      { matcher with columns, rowOver := matcher.rowOver || decision = .nextRow })

/-- Decide on a value by the verdict of the filter. -/
def applyVerdict (matcher : Matcher φ) (filter : φ) (cell : Cell) :
    Verdict → Noted (Except ScanError Decision × Matcher φ)
  | .keep => pure (matcher.decideVersion cell)
  | .skip => pure (.ok .skip, matcher)
  | .nextColumn =>
    let (decision, matcher) := matcher.giveUpColumn cell
    pure (.ok decision, matcher)
  | .nextRow => pure (.ok .nextRow, { matcher with rowOver := true })
  | .seekHint => do
    Noted.note (.consulted .hint)
    match CellFilter.hint filter cell with
    | some key => pure (.ok (.seekTo key), matcher)
    | none => pure (.ok .skip, matcher)

/-- Decide on a value that is neither deleted nor outside the time range. -/
def decideValue (matcher : Matcher φ) (cell : Cell) :
    Noted (Except ScanError Decision × Matcher φ) :=
  match matcher.filter with
  | none => pure (matcher.decideVersion cell)
  | some filter => do
    Noted.note (.consulted .judgeCell)
    let (verdict, filter) := CellFilter.judgeCell filter cell
    { matcher with filter := some filter }.applyVerdict filter cell verdict

/-- Decide on a cell of the current row. -/
def decideCell (matcher : Matcher φ) (cell : Cell) :
    Noted (Except ScanError Decision × Matcher φ) :=
  if matcher.columns.rule.rulesOut cell.timestamp then
    let (decision, matcher) := matcher.giveUpColumn cell
    pure (.ok decision, matcher)
  else if cell.isDelete then
    let (decision, matcher) := matcher.decideMarker cell
    pure (.ok decision, matcher)
  else
    match matcher.isMasked cell with
    | .error failure => pure (.error failure, matcher)
    | .ok (true, matcher) => pure (.ok .skip, matcher)
    | .ok (false, matcher) =>
      match matcher.timeRange.position cell.timestamp with
      | .gt => pure (.ok .skip, matcher)
      | .lt =>
        let (decision, matcher) := matcher.giveUpColumn cell
        pure (.ok decision, matcher)
      | .eq => matcher.decideValue cell

/-- Decide on a cell. -/
def decide (matcher : Matcher φ) (cell : Cell) :
    Noted (Except ScanError Decision × Matcher φ) :=
  match matcher.decideRow cell with
  | some decision => pure (.ok decision, matcher)
  | none => matcher.decideCell cell

/-- Whether a row after the one of a cell can still be part of the scan. -/
def extendsPast (matcher : Matcher φ) (cell : Cell) : Bool :=
  matcher.rows.extendsPast cell.row

/-- The key after the rest of the row of a cell. -/
def nextRowKey (_matcher : Matcher φ) (cell : Cell) : Cell :=
  Cell.lastOnRow cell.row

/-- The key after the rest of the column of a cell, or the beginning of the
next wanted column where that is known. -/
def nextColumnKey (matcher : Matcher φ) (cell : Cell) : Cell :=
  match matcher.columns.next? with
  | some column => Cell.firstOnColumn cell.row cell.family column
  | none => Cell.lastOnColumn cell.row cell.family cell.qualifier

/-- The key that the filter would go on at. -/
def hint (matcher : Matcher φ) (cell : Cell) : Noted (Option Cell) :=
  match matcher.filter with
  | none => pure none
  | some filter => do
    Noted.note (.consulted .hint)
    pure (CellFilter.hint filter cell)

/-- A cell as it is handed out. -/
def reshape (matcher : Matcher φ) (cell : Cell) : Noted Cell :=
  match matcher.filter with
  | none => pure cell
  | some filter => do
    Noted.note (.consulted .reshape)
    pure (CellFilter.reshape filter cell)

/-- The cells of a complete row as they are handed out: all of them, or none if
the filter drops the row. -/
def completeRow (matcher : Matcher φ) (cells : List Cell) : Noted (List Cell × Matcher φ) :=
  match matcher.filter with
  | some filter =>
    if CellFilter.needsWholeRow filter && !cells.isEmpty then do
      Noted.note (.consulted .judgeWholeRow)
      let (dropped, filter) := CellFilter.judgeWholeRow filter cells
      pure (if dropped then [] else cells, { matcher with filter := some filter })
    else pure (cells, matcher)
  | none => pure (cells, matcher)

/-- Refuse a limit on the cells to hand out if the filter needs whole rows. -/
def refuses (matcher : Matcher φ) (limit : Option Nat) : Option ScanError :=
  match limit, matcher.filter with
  | some limit, some filter =>
    if CellFilter.needsWholeRow filter then
      some (.incompatibleFilter limit (CellFilter.describe filter))
    else none
  | _, _ => none

end Matcher

end MergeScan
