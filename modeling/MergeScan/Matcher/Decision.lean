import MergeScan.Cell.Basic

/-! # Decisions on cells -/

namespace MergeScan

/-- What a scan does with the cell on top of its merge. -/
inductive Decision
  /-- Hand the cell out. -/
  | emit
  /-- Hand the cell out, then leave the column. -/
  | emitThenNextColumn
  /-- Hand the cell out, then leave the row. -/
  | emitThenNextRow
  /-- Pass over the cell. -/
  | skip
  /-- Pass over the rest of the column. -/
  | nextColumn
  /-- Pass over the rest of the row. -/
  | nextRow
  /-- Go on at a key that the filter gave. -/
  | seekTo (key : Cell)
  /-- The row is complete, and the cell is of a later one. -/
  | rowDone
  /-- No further cell can be part of the scan. -/
  | scanDone
deriving DecidableEq

end MergeScan
