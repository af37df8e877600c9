import MergeScan.Cell.Basic

/-! # Filters

A filter is a state machine that a scan consults about rows and cells. It takes
part in the decision on a cell after versions, markers and the time range; it
never moves a source itself.
-/

namespace MergeScan

/-- What a filter wants done with a cell. -/
inductive Verdict
  | keep
  | skip
  | nextColumn
  | nextRow
  | seekHint
deriving DecidableEq

/-- The questions to a filter that are counted. -/
inductive FilterCall
  | reset
  | judgeRow
  | judgeCell
  | hint
  | reshape
  | judgeWholeRow
deriving DecidableEq

/-- A filter with states `φ`. The operations that a filter leaves out keep
everything and stop nothing. -/
class CellFilter (φ : Type) where
  /-- Forget what belongs to the row that is left. -/
  reset : φ → φ := id
  /-- Whether nothing further can pass the filter. -/
  stopsScan : φ → Bool := fun _ => false
  /-- Whether a row is dropped for its key alone. -/
  judgeRow : φ → Bytes → Bool × φ := fun filter _ => (false, filter)
  /-- The verdict on one cell. -/
  judgeCell : φ → Cell → Verdict × φ
  /-- A kept cell as it is handed out. -/
  reshape : φ → Cell → Cell := fun _ cell => cell
  /-- Where to go on after the verdict `Verdict.seekHint`. -/
  hint : φ → Cell → Option Cell := fun _ _ => none
  /-- Whether the filter decides on complete rows. -/
  needsWholeRow : φ → Bool := fun _ => false
  /-- Whether a complete row is dropped. -/
  judgeWholeRow : φ → List Cell → Bool × φ := fun filter _ => (false, filter)
  /-- The printed form of the filter. -/
  describe : φ → String

end MergeScan
