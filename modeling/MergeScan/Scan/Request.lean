import MergeScan.Scan.Rows
import MergeScan.Time.Range

/-! # Source requests

The part of a scan that decides which sources it needs. A scanner sends the
same request again whenever its sources have changed.
-/

namespace MergeScan

/-- The kinds of sources that a scan reads. -/
inductive SourceSelection
  | all
  | memoryOnly
  | filesOnly
deriving DecidableEq

/-- What a provider of sources is told about a scan. -/
structure SourceRequest where
  rows : RowRange
  /-- The requested columns in ascending order; none of them stands for all. -/
  columns : List Bytes
  timeRange : TimeRange
  selection : SourceSelection
  cacheBlocks : Bool
  /-- Whether one row is asked for by its key. -/
  get : Bool
deriving DecidableEq

/-- The printed form of a selection. -/
def SourceSelection.describe : SourceSelection → String
  | all => "All"
  | memoryOnly => "MemOnly"
  | filesOnly => "FilesOnly"

/-- The request for every row, column and version of the selected sources. -/
def SourceRequest.all (selection : SourceSelection) : SourceRequest where
  rows := .all
  columns := []
  timeRange := .all
  selection := selection
  cacheBlocks := true
  get := false

end MergeScan
