import MergeScan.Family
import MergeScan.Scan.Spec

/-! # What a scan should hand out

Said of a list that has one cell at each place, without a matcher: a scan finds the
values in its rows, columns and times that no marker of their row deletes. Of each
column it hands out the newest ones, as many as wanted, and of those that have expired
only as many as the family keeps at least.
-/

namespace MergeScan

/-- Whether a marker deletes a value of its row. -/
def Cell.masks (marker value : Cell) : Bool :=
  match marker.kind with
  | .deleteFamily => value.timestamp ≤ marker.timestamp
  | .deleteColumn => marker.qualifier = value.qualifier && value.timestamp ≤ marker.timestamp
  | .delete => marker.qualifier = value.qualifier && value.timestamp = marker.timestamp
  | .minimum | .put | .maximum => false

/-- Whether a cell is a newer one of the same column. -/
def Cell.isNewer (newer cell : Cell) : Bool :=
  newer.row = cell.row && newer.qualifier = cell.qualifier && cell.timestamp < newer.timestamp

/-- Whether a timestamp has expired by now. -/
def Family.hasExpired (family : Family) (timestamp : Timestamp) : Bool :=
  family.oldestUnexpired.any (timestamp < ·)

/-- Whether a timestamp has expired, and no expired versions are kept. -/
def Family.rulesOut (family : Family) (timestamp : Timestamp) : Bool :=
  family.minVersions = 0 && family.hasExpired timestamp

namespace Scan

variable {φ : Type}

/-- Whether a scan wants a column. -/
def wants (scan : Scan φ) (qualifier : Bytes) : Bool :=
  scan.columns.isEmpty || scan.columns.contains qualifier

/-- Whether a cell of a list is a value that a scan asks for and that is not deleted. -/
def finds (scan : Scan φ) (cells : List Cell) (cell : Cell) : Bool :=
  cell.kind = .put && scan.rows.contains cell.row && scan.wants cell.qualifier &&
    scan.timeRange.contains cell.timestamp &&
    !cells.any fun marker => marker.row = cell.row && marker.masks cell

/-- The number of newer values of the same column that a scan finds. -/
def rank (scan : Scan φ) (cells : List Cell) (cell : Cell) : Nat :=
  cells.countP fun other => other.isNewer cell && scan.finds cells other

/-- Whether a scan hands a cell of a list out as a value. -/
def shows (family : Family) (scan : Scan φ) (cells : List Cell) (cell : Cell) : Bool :=
  scan.finds cells cell &&
    scan.rank cells cell < min scan.maxVersions family.maxVersions &&
    (scan.rank cells cell < family.minVersions || !family.hasExpired cell.timestamp)

/-- The values that a scan of a list should hand out. -/
def reference (family : Family) (scan : Scan φ) (cells : List Cell) : List Cell :=
  cells.filter (scan.shows family cells)

/-- Whether a scan goes on with the column of a value after it. -/
def readsOn (family : Family) (scan : Scan φ) (cells : List Cell) (cell : Cell) : Bool :=
  scan.rank cells cell + 1 < min scan.maxVersions family.maxVersions &&
    (scan.rank cells cell < family.minVersions || !family.hasExpired cell.timestamp)

/-- Whether a scan that hands out markers does so with a cell of a list: it has to be a
marker that matters, and its column must not be left before it. -/
def carries (family : Family) (scan : Scan φ) (cells : List Cell) (marker : Cell) : Bool :=
  scan.retainDeletes && marker.isDelete && scan.rows.contains marker.row &&
    !family.rulesOut marker.timestamp &&
    cells.all fun other =>
      !(other.isNewer marker && scan.finds cells other) || scan.readsOn family cells other

end Scan

end MergeScan
