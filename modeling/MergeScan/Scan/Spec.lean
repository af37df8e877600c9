import MergeScan.Filter.Basic
import MergeScan.Scan.Error
import MergeScan.Scan.Request

/-! # Scan specifications

A scan says which rows, columns, versions and times a read wants, and how the
cells are handed out. It starts as a scan of everything, and each operation
below narrows it down.
-/

namespace MergeScan

/-- One read of a column family. -/
structure Scan (φ : Type) where
  rows : RowRange := .all
  /-- The requested columns in ascending order; none of them stands for all. -/
  columns : List Bytes := []
  /-- The number of versions wanted of each column, at least one. -/
  maxVersions : Nat := 1
  timeRange : TimeRange := .all
  /-- The number of cells to hand out at a time, instead of whole rows. -/
  batch : Option Nat := none
  cacheBlocks : Bool := true
  filter : Option φ := none
  get : Bool := false
  selection : SourceSelection := .all
  /-- Whether delete markers are handed out along with the values that are left. -/
  retainDeletes : Bool := false

/-- Insert into an ascending list without repetition. -/
def insertColumn (column : Bytes) : List Bytes → List Bytes
  | [] => [column]
  | first :: rest =>
    match compare column first with
    | .lt => column :: first :: rest
    | .eq => first :: rest
    | .gt => first :: insertColumn column rest

namespace Scan

variable {φ : Type}

/-- The scan of one row. -/
def ofRow (row : Bytes) : Scan φ :=
  { rows := .single row, get := true }

/-- Restrict the scan to a range of rows. It is then no longer a read of one
row by its key. -/
def withRows (scan : Scan φ) (rows : RowRange) : Scan φ :=
  { scan with rows, get := false }

/-- Request one more column. -/
def withColumn (scan : Scan φ) (column : Bytes) : Scan φ :=
  { scan with columns := insertColumn column scan.columns }

/-- Ask for a number of versions. Asking for none is asking for one. -/
def withMaxVersions (scan : Scan φ) (count : Nat) : Scan φ :=
  { scan with maxVersions := max count 1 }

/-- Hand out at most `size` cells at a time. Zero means whole rows. -/
def withBatch (scan : Scan φ) (size : Nat) : Scan φ :=
  { scan with batch := if 0 < size then some size else none }

/-- Refuse a scan whose filter needs whole rows while its batches split them. -/
def validate [CellFilter φ] (scan : Scan φ) : Except ScanError Unit :=
  match scan.batch, scan.filter with
  | some size, some filter =>
    if CellFilter.needsWholeRow filter then
      .error (.incompatibleFilter size (CellFilter.describe filter))
    else .ok ()
  | _, _ => .ok ()

/-- What a provider of sources has to know about the scan. -/
def request (scan : Scan φ) : SourceRequest where
  rows := scan.rows
  columns := scan.columns
  timeRange := scan.timeRange
  selection := scan.selection
  cacheBlocks := scan.cacheBlocks
  get := scan.get

/-- The printed form of a scan. -/
def describe [CellFilter φ] (scan : Scan φ) : String :=
  Text.record "Scan"
    [("rows", scan.rows.describe),
      ("columns", Text.set (scan.columns.map Bytes.quoted)),
      ("max_versions", Nat.repr scan.maxVersions),
      ("time_range", scan.timeRange.describe),
      ("batch", Text.option (scan.batch.map Nat.repr)),
      ("filter", Text.option (scan.filter.map CellFilter.describe)),
      ("get", Text.flag scan.get),
      ("selection", scan.selection.describe),
      ("retain_deletes", Text.flag scan.retainDeletes)]

end Scan

end MergeScan
