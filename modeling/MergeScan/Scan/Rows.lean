import MergeScan.Text.Escape
import MergeScan.Text.Record

/-! # Row ranges

A range of rows starts at a row, which it includes, and ends at a row that it
includes, at one that it excludes, or nowhere. Its rows are compared as bytes,
whatever order the rows of a family are sorted in.
-/

namespace MergeScan

/-- Where a range of rows ends. -/
inductive RowBound
  | unbounded
  | included (row : Bytes)
  | excluded (row : Bytes)
deriving DecidableEq

/-- A range of rows. -/
structure RowRange where
  start : Bytes
  stop : RowBound
deriving DecidableEq

namespace RowRange

/-- Every row. -/
def all : RowRange := ⟨[], .unbounded⟩

/-- The rows from `start` up to but without `stop`. The empty row as the end
stands for no end. -/
def between (start stop : Bytes) : RowRange :=
  ⟨start, if stop.isEmpty then .unbounded else .excluded stop⟩

/-- One row. -/
def single (row : Bytes) : RowRange := ⟨row, .included row⟩

/-- Whether a row sorts before the range. -/
def startsAfter (range : RowRange) (row : Bytes) : Bool :=
  (compare row range.start).isLT

/-- Whether a row sorts after the range. -/
def endsBefore (range : RowRange) (row : Bytes) : Bool :=
  match range.stop with
  | .unbounded => false
  | .included stop => (compare row stop).isGT
  | .excluded stop => (compare row stop).isGE

/-- Whether a row lies inside the range. -/
def contains (range : RowRange) (row : Bytes) : Bool :=
  !range.startsAfter row && !range.endsBefore row

/-- Whether a row that sorts after `row` can still lie inside the range. -/
def extendsPast (range : RowRange) (row : Bytes) : Bool :=
  match range.stop with
  | .unbounded => true
  | .included stop | .excluded stop => (compare row stop).isLT

/-- Whether the range has a row in common with a closed interval of rows. -/
def overlaps (range : RowRange) (first last : Bytes) : Bool :=
  (compare last range.start).isGE && !range.endsBefore first

end RowRange

/-- The printed form of an end of a range. -/
def RowBound.describe : RowBound → String
  | unbounded => "Unbounded"
  | included row => Text.wrapped "Included" row.quoted
  | excluded row => Text.wrapped "Excluded" row.quoted

/-- The printed form of a range. -/
def RowRange.describe (range : RowRange) : String :=
  Text.record "RowRange" [("start", range.start.quoted), ("end", range.stop.describe)]

end MergeScan
