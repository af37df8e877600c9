import MergeScan.Filter.Basic

/-! # Filters on values

One filter hands out keys without their values. The other decides on a
complete row by the newest value of one of its columns.
-/

namespace MergeScan

/-- Strips the values of all cells. -/
structure KeyOnly where
deriving DecidableEq

/-- Keeps a row if its first cell in one column has the expected value. -/
structure ColumnValue where
  family : Bytes
  qualifier : Bytes
  expected : Bytes
  /-- Whether a row without the column is dropped as well. -/
  dropMissing : Bool := false
deriving DecidableEq

instance : CellFilter KeyOnly where
  judgeCell filter _ := (.keep, filter)
  reshape _ cell := cell.withValue []
  describe _ := Text.record "KeyOnlyFilter" []

namespace ColumnValue

/-- The newest version of the column among the cells of a row, which is the
first one because versions are sorted newest first. -/
def newest? (filter : ColumnValue) (cells : List Cell) : Option Cell :=
  cells.find? fun cell => cell.family = filter.family && cell.qualifier = filter.qualifier

/-- Whether a row with these cells is dropped. -/
def drops (filter : ColumnValue) (cells : List Cell) : Bool :=
  match filter.newest? cells with
  | some cell => cell.value ≠ filter.expected
  | none => filter.dropMissing

instance : CellFilter ColumnValue where
  judgeCell filter _ := (.keep, filter)
  needsWholeRow _ := true
  judgeWholeRow filter cells := (filter.drops cells, filter)
  describe filter :=
    Text.record "SingleColumnValueFilter"
      [("family", filter.family.quoted), ("qualifier", filter.qualifier.quoted),
        ("expected", filter.expected.quoted),
        ("filter_if_missing", Text.flag filter.dropMissing)]

end ColumnValue

end MergeScan
