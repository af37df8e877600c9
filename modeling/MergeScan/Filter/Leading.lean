import MergeScan.Filter.Basic

/-! # Filters on leading bytes

One filter keeps the rows whose key begins with given bytes, and ends the scan
at the first row that sorts after all of them. The other keeps the columns
whose qualifier begins with given bytes, and jumps to the first of them.
-/

namespace MergeScan

/-- Keeps rows that begin with `lead`. -/
structure RowLead where
  lead : Bytes
  /-- Whether a row was seen that sorts after all rows to keep. -/
  passed : Bool := false
deriving DecidableEq

/-- Keeps columns that begin with `lead`. -/
structure ColumnLead where
  lead : Bytes
deriving DecidableEq

namespace Bytes

/-- Where a string lies with respect to all strings that begin with `lead`:
before them, among them, or after them. -/
def compareLead : (bytes lead : Bytes) → Ordering
  | _, [] => .eq
  | [], _ :: _ => .lt
  | byte :: bytes, first :: lead => (compare byte first).then (compareLead bytes lead)

end Bytes

namespace RowLead

instance : CellFilter RowLead where
  stopsScan filter := filter.passed
  judgeRow filter row :=
    match row.compareLead filter.lead with
    | .eq => (false, filter)
    | .lt => (true, filter)
    | .gt => (true, { filter with passed := true })
  judgeCell filter _ := (.keep, filter)
  describe filter :=
    Text.record "PrefixFilter"
      [("prefix", filter.lead.quoted), ("passed_prefix", Text.flag filter.passed)]

end RowLead

namespace ColumnLead

instance : CellFilter ColumnLead where
  judgeCell filter cell :=
    match cell.qualifier.compareLead filter.lead with
    | .lt => (.seekHint, filter)
    | .eq => (.keep, filter)
    | .gt => (.nextRow, filter)
  hint filter cell := some (Cell.firstOnColumn cell.row cell.family filter.lead)
  describe filter := Text.record "ColumnPrefixFilter" [("prefix", filter.lead.quoted)]

end ColumnLead

end MergeScan
