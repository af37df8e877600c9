import MergeScan.Filter.Leading
import MergeScan.Filter.Value
import MergeScan.Filter.Scripted

/-! # The filters of the library as one type, and the absence of filters -/

namespace MergeScan

/-- Any of the filters that a scan can be given by name. -/
inductive AnyFilter
  | rowLead (filter : RowLead)
  | columnLead (filter : ColumnLead)
  | keyOnly (filter : KeyOnly)
  | columnValue (filter : ColumnValue)
  | scripted (filter : FilterScript)
deriving DecidableEq

namespace AnyFilter

/-- Whether the filter is scripted. -/
def isScripted : AnyFilter → Bool
  | scripted _ => true
  | _ => false

instance : CellFilter AnyFilter where
  reset
    | rowLead filter => rowLead (CellFilter.reset filter)
    | columnLead filter => columnLead (CellFilter.reset filter)
    | keyOnly filter => keyOnly (CellFilter.reset filter)
    | columnValue filter => columnValue (CellFilter.reset filter)
    | scripted filter => scripted (CellFilter.reset filter)
  stopsScan
    | rowLead filter => CellFilter.stopsScan filter
    | columnLead filter => CellFilter.stopsScan filter
    | keyOnly filter => CellFilter.stopsScan filter
    | columnValue filter => CellFilter.stopsScan filter
    | scripted filter => CellFilter.stopsScan filter
  judgeRow
    | rowLead filter, row => (CellFilter.judgeRow filter row).map id rowLead
    | columnLead filter, row => (CellFilter.judgeRow filter row).map id columnLead
    | keyOnly filter, row => (CellFilter.judgeRow filter row).map id keyOnly
    | columnValue filter, row => (CellFilter.judgeRow filter row).map id columnValue
    | scripted filter, row => (CellFilter.judgeRow filter row).map id scripted
  judgeCell
    | rowLead filter, cell => (CellFilter.judgeCell filter cell).map id rowLead
    | columnLead filter, cell => (CellFilter.judgeCell filter cell).map id columnLead
    | keyOnly filter, cell => (CellFilter.judgeCell filter cell).map id keyOnly
    | columnValue filter, cell => (CellFilter.judgeCell filter cell).map id columnValue
    | scripted filter, cell => (CellFilter.judgeCell filter cell).map id scripted
  reshape
    | rowLead filter, cell => CellFilter.reshape filter cell
    | columnLead filter, cell => CellFilter.reshape filter cell
    | keyOnly filter, cell => CellFilter.reshape filter cell
    | columnValue filter, cell => CellFilter.reshape filter cell
    | scripted filter, cell => CellFilter.reshape filter cell
  hint
    | rowLead filter, cell => CellFilter.hint filter cell
    | columnLead filter, cell => CellFilter.hint filter cell
    | keyOnly filter, cell => CellFilter.hint filter cell
    | columnValue filter, cell => CellFilter.hint filter cell
    | scripted filter, cell => CellFilter.hint filter cell
  needsWholeRow
    | rowLead filter => CellFilter.needsWholeRow filter
    | columnLead filter => CellFilter.needsWholeRow filter
    | keyOnly filter => CellFilter.needsWholeRow filter
    | columnValue filter => CellFilter.needsWholeRow filter
    | scripted filter => CellFilter.needsWholeRow filter
  judgeWholeRow
    | rowLead filter, cells => (CellFilter.judgeWholeRow filter cells).map id rowLead
    | columnLead filter, cells => (CellFilter.judgeWholeRow filter cells).map id columnLead
    | keyOnly filter, cells => (CellFilter.judgeWholeRow filter cells).map id keyOnly
    | columnValue filter, cells => (CellFilter.judgeWholeRow filter cells).map id columnValue
    | scripted filter, cells => (CellFilter.judgeWholeRow filter cells).map id scripted
  describe
    | rowLead filter => CellFilter.describe filter
    | columnLead filter => CellFilter.describe filter
    | keyOnly filter => CellFilter.describe filter
    | columnValue filter => CellFilter.describe filter
    | scripted filter => CellFilter.describe filter

end AnyFilter

/-- A scan without any filter. -/
instance : CellFilter Empty where
  judgeCell filter := nomatch filter
  describe filter := nomatch filter

end MergeScan
