import MergeScan.Ledger
import MergeScan.Source.Run

/-! # Descriptions of runs -/

namespace MergeScan

/-- The description of a run. -/
structure RunInfo where
  id : RunId
  sequenceId : Nat
  size : Nat
  rows : Option (Bytes × Bytes)
  times : Option (Timestamp × Timestamp)
  readers : Nat
  stats : ReadStats

/-- The description of a run after everything in a journal. -/
def SortedRun.info (run : SortedRun) (journal : List Note) : RunInfo where
  id := run.id
  sequenceId := run.sequenceId
  size := run.size
  rows := run.rowBounds
  times := run.timeBounds
  readers := openReaders journal run.id
  stats := readStats journal run.id

end MergeScan
