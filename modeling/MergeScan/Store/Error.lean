import MergeScan.Scan.Error
import MergeScan.Source.Basic

/-! # Failures of a store -/

namespace MergeScan

/-- Why a store refused a change. -/
inductive StoreError
  /-- A cell is of another family than the store. -/
  | wrongFamily (expected found : Bytes)
  /-- A run is not one of the store. -/
  | unknownRun (id : RunId)
  /-- A complete merge has to take every run. -/
  | partialSelection (selected total : Nat)
  /-- The runs to merge have to be neighbours; this one lies between them. -/
  | skippedRun (id : RunId)
  /-- Reading the runs failed. -/
  | scan (failure : ScanError)
deriving DecidableEq

/-- The text of a failure, where `label` names the runs. -/
def StoreError.message (label : RunId → String) : StoreError → String
  | wrongFamily expected found =>
    "cell of family " ++ found.quoted ++ " written to store of family " ++ expected.quoted
  | unknownRun id => "run " ++ label id ++ " is not part of the store"
  | partialSelection selected total =>
    "major compaction selected " ++ Nat.repr selected ++ " of " ++ Nat.repr total ++ " runs"
  | skippedRun id =>
    "compaction selection skips run " ++ label id ++ " between selected runs"
  | scan failure => failure.message

end MergeScan
