import MergeScan.Cell.Basic
import MergeScan.Source.Error

/-! # Failures of a scan -/

namespace MergeScan

/-- Operations that a scanner does not offer in the state it is in. -/
inductive Misuse
  | singleCell
  | noProvider
deriving DecidableEq

/-- Why a scan could not go on. -/
inductive ScanError
  /-- A source failed. The failures met while the other sources were released
  are reported along with it. -/
  | source (failure : SourceError) (suppressed : List SourceError)
  /-- A cell was followed by a smaller one. -/
  | outOfOrder (previous next : Cell)
  /-- Inside a row, a column was followed by a smaller one. -/
  | columnOrder (previous next : Bytes)
  | invalidUsage (misuse : Misuse)
  /-- A filter on whole rows cannot be combined with a limit on cells. -/
  | incompatibleFilter (limit : Nat) (filter : String)
  /-- Sources failed to close. -/
  | close (failures : List SourceError)
deriving DecidableEq

namespace Misuse

/-- What was wrong with the operation. -/
def message : Misuse → String
  | singleCell => "single-cell advance is not supported, read rows with next"
  | noProvider => "scanner without a source provider cannot rebuild its sources"

end Misuse

/-- The text about sources that failed to close, in the order they were closed. -/
def closeMessage (failures : List SourceError) : String :=
  Nat.repr failures.length ++ " source(s) failed to close: " ++
    "; ".intercalate (failures.map SourceError.message)

namespace ScanError

/-- The failure of a source by itself. -/
def ofSource (failure : SourceError) : ScanError :=
  source failure []

/-- The text of a failure. -/
def message : ScanError → String
  | source failure _ => "scan source error: " ++ failure.message
  | outOfOrder previous next =>
    "key " ++ previous.text ++ " followed by a smaller key " ++ next.text
  | columnOrder previous next =>
    "column " ++ next.quoted ++ " arrived after larger column " ++ previous.quoted
  | invalidUsage misuse => "invalid scanner usage: " ++ misuse.message
  | incompatibleFilter limit filter =>
    "filter " ++ filter ++ " cannot be used with batch size " ++ Nat.repr limit
  | close failures => closeMessage failures

end ScanError

end MergeScan
