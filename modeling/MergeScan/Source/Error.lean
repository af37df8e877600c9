/-! # Failures of a source -/

namespace MergeScan

/-- Why a source could not do what it was asked to. -/
inductive SourceError
  /-- The storage behind the source failed. -/
  | io (reason : String)
  /-- The source does not have the operation at all. -/
  | unsupported (operation : String)
  /-- The source was closed before. -/
  | closed
  /-- The source was closed twice. -/
  | doubleClose
deriving DecidableEq

namespace SourceError

/-- The text of a failure. -/
def message : SourceError → String
  | io reason => "source io error: " ++ reason
  | unsupported operation => "source does not support " ++ operation
  | closed => "source is closed"
  | doubleClose => "source released twice"

/-- The failure of a source that has no direct positioning. -/
def noExactSeek : SourceError := unsupported "seek_exactly"

end SourceError

end MergeScan
