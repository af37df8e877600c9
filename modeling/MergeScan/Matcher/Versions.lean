import MergeScan.Time.Timestamp

/-! # Counting versions

Of each column of a row a scan hands out a bounded number of versions, and
beyond a smaller number only those that have not expired.
-/

namespace MergeScan

/-- How many versions of a column are handed out. -/
structure VersionRule where
  /-- The number of versions at most. -/
  max : Nat
  /-- The number of versions that are handed out although they have expired. -/
  min : Nat
  /-- The oldest timestamp that has not expired, if any ever does. -/
  oldestUnexpired : Option Timestamp
deriving DecidableEq

/-- The versions of the current column so far. -/
structure VersionCount where
  count : Nat := 0
  /-- The timestamp of the last version that was handed out. -/
  previous : Option Timestamp := none
deriving DecidableEq

namespace VersionRule

/-- Whether a version has expired. -/
def isExpired (rule : VersionRule) (timestamp : Timestamp) : Bool :=
  match rule.oldestUnexpired with
  | some oldest => timestamp < oldest
  | none => false

/-- Whether a version and all older ones are out of the question, because they
have expired and no expired ones are kept. -/
def rulesOut (rule : VersionRule) (timestamp : Timestamp) : Bool :=
  rule.min = 0 && rule.isExpired timestamp

end VersionRule

namespace VersionCount

/-- No version so far. -/
def start : VersionCount := {}

/-- Whether a version at this timestamp was just handed out. -/
def repeats (seen : VersionCount) (timestamp : Timestamp) : Bool :=
  seen.previous = some timestamp

end VersionCount

end MergeScan
