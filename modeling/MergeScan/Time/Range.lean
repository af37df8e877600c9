import MergeScan.Time.Timestamp

/-! # Time ranges

A read can be restricted to versions of a half-open interval of time. An
interval that ends at the newest timestamp is open-ended, so that a cell
written at that very timestamp is still inside.
-/

namespace MergeScan

/-- The versions with `start ≤ timestamp < stop`. -/
structure TimeRange where
  start : Timestamp
  stop : Timestamp
deriving DecidableEq

namespace TimeRange

/-- Every version. -/
def all : TimeRange := ⟨.oldest, .latest⟩

/-- The versions between two bounds, which may be given in either order. -/
def between (first second : Timestamp) : TimeRange :=
  if first ≤ second then ⟨first, second⟩ else ⟨second, first⟩

/-- The versions at one timestamp. -/
def single (timestamp : Timestamp) : TimeRange := ⟨timestamp, timestamp.next⟩

/-- Whether the range leaves no version out. -/
def isAll (range : TimeRange) : Bool :=
  range.start = .oldest && range.stop = .latest

/-- Where a timestamp lies: before the range, inside it, or after it. -/
def position (range : TimeRange) (timestamp : Timestamp) : Ordering :=
  if timestamp < range.start then .lt
  else if range.stop ≠ .latest ∧ range.stop ≤ timestamp then .gt
  else .eq

/-- Whether a timestamp lies inside the range. -/
def contains (range : TimeRange) (timestamp : Timestamp) : Bool :=
  range.position timestamp == .eq

/-- Whether a timestamp lies inside the range or after it. -/
def reaches (range : TimeRange) (timestamp : Timestamp) : Bool :=
  range.start ≤ timestamp

/-- Whether the range has a timestamp in common with a closed interval. -/
def overlaps (range : TimeRange) (oldest newest : Timestamp) : Bool :=
  range.start ≤ newest && (range.stop = .latest || oldest < range.stop)

/-- The printed form of a range. -/
def describe (range : TimeRange) : String :=
  Text.record "TimeRange" [("min", range.start.describe), ("max", range.stop.describe)]

end TimeRange

end MergeScan
