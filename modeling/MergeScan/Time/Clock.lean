import MergeScan.Time.Timestamp

/-! # Clocks

The age of a cell is judged against a clock. A manual clock shows the time it
was last set to; a wall clock is represented by one reading of it.
-/

namespace MergeScan

/-- Where the current time comes from. -/
inductive Clock
  | manual (now : Timestamp)
  | wall (reading : Timestamp)
deriving DecidableEq

namespace Clock

/-- The time a clock shows. -/
def now : Clock → Timestamp
  | manual now => now
  | wall reading => reading

/-- Put a manual clock to `time`. A wall clock cannot be set. -/
def set (clock : Clock) (time : Timestamp) : Clock :=
  match clock with
  | manual _ => manual time
  | wall reading => wall reading

/-- Move a manual clock on by `duration`. Unlike the arithmetic of timestamps,
a clock starts again from the oldest timestamp after the newest one; it moves by
at most the longest time that a timestamp can express. -/
def advance (clock : Clock) (duration : Duration) : Clock :=
  match clock with
  | manual now => manual ⟨now.millis + (Timestamp.clamp duration.millis).millis⟩
  | wall reading => wall reading

/-- The printed form of a clock. -/
def describe : Clock → String
  | manual now => Text.record "ManualClock" [("now", Nat.repr now.toNat)]
  | wall _ => "SystemClock"

end Clock

end MergeScan
