import MergeScan.Text.Record
import MergeScan.Time.Duration

/-! # Timestamps

Versions of a cell are told apart by a timestamp in milliseconds. Arithmetic
stops at the ends of the 64-bit range.
-/

namespace MergeScan

/-- Milliseconds since the epoch. -/
structure Timestamp where
  millis : UInt64
deriving DecidableEq

namespace Timestamp

instance : Ord Timestamp := ⟨fun left right => compare left.millis right.millis⟩

instance : LE Timestamp := ⟨fun left right => left.millis ≤ right.millis⟩

instance : LT Timestamp := ⟨fun left right => left.millis < right.millis⟩

instance (left right : Timestamp) : Decidable (left ≤ right) :=
  inferInstanceAs (Decidable (left.millis ≤ right.millis))

instance (left right : Timestamp) : Decidable (left < right) :=
  inferInstanceAs (Decidable (left.millis < right.millis))

/-- The oldest timestamp. -/
def oldest : Timestamp := ⟨0⟩

/-- The newest timestamp. As the end of a range it stands for no end at all. -/
def latest : Timestamp := ⟨0xffffffffffffffff⟩

/-- The timestamp as a number. -/
def toNat (timestamp : Timestamp) : Nat :=
  timestamp.millis.toNat

/-- The timestamp at a number of milliseconds, or the newest one if there is
none that late. -/
def clamp (millis : Nat) : Timestamp :=
  if millis < UInt64.size then ⟨UInt64.ofNat millis⟩ else latest

/-- The time `duration` later, at most the newest one. -/
def addSaturating (timestamp : Timestamp) (duration : Duration) : Timestamp :=
  clamp (timestamp.toNat + duration.millis)

/-- The time `duration` earlier, at least the oldest one. -/
def subSaturating (timestamp : Timestamp) (duration : Duration) : Timestamp :=
  clamp (timestamp.toNat - duration.millis)

/-- The next timestamp, or the newest one after itself. -/
def next (timestamp : Timestamp) : Timestamp :=
  clamp (timestamp.toNat + 1)

/-- The printed form inside a cell. -/
def text (timestamp : Timestamp) : String :=
  if timestamp = latest then "LATEST" else Nat.repr timestamp.toNat

/-- The printed form as a value of its own. -/
def describe (timestamp : Timestamp) : String :=
  Text.wrapped "Timestamp" (Nat.repr timestamp.toNat)

theorem toNat_lt_size (timestamp : Timestamp) : timestamp.toNat < UInt64.size :=
  timestamp.millis.toNat_lt

theorem toNat_clamp (millis : Nat) :
    (clamp millis).toNat = min millis (UInt64.size - 1) := by
  unfold clamp
  split
  next hlt =>
    simp only [toNat, UInt64.toNat_ofNat', UInt64.size] at hlt ⊢
    omega
  next hge =>
    have hlatest : latest.toNat = UInt64.size - 1 := rfl
    omega

end Timestamp

end MergeScan
