import MergeScan.Cell.Order
import MergeScan.Time.Clock

/-! # Column families

The options of a column family bound what any scan of it can see: how many
versions of a column, and how old they may be.
-/

namespace MergeScan

/-- The options of a column family. -/
structure Family where
  name : Bytes
  /-- The age from which on cells are no longer handed out. -/
  ttl : Option Duration := none
  /-- The number of versions that are handed out whatever their age. -/
  minVersions : Nat := 0
  /-- The number of versions that a scan can get at most, at least one. -/
  maxVersions : Nat := 1
  order : CellOrder := .keys
  clock : Clock

namespace Family

/-- Bound the number of versions. A bound of none is one of one. -/
def withMaxVersions (family : Family) (count : Nat) : Family :=
  { family with maxVersions := max count 1 }

/-- The number of versions that a scan gets which asks for `requested`. -/
def versionsFor (family : Family) (requested : Nat) : Nat :=
  min requested family.maxVersions

/-- The oldest timestamp that has not expired by now, if cells expire at all. -/
def oldestUnexpired (family : Family) : Option Timestamp :=
  family.ttl.map family.clock.now.subSaturating

/-- The printed form of the options. -/
def describe (family : Family) : String :=
  Text.record "FamilyOptions"
    [("name", family.name.quoted),
      ("ttl", Text.option (family.ttl.map Duration.text)),
      ("min_versions", Nat.repr family.minVersions),
      ("max_versions", Nat.repr family.maxVersions),
      ("comparator", family.order.name),
      ("clock", family.clock.describe)]

end Family

end MergeScan
