import MergeScan.Family
import MergeScan.Proofs.Cell.Order
import MergeScan.Scan.Spec

/-! # Well-formed scans

The operations that narrow a scan down keep its columns ascending, and ask for one
version at least. The options of a family do the latter as well.
-/

namespace MergeScan

theorem mem_insertColumn {column other : Bytes} {columns : List Bytes} :
    other ∈ insertColumn column columns ↔ other = column ∨ other ∈ columns := by
  induction columns with
  | nil => simp [insertColumn]
  | cons first rest ih =>
      rw [insertColumn]
      split
      next => simp
      next heq =>
        rw [Std.LawfulEqCmp.eq_of_compare heq]
        simp
      next => simp [ih, or_left_comm]

theorem insertColumn_ascending (column : Bytes) {columns : List Bytes}
    (hcolumns : columns.Pairwise (· < ·)) : (insertColumn column columns).Pairwise (· < ·) := by
  induction columns with
  | nil => exact List.pairwise_singleton _ _
  | cons first rest ih =>
      obtain ⟨hfirst, hrest⟩ := List.pairwise_cons.mp hcolumns
      rw [insertColumn]
      split
      next hcompare =>
        rw [Std.compare_eq_lt] at hcompare
        refine List.pairwise_cons.mpr ⟨fun other hother => ?_, hcolumns⟩
        rcases List.mem_cons.mp hother with rfl | hmem
        · exact hcompare
        · have := hfirst other hmem
          grind
      next => exact hcolumns
      next hcompare =>
        rw [Std.compare_eq_gt] at hcompare
        refine List.pairwise_cons.mpr ⟨fun other hother => ?_, ih hrest⟩
        rcases mem_insertColumn.mp hother with rfl | hmem
        · exact hcompare
        · exact hfirst other hmem

namespace Scan

variable {φ : Type} {scan : Scan φ}

/-- What holds of every scan that was made with the operations on scans. -/
structure WellFormed (scan : Scan φ) : Prop where
  columns : scan.columns.Pairwise (· < ·)
  versions : 1 ≤ scan.maxVersions

theorem wellFormed_all : WellFormed ({} : Scan φ) :=
  ⟨List.Pairwise.nil, Nat.le_refl 1⟩

theorem wellFormed_ofRow (row : Bytes) : WellFormed (ofRow row : Scan φ) :=
  ⟨List.Pairwise.nil, Nat.le_refl 1⟩

theorem WellFormed.withRows (hscan : WellFormed scan) (rows : RowRange) :
    WellFormed (scan.withRows rows) :=
  ⟨hscan.columns, hscan.versions⟩

theorem WellFormed.withColumn (hscan : WellFormed scan) (column : Bytes) :
    WellFormed (scan.withColumn column) :=
  ⟨insertColumn_ascending column hscan.columns, hscan.versions⟩

theorem WellFormed.withMaxVersions (hscan : WellFormed scan) (count : Nat) :
    WellFormed (scan.withMaxVersions count) :=
  ⟨hscan.columns, Nat.le_max_right count 1⟩

theorem WellFormed.withBatch (hscan : WellFormed scan) (size : Nat) :
    WellFormed (scan.withBatch size) :=
  ⟨hscan.columns, hscan.versions⟩

end Scan

namespace Family

/-- What holds of the options of every family. -/
def WellFormed (family : Family) : Prop :=
  1 ≤ family.maxVersions

theorem wellFormed_withMaxVersions (family : Family) (count : Nat) :
    WellFormed (family.withMaxVersions count) :=
  Nat.le_max_right count 1

/-- A family of a name whose cells are in the usual order. -/
structure Usual (family : Family) : Prop where
  order : family.order = .keys
  versions : family.WellFormed
  named : family.name ≠ []

end Family

end MergeScan
