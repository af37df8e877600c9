import MergeScan.Proofs.Cell.Alike
import MergeScan.Source.Buffer
import MergeScan.Source.Run

/-! # Sources that are left out

A store leaves a source out of a scan if it has no time or no row in common with the scan.
Then each of its cells has another time or another row than the scan asks for.
-/

namespace MergeScan

open CellOrder

namespace SortedRun

/-- Bounds only get wider. -/
theorem le_foldl_widen (cells : List Cell) (bounds : Timestamp × Timestamp) :
    (cells.foldl widen bounds).1 ≤ bounds.1 ∧ bounds.2 ≤ (cells.foldl widen bounds).2 := by
  induction cells generalizing bounds with
  | nil => exact ⟨Std.le_refl _, Std.le_refl _⟩
  | cons cell rest ih =>
      obtain ⟨holdest, hnewest⟩ := ih (widen bounds cell)
      refine ⟨Std.le_trans holdest ?_, Std.le_trans ?_ hnewest⟩
      · unfold widen
        split
        next hlt => exact Std.le_of_lt hlt
        next => exact Std.le_refl _
      · unfold widen
        dsimp only
        split
        next hlt => exact Std.le_of_lt hlt
        next => exact Std.le_refl _

/-- The bounds of cells are bounds of each of them. -/
theorem mem_bounds {cells : List Cell} {cell : Cell} (hcell : cell ∈ cells)
    (bounds : Timestamp × Timestamp) : (cells.foldl widen bounds).1 ≤ cell.timestamp ∧
      cell.timestamp ≤ (cells.foldl widen bounds).2 := by
  induction cells generalizing bounds with
  | nil => cases hcell
  | cons first rest ih =>
      rcases List.mem_cons.mp hcell with rfl | hmem
      · obtain ⟨holdest, hnewest⟩ := le_foldl_widen rest (widen bounds cell)
        refine ⟨Std.le_trans holdest ?_, Std.le_trans ?_ hnewest⟩
        · unfold widen
          split
          next => exact Std.le_refl _
          next hnot => exact Std.not_lt.mp hnot
        · unfold widen
          dsimp only
          split
          next => exact Std.le_refl _
          next hnot => exact Std.not_lt.mp hnot
      · exact ih hmem _

end SortedRun

/-- Times between two that a range does not overlap lie outside of it. -/
theorem TimeRange.contains_of_not_overlaps {range : TimeRange} {oldest newest timestamp : Timestamp}
    (hoverlaps : range.overlaps oldest newest = false) (holdest : oldest ≤ timestamp)
    (hnewest : timestamp ≤ newest) : range.contains timestamp = false := by
  simp only [overlaps, Bool.and_eq_false_iff, decide_eq_false_iff_not, Bool.or_eq_false_iff]
    at hoverlaps
  unfold contains position
  rcases hoverlaps with hstart | ⟨hbounded, hstop⟩
  · rw [if_pos (Std.lt_of_le_of_lt hnewest (Std.not_le.mp hstart))]
    rfl
  · have hlate : range.stop ≤ timestamp := Std.le_trans (Std.not_lt.mp hstop) holdest
    split
    · rfl
    · rw [if_pos ⟨hbounded, hlate⟩]
      rfl

/-- Whether a cell has neither the row nor the time that a scan asks for. -/
def SourceRequest.misses (request : SourceRequest) (cell : Cell) : Bool :=
  !request.rows.contains cell.row || !request.timeRange.contains cell.timestamp

namespace SortedRun

variable {run : SortedRun} {first : Cell} {rest : List Cell}

theorem rowBounds_of_cons (hrun : run.toList = first :: rest) :
    run.rowBounds = some (first.row, ((first :: rest).getLast (by simp)).row) := by
  have hcells : run.cells = (first :: rest).toArray := congrArg List.toArray hrun
  simp [rowBounds, hcells, List.getLast?_eq_some_getLast]

theorem timeBounds_of_cons (hrun : run.toList = first :: rest) :
    run.timeBounds = some (run.toList.foldl widen (.latest, .oldest)) := by
  have hcells : run.cells = (first :: rest).toArray := congrArg List.toArray hrun
  simp [timeBounds, isEmpty, hcells]

theorem rowBounds_of_nil (hrun : run.toList = []) : run.rowBounds = none := by
  have hcells : run.cells = #[] := congrArg List.toArray hrun
  simp [rowBounds, hcells]

theorem timeBounds_of_nil (hrun : run.toList = []) : run.timeBounds = none := by
  have hcells : run.cells = #[] := congrArg List.toArray hrun
  simp [timeBounds, isEmpty, hcells]

/-- A run of cells concerns a scan if both have a time and a row in common. -/
theorem concerns_eq (hrun : run.toList = first :: rest) (request : SourceRequest) :
    run.concerns request =
      (request.timeRange.overlaps (run.toList.foldl widen (.latest, .oldest)).1
          (run.toList.foldl widen (.latest, .oldest)).2 &&
        request.rows.overlaps first.row ((first :: rest).getLast (by simp)).row) := by
  rw [concerns, rowBounds_of_cons hrun, timeBounds_of_cons hrun]

end SortedRun

/-- The rows of a sorted list lie between those of its first and of its last cell. -/
theorem CellOrder.Sorted.row_between {first : Cell} {rest : List Cell}
    (hsorted : keys.Sorted (first :: rest)) {cell : Cell} (hcell : cell ∈ first :: rest) :
    first.row ≤ cell.row ∧ cell.row ≤ ((first :: rest).getLast (by simp)).row := by
  constructor
  · rcases List.mem_cons.mp hcell with rfl | hmem
    · exact Std.le_refl _
    · exact Cell.row_le_of_isLE ((List.pairwise_cons.mp hsorted).1 cell hmem)
  · rw [← List.dropLast_concat_getLast (by simp : first :: rest ≠ [])] at hcell hsorted
    rcases List.mem_append.mp hcell with hmem | hmem
    · exact Cell.row_le_of_isLE ((List.pairwise_append.mp hsorted).2.2 cell hmem _
        (List.mem_singleton.mpr rfl))
    · rw [List.mem_singleton.mp hmem]
      exact Std.le_refl _

/-- Rows between two that a range does not overlap lie outside of it. -/
theorem RowRange.contains_of_not_overlaps {range : RowRange} {first last row : Bytes}
    (hoverlaps : range.overlaps first last = false) (hfirst : first ≤ row) (hlast : row ≤ last) :
    range.contains row = false := by
  cases hrow : range.contains row with
  | false => rfl
  | true =>
      obtain ⟨hstarts, hends⟩ := RowRange.contains_iff.mp hrow
      rw [← Bool.not_eq_true, RowRange.startsAfter_iff] at hstarts
      have hlate : (compare last range.start).isGE = true := by
        rw [Std.isGE_compare]
        exact Std.le_trans (Std.not_lt.mp hstarts) hlast
      have hearly : range.endsBefore first = true := by
        simpa [RowRange.overlaps, hlate] using hoverlaps
      rw [RowRange.endsBefore_mono hfirst hearly] at hends
      cases hends

/-- Each cell of a run that is left out has another row or another time than the scan asks
for. -/
theorem SortedRun.misses_of_not_concerns {run : SortedRun} {request : SourceRequest}
    (hsorted : keys.Sorted run.toList) (hconcerns : run.concerns request = false) {cell : Cell}
    (hcell : cell ∈ run.toList) : request.misses cell = true := by
  obtain ⟨first, rest, hlist⟩ := List.exists_cons_of_ne_nil (List.ne_nil_of_mem hcell)
  rw [concerns_eq hlist, Bool.and_eq_false_iff] at hconcerns
  unfold SourceRequest.misses
  rcases hconcerns with htimes | hrows
  · obtain ⟨holdest, hnewest⟩ := mem_bounds hcell (.latest, .oldest)
    rw [TimeRange.contains_of_not_overlaps htimes holdest hnewest]
    exact Bool.or_true _
  · rw [hlist] at hcell hsorted
    obtain ⟨hfirst, hlast⟩ := hsorted.row_between hcell
    rw [RowRange.contains_of_not_overlaps hrows hfirst hlast]
    rfl

/-- The bounds of a buffer are the ones of its cells. -/
def Buffer.Bounded (buffer : Buffer) : Prop :=
  (buffer.oldest, buffer.newest) = buffer.cells.foldl SortedRun.widen (.latest, .oldest)

/-- Each cell of a buffer that is left out has another time than the scan asks for. -/
theorem Buffer.misses_of_not_concerns {buffer : Buffer} {request : SourceRequest}
    (hbounded : buffer.Bounded) (hconcerns : buffer.concerns request = false) {cell : Cell}
    (hcell : cell ∈ buffer.cells) : request.misses cell = true := by
  rw [Buffer.concerns, Bool.or_eq_false_iff] at hconcerns
  obtain ⟨holdest, hnewest⟩ := SortedRun.mem_bounds hcell (.latest, .oldest)
  rw [← hbounded] at holdest hnewest
  unfold SourceRequest.misses
  rw [TimeRange.contains_of_not_overlaps hconcerns.2 holdest hnewest]
  exact Bool.or_true _

end MergeScan
