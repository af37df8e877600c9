import MergeScan.Proofs.Scanner.Reference

/-! # Cells that a scan does not heed

What a scan hands out of a list stays the same when cells leave the list that it neither
asks for nor has to know of: cells of other rows, values of other times, and markers that
are older than every value it asks for. A scan that hands out markers heeds whatever is in
its rows.
-/

namespace MergeScan

open CellOrder

variable {φ : Type} {family : Family} {scan : Scan φ} {cells : List Cell} {cell other : Cell}
variable {name : Bytes} {ahead : List Cell}

/-- Whether a cell can make a difference to what a scan hands out. -/
def Scan.heeds (scan : Scan φ) (cell : Cell) : Bool :=
  scan.rows.contains cell.row && (scan.retainDeletes || scan.timeRange.contains cell.timestamp ||
    cell.isDelete && scan.timeRange.reaches cell.timestamp)

/-! ## Cells of other rows -/

namespace Matcher

variable [CellFilter φ] {matcher : Matcher φ}

/-- Once a scan has come to its rows, cells of other rows may as well be missing. -/
theorem Arrived.output_contained (harrived : Arrived name matcher ahead) :
    matcher.output (ahead.filter fun cell => matcher.rows.contains cell.row) =
      matcher.output ahead := by
  induction hlength : ahead.length using Nat.strongRecOn generalizing matcher ahead with
  | ind length ih =>
      cases ahead with
      | nil => rfl
      | cons cell rest =>
          cases hrow : matcher.rows.contains cell.row with
          | false =>
              have hnone := harrived.none_contained hrow
              rw [harrived.output_past hnone, List.filter_eq_nil_iff.mpr, output_nil]
              intro other hother
              simp [hnone other hother]
          | true =>
              have hready := harrived.toPrepared.inRow_first
              have hjudged := hready.judged.2
              have hentered := isSome_row_inRow matcher cell.row
              -- what the cell leads to is the same, and what is ahead then is shorter
              have hnext {ahead : List Cell} (hcourse : ((matcher.inRow cell.row).look cell
                  rest).course = .ok ahead) :
                  ((matcher.inRow cell.row).look cell rest).next.output
                      (ahead.filter fun cell => matcher.rows.contains cell.row) =
                    ((matcher.inRow cell.row).look cell rest).next.output ahead := by
                have hrows : ((matcher.inRow cell.row).look cell rest).next.rows = matcher.rows :=
                  (rows_of_reset hjudged.reset_eq).trans (rows_inRow matcher cell.row)
                have hshorter := (goOn_suffix hcourse).length_le
                rw [← hrows]
                exact ih ahead.length (by rw [← hlength, List.length_cons]; omega)
                  (harrived.inRow_first.look hentered hcourse) rfl
              have hfirst : (cell :: rest).filter (fun cell => matcher.rows.contains cell.row) =
                  cell :: rest.filter fun cell => matcher.rows.contains cell.row :=
                List.filter_cons_of_pos hrow
              rw [hfirst]
              rcases hjudged.goOn_cases hready.plain hready.isReal with
                ⟨-, hgoOn⟩ | ⟨key, -, hgoOn⟩ | ⟨ending, hgoOn⟩
              · rw [output_cons_ok (hgoOn _), output_cons_ok (hgoOn _)]
                exact congrArg _ (hnext (hgoOn rest))
              · have hsorted := (List.pairwise_cons.mp harrived.sorted).2
                rw [output_cons_ok (hgoOn _), output_cons_ok (hgoOn _), skipTo_filter hsorted]
                exact congrArg _ (hnext (hgoOn rest))
              · rw [output_cons_error (hgoOn _), output_cons_error (hgoOn _)]
                rfl

end Matcher

namespace Scan

variable [CellFilter φ]

theorem Unfiltered.output_start_contained (hscan : scan.Unfiltered family)
    (hsorted : keys.Sorted cells) (hstored : Cell.StoredIn family.name cells) :
    (Reading.start family scan (cells.filter fun cell => scan.rows.contains cell.row)).output [] =
      (Reading.start family scan cells).output [] := by
  have hcontained := (hscan.arrived_start hsorted hstored).output_contained
  rw [← skipTo_filter hsorted] at hcontained
  exact hcontained

end Scan

/-! ## Cells of other times -/

theorem TimeRange.reaches_of_contains {range : TimeRange} {timestamp newer : Timestamp}
    (hcontains : range.contains timestamp = true) (hle : timestamp ≤ newer) :
    range.reaches newer = true := by
  rw [reaches, decide_eq_true_eq]
  rw [contains, position] at hcontains
  split at hcontains
  · cases hcontains
  next hstart => exact Std.le_trans (Std.not_lt.mp hstart) hle

namespace Matcher

theorem heeds_of_seeks {row : Bytes}
    (hseeks : ((ofScan family scan).entered row).seeks cell = true) :
    scan.rows.contains cell.row = true ∧ scan.timeRange.contains cell.timestamp = true ∧
      scan.heeds cell = true := by
  rw [seeks] at hseeks
  simp only [Bool.and_eq_true] at hseeks
  have hrow : scan.rows.contains cell.row = true := hseeks.1.1.2
  have htime : scan.timeRange.contains cell.timestamp = true := hseeks.1.2
  exact ⟨hrow, htime, by rw [Scan.heeds, hrow, htime, Bool.or_true, Bool.true_or]; rfl⟩

/-- Whether a value is handed out does not depend on cells that are not heeded. -/
theorem handsOut_heeded (hcell : cell ∈ cells) (hheeds : scan.heeds cell = true) :
    (ofScan family scan).handsOut (cells.filter scan.heeds) cell =
      (ofScan family scan).handsOut cells cell := by
  rw [handsOut, handsOut, Cell.inRow_filter]
  refine keeps_filter rfl rfl (fun other hother _ => finds_filter rfl rfl ?_)
    (fun other _ hdropped _ => ?_) rfl (Cell.mem_inRow.mpr ⟨hcell, rfl⟩) hheeds
  · -- a marker that deletes a value which is sought is heeded
    intro hseeks marker hmarker hdropped
    obtain ⟨hrow, htime, -⟩ := heeds_of_seeks hseeks
    have hsame := (Cell.mem_inRow.mp hmarker).2.trans (Cell.mem_inRow.mp hother).2.symm
    refine Bool.eq_false_iff.mpr fun hmasks => ?_
    have hreaches := TimeRange.reaches_of_contains htime (Cell.timestamp_le_of_masks hmasks)
    rw [Scan.heeds, hsame, hrow, Cell.isDelete_of_masks hmasks, hreaches] at hdropped
    simp at hdropped
  · refine Bool.eq_false_iff.mpr fun hfinds => ?_
    rw [finds, Bool.and_eq_true] at hfinds
    rw [(heeds_of_seeks hfinds.1).2.2] at hdropped
    cases hdropped

end Matcher

namespace Scan

variable [CellFilter φ]

/-- What a scan hands out of a list with one cell at each place stays the same when the cells that
it does not heed are missing. -/
theorem Plain.output_start_single (hplain : scan.Plain family) (hname : family.name ≠ [])
    (hsingle : keys.StrictlySorted cells) (hstored : Cell.StoredIn family.name cells)
    (htagged : ∀ cell ∈ cells, cell.Tagged) :
    (Reading.start family scan (cells.filter scan.heeds)).output [] =
      (Reading.start family scan cells).output [] := by
  have hmem (cell : Cell) (hcell : cell ∈ cells.filter scan.heeds) : cell ∈ cells :=
    (List.mem_filter.mp hcell).1
  have hall := hplain.steady.output_skipTo hname hsingle hstored htagged
  have hheeded := hplain.steady.output_skipTo hname (hsingle.sublist List.filter_sublist)
    (fun cell hcell => hstored cell (hmem cell hcell))
    fun cell hcell => htagged cell (hmem cell hcell)
  refine hheeded.trans (Eq.trans ?_ hall.symm)
  rw [List.filter_filter]
  -- whoever is handed out is sought, and so is heeded
  refine List.filter_congr fun cell hcell => ?_
  cases hheeds : scan.heeds cell with
  | true => rw [Matcher.handsOut_heeded hcell hheeds, Bool.and_true]
  | false =>
      rw [Bool.and_false, eq_comm, Bool.eq_false_iff]
      intro hhands
      have hfinds := Matcher.finds_of_handsOut hplain.retainDeletes hhands
      rw [Matcher.finds, Bool.and_eq_true] at hfinds
      rw [(Matcher.heeds_of_seeks hfinds.1).2.2] at hheeds
      cases hheeds

omit [CellFilter φ] in
/-- Copies are heeded alike. -/
theorem heeds_copy {copy : Cell} (hcopy : copy.IsReal) (hcell : cell.IsReal)
    (hsame : Cell.compareKeys copy cell = .eq) : scan.heeds copy = scan.heeds cell := by
  rw [Cell.eq_withValue hcell hcopy hsame]
  rfl

/-- What a scan hands out of a list stays the same when the cells that it does not heed are
missing. -/
theorem Unfiltered.output_start_heeded (hscan : scan.Unfiltered family) (hname : family.name ≠ [])
    (hsorted : keys.Sorted cells) (hstored : Cell.StoredIn family.name cells)
    (htagged : ∀ cell ∈ cells, cell.Tagged) :
    (Reading.start family scan (cells.filter scan.heeds)).output [] =
      (Reading.start family scan cells).output [] := by
  cases hretain : scan.retainDeletes with
  | true =>
      rw [← hscan.output_start_contained hsorted hstored]
      have hheeds (cell : Cell) : scan.heeds cell = scan.rows.contains cell.row := by
        rw [heeds, hretain, Bool.true_or, Bool.true_or, Bool.and_true]
      rw [List.filter_congr fun cell _ => hheeds cell]
  | false =>
      have hplain : scan.Plain family :=
        ⟨hscan.wellFormed, hscan.familyWellFormed, hscan.order, hscan.filter, hretain⟩
      have hsub := SortedRun.dedupe_sublist cells
      have hsame : SortedRun.dedupe (cells.filter scan.heeds) =
          (SortedRun.dedupe cells).filter scan.heeds :=
        SortedRun.dedupe_filter hsorted fun cell hcell copy hcopy =>
          heeds_copy (hstored copy hcopy).1 (hstored cell hcell).1
      have hheeded (cell : Cell) (hcell : cell ∈ cells.filter scan.heeds) : cell ∈ cells :=
        (List.mem_filter.mp hcell).1
      rw [← hplain.output_start_dedupe (hsorted.sublist List.filter_sublist)
          (fun cell hcell => hstored cell (hheeded cell hcell)), hsame,
        hplain.output_start_single hname (SortedRun.dedupe_strictlySorted hsorted)
          (fun cell hcell => hstored cell (hsub.mem hcell))
          (fun cell hcell => htagged cell (hsub.mem hcell)),
        hplain.output_start_dedupe hsorted hstored]

end Scan

end MergeScan
