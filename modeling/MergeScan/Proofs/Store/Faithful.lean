import MergeScan.Proofs.Cell.Freshest
import MergeScan.Proofs.Store.Pruning
import MergeScan.Proofs.Store.Sound

/-! # What a run holds

A run is made of cells in any order. It holds the first one at each place, in strict
order, and nothing else. Its bounds are attained by cells that it holds, and bisection
finds in it what a search cell by cell would find.
-/

namespace MergeScan

open CellOrder

/-- Whether bounds are the least and the greatest of some values. There are none if there
are no values. -/
def Spans {α : Type} [LE α] (values : List α) : Option (α × α) → Prop
  | none => values = []
  | some (least, greatest) =>
    least ∈ values ∧ greatest ∈ values ∧ ∀ value ∈ values, least ≤ value ∧ value ≤ greatest

namespace SortedRun

/-! ## Bounds -/

theorem widen_start (cell : Cell) :
    widen (.latest, .oldest) cell = (cell.timestamp, cell.timestamp) := by
  have hlatest := Timestamp.le_latest cell.timestamp
  have holdest := Timestamp.oldest_le cell.timestamp
  simp only [widen, Prod.mk.injEq]
  grind

theorem widen_cases (bounds : Timestamp × Timestamp) (cell : Cell) :
    ((widen bounds cell).1 = bounds.1 ∨ (widen bounds cell).1 = cell.timestamp) ∧
      ((widen bounds cell).2 = bounds.2 ∨ (widen bounds cell).2 = cell.timestamp) := by
  simp only [widen]
  grind

/-- Bounds that get wider are attained, unless they are the ones at the beginning. -/
theorem foldl_widen_mem (cells : List Cell) (bounds : Timestamp × Timestamp) :
    (cells.foldl widen bounds).1 ∈ bounds.1 :: cells.map Cell.timestamp ∧
      (cells.foldl widen bounds).2 ∈ bounds.2 :: cells.map Cell.timestamp := by
  induction cells generalizing bounds with
  | nil => simp
  | cons cell rest ih =>
      obtain ⟨hwidenOldest, hwidenNewest⟩ := widen_cases bounds cell
      obtain ⟨holdest, hnewest⟩ := ih (widen bounds cell)
      rw [List.foldl_cons, List.map_cons]
      constructor <;> grind

/-- The times that the cells of a run lie between are times of its cells. -/
theorem bounds_mem (first : Cell) (rest : List Cell) :
    ((first :: rest).foldl widen (.latest, .oldest)).1 ∈ (first :: rest).map Cell.timestamp ∧
      ((first :: rest).foldl widen (.latest, .oldest)).2 ∈
        (first :: rest).map Cell.timestamp := by
  rw [List.foldl_cons, widen_start]
  exact foldl_widen_mem rest (first.timestamp, first.timestamp)

variable {run : SortedRun}

theorem spans_rowBounds (hsorted : keys.Sorted run.toList) :
    Spans (run.toList.map Cell.row) run.rowBounds := by
  cases hlist : run.toList with
  | nil =>
      rw [rowBounds_of_nil hlist]
      rfl
  | cons first rest =>
      rw [rowBounds_of_cons hlist]
      refine ⟨List.mem_map_of_mem List.mem_cons_self,
        List.mem_map_of_mem (List.getLast_mem _), fun row hrow => ?_⟩
      obtain ⟨cell, hcell, rfl⟩ := List.mem_map.mp hrow
      rw [hlist] at hsorted
      exact hsorted.row_between hcell

theorem spans_timeBounds (run : SortedRun) :
    Spans (run.toList.map Cell.timestamp) run.timeBounds := by
  cases hlist : run.toList with
  | nil =>
      rw [timeBounds_of_nil hlist]
      rfl
  | cons first rest =>
      obtain ⟨holdest, hnewest⟩ := bounds_mem first rest
      rw [timeBounds_of_cons hlist, hlist]
      refine ⟨holdest, hnewest, fun timestamp hstamp => ?_⟩
      obtain ⟨cell, hcell, rfl⟩ := List.mem_map.mp hstamp
      exact mem_bounds hcell _

/-- A run of cells in any order has a cell at the places of these cells and nowhere else, and
there it has the first of them, in strict order. Its rows and its times lie between the least
and the greatest that it holds, and a key is found in it as by a search cell by cell, where a
search from behind its end stops there. -/
theorem ofCells_faithful (id : RunId) (sequenceId : Nat) (cells : List Cell) :
    let run := ofCells id sequenceId cells
    keys.StrictlySorted run.toList ∧
    (∀ place, (∃ cell ∈ run.toList, keys.compare cell place = .eq) ↔
      ∃ cell ∈ cells, keys.compare cell place = .eq) ∧
    (∀ cell, cell ∈ run.toList ↔
      cells.find? (fun other => keys.compare other cell = .eq) = some cell) ∧
    Spans (run.toList.map Cell.row) run.rowBounds ∧
    Spans (run.toList.map Cell.timestamp) run.timeBounds ∧
    ∀ (start : Nat) (key : Cell), run.ceiling start key = min start run.size +
      (run.toList.drop start).findIdx fun cell => (keys.compare cell key).isGE := by
  intro run
  have hlist : run.toList = Cell.freshest cells := toList_ofCells id sequenceId cells
  have hstrict : keys.StrictlySorted run.toList := ofCells_strictlySorted id sequenceId cells
  refine ⟨hstrict, fun place => ⟨?_, ?_⟩, fun cell => ?_, spans_rowBounds hstrict.sorted,
    spans_timeBounds run, ceiling_eq hstrict.sorted⟩
  · rintro ⟨cell, hcell, hplace⟩
    exact ⟨cell, Cell.mem_of_mem_freshest (hlist ▸ hcell), hplace⟩
  · rintro ⟨cell, hcell, hplace⟩
    obtain ⟨copy, hcopy, hsame⟩ := Cell.exists_freshest hcell
    exact ⟨copy, hlist ▸ hcopy, Std.TransCmp.eq_trans hsame hplace⟩
  · rw [hlist, Cell.mem_freshest, copies, List.head?_filter]

end SortedRun

end MergeScan
