import MergeScan.Filter.Any

/-! # Filters that a scan can be cut under

A scan that is read in pieces asks its filter the same questions in the same order as one
that is read row by row, as long as the filter does not decide on complete rows, and goes on
to stop the scan once it has stopped it.
-/

namespace MergeScan

namespace CellFilter

variable {φ : Type} [CellFilter φ]

/-- The states that a filter comes to by the questions that a scan asks it. -/
inductive Reaches (filter : φ) : φ → Prop
  | start : Reaches filter filter
  | reset {reached : φ} : Reaches filter reached → Reaches filter (CellFilter.reset reached)
  | judgeRow {reached : φ} (row : Bytes) : Reaches filter reached →
      Reaches filter (CellFilter.judgeRow reached row).2
  | judgeCell {reached : φ} (cell : Cell) : Reaches filter reached →
      Reaches filter (CellFilter.judgeCell reached cell).2

/-- A filter that never decides on complete rows, and does not take back that it stops the
scan. -/
structure Steady (filter : φ) : Prop where
  byCell reached : Reaches filter reached → CellFilter.needsWholeRow reached = false
  stopped reached later : Reaches filter reached → Reaches reached later →
    CellFilter.stopsScan reached = true → CellFilter.stopsScan later = true

variable {first second third : φ}

theorem Reaches.trans (hfirst : Reaches first second) (hsecond : Reaches second third) :
    Reaches first third := by
  induction hsecond with
  | start => exact hfirst
  | reset _ ih => exact ih.reset
  | judgeRow row _ ih => exact ih.judgeRow row
  | judgeCell cell _ ih => exact ih.judgeCell cell

theorem Steady.of_reaches (hsteady : Steady first) (hreaches : Reaches first second) :
    Steady second where
  byCell reached hreached := hsteady.byCell reached (hreaches.trans hreached)
  stopped reached later hreached := hsteady.stopped reached later (hreaches.trans hreached)

/-- Whether a scan that has one filter, or none, comes to have another. -/
def ComesTo : (first second : Option φ) → Prop
  | none, none => True
  | some first, some second => Reaches first second
  | none, some _ | some _, none => False

/-- Whether a cell is handed out as it is, or as a filter makes it in a state that the filter
comes to. -/
def Shapes (filter : Option φ) (cell shaped : Cell) : Prop :=
  match filter with
  | none => shaped = cell
  | some first => ∃ reached, Reaches first reached ∧ shaped = CellFilter.reshape reached cell

theorem ComesTo.refl (filter : Option φ) : ComesTo filter filter := by
  cases filter with
  | none => trivial
  | some filter => exact Reaches.start

theorem ComesTo.trans {first second third : Option φ} (hfirst : ComesTo first second)
    (hsecond : ComesTo second third) : ComesTo first third := by
  match first, second, third with
  | none, none, none => trivial
  | some first, some second, some third => exact Reaches.trans hfirst hsecond

theorem ComesTo.steady {first second : Option φ} (hcomes : ComesTo first second)
    (hsteady : ∀ state ∈ first, Steady state) : ∀ state ∈ second, Steady state := by
  match first, second with
  | none, none => exact nofun
  | some first, some second =>
      rintro _ ⟨⟩
      exact (hsteady first rfl).of_reaches hcomes

theorem ComesTo.shapes {first second : Option φ} (hcomes : ComesTo first second)
    {cell shaped : Cell} (hshapes : Shapes second cell shaped) : Shapes first cell shaped := by
  match first, second with
  | none, none => exact hshapes
  | some first, some second =>
      obtain ⟨reached, hreached, hshaped⟩ := hshapes
      exact ⟨reached, Reaches.trans hcomes hreached, hshaped⟩

/-- A filter is steady if no question makes it take back its answers about complete rows and
about the end of the scan. -/
theorem steady_of_keeps
    (hreset : ∀ filter : φ, needsWholeRow (CellFilter.reset filter) = needsWholeRow filter ∧
      (stopsScan filter = true → stopsScan (CellFilter.reset filter) = true))
    (hrow : ∀ (filter : φ) row,
      needsWholeRow (CellFilter.judgeRow filter row).2 = needsWholeRow filter ∧
        (stopsScan filter = true → stopsScan (CellFilter.judgeRow filter row).2 = true))
    (hcell : ∀ (filter : φ) cell,
      needsWholeRow (CellFilter.judgeCell filter cell).2 = needsWholeRow filter ∧
        (stopsScan filter = true → stopsScan (CellFilter.judgeCell filter cell).2 = true))
    (hfirst : needsWholeRow first = false) : Steady first where
  byCell reached hreached := by
    induction hreached with
    | start => exact hfirst
    | reset _ ih => exact (hreset _).1.trans ih
    | judgeRow row _ ih => exact (hrow _ row).1.trans ih
    | judgeCell cell _ ih => exact (hcell _ cell).1.trans ih
  stopped reached later _ hlater hstops := by
    induction hlater with
    | start => exact hstops
    | reset _ ih => exact (hreset _).2 ih
    | judgeRow row _ ih => exact (hrow _ row).2 ih
    | judgeCell cell _ ih => exact (hcell _ cell).2 ih

end CellFilter

/-- A row can show that all rows to keep have passed, and no row shows that they have not. -/
theorem RowLead.stopsScan_judgeRow (filter : RowLead) (row : Bytes)
    (hstops : CellFilter.stopsScan filter = true) :
    CellFilter.stopsScan (CellFilter.judgeRow filter row).2 = true := by
  simp only [CellFilter.judgeRow]
  split
  · exact hstops
  · exact hstops
  · rfl

/-- A script counts the rows that it was asked about, and never fewer than before. -/
theorem FilterScript.stopsScan_judgeRow (script : FilterScript) (row : Bytes)
    (hstops : CellFilter.stopsScan script = true) :
    CellFilter.stopsScan (CellFilter.judgeRow script row).2 = true := by
  simp only [CellFilter.judgeRow, CellFilter.stopsScan] at hstops ⊢
  split at hstops
  next rows _ =>
    simp only [decide_eq_true_eq] at hstops ⊢
    exact Nat.lt_succ_of_lt hstops
  next => cases hstops

/-- Of the filters of the library, those that do not decide on complete rows are steady. -/
theorem AnyFilter.steady {filter : AnyFilter} (hfilter : CellFilter.needsWholeRow filter = false) :
    CellFilter.Steady filter := by
  apply CellFilter.steady_of_keeps _ _ _ hfilter
  · intro filter
    cases filter <;> exact ⟨rfl, id⟩
  · intro filter row
    cases filter with
    | rowLead filter => exact ⟨rfl, filter.stopsScan_judgeRow row⟩
    | columnLead filter => exact ⟨rfl, id⟩
    | keyOnly filter => exact ⟨rfl, id⟩
    | columnValue filter => exact ⟨rfl, id⟩
    | scripted script => exact ⟨rfl, script.stopsScan_judgeRow row⟩
  · intro filter cell
    cases filter <;> exact ⟨rfl, id⟩

end MergeScan
