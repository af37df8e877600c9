import MergeScan.Proofs.Filter.Steady

/-! # Filters that leave out values

A filter that hands out all cells as they are and decides about rows by their keys alone may still
do so in many ways: it can pass over a value, lead on past the values of a row that it does not
want, or give up a row or the whole scan. Whichever way it goes, it only leaves out values that it
rejects. The filters on leading bytes are of this kind.
-/

namespace MergeScan

namespace Verdict

/-- What a verdict on a cell promises: a cell that is kept is one of those that are accepted, and
none of those that are left out with the cell is. -/
inductive Honors (accepts : Cell → Bool) (cell : Cell) (hint : Option Cell) : Verdict → Prop
  | keep : accepts cell = true → Honors accepts cell hint .keep
  | skip : accepts cell = false → Honors accepts cell hint .skip
  | nextRow : (∀ other, other.row = cell.row → cell.qualifier ≤ other.qualifier →
      accepts other = false) → Honors accepts cell hint .nextRow
  | seekHint (column : Bytes) : hint = some (Cell.firstOnColumn cell.row cell.family column) →
      cell.qualifier < column →
      (∀ other, other.row = cell.row → other.qualifier < column → accepts other = false) →
      Honors accepts cell hint .seekHint

end Verdict

namespace CellFilter

variable {φ : Type} [CellFilter φ]

/-- A filter that hands out cells as they are, and leaves out only values that it rejects: those of
the rows that it drops for their keys, and those that it does not accept. -/
structure Sieves (keepsRow : Bytes → Bool) (accepts : Cell → Bool) (filter : φ) : Prop where
  reshape reached cell : Reaches filter reached → CellFilter.reshape reached cell = cell
  judgeRow reached row : Reaches filter reached →
    (CellFilter.judgeRow reached row).1 = !keepsRow row
  judgeCell reached cell : Reaches filter reached →
    Verdict.Honors accepts cell (CellFilter.hint (CellFilter.judgeCell reached cell).2 cell)
      (CellFilter.judgeCell reached cell).1
  /-- Only a row ends the scan, and only where no later row is kept. -/
  stopsAtRow reached row : Reaches filter reached →
    stopsScan (CellFilter.judgeRow reached row).2 = true →
      stopsScan reached = true ∨ ∀ later, row ≤ later → keepsRow later = false
  resets reached : Reaches filter reached → stopsScan reached = false →
    stopsScan (CellFilter.reset reached) = false
  goesOn reached cell : Reaches filter reached → stopsScan reached = false →
    stopsScan (CellFilter.judgeCell reached cell).2 = false

variable {keepsRow : Bytes → Bool} {accepts : Cell → Bool} {filter reached : φ}

theorem Sieves.of_reaches (hsieves : Sieves keepsRow accepts filter)
    (hreaches : Reaches filter reached) : Sieves keepsRow accepts reached where
  reshape later cell hlater := hsieves.reshape later cell (hreaches.trans hlater)
  judgeRow later row hlater := hsieves.judgeRow later row (hreaches.trans hlater)
  judgeCell later cell hlater := hsieves.judgeCell later cell (hreaches.trans hlater)
  stopsAtRow later row hlater := hsieves.stopsAtRow later row (hreaches.trans hlater)
  resets later hlater := hsieves.resets later (hreaches.trans hlater)
  goesOn later cell hlater := hsieves.goesOn later cell (hreaches.trans hlater)

end CellFilter

/-! ## Leading bytes -/

namespace Bytes

variable {bytes lead later : Bytes}

theorem compareLead_eq_iff : bytes.compareLead lead = .eq ↔ bytes.startsWith lead = true := by
  induction lead generalizing bytes with
  | nil => simp [compareLead, startsWith]
  | cons first lead ih =>
      cases bytes with
      | nil => simp [compareLead, startsWith]
      | cons byte bytes =>
          simp only [compareLead, startsWith, List.isPrefixOf_cons_cons, Bool.and_eq_true,
            beq_iff_eq, Ordering.then_eq_eq, Std.LawfulEqCmp.compare_eq_iff_eq]
          rw [ih, startsWith, eq_comm]

theorem compareLead_lt_iff : bytes.compareLead lead = .lt ↔ bytes < lead := by
  induction lead generalizing bytes with
  | nil => simp [compareLead]
  | cons first lead ih =>
      cases bytes with
      | nil => simp [compareLead]
      | cons byte bytes =>
          rw [compareLead, List.cons_lt_cons_iff, Ordering.then_eq_lt, ih, Std.compare_eq_lt,
            Std.LawfulEqCmp.compare_eq_iff_eq]

/-- What comes after a string behind all those that begin with `lead` is behind them as well. -/
theorem compareLead_mono (hgt : bytes.compareLead lead = .gt) (hle : bytes ≤ later) :
    later.compareLead lead = .gt := by
  induction lead generalizing bytes later with
  | nil => simp [compareLead] at hgt
  | cons first lead ih =>
      cases bytes with
      | nil => simp [compareLead] at hgt
      | cons byte bytes =>
          cases later with
          | nil => exact absurd hle (by simp)
          | cons other later =>
              rw [compareLead, Ordering.then_eq_gt, Std.compare_eq_gt,
                Std.LawfulEqCmp.compare_eq_iff_eq] at hgt ⊢
              rcases List.cons_le_cons_iff.mp hle with hlt | ⟨rfl, hrest⟩
              · rcases hgt with hgt | ⟨rfl, -⟩
                · exact .inl (Std.lt_trans hgt hlt)
                · exact .inl hlt
              · exact hgt.imp_right fun ⟨heq, hgt⟩ => ⟨heq, ih hgt hrest⟩

theorem startsWith_of_compareLead_ne {ground : Ordering}
    (hcompare : bytes.compareLead lead = ground) (hne : ground ≠ .eq) :
    bytes.startsWith lead = false := by
  refine Bool.eq_false_iff.mpr fun hstarts => hne ?_
  rw [← hcompare, compareLead_eq_iff, hstarts]

end Bytes

open CellFilter

/-- In every state, a filter on the leading bytes of rows has the same leading bytes. -/
theorem RowLead.of_reaches {lead : Bytes} {passed : Bool} {reached : AnyFilter}
    (hreaches : Reaches (.rowLead { lead, passed }) reached) :
    ∃ passed, reached = .rowLead { lead, passed } := by
  induction hreaches with
  | start => exact ⟨passed, rfl⟩
  | reset _ ih =>
      obtain ⟨passed, rfl⟩ := ih
      exact ⟨passed, rfl⟩
  | judgeRow row _ ih =>
      obtain ⟨passed, rfl⟩ := ih
      simp only [CellFilter.judgeRow, Prod.map_snd]
      cases row.compareLead lead with
      | lt => exact ⟨passed, rfl⟩
      | eq => exact ⟨passed, rfl⟩
      | gt => exact ⟨true, rfl⟩
  | judgeCell cell _ ih =>
      obtain ⟨passed, rfl⟩ := ih
      exact ⟨passed, rfl⟩

/-- The filter on the leading bytes of rows drops the other rows, and ends the scan at one that is
behind all of them. -/
theorem RowLead.sieves (filter : RowLead) :
    Sieves (·.startsWith filter.lead) (fun _ => true) (AnyFilter.rowLead filter) where
  reshape reached cell hreaches := by
    obtain ⟨passed, rfl⟩ := RowLead.of_reaches hreaches
    rfl
  judgeRow reached row hreaches := by
    obtain ⟨passed, rfl⟩ := RowLead.of_reaches hreaches
    cases hcompare : row.compareLead filter.lead with
    | eq =>
        rw [Bytes.compareLead_eq_iff.mp hcompare]
        simp only [CellFilter.judgeRow, hcompare, Prod.map_fst]
        rfl
    | lt =>
        rw [Bytes.startsWith_of_compareLead_ne hcompare nofun]
        simp only [CellFilter.judgeRow, hcompare, Prod.map_fst]
        rfl
    | gt =>
        rw [Bytes.startsWith_of_compareLead_ne hcompare nofun]
        simp only [CellFilter.judgeRow, hcompare, Prod.map_fst]
        rfl
  judgeCell reached cell hreaches := by
    obtain ⟨passed, rfl⟩ := RowLead.of_reaches hreaches
    exact .keep rfl
  stopsAtRow reached row hreaches hstops := by
    obtain ⟨passed, rfl⟩ := RowLead.of_reaches hreaches
    cases hcompare : row.compareLead filter.lead with
    | eq =>
        simp only [CellFilter.judgeRow, hcompare, Prod.map_snd] at hstops
        exact .inl hstops
    | lt =>
        simp only [CellFilter.judgeRow, hcompare, Prod.map_snd] at hstops
        exact .inl hstops
    | gt =>
        exact .inr fun later hle =>
          Bytes.startsWith_of_compareLead_ne (Bytes.compareLead_mono hcompare hle) nofun
  resets reached hreaches hgoesOn := by
    obtain ⟨passed, rfl⟩ := RowLead.of_reaches hreaches
    exact hgoesOn
  goesOn reached cell hreaches hgoesOn := by
    obtain ⟨passed, rfl⟩ := RowLead.of_reaches hreaches
    exact hgoesOn

/-- The filter on the leading bytes of columns leads on to the first of the columns, and leaves a
row behind the last of them. -/
theorem ColumnLead.sieves (filter : ColumnLead) :
    Sieves (fun _ => true) (·.qualifier.startsWith filter.lead) (AnyFilter.columnLead filter) := by
  -- whatever it is asked, the filter stays as it is
  have hstays (cell : Cell) :
      (CellFilter.judgeCell (AnyFilter.columnLead filter) cell).2 = .columnLead filter := by
    simp only [CellFilter.judgeCell, Prod.map_snd]
    cases cell.qualifier.compareLead filter.lead <;> rfl
  have hsame (reached : AnyFilter) (hreaches : Reaches (.columnLead filter) reached) :
      reached = .columnLead filter := by
    induction hreaches with
    | start => rfl
    | reset _ ih => rw [ih]; rfl
    | judgeRow row _ ih => rw [ih]; rfl
    | judgeCell cell _ ih => rw [ih, hstays]
  refine ⟨fun reached cell hreaches => ?_, fun reached row hreaches => ?_,
    fun reached cell hreaches => ?_, fun reached row hreaches hstops => ?_,
    fun reached hreaches hgoesOn => ?_, fun reached cell hreaches hgoesOn => ?_⟩
  all_goals obtain rfl := hsame reached hreaches
  · rfl
  · rfl
  · rw [hstays]
    cases hcompare : cell.qualifier.compareLead filter.lead with
    | eq =>
        simp only [CellFilter.judgeCell, hcompare, Prod.map_fst]
        exact .keep (Bytes.compareLead_eq_iff.mp hcompare)
    | lt =>
        simp only [CellFilter.judgeCell, hcompare, Prod.map_fst]
        refine .seekHint filter.lead rfl (Bytes.compareLead_lt_iff.mp hcompare)
          fun other _ hlt => ?_
        exact Bytes.startsWith_of_compareLead_ne (Bytes.compareLead_lt_iff.mpr hlt) nofun
    | gt =>
        simp only [CellFilter.judgeCell, hcompare, Prod.map_fst]
        refine .nextRow fun other _ hle => ?_
        exact Bytes.startsWith_of_compareLead_ne (Bytes.compareLead_mono hcompare hle) nofun
  · exact .inl hstops
  · exact hgoesOn
  · rw [hstays]
    exact hgoesOn

end MergeScan
