import MergeScan.Proofs.Cell.Rows
import MergeScan.Proofs.Matcher.Masks
import MergeScan.Proofs.Matcher.Steps

/-! # Values that a matcher refuses

A marker comes before the values that it deletes. Once a matcher has looked at the marker, it
refuses these values for the rest of the row: because it remembers the marker, or because
they are too old for the scan as the marker is. The same holds behind a column that is left,
unless it is left because of a value.
-/

namespace MergeScan

namespace Cell

variable {name : Bytes} {first second marker value : Cell}

/-- In one row, a cell that comes first leads. -/
theorem leads_of_isLE (hfirst : first.IsReal ∧ first.family = name)
    (hsecond : second.IsReal ∧ second.family = name) (hrow : first.row = second.row)
    (hle : (compareKeys first second).isLE = true) :
    first.Leads second ∧ (first.qualifier = second.qualifier →
      first.timestamp = second.timestamp → second.kind.code ≤ first.kind.code) := by
  have hnot : ¬compareKeys second first = .lt := by
    intro hlt
    have hswap : compareKeys first second = (compareKeys second first).swap :=
      Std.OrientedCmp.eq_swap
    rw [hswap, hlt] at hle
    cases hle
  rw [compareKeys_eq_lt_iff hsecond.1.not_lastOnRow hfirst.1.not_lastOnRow, hfirst.2,
    hsecond.2] at hnot
  refine ⟨⟨?_, ?_⟩, ?_⟩ <;> grind

/-- The first cell of a list leads those of its row. -/
theorem leads_of_sorted {rest : List Cell} (hsorted : CellOrder.keys.Sorted (first :: rest))
    (hstored : StoredIn name (first :: rest)) (hsecond : second ∈ first :: rest)
    (hrow : second.row = first.row) : first.Leads second := by
  have hle : (compareKeys first second).isLE = true := by
    rcases List.mem_cons.mp hsecond with rfl | hmem
    · have hself : compareKeys second second = .eq := Std.ReflCmp.compare_self
      rw [hself]
      rfl
    · exact (List.pairwise_cons.mp hsorted).1 second hmem
  exact (leads_of_isLE (hstored first List.mem_cons_self) (hstored second hsecond) hrow.symm hle).1

/-- A marker that is not on a whole row deletes only in its own column. -/
theorem qualifier_eq_of_masks (hmasks : marker.masks value = true)
    (hkind : marker.kind ≠ .deleteFamily) : marker.qualifier = value.qualifier := by
  unfold masks at hmasks
  cases heq : marker.kind <;> simp_all

/-- A marker on a whole row stands in the column without a name. -/
def Nameless (cell : Cell) : Prop :=
  cell.kind = .deleteFamily → cell.qualifier = []

instance (cell : Cell) : Decidable cell.Nameless :=
  inferInstanceAs (Decidable (_ → _))

/-- A marker comes before the values that it deletes. -/
theorem lt_of_masks (hmarker : marker.IsReal ∧ marker.family = name)
    (hvalue : value.IsReal ∧ value.family = name) (hrow : marker.row = value.row)
    (hnameless : marker.Nameless) (hput : value.kind = .put)
    (hmasks : marker.masks value = true) : compareKeys marker value = .lt := by
  have hcode : value.kind.code < marker.kind.code := by
    have hdelete := isDelete_of_masks hmasks
    unfold isDelete at hdelete
    rw [hput]
    cases hkind : marker.kind <;> simp_all [CellKind.isDelete, CellKind.code]
  have hstamp := timestamp_le_of_masks hmasks
  have hcolumn : marker.qualifier < value.qualifier ∨ marker.qualifier = value.qualifier := by
    by_cases hfamily : marker.kind = .deleteFamily
    · have hle : marker.qualifier ≤ value.qualifier := by
        rw [hnameless hfamily]
        exact List.nil_le _
      grind
    · exact .inr (qualifier_eq_of_masks hmasks hfamily)
  rw [compareKeys_eq_lt_iff hmarker.1.not_lastOnRow hvalue.1.not_lastOnRow, hmarker.2, hvalue.2]
  grind

end Cell

namespace Matcher

variable {φ : Type} [CellFilter φ] {matcher next : Matcher φ} {cell marker value : Cell}
variable {decision : Decision}

/-- Whether a matcher will not hand out a value when it comes to it, whatever comes before. -/
def Refuses (matcher : Matcher φ) (value : Cell) : Prop :=
  matcher.markers.hides value.qualifier value.timestamp = true ∨
    matcher.columns.rule.rulesOut value.timestamp = true ∨
    matcher.timeRange.position value.timestamp = .lt

omit [CellFilter φ] in
theorem position_lt_iff {range : TimeRange} {timestamp : Timestamp} :
    range.position timestamp = .lt ↔ timestamp < range.start := by
  unfold TimeRange.position
  split
  next hlt => simp [hlt]
  next hnot => split <;> simp [hnot]

/-- What is refused is refused later on as well. -/
theorem Judged.refuses (hjudged : Judged matcher cell decision next)
    (hmet : matcher.markers.Met cell) (hleads : cell.Leads value)
    (hrefuses : matcher.Refuses value) : next.Refuses value := by
  rcases hrefuses with hhides | hold | hearly
  · exact .inl (hjudged.hides hmet hleads hhides)
  · exact .inr (.inl (rule_of_reset hjudged.reset_eq ▸ hold))
  · exact .inr (.inr (timeRange_of_reset hjudged.reset_eq ▸ hearly))

/-- The values that a marker deletes are refused once it was looked at. -/
theorem Judged.refuses_masked (hjudged : Judged matcher cell decision next)
    (hlooked : matcher.decideRow cell = none) (hmet : matcher.markers.Met cell)
    (hleads : cell.Leads value) (hmasks : cell.masks value = true) : next.Refuses value := by
  have hdelete := Cell.isDelete_of_masks hmasks
  have hstamp := Cell.timestamp_le_of_masks hmasks
  have hrule := rule_of_reset hjudged.reset_eq
  cases hjudged with
  | row decision hrow => exact nomatch hlooked.symm.trans hrow
  | expired hrow hage => exact .inr (.inl (hrule ▸ VersionRule.rulesOut_mono hstamp hage))
  | marker hconsiders hmarker =>
      unfold Refuses
      simp only [decideMarker]
      split
      next hreaches => exact .inl (by rw [hmet.hides_add hleads hdelete, hmasks, Bool.or_true])
      next hreaches =>
        refine .inr (.inr (position_lt_iff.mpr ?_))
        simp only [TimeRange.reaches, decide_eq_true_eq] at hreaches
        grind
  | masked hconsiders hvalue hhides => rw [hvalue] at hdelete; cases hdelete
  | tooNew hlive hposition => rw [hlive.value] at hdelete; cases hdelete
  | tooOld hlive hposition => rw [hlive.value] at hdelete; cases hdelete
  | version decision columns hlive hposition hchecked =>
      rw [hlive.value] at hdelete
      cases hdelete

/-- Where a column is left, what was deleted by an older marker is refused, unless it is left
because of a value. -/
theorem Judged.refuses_or_put (hjudged : Judged matcher cell decision next)
    (hreal : cell.IsReal) (hleaves : decision = .nextColumn ∨ decision = .emitThenNextColumn)
    (hmasks : marker.masks value = true) (holder : marker.timestamp ≤ cell.timestamp) :
    next.Refuses value ∨ cell.kind = .put := by
  have hstamp := Std.le_trans (Cell.timestamp_le_of_masks hmasks) holder
  have hrule := rule_of_reset hjudged.reset_eq
  cases hjudged with
  | row decision hrow =>
      have hmem := decideRow_mem hrow
      rcases hleaves with rfl | rfl <;> simp at hmem
  | expired hrow hage => exact .inl (.inr (.inl (hrule ▸ VersionRule.rulesOut_mono hstamp hage)))
  | marker hconsiders hdelete =>
      rcases matcher.markerDecision_eq with ⟨heq, -⟩ | ⟨heq, -⟩ <;> simp [heq] at hleaves
  | masked hconsiders hvalue hhides => simp at hleaves
  | tooNew hlive hposition => simp at hleaves
  | tooOld hlive hposition => exact .inr (hreal.kind_eq_put hlive.value)
  | version decision columns hlive hposition hchecked =>
      exact .inr (hreal.kind_eq_put hlive.value)

/-- The cells that are looked at are those of the current row, in any order of rows. -/
theorem row_eq_of_looked {order : CellOrder} [CellOrder.RowWise order]
    (horder : matcher.order = order) (hentered : matcher.row.isSome = true)
    (hlooked : matcher.decideRow cell = none) : matcher.row = some cell.row := by
  obtain ⟨row, hrow⟩ := Option.isSome_iff_exists.mp hentered
  have hsame : order.compareRows row cell.row = .eq := by
    have hcompare : matcher.compareRow cell = order.compareRows row cell.row := by
      rw [compareRow, hrow, horder]
    unfold decideRow at hlooked
    rw [hcompare] at hlooked
    split at hlooked
    · cases hlooked
    · split at hlooked
      · cases hlooked
      · split at hlooked
        next => cases hlooked
        next => cases hlooked
        next heq => exact heq
  rw [hrow, Std.LawfulEqCmp.eq_of_compare hsame]

omit [CellFilter φ] in
/-- Cells of one column lie on the same side of the key at which a column is left. -/
theorem lt_nextColumnKey_of_column {first second : Cell} (hfirst : first.IsReal)
    (hsecond : second.IsReal) (hrow : first.row = second.row)
    (hfamily : first.family = second.family) (hqualifier : first.qualifier = second.qualifier)
    (hlt : Cell.compareKeys first (matcher.nextColumnKey cell) = .lt) :
    Cell.compareKeys second (matcher.nextColumnKey cell) = .lt := by
  unfold nextColumnKey at *
  split at hlt
  next column hcolumn =>
    rw [Cell.lt_firstOnColumn_iff hfirst.1, hrow, hfamily, hqualifier] at hlt
    exact (Cell.lt_firstOnColumn_iff hsecond.1 _ _ _).mpr hlt
  next =>
    by_cases hnamed : cell.family ≠ [] ∨ cell.qualifier ≠ []
    · rw [Cell.lt_lastOnColumn_iff hfirst.1 hnamed, hrow, hfamily, hqualifier] at hlt
      exact (Cell.lt_lastOnColumn_iff hsecond.1 hnamed _).mpr hlt
    · rw [not_or, Decidable.not_not, Decidable.not_not] at hnamed
      rw [hnamed.1, hnamed.2] at hlt ⊢
      have hle : first.row ≤ cell.row := (Cell.lt_lastOnRow_iff hfirst.1 cell.row).mp hlt
      exact (Cell.lt_lastOnRow_iff hsecond.1 cell.row).mpr (hrow ▸ hle)

end Matcher

end MergeScan
