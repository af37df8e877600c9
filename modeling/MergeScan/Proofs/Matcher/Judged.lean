import MergeScan.Matcher.Basic
import MergeScan.Proofs.Matcher.Columns

/-! # What a matcher can decide

Without a filter, and for cells that arrive in order, a matcher has seven grounds
to decide on a cell. They are listed here once, with what the matcher remembers
afterwards; everything else that is known of a decision follows from the list.
-/

namespace MergeScan

namespace RowMarkers

/-- Whether a value is deleted by one of the markers. -/
def hides (markers : RowMarkers) (qualifier : Bytes) (timestamp : Timestamp) : Bool :=
  markers.coversRow timestamp || markers.column.any fun marker =>
    marker.qualifier = qualifier &&
      (marker.kind = .deleteColumn || marker.timestamp = timestamp)

/-- The markers that are left after a value was looked at. -/
def after (markers : RowMarkers) (qualifier : Bytes) (timestamp : Timestamp) : RowMarkers :=
  if markers.hides qualifier timestamp then markers else { markers with column := none }

variable {markers : RowMarkers} {qualifier : Bytes} {timestamp : Timestamp}

theorem masks_eq (hcolumn : ∀ marker, markers.column = some marker →
    marker.qualifier ≤ qualifier) :
    markers.masks qualifier timestamp =
      .ok (markers.hides qualifier timestamp, markers.after qualifier timestamp) := by
  unfold masks after hides
  cases hcovers : markers.coversRow timestamp with
  | true => simp
  | false =>
      cases hmarker : markers.column with
      | none =>
          simp only [Bool.false_eq_true, if_false, Option.any_none, Bool.or_false]
          rw [← hmarker]
      | some marker =>
          have hle := hcolumn marker hmarker
          simp only [Bool.false_eq_true, if_false, Option.any_some, Bool.false_or]
          cases hcompare : compare marker.qualifier qualifier with
          | gt =>
              rw [Std.compare_eq_gt] at hcompare
              exact absurd hle (Std.not_le.mpr hcompare)
          | lt =>
              rw [Std.compare_eq_lt] at hcompare
              have hne : marker.qualifier ≠ qualifier := by grind
              simp [hne]
          | eq =>
              have heq := Std.LawfulEqCmp.eq_of_compare hcompare
              simp only [heq, decide_true, Bool.true_and]
              split
              next hmasked => simp [hmasked]
              next hmasked => simp [hmasked]

/-- A value that was held against the markers did not come before the one on a column. -/
theorem eq_of_masks {found : Bool × RowMarkers}
    (hmasks : markers.masks qualifier timestamp = .ok found) :
    found = (markers.hides qualifier timestamp, markers.after qualifier timestamp) := by
  by_cases hcovers : markers.coversRow timestamp = true
  · have hhides : markers.hides qualifier timestamp = true := by simp [hides, hcovers]
    rw [masks, if_pos hcovers] at hmasks
    rw [hhides, after, if_pos hhides]
    exact (Except.ok.inj hmasks).symm
  · have hcolumn : ∀ marker, markers.column = some marker → marker.qualifier ≤ qualifier := by
      intro marker hmarker
      rcases hcompare : compare marker.qualifier qualifier with _ | _ | _
      · exact Std.le_of_lt (Std.compare_eq_lt.mp hcompare)
      · exact Std.LawfulEqCmp.eq_of_compare hcompare ▸ Std.le_refl _
      · simp only [masks, hcovers, hmarker, hcompare] at hmasks
        cases hmasks
    rw [masks_eq hcolumn] at hmasks
    exact (Except.ok.inj hmasks).symm

/-- A second look at a value finds the same. -/
@[simp] theorem hides_after : (markers.after qualifier timestamp).hides qualifier timestamp =
    markers.hides qualifier timestamp := by
  unfold after
  split
  · rfl
  next hnot =>
    simp only [hides, Bool.or_eq_true, not_or, Bool.not_eq_true] at hnot
    have hcovers : RowMarkers.coversRow { markers with column := none } timestamp = false :=
      hnot.1
    rw [hides, hides, hcovers, hnot.1, hnot.2]
    rfl

@[simp] theorem after_after : (markers.after qualifier timestamp).after qualifier timestamp =
    markers.after qualifier timestamp := by
  rw [after, hides_after]
  unfold after
  split <;> rfl

theorem column_after {marker : ColumnMarker}
    (hmarker : (markers.after qualifier timestamp).column = some marker) :
    markers.column = some marker := by
  unfold after at hmarker
  split at hmarker
  · exact hmarker
  · cases hmarker

/-- A marker that comes again changes nothing. -/
theorem add_add (kind : CellKind) :
    (markers.add qualifier kind timestamp).add qualifier kind timestamp =
      markers.add qualifier kind timestamp := by
  by_cases hrow : markers.coversRow timestamp = true
  · have hadd : markers.add qualifier kind timestamp = markers := if_pos hrow
    rw [hadd, hadd]
  · by_cases hfamily : kind = .deleteFamily
    · have hadd : markers.add qualifier kind timestamp =
          { markers with wholeRow := some timestamp } := by
        rw [add, if_neg hrow, if_pos hfamily]
      rw [hadd, add, if_pos]
      exact decide_eq_true (Std.le_refl timestamp)
    · by_cases hcolumn : markers.coversColumn qualifier kind = true
      · have hadd : markers.add qualifier kind timestamp = markers := by
          rw [add, if_neg hrow, if_neg hfamily, if_pos hcolumn]
        rw [hadd, hadd]
      · have hadd : markers.add qualifier kind timestamp =
            { markers with column := some ⟨qualifier, kind, timestamp⟩ } := by
          rw [add, if_neg hrow, if_neg hfamily, if_neg hcolumn]
        have hstill : ¬RowMarkers.coversRow
            { markers with column := some ⟨qualifier, kind, timestamp⟩ } timestamp = true := hrow
        rw [hadd, add, if_neg hstill, if_neg hfamily, if_neg]
        simp [coversColumn]

/-- A marker on a column that is remembered is the one that was added or was there before. -/
theorem column_add {kind : CellKind} {marker : ColumnMarker}
    (hmarker : (markers.add qualifier kind timestamp).column = some marker) :
    markers.column = some marker ∨ marker = ⟨qualifier, kind, timestamp⟩ := by
  unfold add at hmarker
  split at hmarker
  · exact .inl hmarker
  · split at hmarker
    · exact .inl hmarker
    · split at hmarker
      · exact .inl hmarker
      · exact .inr (Option.some.inj hmarker).symm

end RowMarkers

namespace Matcher

variable {φ : Type} [CellFilter φ]

/-- A matcher of a scan without a filter. -/
structure Plain (matcher : Matcher φ) : Prop where
  filter : matcher.filter = none
  order : matcher.order = .keys
  columns : matcher.columns.Ascending

/-- A cell comes no earlier in its row than what the matcher remembers. -/
structure Fits (matcher : Matcher φ) (cell : Cell) : Prop where
  column column : matcher.columns.choice = .every (some column) → column ≤ cell.qualifier
  marker marker : matcher.markers.column = some marker → marker.qualifier ≤ cell.qualifier

/-- A cell has to be looked at: its row is being read, and it is not too old. -/
structure Considers (matcher : Matcher φ) (cell : Cell) : Prop where
  row : matcher.decideRow cell = none
  age : matcher.columns.rule.rulesOut cell.timestamp = false

/-- A value that no marker of its row deletes. -/
structure Considers.Live (matcher : Matcher φ) (cell : Cell) : Prop
    extends Considers matcher cell where
  value : cell.isDelete = false
  live : matcher.markers.hides cell.qualifier cell.timestamp = false

/-- What is decided on a marker that was remembered: it is handed out or passed over. -/
def markerDecision (matcher : Matcher φ) : Decision :=
  if matcher.retainDeletes then .emit else .skip

/-- The matcher after a value was held against the markers. -/
def afterMarkers (matcher : Matcher φ) (cell : Cell) : Matcher φ :=
  { matcher with markers := matcher.markers.after cell.qualifier cell.timestamp }

/-- The matcher after the versions of a column decided on a value. -/
def withProgress (matcher : Matcher φ) (decision : Decision) (columns : ColumnProgress) :
    Matcher φ :=
  { matcher with columns, rowOver := matcher.rowOver || decision = .nextRow }

/-- The grounds to decide on a cell, and the matcher as it is then. -/
inductive Judged (matcher : Matcher φ) (cell : Cell) : Decision → Matcher φ → Prop
  /-- The row of the cell decides. -/
  | row (decision : Decision) : matcher.decideRow cell = some decision →
      Judged matcher cell decision matcher
  /-- The cell has expired, and all older ones of its column with it. -/
  | expired : matcher.decideRow cell = none →
      matcher.columns.rule.rulesOut cell.timestamp = true →
      Judged matcher cell (matcher.giveUpColumn cell).1 (matcher.giveUpColumn cell).2
  | marker : Considers matcher cell → cell.isDelete = true →
      Judged matcher cell matcher.markerDecision (matcher.decideMarker cell).2
  | masked : Considers matcher cell → cell.isDelete = false →
      matcher.markers.hides cell.qualifier cell.timestamp = true →
      Judged matcher cell .skip (matcher.afterMarkers cell)
  /-- The value is newer than the time range. -/
  | tooNew : Considers.Live matcher cell →
      matcher.timeRange.position cell.timestamp = .gt →
      Judged matcher cell .skip (matcher.afterMarkers cell)
  /-- The value is older than the time range, and all that follow in its column are. -/
  | tooOld : Considers.Live matcher cell →
      matcher.timeRange.position cell.timestamp = .lt →
      Judged matcher cell ((matcher.afterMarkers cell).giveUpColumn cell).1
        ((matcher.afterMarkers cell).giveUpColumn cell).2
  /-- The versions of its column decide on the value. -/
  | version (decision : Decision) (columns : ColumnProgress) : Considers.Live matcher cell →
      matcher.timeRange.position cell.timestamp = .eq →
      matcher.columns.Checked cell.qualifier cell.timestamp decision columns →
      Judged matcher cell decision ((matcher.afterMarkers cell).withProgress decision columns)

variable {matcher : Matcher φ} {cell : Cell}

omit [CellFilter φ] in
/-- Without markers, nothing is deleted and there is nothing to forget. -/
theorem afterMarkers_of_isEmpty (hempty : matcher.markers.isEmpty = true) :
    matcher.markers.hides cell.qualifier cell.timestamp = false ∧
      matcher.afterMarkers cell = matcher := by
  simp only [RowMarkers.isEmpty, Bool.and_eq_true, Option.isNone_iff_eq_none] at hempty
  obtain ⟨hrow, hcolumn⟩ := hempty
  have hhides : matcher.markers.hides cell.qualifier cell.timestamp = false := by
    simp [RowMarkers.hides, RowMarkers.coversRow, hrow, hcolumn]
  refine ⟨hhides, ?_⟩
  rw [afterMarkers, RowMarkers.after, hhides, if_neg Bool.false_ne_true, ← hcolumn]

omit [CellFilter φ] in
theorem isMasked_eq (hfits : Fits matcher cell) :
    matcher.isMasked cell =
      .ok (matcher.markers.hides cell.qualifier cell.timestamp, matcher.afterMarkers cell) := by
  unfold isMasked
  split
  next hempty =>
    obtain ⟨hhides, hafter⟩ := @afterMarkers_of_isEmpty _ matcher cell hempty
    rw [hhides, hafter]
  next =>
    rw [RowMarkers.masks_eq hfits.marker]
    rfl

omit [CellFilter φ] in
theorem eq_of_isMasked {found : Bool × Matcher φ} (hmasked : matcher.isMasked cell = .ok found) :
    found = (matcher.markers.hides cell.qualifier cell.timestamp, matcher.afterMarkers cell) := by
  unfold isMasked at hmasked
  split at hmasked
  next hempty =>
    obtain ⟨hhides, hafter⟩ := @afterMarkers_of_isEmpty _ matcher cell hempty
    rw [hhides, hafter]
    exact (Except.ok.inj hmasked).symm
  next =>
    cases hmasks : matcher.markers.masks cell.qualifier cell.timestamp with
    | error failure => rw [hmasks] at hmasked; cases hmasked
    | ok masked =>
        rw [hmasks, RowMarkers.eq_of_masks hmasks] at hmasked
        exact (Except.ok.inj hmasked).symm

theorem decideCell_expired (hage : matcher.columns.rule.rulesOut cell.timestamp = true) :
    (matcher.decideCell cell).value =
      (.ok (matcher.giveUpColumn cell).1, (matcher.giveUpColumn cell).2) := by
  simp only [decideCell, hage, if_true]
  rfl

omit [CellFilter φ] in
theorem markerDecision_eq (matcher : Matcher φ) :
    matcher.markerDecision = .emit ∧ matcher.retainDeletes = true ∨
      matcher.markerDecision = .skip ∧ matcher.retainDeletes = false := by
  cases hretain : matcher.retainDeletes <;> simp [markerDecision, hretain]

omit [CellFilter φ] in
theorem markerDecision_of_valuesOnly (hvalues : matcher.retainDeletes = false) :
    matcher.markerDecision = .skip := by
  simp [markerDecision, hvalues]

theorem decideCell_marker (hage : matcher.columns.rule.rulesOut cell.timestamp = false)
    (hdelete : cell.isDelete = true) :
    (matcher.decideCell cell).value =
      (.ok matcher.markerDecision, (matcher.decideMarker cell).2) := by
  simp only [decideCell, hage, hdelete, Bool.false_eq_true, if_false, if_true, Noted.value_pure]
  rfl

theorem decideCell_masked (hmasked : matcher.isMasked cell =
      .ok (matcher.markers.hides cell.qualifier cell.timestamp, matcher.afterMarkers cell))
    (hage : matcher.columns.rule.rulesOut cell.timestamp = false) (hvalue : cell.isDelete = false)
    (hhides : matcher.markers.hides cell.qualifier cell.timestamp = true) :
    (matcher.decideCell cell).value = (.ok .skip, matcher.afterMarkers cell) := by
  simp only [decideCell, hage, hvalue, hmasked, hhides, Bool.false_eq_true, if_false]
  rfl

/-- A value that is not deleted is held against the time range, then its versions are counted. -/
theorem decideCell_live (hmasked : matcher.isMasked cell =
      .ok (matcher.markers.hides cell.qualifier cell.timestamp, matcher.afterMarkers cell))
    (hage : matcher.columns.rule.rulesOut cell.timestamp = false) (hvalue : cell.isDelete = false)
    (hhides : matcher.markers.hides cell.qualifier cell.timestamp = false) :
    (matcher.decideCell cell).value =
      match matcher.timeRange.position cell.timestamp with
      | .gt => (.ok .skip, matcher.afterMarkers cell)
      | .lt => (.ok ((matcher.afterMarkers cell).giveUpColumn cell).1,
          ((matcher.afterMarkers cell).giveUpColumn cell).2)
      | .eq => ((matcher.afterMarkers cell).decideValue cell).value := by
  have htime : (matcher.afterMarkers cell).timeRange = matcher.timeRange := rfl
  simp only [decideCell, hage, hvalue, hmasked, hhides, Bool.false_eq_true, if_false,
    htime]
  cases matcher.timeRange.position cell.timestamp <;> rfl

/-- Without a filter, the versions of its column alone decide on a value. -/
theorem decideValue_unfiltered (hfilter : matcher.filter = none) :
    (matcher.decideValue cell).value = matcher.decideVersion cell := by
  rw [decideValue, hfilter]
  rfl

theorem decideValue_plain (hplain : Plain matcher) {decision : Decision}
    {columns : ColumnProgress}
    (hcheck : matcher.columns.check cell.qualifier cell.timestamp = .ok (decision, columns)) :
    (matcher.decideValue cell).value =
      (.ok decision, matcher.withProgress decision columns) := by
  simp only [decideValue_unfiltered hplain.filter, decideVersion, hcheck, withProgress]

omit [CellFilter φ] in
theorem Plain.afterMarkers (hplain : Plain matcher) (cell : Cell) :
    Plain (matcher.afterMarkers cell) :=
  ⟨hplain.filter, hplain.order, hplain.columns⟩

/-- What is decided on a value that is not deleted, the time range or its versions decide. -/
theorem judged_of_live {decision : Decision} {next : Matcher φ} (hfilter : matcher.filter = none)
    (hlive : Considers.Live matcher cell)
    (hdecide : (match matcher.timeRange.position cell.timestamp with
      | .gt => (.ok .skip, matcher.afterMarkers cell)
      | .lt => (.ok ((matcher.afterMarkers cell).giveUpColumn cell).1,
          ((matcher.afterMarkers cell).giveUpColumn cell).2)
      | .eq => ((matcher.afterMarkers cell).decideValue cell).value :
        Except ScanError Decision × Matcher φ) = (.ok decision, next)) :
    Judged matcher cell decision next := by
  cases hposition : matcher.timeRange.position cell.timestamp with
  | gt =>
      rw [hposition] at hdecide
      cases hdecide
      exact .tooNew hlive hposition
  | lt =>
      rw [hposition] at hdecide
      cases hdecide
      exact .tooOld hlive hposition
  | eq =>
      have hfilter : (matcher.afterMarkers cell).filter = none := hfilter
      simp only [hposition, decideValue_unfiltered hfilter, decideVersion] at hdecide
      cases hcheck : (matcher.afterMarkers cell).columns.check cell.qualifier cell.timestamp with
      | error failure => rw [hcheck] at hdecide; cases hdecide
      | ok found =>
          obtain ⟨ground, columns⟩ := found
          rw [hcheck] at hdecide
          cases hdecide
          exact .version _ columns hlive hposition (ColumnProgress.checked_of_check hcheck)

/-- Without a filter, whatever is decided is decided on one of the grounds, also where cells do
not come in order. -/
theorem judged_of_decide {decision : Decision} {next : Matcher φ} (hfilter : matcher.filter = none)
    (hdecide : (matcher.decide cell).value = (.ok decision, next)) :
    Judged matcher cell decision next := by
  unfold Matcher.decide at hdecide
  cases hrow : matcher.decideRow cell with
  | some ground =>
      simp only [hrow, Noted.value_pure, Prod.mk.injEq, Except.ok.injEq] at hdecide
      obtain ⟨rfl, rfl⟩ := hdecide
      exact .row ground hrow
  | none =>
      simp only [hrow] at hdecide
      cases hage : matcher.columns.rule.rulesOut cell.timestamp with
      | true =>
          rw [decideCell_expired hage] at hdecide
          cases hdecide
          exact .expired hrow hage
      | false =>
          have hconsiders : Considers matcher cell := ⟨hrow, hage⟩
          cases hdelete : cell.isDelete with
          | true =>
              rw [decideCell_marker hage hdelete] at hdecide
              cases hdecide
              exact .marker hconsiders hdelete
          | false =>
              cases hmasked : matcher.isMasked cell with
              | error failure =>
                  simp only [decideCell, hage, hdelete, hmasked, Bool.false_eq_true, if_false,
                    Noted.value_pure] at hdecide
                  cases hdecide
              | ok found =>
                  rw [eq_of_isMasked hmasked] at hmasked
                  cases hhides : matcher.markers.hides cell.qualifier cell.timestamp with
                  | true =>
                      rw [decideCell_masked hmasked hage hdelete hhides] at hdecide
                      cases hdecide
                      exact .masked hconsiders hdelete hhides
                  | false =>
                      have hlive : Considers.Live matcher cell := ⟨hconsiders, hdelete, hhides⟩
                      rw [decideCell_live hmasked hage hdelete hhides] at hdecide
                      exact judged_of_live hfilter hlive hdecide

end Matcher

end MergeScan
