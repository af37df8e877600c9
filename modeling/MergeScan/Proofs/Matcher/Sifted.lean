import MergeScan.Proofs.Filter.Steady
import MergeScan.Proofs.Matcher.Steps

/-! # What a matcher with a filter can decide

A filter is asked last, about values that everything else lets pass. So what a matcher with
a filter decides is what it would decide without, or what the filter wants done with a value
that is not deleted.
-/

namespace MergeScan.Matcher

variable {φ : Type} [CellFilter φ]

/-- The same matcher with another filter. -/
def withFilter (matcher : Matcher φ) (filter : Option φ) : Matcher φ :=
  { matcher with filter }

/-- The same matcher without its filter. -/
def bare (matcher : Matcher φ) : Matcher φ :=
  matcher.withFilter none

/-- A filter as it is before a decision on a cell and after: it was asked about the cell, or
was not. -/
inductive Heard (cell : Cell) : (before after : Option φ) → Prop
  | unasked (filter : Option φ) : Heard cell filter filter
  | asked (filter : φ) : Heard cell (some filter) (some (CellFilter.judgeCell filter cell).2)

/-- The grounds to decide on a cell where there may be a filter. -/
inductive Sifted (matcher : Matcher φ) (cell : Cell) : Decision → Matcher φ → Prop
  /-- The filter ends the scan. -/
  | stopped : matcher.isStopped = true → Sifted matcher cell .scanDone matcher
  /-- The filter was not asked or has kept the value. -/
  | passed (filter : Option φ) (decision : Decision) (next : Matcher φ) :
      Heard cell matcher.filter filter → Judged matcher.bare cell decision next →
      Sifted matcher cell decision (next.withFilter filter)
  | skipped (filter : Option φ) : Heard cell matcher.filter filter →
      Considers.Live matcher.bare cell →
      Sifted matcher cell .skip ((matcher.afterMarkers cell).withFilter filter)
  /-- The filter wants no more of the column. -/
  | column (filter : Option φ) : Heard cell matcher.filter filter →
      Considers.Live matcher.bare cell →
      Sifted matcher cell ((matcher.afterMarkers cell).giveUpColumn cell).1
        (((matcher.afterMarkers cell).giveUpColumn cell).2.withFilter filter)
  /-- The filter wants no more of the row. -/
  | row (filter : Option φ) : Heard cell matcher.filter filter →
      Considers.Live matcher.bare cell →
      Sifted matcher cell .nextRow
        { (matcher.afterMarkers cell).withFilter filter with rowOver := true }
  /-- The filter leads on to a key. -/
  | sought (filter : Option φ) (key : Cell) : Heard cell matcher.filter filter →
      Considers.Live matcher.bare cell →
      Sifted matcher cell (.seekTo key) ((matcher.afterMarkers cell).withFilter filter)

variable {matcher next : Matcher φ} {cell : Cell} {decision : Decision}

omit [CellFilter φ] in
@[simp] theorem bare_withFilter (matcher : Matcher φ) (filter : Option φ) :
    (matcher.withFilter filter).bare = matcher.bare := rfl

theorem Heard.comesTo {before after : Option φ} (hheard : Heard cell before after) :
    CellFilter.ComesTo before after := by
  cases hheard with
  | unasked => exact .refl _
  | asked filter => exact CellFilter.Reaches.start.judgeCell cell

theorem decideRow_of_not_stopped (hstopped : matcher.isStopped = false) :
    matcher.decideRow cell = matcher.bare.decideRow cell := by
  have hbare : matcher.bare.isStopped = false := rfl
  unfold decideRow
  rw [hstopped, hbare]
  rfl

omit [CellFilter φ] in
theorem decideMarker_bare (matcher : Matcher φ) (cell : Cell) :
    (matcher.bare.decideMarker cell).2.withFilter matcher.filter =
      (matcher.decideMarker cell).2 := by
  have hrange : matcher.bare.timeRange = matcher.timeRange := rfl
  simp only [decideMarker, hrange]
  cases matcher.timeRange.reaches cell.timestamp <;> rfl

/-- A verdict of the filter is followed, or its versions decide on the value. -/
theorem exists_sifted_of_live (hlive : Considers.Live matcher.bare cell)
    (hposition : matcher.timeRange.position cell.timestamp = .eq)
    (hcolumn : ∀ column, matcher.columns.choice = .every (some column) →
      column ≤ cell.qualifier) :
    ∃ decision next, ((matcher.afterMarkers cell).decideValue cell).value = (.ok decision, next) ∧
      Sifted matcher cell decision next := by
  obtain ⟨decision, columns, hcheck, hchecked⟩ :=
    @ColumnProgress.exists_checked _ _ cell.timestamp hcolumn
  -- without a filter, and if it keeps the value, the versions decide
  have hversion {filter : Option φ} (hheard : Heard cell matcher.filter filter) :
      ∃ decision next, ((matcher.afterMarkers cell).withFilter filter).decideVersion cell =
        (.ok decision, next) ∧ Sifted matcher cell decision next := by
    refine ⟨_, _, ?_,
      .passed filter decision _ hheard (.version _ columns hlive hposition hchecked)⟩
    have hcheck : ((matcher.afterMarkers cell).withFilter filter).columns.check cell.qualifier
        cell.timestamp = .ok (decision, columns) := hcheck
    rw [decideVersion, hcheck]
    rfl
  cases hfilter : matcher.filter with
  | none =>
      rw [decideValue_unfiltered (show (matcher.afterMarkers cell).filter = none from hfilter)]
      exact hversion (.unasked _)
  | some filter =>
      have hheard : Heard cell matcher.filter (some (CellFilter.judgeCell filter cell).2) :=
        hfilter ▸ .asked filter
      have hafter : (matcher.afterMarkers cell).filter = some filter := hfilter
      simp only [decideValue, hafter, Noted.value_bind]
      cases (CellFilter.judgeCell filter cell).1 with
      | keep => exact hversion hheard
      | skip => exact ⟨_, _, rfl, .skipped _ hheard hlive⟩
      | nextColumn => exact ⟨_, _, rfl, .column _ hheard hlive⟩
      | nextRow => exact ⟨_, _, rfl, .row _ hheard hlive⟩
      | seekHint =>
          simp only [applyVerdict, Noted.value_bind]
          split
          next key _ => exact ⟨_, _, rfl, .sought _ key hheard hlive⟩
          next => exact ⟨_, _, rfl, .skipped _ hheard hlive⟩

/-- A cell that comes in order is decided on, on one of the grounds. -/
theorem exists_sifted (hfits : matcher.bare.decideRow cell = none → Fits matcher cell) :
    ∃ decision next, (matcher.decide cell).value = (.ok decision, next) ∧
      Sifted matcher cell decision next := by
  cases hstopped : matcher.isStopped with
  | true =>
      refine ⟨_, _, ?_, .stopped hstopped⟩
      rw [Matcher.decide, decideRow, hstopped]
      rfl
  | false =>
      have hrowEq := @decideRow_of_not_stopped _ _ _ cell hstopped
      -- the filter is asked only about live values in the time range
      have hpassed {decision : Decision} {next : Matcher φ}
          (hjudged : Judged matcher.bare cell decision next) :
          Sifted matcher cell decision (next.withFilter matcher.filter) :=
        .passed _ _ _ (.unasked _) hjudged
      unfold Matcher.decide
      cases hrow : matcher.bare.decideRow cell with
      | some ground =>
          rw [hrowEq, hrow]
          have hsifted := hpassed (.row ground hrow)
          exact ⟨ground, matcher, rfl, hsifted⟩
      | none =>
          rw [hrowEq, hrow]
          simp only
          cases hage : matcher.columns.rule.rulesOut cell.timestamp with
          | true => exact ⟨_, _, decideCell_expired hage, hpassed (.expired hrow hage)⟩
          | false =>
              have hconsiders : Considers matcher.bare cell := ⟨hrow, hage⟩
              cases hdelete : cell.isDelete with
              | true =>
                  refine ⟨_, _, decideCell_marker hage hdelete, ?_⟩
                  rw [← decideMarker_bare]
                  exact hpassed (.marker hconsiders hdelete)
              | false =>
                  have hmasked := isMasked_eq (hfits hrow)
                  cases hhides : matcher.markers.hides cell.qualifier cell.timestamp with
                  | true =>
                      exact ⟨_, _, decideCell_masked hmasked hage hdelete hhides,
                        hpassed (.masked hconsiders hdelete hhides)⟩
                  | false =>
                      have hlive : Considers.Live matcher.bare cell := ⟨hconsiders, hdelete, hhides⟩
                      rw [decideCell_live hmasked hage hdelete hhides]
                      cases hposition : matcher.timeRange.position cell.timestamp with
                      | gt => exact ⟨_, _, rfl, hpassed (.tooNew hlive hposition)⟩
                      | lt => exact ⟨_, _, rfl, hpassed (.tooOld hlive hposition)⟩
                      | eq => exact exists_sifted_of_live hlive hposition (hfits hrow).column

/-- Without a filter, a cell that comes in order is decided on, on one of the grounds. -/
theorem exists_judged (hplain : Plain matcher)
    (hfits : matcher.decideRow cell = none → Fits matcher cell) :
    ∃ decision next, (matcher.decide cell).value = (.ok decision, next) ∧
      Judged matcher cell decision next := by
  have hstopped : matcher.isStopped = false := by rw [isStopped, hplain.filter]
  rw [decideRow_of_not_stopped hstopped] at hfits
  obtain ⟨decision, next, hdecide, -⟩ := exists_sifted hfits
  exact ⟨decision, next, hdecide, judged_of_decide hplain.filter hdecide⟩

/-! ## What a decision leaves behind -/

/-- A decision changes only what belongs to the current row, and the state of the filter. -/
theorem Sifted.reset_eq (hsifted : Sifted matcher cell decision next) :
    next.bare.reset = matcher.bare.reset := by
  have hgiveUp := giveUpColumn_reset (matcher.afterMarkers cell).bare cell
  cases hsifted with
  | stopped => rfl
  | passed _ _ unfiltered _ hjudged =>
      have hfilter : unfiltered.filter = none := filter_of_reset hjudged.reset_eq
      have hbare : (unfiltered.withFilter none) = unfiltered := by rw [withFilter, ← hfilter]
      rw [bare_withFilter, bare, hbare]
      exact hjudged.reset_eq
  | skipped => rfl
  | column => exact hgiveUp
  | row => rfl
  | sought => rfl

/-- A cell of another row is decided on for its row alone. -/
theorem Sifted.bare_eq (hsifted : Sifted matcher cell decision next) (hplain : Plain matcher.bare)
    (hentered : matcher.row.isSome = true) (hother : matcher.row ≠ some cell.row) :
    next.bare = matcher.bare := by
  have hconsidered (hlive : Considers.Live matcher.bare cell) : next.bare = matcher.bare :=
    absurd (row_eq_of_decideRow hplain hlive.row hentered) hother
  cases hsifted with
  | stopped => rfl
  | passed filter decision unfiltered hheard hjudged =>
      have hsame : unfiltered = matcher.bare := (hjudged.of_row_ne hplain hentered hother).2
      rw [bare_withFilter, hsame]
      rfl
  | skipped _ _ hlive => exact hconsidered hlive
  | column _ _ hlive => exact hconsidered hlive
  | row _ _ hlive => exact hconsidered hlive
  | sought _ _ _ hlive => exact hconsidered hlive

theorem Sifted.comesTo (hsifted : Sifted matcher cell decision next) :
    CellFilter.ComesTo matcher.filter next.filter := by
  cases hsifted with
  | stopped => exact .refl _
  | passed _ _ _ hheard _ => exact hheard.comesTo
  | skipped _ hheard _ => exact hheard.comesTo
  | column _ hheard _ => exact hheard.comesTo
  | row _ hheard _ => exact hheard.comesTo
  | sought _ _ hheard _ => exact hheard.comesTo

theorem Sifted.columns_ascending (hsifted : Sifted matcher cell decision next)
    (hcolumns : matcher.columns.Ascending) : next.columns.Ascending := by
  cases hsifted with
  | stopped => exact hcolumns
  | passed _ _ _ _ hjudged => exact hjudged.columns_ascending hcolumns
  | skipped => exact hcolumns
  | column => exact hcolumns.giveUp _
  | row => exact hcolumns
  | sought => exact hcolumns

/-- Cells that come after the cell still come in order. -/
theorem Sifted.fits (hsifted : Sifted matcher cell decision next) (hfits : Fits matcher cell) :
    Fits next cell := by
  have hbare : Fits matcher.bare cell := ⟨hfits.column, hfits.marker⟩
  have hafter := hfits.afterMarkers
  cases hsifted with
  | stopped => exact hfits
  | passed _ _ _ _ hjudged => exact ⟨(hjudged.fits hbare).column, (hjudged.fits hbare).marker⟩
  | skipped => exact ⟨hafter.column, hafter.marker⟩
  | column => exact ⟨hafter.giveUpColumn.column, hafter.giveUpColumn.marker⟩
  | row => exact ⟨hafter.column, hafter.marker⟩
  | sought => exact ⟨hafter.column, hafter.marker⟩

/-- If the column of a cell is left, the next one of the list is a later one. -/
theorem Sifted.lt_next (hsifted : Sifted matcher cell decision next)
    (hcolumns : matcher.columns.Ascending)
    (hleaves : decision = .nextColumn ∨ decision = .emitThenNextColumn) {column : Bytes}
    (hcolumn : next.columns.next? = some column) : cell.qualifier < column := by
  cases hsifted with
  | stopped => simp at hleaves
  | passed _ _ _ _ hjudged => exact hjudged.lt_next hcolumns hleaves hcolumn
  | skipped => simp at hleaves
  | column => exact hcolumns.lt_next_giveUp hcolumn
  | row => simp at hleaves
  | sought => simp at hleaves

/-- A cell of the current row does not show that the row is complete. -/
theorem Sifted.ne_rowDone (hsifted : Sifted matcher cell decision next)
    (hrow : matcher.row = some cell.row) (horder : matcher.order = .keys) :
    decision ≠ .rowDone := by
  have hsame : matcher.bare.compareRow cell = .eq := by
    have hentered : matcher.bare.row = some cell.row := hrow
    have hkeys : matcher.bare.order = .keys := horder
    rw [compareRow, hentered, hkeys]
    exact Std.ReflCmp.compare_self
  cases hsifted with
  | stopped => simp
  | passed _ _ _ _ hjudged =>
      rintro rfl
      have hdone := (hjudged.of_done (.inl rfl)).2
      simp only [decideRow, hsame] at hdone
      repeat' split at hdone
      all_goals cases hdone
  | skipped => simp
  | column =>
      rcases (matcher.afterMarkers cell).columns.giveUp_decision cell.qualifier with heq | heq <;>
        simp [giveUpColumn, heq]
  | row => simp
  | sought => simp

end MergeScan.Matcher
