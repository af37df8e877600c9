import MergeScan.Proofs.Matcher.Refuses
import MergeScan.Proofs.Scanner.Output

/-! # Markers that have done their work

A matcher forgets the marker on a column when it comes to a value of a later column, or to an older
one of the same column. A marker that it has not forgotten yet may be of no use all the same. What a
scan hands out depends on the markers only by what they hide of the cells ahead.
-/

namespace MergeScan

open CellOrder

namespace Matcher

variable {φ : Type} [CellFilter φ] {matcher next : Matcher φ} {cell : Cell}
variable {rest ahead : List Cell} {family : Bytes} {markers : RowMarkers} {exactColumn : Bool}

theorem judge_of_decideCell {decision : Decision}
    (hrow : matcher.decideRow cell = none)
    (hdecide : (matcher.decideCell cell).value = (.ok decision, next)) :
    matcher.judge cell = (decision, next) := by
  rw [judge, Matcher.decide, hrow, hdecide]

/-- The same matcher with other markers. Whether the scan is about one exact column matters to the
sources only. -/
def revised (matcher : Matcher φ) (markers : RowMarkers) (exactColumn : Bool) : Matcher φ :=
  { matcher with markers, exactColumn }

/-- What a cell does to the markers: nothing, or it is held against them, or added. -/
inductive Marks (cell : Cell) : (RowMarkers → RowMarkers) → Prop
  | leaves : Marks cell id
  | looks : Marks cell fun markers => markers.after cell.qualifier cell.timestamp
  | adds : cell.isDelete = true →
      Marks cell fun markers => markers.add cell.qualifier cell.kind cell.timestamp

/-- Markers that hide the same of what is ahead still do so afterwards. -/
theorem Marks.hides {step : RowMarkers → RowMarkers} (hmarks : Marks cell step)
    {markers others : RowMarkers} (hmet : markers.Met cell) (hothers : others.Met cell)
    {value : Cell} (hleads : cell.Leads value)
    (hsame : others.hides value.qualifier value.timestamp =
      markers.hides value.qualifier value.timestamp) :
    (step others).hides value.qualifier value.timestamp =
      (step markers).hides value.qualifier value.timestamp := by
  cases hmarks with
  | leaves => exact hsame
  | looks => rw [hmet.hides_after hleads, hothers.hides_after hleads, hsame]
  | adds hdelete =>
      rw [hmet.hides_add hleads hdelete, hothers.hides_add hleads hdelete, hsame]

omit [CellFilter φ] in
theorem exists_marks_of_marker (hdelete : cell.isDelete = true) (markers : RowMarkers)
    (exactColumn : Bool) :
    ∃ step, Marks cell step ∧ (matcher.decideMarker cell).2.markers = step matcher.markers ∧
      ((matcher.revised markers exactColumn).decideMarker cell).2 =
        (matcher.decideMarker cell).2.revised (step markers) exactColumn := by
  have htime : (matcher.revised markers exactColumn).timeRange = matcher.timeRange := rfl
  by_cases hreaches : matcher.timeRange.reaches cell.timestamp = true
  · refine ⟨_, .adds hdelete, ?_, ?_⟩ <;> simp only [decideMarker, htime, if_pos hreaches]
    rfl
  · refine ⟨id, .leaves, ?_, ?_⟩ <;> simp only [decideMarker, htime, if_neg hreaches, id]

omit [CellFilter φ] in
theorem decideVersion_revised (matcher : Matcher φ) (markers : RowMarkers)
    (exactColumn : Bool) (cell : Cell) :
    (matcher.decideVersion cell).2.markers = matcher.markers ∧
      (matcher.revised markers exactColumn).decideVersion cell = ((matcher.decideVersion cell).1,
        (matcher.decideVersion cell).2.revised markers exactColumn) := by
  cases hcheck : matcher.columns.check cell.qualifier cell.timestamp <;>
    simp only [revised, decideVersion, hcheck, and_self]

/-- A value that no marker deletes is decided on without them. -/
theorem judge_live_revised (hfilter : matcher.filter = none) (hfits : Fits matcher cell)
    (hlive : Considers.Live matcher cell)
    (hotherFits : Fits (matcher.revised markers exactColumn) cell)
    (hfound : markers.hides cell.qualifier cell.timestamp = false) {decision : Decision}
    (hdecide : (matcher.decide cell).value = (.ok decision, next)) :
    next.markers = matcher.markers.after cell.qualifier cell.timestamp ∧
      ((matcher.revised markers exactColumn).decide cell).value = (.ok decision,
        next.revised (markers.after cell.qualifier cell.timestamp) exactColumn) := by
  have hother : (matcher.revised markers exactColumn).decideRow cell = none := hlive.row
  have hage : (matcher.revised markers exactColumn).columns.rule.rulesOut cell.timestamp = false :=
    hlive.age
  have htime : (matcher.revised markers exactColumn).timeRange = matcher.timeRange := rfl
  rw [Matcher.decide, hlive.row] at hdecide
  rw [Matcher.decide, hother]
  simp only [decideCell_live (isMasked_eq hfits) hlive.age hlive.value hlive.live] at hdecide
  simp only [decideCell_live (isMasked_eq hotherFits) hage hlive.value hfound, htime]
  cases hposition : matcher.timeRange.position cell.timestamp with
  | gt =>
      rw [hposition] at hdecide
      cases hdecide
      exact ⟨rfl, rfl⟩
  | lt =>
      rw [hposition] at hdecide
      cases hdecide
      exact ⟨rfl, rfl⟩
  | eq =>
      have hafter : (matcher.afterMarkers cell).filter = none := hfilter
      have hotherAfter : ((matcher.revised markers exactColumn).afterMarkers cell).filter = none :=
        hfilter
      rw [hposition] at hdecide
      simp only [decideValue_unfiltered hafter] at hdecide
      obtain ⟨hmarkers, hversion⟩ := decideVersion_revised (matcher.afterMarkers cell)
        (markers.after cell.qualifier cell.timestamp) exactColumn cell
      rw [hdecide] at hmarkers hversion
      exact ⟨hmarkers, (decideValue_unfiltered hotherAfter).trans hversion⟩

/-- A matcher knows of its markers only what they hide. -/
theorem Ready.judge_revised (hready : Ready family matcher (cell :: rest))
    (hrow : matcher.row = some cell.row) (exactColumn : Bool)
    (hmet : markers.Met cell)
    (hhides : markers.hides cell.qualifier cell.timestamp =
      matcher.markers.hides cell.qualifier cell.timestamp) :
    ∃ step, Marks cell step ∧ (matcher.judge cell).2.markers = step matcher.markers ∧
      (matcher.revised markers exactColumn).judge cell =
        ((matcher.judge cell).1, (matcher.judge cell).2.revised (step markers) exactColumn) := by
  let other := matcher.revised markers exactColumn
  have hfits := hready.fits cell List.mem_cons_self hrow
  have hotherFits : Fits other cell :=
    ⟨hfits.column, fun marker hmarker => (hmet.leads marker hmarker).qualifier_le⟩
  cases hdecided : matcher.decideRow cell with
  | some decision =>
      have hother : other.decideRow cell = some decision := hdecided
      rw [judge_of_row hdecided]
      exact ⟨id, .leaves, rfl, judge_of_row hother⟩
  | none =>
      have hother : other.decideRow cell = none := hdecided
      cases hage : matcher.columns.rule.rulesOut cell.timestamp with
      | true =>
          have hotherAge : other.columns.rule.rulesOut cell.timestamp = true := hage
          rw [judge_of_decideCell hdecided (decideCell_expired hage)]
          exact ⟨id, .leaves, rfl, judge_of_decideCell hother (decideCell_expired hotherAge)⟩
      | false =>
          have hotherAge : other.columns.rule.rulesOut cell.timestamp = false := hage
          cases hvalue : cell.isDelete with
          | true =>
              obtain ⟨step, hmarks, hmarkers, hmarker⟩ :=
                @exists_marks_of_marker _ matcher cell hvalue markers exactColumn
              rw [judge_of_decideCell hdecided (decideCell_marker hage hvalue)]
              refine ⟨step, hmarks, hmarkers, ?_⟩
              rw [judge_of_decideCell hother (decideCell_marker hotherAge hvalue), hmarker]
              rfl
          | false =>
              cases hfound : matcher.markers.hides cell.qualifier cell.timestamp with
              | true =>
                  have hmasked := decideCell_masked (isMasked_eq hfits) hage hvalue hfound
                  rw [judge_of_decideCell hdecided hmasked]
                  exact ⟨_, .looks, rfl, judge_of_decideCell hother (decideCell_masked
                    (isMasked_eq hotherFits) hotherAge hvalue (hhides.trans hfound))⟩
              | false =>
                  obtain ⟨hmarkers, hdecide⟩ := judge_live_revised hready.plain.filter hfits
                    ⟨⟨hdecided, hage⟩, hvalue, hfound⟩ hotherFits (hhides.trans hfound)
                    hready.judged.1
                  refine ⟨_, .looks, hmarkers, ?_⟩
                  rw [judge, hdecide]

/-- Markers of a row that were met before its cells ahead. -/
def MetAhead (row : Option Bytes) (markers : RowMarkers) (ahead : List Cell) : Prop :=
  ∀ cell ∈ ahead, row = some cell.row → markers.Met cell

theorem MetAhead.judge (hmet : MetAhead matcher.row matcher.markers (cell :: rest))
    (hready : Ready family matcher (cell :: rest)) (hrow : matcher.row = some cell.row) :
    MetAhead (matcher.judge cell).2.row (matcher.judge cell).2.markers rest := by
  have hjudged := hready.judged.2
  intro later hlater hnext
  have hmem := List.mem_cons_of_mem cell hlater
  have hhere : matcher.row = some later.row := (row_of_reset hjudged.reset_eq).symm.trans hnext
  have hsame : later.row = cell.row := Option.some.inj (hhere.symm.trans hrow)
  exact hjudged.met (Cell.leads_of_sorted hready.sorted hready.stored hmem hsame)
    (hmet later hmem hhere)

/-- Other markers that hide the same of what is ahead. -/
structure HidesAlike (matcher : Matcher φ) (markers : RowMarkers) (ahead : List Cell) : Prop where
  met : MetAhead matcher.row matcher.markers ahead
  otherMet : MetAhead matcher.row markers ahead
  hides cell : cell ∈ ahead → matcher.row = some cell.row →
    markers.hides cell.qualifier cell.timestamp =
      matcher.markers.hides cell.qualifier cell.timestamp

omit [CellFilter φ] in
theorem HidesAlike.sublist (halike : HidesAlike matcher markers rest)
    (hahead : ahead.Sublist rest) : HidesAlike matcher markers ahead where
  met cell hcell := halike.met cell (hahead.mem hcell)
  otherMet cell hcell := halike.otherMet cell (hahead.mem hcell)
  hides cell hcell := halike.hides cell (hahead.mem hcell)

omit [CellFilter φ] in
theorem HidesAlike.ready (halike : HidesAlike matcher markers ahead)
    (hready : Ready family matcher ahead) (exactColumn : Bool) :
    Ready family (matcher.revised markers exactColumn) ahead where
  plain := ⟨hready.plain.filter, hready.plain.order, hready.plain.columns⟩
  sorted := hready.sorted
  stored := hready.stored
  behind := hready.behind
  fits cell hcell hrow := {
    column := (hready.fits cell hcell hrow).column
    marker marker hmarker :=
      ((halike.otherMet cell hcell hrow).leads marker hmarker).qualifier_le }
  entered := hready.entered

theorem HidesAlike.judge (halike : HidesAlike matcher markers (cell :: rest))
    (hready : Ready family matcher (cell :: rest)) (hrow : matcher.row = some cell.row)
    (exactColumn : Bool) :
    ∃ later, HidesAlike (matcher.judge cell).2 later rest ∧
      (matcher.revised markers exactColumn).judge cell =
        ((matcher.judge cell).1, (matcher.judge cell).2.revised later exactColumn) := by
  have hmet := halike.met cell List.mem_cons_self hrow
  have hotherMet := halike.otherMet cell List.mem_cons_self hrow
  obtain ⟨step, hmarks, hmarkers, hjudge⟩ := hready.judge_revised hrow exactColumn hotherMet
    (halike.hides cell List.mem_cons_self hrow)
  have hother : MetAhead _ _ rest :=
    MetAhead.judge halike.otherMet (halike.ready hready exactColumn) hrow
  rw [hjudge] at hother
  refine ⟨step markers, ⟨halike.met.judge hready hrow, hother, fun later hlater hnext => ?_⟩,
    hjudge⟩
  have hmem := List.mem_cons_of_mem cell hlater
  have hhere : matcher.row = some later.row :=
    (row_of_reset hready.judged.2.reset_eq).symm.trans hnext
  have hsame : later.row = cell.row := Option.some.inj (hhere.symm.trans hrow)
  rw [hmarkers]
  exact hmarks.hides hmet hotherMet (Cell.leads_of_sorted hready.sorted hready.stored hmem hsame)
    (halike.hides later hmem hhere)

omit [CellFilter φ] in
/-- What a value does to the markers makes no difference to what comes after it. -/
theorem MetAhead.hidesAlike_after (hmet : MetAhead matcher.row matcher.markers (cell :: rest))
    (hprepared : Prepared family matcher (cell :: rest)) (hrow : matcher.row = some cell.row) :
    HidesAlike matcher (matcher.markers.after cell.qualifier cell.timestamp) rest where
  met later hlater := hmet later (List.mem_cons_of_mem _ hlater)
  otherMet later hlater hhere := (hmet later (List.mem_cons_of_mem _ hlater) hhere).of_column
    fun _ => RowMarkers.column_after
  hides later hlater hhere := by
    have hsame : later.row = cell.row := Option.some.inj (hhere.symm.trans hrow)
    exact (hmet cell List.mem_cons_self hrow).hides_after (Cell.leads_of_sorted hprepared.sorted
      hprepared.stored (List.mem_cons_of_mem _ hlater) hsame)

/-- Both look at a cell of the row that is being read, and go on alike. -/
theorem HidesAlike.output_cons (halike : HidesAlike matcher markers (cell :: rest))
    (hready : Ready family matcher (cell :: rest)) (hrow : matcher.row = some cell.row)
    (hrest : ∀ (next : Matcher φ) (later : RowMarkers) (ahead : List Cell),
      ahead.length ≤ rest.length → HidesAlike next later ahead → Prepared family next ahead →
        (next.revised later exactColumn).output ahead = next.output ahead) :
    (matcher.revised markers exactColumn).output (cell :: rest) =
      matcher.output (cell :: rest) := by
  obtain ⟨later, hlater, hjudge⟩ := halike.judge hready hrow exactColumn
  have hlook : (matcher.revised markers exactColumn).look cell rest =
      { matcher.look cell rest with
        next := (matcher.look cell rest).next.revised later exactColumn } := by
    rw [look, hjudge]
    rfl
  have hother : (matcher.revised markers exactColumn).row = some cell.row := hrow
  cases hcourse : (matcher.look cell rest).course with
  | error ending =>
      rw [output_here_error hrow hcourse,
        output_here_error hother (by rw [hlook]; exact hcourse), hlook]
  | ok ahead =>
      have hsuffix := goOn_suffix hcourse
      have hnext := hrest _ later ahead hsuffix.length_le (hlater.sublist hsuffix.sublist)
        (hready.look hcourse).toPrepared
      rw [output_here_ok hrow hcourse, output_here_ok hother (by rw [hlook]; exact hcourse), hlook]
      exact congrArg _ hnext

/-- Markers that hide the same of what is ahead make no difference to what is handed out. -/
theorem HidesAlike.output_eq (halike : HidesAlike matcher markers ahead)
    (hprepared : Prepared family matcher ahead) (exactColumn : Bool) :
    (matcher.revised markers exactColumn).output ahead = matcher.output ahead := by
  induction hlength : ahead.length using Nat.strongRecOn generalizing matcher markers ahead with
  | ind length ih =>
      cases ahead with
      | nil => rw [output_nil, output_nil]
      | cons cell rest =>
          have hrest (next : Matcher φ) (later : RowMarkers) (ahead : List Cell)
              (hshorter : ahead.length ≤ rest.length) (hlater : HidesAlike next later ahead)
              (hnext : Prepared family next ahead) :
              (next.revised later exactColumn).output ahead = next.output ahead :=
            ih ahead.length (by rw [← hlength, List.length_cons]; omega) hlater hnext rfl
          by_cases hrow : matcher.row = some cell.row
          · exact halike.output_cons ⟨hprepared, congrArg Option.isSome hrow⟩ hrow hrest
          · -- what both know of an earlier row is forgotten
            have hready := hprepared.inRow_first
            have hentered : matcher.inRow cell.row = matcher.entered cell.row := if_neg hrow
            have hother : (matcher.revised markers exactColumn).inRow cell.row =
                (matcher.entered cell.row).revised .empty exactColumn := if_neg hrow
            rw [hentered] at hready
            rw [← output_inRow, hother, ← output_inRow matcher, hentered]
            exact HidesAlike.output_cons ⟨fun other _ _ => RowMarkers.met_empty other,
              fun other _ _ => RowMarkers.met_empty other, fun _ _ _ => rfl⟩ hready rfl hrest

end Matcher

end MergeScan
