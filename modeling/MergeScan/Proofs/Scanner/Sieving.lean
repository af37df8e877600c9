import MergeScan.Proofs.Matcher.Refuses
import MergeScan.Proofs.Matcher.Sieved
import MergeScan.Proofs.Scanner.Kept
import MergeScan.Proofs.Source.Distinct

/-! # Values that a filter leaves out

A filter that leaves out values is asked about them before their versions are counted. So to pass
over them changes nothing of what a scan hands out of the other cells. Where the filter leaves a
column or a row, or ends the scan, it leaves markers behind as well, but none that deletes anything
of what is still ahead.
-/

namespace MergeScan

open CellOrder

namespace SortedRun

variable {kept : Cell → Bool} {cell : Cell} {cells repeats rest : List Cell}

/-- The first cell at each place of those that are kept. -/
def thin (kept : Cell → Bool) (cells : List Cell) : List Cell :=
  dedupe (cells.filter kept)

theorem mem_of_thin (hcell : cell ∈ thin kept cells) : cell ∈ cells ∧ kept cell = true :=
  List.mem_filter.mp ((dedupe_sublist _).subset hcell)

theorem thin_sublist (kept : Cell → Bool) (cells : List Cell) : (thin kept cells).Sublist cells :=
  (dedupe_sublist _).trans List.filter_sublist

theorem thin_strictlySorted (hcells : keys.Sorted cells) :
    keys.StrictlySorted (thin kept cells) :=
  dedupe_strictlySorted (hcells.sublist List.filter_sublist)

theorem thin_cons_of_neg (hcell : kept cell = false) (rest : List Cell) :
    thin kept (cell :: rest) = thin kept rest := by
  rw [thin, List.filter_cons_of_neg (by simp [hcell]), thin]

theorem thin_cons_append (hcell : kept cell = true)
    (hrepeats : ∀ other ∈ repeats, Cell.compareKeys other cell = .eq)
    (hrest : ∀ other ∈ rest, Cell.compareKeys cell other = .lt) :
    thin kept (cell :: (repeats ++ rest)) = cell :: thin kept rest := by
  rw [thin, List.filter_cons_of_pos hcell, List.filter_append]
  exact dedupe_cons_append (fun other hother => hrepeats other (List.mem_filter.mp hother).1)
    fun other hother => hrest other (List.mem_filter.mp hother).1

theorem thin_skipTo (hcells : keys.Sorted cells) (key : Cell) :
    thin kept (keys.skipTo key cells) = keys.skipTo key (thin kept cells) := by
  rw [thin, ← skipTo_filter hcells, dedupe_skipTo (hcells.sublist List.filter_sublist), thin]

end SortedRun

namespace Matcher

open SortedRun

variable {φ : Type} [CellFilter φ] {matcher next : Matcher φ} {cell other : Cell}
variable {keepsRow : Bytes → Bool} {accepts kept : Cell → Bool} {name row : Bytes}
variable {rest ahead later repeats : List Cell} {decision : Decision}

/-- A matcher whose filter leaves out values that it rejects, and the cells ahead of it. A cell is
kept unless it is a value that the scan asks for and the filter rejects. -/
structure Sieving (keepsRow : Bytes → Bool) (accepts kept : Cell → Bool) (name : Bytes)
    (matcher : Matcher φ) (ahead : List Cell) : Prop extends Primed name matcher ahead where
  named : name ≠ []
  tagged cell : cell ∈ ahead → cell.Tagged
  lasting : matcher.bare.Steady
  valuesOnly : matcher.retainDeletes = false
  spares cell : kept cell = (!matcher.seeks cell || keepsRow cell.row && accepts cell)
  sifts : CellFilter.Sifts keepsRow accepts matcher.filter
  /-- The filter ends the scan only where it keeps none of the rows that are left. -/
  stopped : matcher.isStopped = true → ∀ cell ∈ ahead, keepsRow cell.row = false
  wanted row : matcher.row = some row → matcher.rowOver = false → keepsRow row = true
  met cell : cell ∈ ahead → matcher.row = some cell.row → matcher.markers.Met cell
  current row : matcher.row = some row →
    Current name matcher.bare (Cell.inRow row (thin kept ahead))

/-- Of the cells that are kept, the scan without the filter can be told by the cells that are
handed out. -/
theorem Sieving.lined (hsieving : Sieving keepsRow accepts kept name matcher ahead) :
    Lined name matcher.bare (thin kept ahead) where
  toPrepared := hsieving.prepared.sublist (thin_sublist kept ahead)
  named := hsieving.named
  single := thin_strictlySorted hsieving.prepared.sorted
  tagged cell hcell := hsieving.tagged cell (mem_of_thin hcell).1
  steady := hsieving.lasting
  current := hsieving.current

/-! ## Cells that are not handed out -/

omit [CellFilter φ] in
theorem seeks_inRow (matcher : Matcher φ) (row : Bytes) (cell : Cell) :
    (matcher.inRow row).seeks cell = matcher.seeks cell := by
  unfold Matcher.inRow
  split <;> rfl

omit [CellFilter φ] in
/-- Where values only are handed out, what is not asked for is not kept. -/
theorem keeps_of_not_seeks (hvalues : matcher.retainDeletes = false)
    (hseeks : matcher.seeks cell = false) (row : List Cell) : matcher.keeps row cell = false := by
  simp [Matcher.keeps, keepsValue, keepsMarker, finds, hvalues, hseeks]

omit [CellFilter φ] in
theorem handsOut_of_not_seeks (hvalues : matcher.retainDeletes = false)
    (hseeks : matcher.seeks cell = false) (cells : List Cell) :
    matcher.handsOut cells cell = false := by
  have hretain := (retainDeletes_inRow matcher cell.row).trans hvalues
  have hinRow := (seeks_inRow matcher cell.row cell).trans hseeks
  exact keeps_of_not_seeks hretain hinRow _

/-- A value that the filter rejects is kept only if the scan does not ask for it anyway. -/
theorem Sieving.handsOut_rejected (hsieving : Sieving keepsRow accepts kept name matcher ahead)
    (hother : other ∈ thin kept ahead) (hrejects : (keepsRow other.row && accepts other) = false)
    (cells : List Cell) : matcher.bare.handsOut cells other = false := by
  have hkept := hsieving.spares other
  rw [(mem_of_thin hother).2, hrejects, Bool.or_false] at hkept
  have hseeks : matcher.seeks other = false := by simpa using hkept.symm
  exact @handsOut_of_not_seeks _ matcher.bare other hsieving.valuesOnly hseeks cells

/-! ## Where a scan goes on -/

/-- A matcher that goes on with some of the cells keeps to all that does not belong to a row. -/
theorem Sieving.onwards (hsieving : Sieving keepsRow accepts kept name matcher rest)
    (hreset : next.bare.reset = matcher.bare.reset) (hprimed : Primed name next ahead)
    (hcomes : CellFilter.ComesTo matcher.filter next.filter) (hahead : ahead ⊆ rest)
    (hstopped : next.isStopped = true → matcher.isStopped = true)
    (hover : next.rowOver = false → matcher.rowOver = false)
    (hmet : ∀ cell ∈ ahead, next.row = some cell.row → next.markers.Met cell)
    (hcurrent : ∀ row, next.row = some row →
      Current name next.bare (Cell.inRow row (thin kept ahead))) :
    Sieving keepsRow accepts kept name next ahead where
  toPrimed := hprimed
  named := hsieving.named
  tagged cell hcell := hsieving.tagged cell (hahead hcell)
  lasting := hsieving.lasting.of_reset hreset
  valuesOnly := (retainDeletes_of_reset hreset).trans hsieving.valuesOnly
  spares cell := by
    have hseeks : next.seeks cell = matcher.seeks cell := seeks_of_reset hreset cell
    rw [hseeks]
    exact hsieving.spares cell
  sifts := hsieving.sifts.comesTo hcomes
  stopped hover cell hcell := hsieving.stopped (hstopped hover) cell (hahead hcell)
  wanted row hrow hnot := hsieving.wanted row ((row_of_reset hreset).symm.trans hrow) (hover hnot)
  met := hmet
  current := hcurrent

theorem Sieving.withFilter (hsieving : Sieving keepsRow accepts kept name matcher ahead)
    {filter : Option φ} (hcomes : CellFilter.ComesTo matcher.filter filter)
    (hstopped : (matcher.withFilter filter).isStopped = false) :
    Sieving keepsRow accepts kept name (matcher.withFilter filter) ahead :=
  hsieving.onwards rfl
    ⟨hsieving.prepared, hsieving.started, hcomes.steady hsieving.steady⟩ hcomes (List.Subset.refl _)
    (fun hover => absurd hover (by simp [hstopped])) id hsieving.met hsieving.current

/-! ## Cells that are passed over -/

/-- A decision that counts no version: it has looked at a cell at most, or given up the row. -/
structure Passes (matcher next : Matcher φ) (cell : Cell) : Prop where
  reset : next.bare.reset = matcher.bare.reset
  columns : next.columns = matcher.columns
  markers : next.markers = matcher.markers ∨
    next.markers = matcher.markers.after cell.qualifier cell.timestamp
  comesTo : CellFilter.ComesTo matcher.filter next.filter
  stopped : next.isStopped = true → matcher.isStopped = true
  rowOver : next.rowOver = false → matcher.rowOver = false

theorem Passes.column (hpasses : Passes matcher next cell) {marker : ColumnMarker}
    (hmarker : next.markers.column = some marker) : matcher.markers.column = some marker := by
  rcases hpasses.markers with hsame | hafter
  · rw [← hsame, hmarker]
  · rw [hafter] at hmarker
    exact RowMarkers.column_after hmarker

/-- What is passed over deletes nothing that comes no earlier. -/
theorem Passes.hides (hpasses : Passes matcher next cell) (hmet : matcher.markers.Met cell)
    (hleads : cell.Leads other) :
    next.markers.hides other.qualifier other.timestamp =
      matcher.markers.hides other.qualifier other.timestamp := by
  rcases hpasses.markers with hsame | hafter
  · rw [hsame]
  · rw [hafter, hmet.hides_after hleads]

theorem Sieving.passed (hsieving : Sieving keepsRow accepts kept name matcher (cell :: rest))
    (hpasses : Passes matcher next cell) (hprimed : Primed name next ahead)
    (hahead : ahead ⊆ cell :: rest)
    (hthin : (thin kept ahead).Sublist (thin kept (cell :: rest))) :
    Sieving keepsRow accepts kept name next ahead := by
  have hrow : next.row = matcher.row := (row_of_reset hpasses.reset :)
  refine hsieving.onwards hpasses.reset hprimed hpasses.comesTo hahead hpasses.stopped
    hpasses.rowOver (fun other hother hhere => ?_) fun row hhere => ?_
  · exact (hsieving.met other (hahead hother) (hrow.symm.trans hhere)).of_column
      fun _ => hpasses.column
  · have hcurrent := hsieving.current row (hrow.symm.trans hhere)
    have hsub : (Cell.inRow row (thin kept ahead)).Sublist
        (Cell.inRow row (thin kept (cell :: rest))) := hthin.filter _
    have hcolumns : next.bare.columns = matcher.bare.columns := hpasses.columns
    exact {
      here other hother := hrow.trans (hcurrent.here other (hsub.mem hother))
      stored other hother := hcurrent.stored other (hsub.mem hother)
      tagged other hother := hcurrent.tagged other (hsub.mem hother)
      ordered := hcurrent.ordered.sublist hsub
      steady := hcurrent.steady.of_reset hpasses.reset
      room := hcolumns ▸ hcurrent.room
      fresh other hother := hcolumns ▸ hcurrent.fresh other (hsub.mem hother)
      met other hother := (hcurrent.met other (hsub.mem hother)).of_column
        fun _ => hpasses.column }

theorem Sieving.leads (hsieving : Sieving keepsRow accepts kept name matcher (cell :: rest))
    (hother : other ∈ cell :: rest) (hrow : other.row = cell.row) : cell.Leads other :=
  Cell.leads_of_sorted hsieving.prepared.sorted hsieving.prepared.stored hother hrow

/-- Of later rows, the same cells are handed out. -/
theorem Sieving.handsOut_later
    (hsieving : Sieving keepsRow accepts kept name matcher (cell :: rest))
    (hreset : next.bare.reset = matcher.bare.reset) (hrow : matcher.row = some cell.row)
    (hother : other ∈ thin kept (cell :: rest)) (hne : other.row ≠ cell.row)
    (hsame : Cell.inRow other.row (thin kept ahead) =
      Cell.inRow other.row (thin kept (cell :: rest))) :
    next.bare.handsOut (thin kept ahead) other =
      matcher.bare.handsOut (thin kept (cell :: rest)) other := by
  have hle := hsieving.prepared.behind other cell.row (mem_of_thin hother).1 hrow
  have hlt : cell.row < other.row := Std.lt_of_le_of_ne hle (Ne.symm hne)
  have hnext : next.bare.row = some cell.row := (row_of_reset hreset).trans hrow
  rw [handsOut, handsOut, hsame, inRow_eq_entered, inRow_eq_entered,
    entered_of_reset hreset other.row]
  · intro row hcurrent
    exact Option.some.inj (hrow.symm.trans hcurrent) ▸ hlt
  · intro row hcurrent
    exact Option.some.inj (hnext.symm.trans hcurrent) ▸ hlt

/-- What is handed out of the cells that a decision leaves, if none of the others is handed out. -/
theorem Sieving.output_passed (hsieving : Sieving keepsRow accepts kept name matcher (cell :: rest))
    (hnext : Sieving keepsRow accepts kept name next ahead) {left : Cell → Bool}
    (hthin : thin kept ahead = (thin kept (cell :: rest)).filter left)
    (hleft : ∀ other ∈ thin kept (cell :: rest), left other = true →
      next.bare.handsOut (thin kept ahead) other =
        matcher.bare.handsOut (thin kept (cell :: rest)) other)
    (hgone : ∀ other ∈ thin kept (cell :: rest), left other = false →
      matcher.bare.handsOut (thin kept (cell :: rest)) other = false) :
    next.bare.output (thin kept ahead) = matcher.bare.output (thin kept (cell :: rest)) := by
  rw [hnext.lined.output_eq_filter, hsieving.lined.output_eq_filter]
  conv => lhs; arg 2; rw [hthin]
  rw [List.filter_filter]
  refine List.filter_congr fun other hother => ?_
  cases hkept : left other with
  | true => rw [hleft other hother hkept, Bool.and_true]
  | false => rw [hgone other hother hkept, Bool.and_false]

/-- A row may be left if nothing of it is handed out. -/
theorem Sieving.output_row (hsieving : Sieving keepsRow accepts kept name matcher (cell :: rest))
    (hnext : Sieving keepsRow accepts kept name next ahead)
    (hreset : next.bare.reset = matcher.bare.reset) (hrow : matcher.row = some cell.row)
    (hthin : thin kept ahead = (thin kept (cell :: rest)).filter fun other => other.row ≠ cell.row)
    (hgone : ∀ other ∈ thin kept (cell :: rest), other.row = cell.row →
      matcher.bare.handsOut (thin kept (cell :: rest)) other = false) :
    next.bare.output (thin kept ahead) = matcher.bare.output (thin kept (cell :: rest)) := by
  refine hsieving.output_passed hnext hthin (fun other hother hleft => ?_)
    fun other hother hleft => hgone other hother (by simpa using hleft)
  have hne : other.row ≠ cell.row := of_decide_eq_true hleft
  refine hsieving.handsOut_later hreset hrow hother hne ?_
  rw [hthin, Cell.inRow_filter, List.filter_eq_self]
  intro third hthird
  simpa [(Cell.mem_inRow.mp hthird).2] using hne

theorem Sieving.not_wide (hsieving : Sieving keepsRow accepts kept name matcher (cell :: rest))
    (hvalue : cell.isDelete = false) : cell.qualifier ≠ [] := by
  intro hempty
  simp [Cell.isDelete, (hsieving.tagged cell List.mem_cons_self).mp hempty, CellKind.isDelete]
    at hvalue

/-- Whether a cell is left ahead where the columns of a row before some column are left. -/
def leavesColumns (row column : Bytes) (cell : Cell) : Bool :=
  cell.row ≠ row || column ≤ cell.qualifier

/-- Where columns of the row are left that have come to be behind the markers on the whole row, the
same is handed out of the later ones. -/
theorem Sieving.handsOut_here
    (hsieving : Sieving keepsRow accepts kept name matcher (cell :: rest))
    (hpasses : Passes matcher next cell) (hover : next.rowOver = matcher.rowOver)
    (hrow : matcher.row = some cell.row) (hvalue : cell.isDelete = false) {column : Bytes}
    (hthin : thin kept ahead =
      (thin kept (cell :: rest)).filter (leavesColumns cell.row column))
    (hother : other ∈ Cell.inRow cell.row (thin kept (cell :: rest)))
    (hle : column ≤ other.qualifier) :
    next.bare.handsOut (thin kept ahead) other =
      matcher.bare.handsOut (thin kept (cell :: rest)) other := by
  have hleads (third : Cell) (hthird : third ∈ Cell.inRow cell.row (thin kept (cell :: rest))) :
      cell.Leads third :=
    hsieving.leads (mem_of_thin (Cell.mem_inRow.mp hthird).1).1 (Cell.mem_inRow.mp hthird).2
  have hstays (third : Cell) (hthird : third ∈ Cell.inRow cell.row (thin kept (cell :: rest))) :
      leavesColumns cell.row column third = true ↔ column ≤ third.qualifier := by
    simp [leavesColumns, (Cell.mem_inRow.mp hthird).2]
  have hhere : matcher.bare.row = some cell.row := hrow
  have hnextRow : next.bare.row = some cell.row := (row_of_reset hpasses.reset).trans hrow
  have hcolumns : next.bare.columns = matcher.bare.columns := hpasses.columns
  rw [handsOut, handsOut, (Cell.mem_inRow.mp hother).2, inRow_of_row hhere, inRow_of_row hnextRow,
    hthin, Cell.inRow_filter]
  refine keeps_filter hpasses.reset hover (fun third hthird hkept => ?_)
    (fun third hthird hdropped hcolumn => ?_) (by rw [hcolumns]) hother
    ((hstays other hother).mpr hle)
  · refine finds_filter hpasses.reset (hpasses.hides (hsieving.met cell List.mem_cons_self hrow)
      (hleads third hthird)) fun _ marker hmarker hdropped => ?_
    -- a marker that is left is one on an earlier column
    have hbehind := (hleads marker hmarker).qualifier_le
    refine Cell.not_masks_of_ne (hsieving.lined.tagged marker (Cell.mem_inRow.mp hmarker).1)
      (fun hempty => hsieving.not_wide hvalue (List.le_nil.mp (hempty ▸ hbehind))) fun heq => ?_
    rw [← Bool.not_eq_true, hstays marker hmarker, heq] at hdropped
    exact hdropped ((hstays third hthird).mp hkept)
  · rw [← Bool.not_eq_true, hstays third hthird, hcolumn] at hdropped
    exact absurd hle hdropped

/-- Columns of a row may be left if none of their values is handed out, and if they have come to be
behind the markers on the whole row. -/
theorem Sieving.output_columns
    (hsieving : Sieving keepsRow accepts kept name matcher (cell :: rest))
    (hnext : Sieving keepsRow accepts kept name next ahead) (hpasses : Passes matcher next cell)
    (hover : next.rowOver = matcher.rowOver) (hrow : matcher.row = some cell.row)
    (hvalue : cell.isDelete = false) {column : Bytes}
    (hthin : thin kept ahead =
      (thin kept (cell :: rest)).filter (leavesColumns cell.row column))
    (hgone : ∀ other ∈ thin kept (cell :: rest), other.row = cell.row →
      other.qualifier < column →
        matcher.bare.handsOut (thin kept (cell :: rest)) other = false) :
    next.bare.output (thin kept ahead) = matcher.bare.output (thin kept (cell :: rest)) := by
  refine hsieving.output_passed hnext hthin (fun other hother hleft => ?_)
    fun other hother hleft => ?_
  · by_cases hsame : other.row = cell.row
    · refine hsieving.handsOut_here hpasses hover hrow hvalue hthin
        (Cell.mem_inRow.mpr ⟨hother, hsame⟩) ?_
      simpa [leavesColumns, hsame] using hleft
    · refine hsieving.handsOut_later hpasses.reset hrow hother hsame ?_
      rw [hthin, Cell.inRow_filter, List.filter_eq_self]
      intro third hthird
      simp [leavesColumns, (Cell.mem_inRow.mp hthird).2, hsame]
  · simp only [leavesColumns, Bool.or_eq_false_iff, decide_eq_false_iff_not, ne_eq,
      Decidable.not_not] at hleft
    exact hgone other hother hleft.1 (Std.not_le.mp hleft.2)

/-! ## One cell -/

/-- A filter that is asked about a cell does not end the scan. -/
theorem Heard.goesOn (hheard : Heard cell matcher.filter next.filter)
    (hsifts : CellFilter.Sifts keepsRow accepts matcher.filter)
    (hstopped : matcher.isStopped = false) : next.isStopped = false := by
  unfold isStopped at hstopped ⊢
  generalize matcher.filter = before at hheard hsifts hstopped
  generalize next.filter = after at hheard
  cases hheard with
  | unasked => exact hstopped
  | asked filter => exact hsifts.goesOn filter cell .start hstopped

/-- What it comes to to inspect a cell of which nothing is handed out. -/
structure PassesOver (keepsRow : Bytes → Bool) (accepts kept : Cell → Bool) (name : Bytes)
    (matcher : Matcher φ) (cell : Cell) (rest : List Cell) : Prop where
  emitted : (matcher.inspect cell rest).emitted = none
  stops ending : (matcher.inspect cell rest).course = .error ending →
    matcher.bare.output (thin kept (cell :: rest)) = []
  goesOn ahead : (matcher.inspect cell rest).course = .ok ahead →
    Sieving keepsRow accepts kept name (matcher.inspect cell rest).next ahead ∧
      (matcher.inspect cell rest).next.bare.output (thin kept ahead) =
        matcher.bare.output (thin kept (cell :: rest))

theorem Sieving.output_none (hsieving : Sieving keepsRow accepts kept name matcher ahead)
    (hnone : ∀ other ∈ thin kept ahead, matcher.bare.handsOut (thin kept ahead) other = false) :
    matcher.bare.output (thin kept ahead) = [] := by
  rw [hsieving.lined.output_eq_filter, List.filter_eq_nil_iff]
  intro other hother
  rw [hnone other hother]
  nofun

/-- A look that ends the pass passes over a cell, if nothing is handed out of what is left. -/
theorem Sieving.passes_end (hsieving : Sieving keepsRow accepts kept name matcher (cell :: rest))
    {ending : PassEnd} (hinspect : matcher.inspect cell rest = ⟨none, next, .error ending⟩)
    (hnone : ∀ other ∈ thin kept (cell :: rest),
      matcher.bare.handsOut (thin kept (cell :: rest)) other = false) :
    PassesOver keepsRow accepts kept name matcher cell rest := by
  refine ⟨by rw [hinspect], fun _ _ => hsieving.output_none hnone, fun ahead hcourse => ?_⟩
  rw [hinspect] at hcourse
  cases hcourse

/-- A look that goes on passes over a cell, if the same is handed out of what it leaves. -/
theorem Sieving.passes_on (hsieving : Sieving keepsRow accepts kept name matcher (cell :: rest))
    (hrow : matcher.row = some cell.row) (hpasses : Passes matcher next cell)
    (hinspect : matcher.inspect cell rest = ⟨none, next, .ok ahead⟩) {left : Cell → Bool}
    (hthin : thin kept ahead = (thin kept (cell :: rest)).filter left)
    (houtput : Sieving keepsRow accepts kept name next ahead →
      next.bare.output (thin kept ahead) = matcher.bare.output (thin kept (cell :: rest))) :
    PassesOver keepsRow accepts kept name matcher cell rest := by
  refine ⟨by rw [hinspect], fun ending hcourse => ?_, fun other hcourse => ?_⟩
  · rw [hinspect] at hcourse
    cases hcourse
  · have hprimed := (hsieving.toPrimed.inspect hrow hcourse).1
    have hsuffix := inspect_suffix hcourse
    rw [hinspect] at hcourse hprimed ⊢
    obtain rfl := Except.ok.inj hcourse
    have hnext := hsieving.passed hpasses hprimed
      (fun other hother => List.mem_cons_of_mem _ (hsuffix.subset hother))
      (hthin ▸ List.filter_sublist)
    exact ⟨hnext, houtput hnext⟩

theorem Sieving.passes_scan (hsieving : Sieving keepsRow accepts kept name matcher (cell :: rest))
    (hdecide : (matcher.decide cell).value = (.ok .scanDone, next))
    (hnone : ∀ other ∈ thin kept (cell :: rest),
      matcher.bare.handsOut (thin kept (cell :: rest)) other = false) :
    PassesOver keepsRow accepts kept name matcher cell rest := by
  have hjudge : matcher.judge cell = (.scanDone, next) := by rw [judge, hdecide]
  have hinspect : matcher.inspect cell rest = ⟨none, next, .error .scanDone⟩ := by
    rw [Matcher.inspect, hjudge]
    rfl
  exact hsieving.passes_end hinspect hnone

theorem Sieving.passes_row (hsieving : Sieving keepsRow accepts kept name matcher (cell :: rest))
    (hrow : matcher.row = some cell.row)
    (hdecide : (matcher.decide cell).value = (.ok .nextRow, next))
    (hpasses : Passes matcher next cell)
    (hnone : ∀ other ∈ thin kept (cell :: rest), other.row = cell.row →
      matcher.bare.handsOut (thin kept (cell :: rest)) other = false) :
    PassesOver keepsRow accepts kept name matcher cell rest := by
  have hjudge : matcher.judge cell = (.nextRow, next) := by rw [judge, hdecide]
  have hinspect : matcher.inspect cell rest =
      ⟨none, next, next.goOn cell rest .nextRow⟩ := by
    rw [Matcher.inspect, hjudge]
    rfl
  have hlater (other : Cell) (hother : other ∈ thin kept (cell :: rest)) : cell.row ≤ other.row :=
    hsieving.prepared.behind other cell.row (mem_of_thin hother).1 hrow
  simp only [goOn] at hinspect
  split at hinspect
  next hextends =>
    have hsorted := hsieving.prepared.sorted
    have hreal := (hsieving.prepared.stored cell List.mem_cons_self).1
    have hthin : thin kept (keys.skipTo (next.nextRowKey cell) rest) =
        (thin kept (cell :: rest)).filter fun other => other.row ≠ cell.row := by
      rw [← skipTo_cons_of_lt (lt_nextRowKey hreal.1), thin_skipTo hsorted]
      exact skipTo_lastOnRow_of_le (thin_strictlySorted hsorted).sorted
        (fun other hother => (hsieving.prepared.stored other (mem_of_thin hother).1).1.1) hlater
    exact hsieving.passes_on hrow hpasses hinspect hthin fun hnext =>
      hsieving.output_row hnext hpasses.reset hrow hthin hnone
  next hextends =>
    -- the rows after this one do not belong to the scan
    refine hsieving.passes_end hinspect fun other hother => ?_
    by_cases hsame : other.row = cell.row
    · exact hnone other hother hsame
    · have hrows : next.rows = matcher.rows := (rows_of_reset hpasses.reset :)
      rw [extendsPast, hrows, Bool.not_eq_true] at hextends
      have hlt : cell.row < other.row := Std.lt_of_le_of_ne (hlater other hother) (Ne.symm hsame)
      exact handsOut_of_not_contained (RowRange.contains_of_extendsPast hextends hlt)

/-- What is left of the row of a cell comes in its column or in a later one. -/
theorem Sieving.qualifier_le
    (hsieving : Sieving keepsRow accepts kept name matcher (cell :: rest))
    (hother : other ∈ thin kept (cell :: rest)) (hhere : other.row = cell.row) :
    cell.qualifier ≤ other.qualifier :=
  (hsieving.leads (mem_of_thin hother).1 hhere).qualifier_le

theorem Sieving.passes_cell (hsieving : Sieving keepsRow accepts kept name matcher (cell :: rest))
    (hrow : matcher.row = some cell.row)
    (hdecide : (matcher.decide cell).value = (.ok .skip, next))
    (hpasses : Passes matcher next cell) (hover : next.rowOver = matcher.rowOver)
    (hvalue : cell.isDelete = false) (hnot : kept cell = false) :
    PassesOver keepsRow accepts kept name matcher cell rest := by
  have hjudge : matcher.judge cell = (.skip, next) := by rw [judge, hdecide]
  have hinspect : matcher.inspect cell rest = ⟨none, next, .ok rest⟩ := by
    rw [Matcher.inspect, hjudge]
    rfl
  have hsame : thin kept (cell :: rest) = thin kept rest := thin_cons_of_neg hnot rest
  have hthin : thin kept rest =
      (thin kept (cell :: rest)).filter (leavesColumns cell.row cell.qualifier) := by
    rw [eq_comm, ← hsame, List.filter_eq_self]
    intro other hother
    by_cases hhere : other.row = cell.row
    · simp [leavesColumns, hhere, hsieving.qualifier_le hother hhere]
    · simp [leavesColumns, hhere]
  exact hsieving.passes_on hrow hpasses hinspect hthin fun hnext =>
    hsieving.output_columns hnext hpasses hover hrow hvalue hthin fun other hother hhere hlt =>
      absurd (hsieving.qualifier_le hother hhere) (Std.not_le.mpr hlt)

theorem Sieving.passes_columns
    (hsieving : Sieving keepsRow accepts kept name matcher (cell :: rest))
    (hrow : matcher.row = some cell.row) {column : Bytes}
    (hdecide : (matcher.decide cell).value =
      (.ok (.seekTo (Cell.firstOnColumn cell.row cell.family column)), next))
    (hpasses : Passes matcher next cell) (hover : next.rowOver = matcher.rowOver)
    (hvalue : cell.isDelete = false) (hlt : cell.qualifier < column)
    (hnone : ∀ other ∈ thin kept (cell :: rest), other.row = cell.row →
      other.qualifier < column →
        matcher.bare.handsOut (thin kept (cell :: rest)) other = false) :
    PassesOver keepsRow accepts kept name matcher cell rest := by
  let key := Cell.firstOnColumn cell.row cell.family column
  have hjudge : matcher.judge cell = (.seekTo key, next) := by rw [judge, hdecide]
  have hstored := hsieving.prepared.stored
  have hsorted := hsieving.prepared.sorted
  have hkey : Cell.compareKeys cell key = .lt :=
    (Cell.lt_firstOnColumn_iff (hstored cell List.mem_cons_self).1.1 _ _ _).mpr
      (.inr ⟨rfl, .inr ⟨rfl, hlt⟩⟩)
  have hinspect : matcher.inspect cell rest = ⟨none, next, .ok (keys.skipTo key rest)⟩ := by
    rw [Matcher.inspect, hjudge]
    simp only [Std.OrientedCmp.gt_of_lt hkey]
    rfl
  -- the key leads past the earlier columns of the row, and past no cell of a later one
  have hthin : thin kept (keys.skipTo key rest) =
      (thin kept (cell :: rest)).filter (leavesColumns cell.row column) := by
    rw [← skipTo_cons_of_lt hkey, thin_skipTo hsorted,
      skipTo_eq_filter (thin_strictlySorted hsorted).sorted]
    refine List.filter_congr fun other hother => ?_
    obtain ⟨hreal, hfamily⟩ := hstored other (mem_of_thin hother).1
    have hiff : Cell.compareKeys other key = .lt ↔ _ :=
      Cell.lt_firstOnColumn_iff hreal.1 cell.row cell.family column
    have hle := hsieving.prepared.behind other cell.row (mem_of_thin hother).1 hrow
    have hsame : other.family = cell.family :=
      hfamily.trans (hstored cell List.mem_cons_self).2.symm
    have hnot := Std.not_lt.mpr hle
    simp [leavesColumns, hiff, hsame, hnot, Std.lt_irrefl, Std.not_lt]
  exact hsieving.passes_on hrow hpasses hinspect hthin fun hnext =>
    hsieving.output_columns hnext hpasses hover hrow hvalue hthin hnone

/-- A filter that ends the scan has rejected all that is left. -/
theorem Sieving.passes_stopped
    (hsieving : Sieving keepsRow accepts kept name matcher (cell :: rest))
    (hstopped : matcher.isStopped = true) :
    PassesOver keepsRow accepts kept name matcher cell rest := by
  have hdecide : (matcher.decide cell).value = (.ok .scanDone, matcher) := by
    rw [Matcher.decide, decideRow, hstopped]
    rfl
  refine hsieving.passes_scan hdecide fun other hother => hsieving.handsOut_rejected hother ?_ _
  rw [hsieving.stopped hstopped other (mem_of_thin hother).1]
  rfl

omit [CellFilter φ] in
theorem Passes.refl (matcher : Matcher φ) [CellFilter φ] (cell : Cell) :
    Passes matcher matcher cell :=
  ⟨rfl, rfl, .inl rfl, .refl _, id, id⟩

/-- Where the row decides, nothing of it is handed out. -/
theorem Sieving.passes_decided
    (hsieving : Sieving keepsRow accepts kept name matcher (cell :: rest))
    (hrow : matcher.row = some cell.row) (hstopped : matcher.isStopped = false)
    (hdecided : matcher.bare.decideRow cell = some decision) :
    PassesOver keepsRow accepts kept name matcher cell rest := by
  have hplain := hsieving.prepared.plain
  have hhere : matcher.bare.row = some cell.row := hrow
  have hcompare : matcher.bare.compareRow cell = .eq := by
    rw [compareRow, hhere, hplain.order]
    exact Std.ReflCmp.compare_self
  have hdecide : (matcher.decide cell).value = (.ok decision, matcher) := by
    rw [Matcher.decide, decideRow_of_not_stopped hstopped, hdecided]
    rfl
  rcases decideRow_here hplain hhere (hsieving.started cell List.mem_cons_self) hdecided with
    ⟨rfl, hends⟩ | rfl
  · refine hsieving.passes_scan hdecide fun other hother => handsOut_of_not_contained ?_
    have hle := hsieving.prepared.behind other cell.row (mem_of_thin hother).1 hrow
    have hends : matcher.bare.rows.endsBefore cell.row = true := hends
    exact RowRange.contains_of_endsBefore (RowRange.endsBefore_mono hle hends)
  · refine hsieving.passes_row hrow hdecide (.refl _ _) fun other hother hsame => ?_
    rw [handsOut, hsame, inRow_of_row hhere]
    exact keeps_of_decideRow hplain hsieving.lasting hcompare hdecided hsame _

theorem Passes.afterMarkers {filter : Option φ} (hheard : Heard cell matcher.filter filter)
    (hsifts : CellFilter.Sifts keepsRow accepts matcher.filter)
    (hstopped : matcher.isStopped = false) :
    Passes matcher ((matcher.afterMarkers cell).withFilter filter) cell where
  reset := rfl
  columns := rfl
  markers := .inr rfl
  comesTo := hheard.comesTo
  stopped hover := by
    have hnext : Heard cell matcher.filter ((matcher.afterMarkers cell).withFilter filter).filter :=
      hheard
    rw [hnext.goesOn hsifts hstopped] at hover
    cases hover
  rowOver := id

/-- A value that the filter rejects, in a row that it keeps, is deleted, or the filter leaves it
out. -/
theorem Sieving.passes_rejected
    (hsieving : Sieving keepsRow accepts kept name matcher (cell :: rest))
    (hrow : matcher.row = some cell.row) (hstopped : matcher.isStopped = false)
    (hlooked : matcher.bare.decideRow cell = none) (hnot : kept cell = false) :
    PassesOver keepsRow accepts kept name matcher cell rest := by
  have hready := hsieving.toPrimed.ready hrow
  have hspares := hsieving.spares cell
  rw [hnot, eq_comm, Bool.or_eq_false_iff, Bool.not_eq_false'] at hspares
  obtain ⟨hseeks, hrejects⟩ := hspares
  obtain ⟨-, hover⟩ := contains_of_decideRow hready.plain hlooked
  rw [hsieving.wanted cell.row hrow hover, Bool.true_and] at hrejects
  simp only [seeks, Bool.and_eq_true, decide_eq_true_eq, Bool.not_eq_true'] at hseeks
  obtain ⟨⟨⟨hput, -⟩, htime⟩, hage⟩ := hseeks
  have hvalue : cell.isDelete = false := by rw [Cell.isDelete, hput]; rfl
  have hconsiders : Considers matcher.bare cell := ⟨hlooked, hage⟩
  obtain ⟨decision, next, hdecide, hsieved⟩ := hready.exists_sieved hstopped hsieving.sifts
  have hnone (other : Cell) (hother : other ∈ thin kept (cell :: rest))
      (haccepts : accepts other = false) :
      matcher.bare.handsOut (thin kept (cell :: rest)) other = false :=
    hsieving.handsOut_rejected hother (by rw [haccepts, Bool.and_false]) _
  -- without the filter it would be looked at as a value that is live: so either a marker
  -- deletes it, or the filter has said something else than to keep it
  cases hsieved with
  | same filter hheard hkept =>
      have hhides : matcher.bare.markers.hides cell.qualifier cell.timestamp = true := by
        cases hlive : matcher.bare.markers.hides cell.qualifier cell.timestamp with
        | true => rfl
        | false =>
            have hposition : matcher.timeRange.position cell.timestamp = .eq := by
              simpa [TimeRange.contains] using htime
            rw [hkept ⟨⟨hconsiders, hvalue, hlive⟩, hposition⟩] at hrejects
            cases hrejects
      have hfits := hready.fits cell List.mem_cons_self hrow
      have hjudge : matcher.bare.judge cell = (.skip, matcher.bare.afterMarkers cell) := by
        rw [judge, Matcher.decide, hlooked]
        simp only [decideCell_masked (isMasked_eq hfits) hage hvalue hhides]
      rw [hjudge] at hdecide
      exact hsieving.passes_cell hrow hdecide (.afterMarkers hheard hsieving.sifts hstopped) rfl
        hvalue hnot
  | skipped filter hheard =>
      exact hsieving.passes_cell hrow hdecide (.afterMarkers hheard hsieving.sifts hstopped) rfl
        hvalue hnot
  | row filter hheard _ hall =>
      have hpasses := Passes.afterMarkers hheard hsieving.sifts hstopped
      refine hsieving.passes_row hrow hdecide
        { hpasses with rowOver := fun hover => by cases hover }
        fun other hother hhere => hnone other hother ?_
      exact hall other hhere (hsieving.qualifier_le hother hhere)
  | leads filter column hheard _ hlt hall =>
      refine hsieving.passes_columns hrow hdecide (.afterMarkers hheard hsieving.sifts hstopped)
        rfl hvalue hlt fun other hother hhere hbefore => hnone other hother ?_
      exact hall other hhere hbefore

end Matcher

end MergeScan
