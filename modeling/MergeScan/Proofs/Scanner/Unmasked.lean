import Mathlib
import MergeScan.Filter.Any
import MergeScan.Proofs.Matcher.Counts
import MergeScan.Proofs.Matcher.Refuses
import MergeScan.Proofs.Scanner.Unfiltered
import MergeScan.Proofs.Source.Scripted

/-! # Values that no marker deletes

A marker deletes only values that come after it. So a scan that looks at every marker hands
out no deleted value; but it passes over the rest of a column it is done with, and a marker
on a whole row stands in the column without a name. If that column has a newer value, the
marker can be passed over with it, and this is the only way to miss one: the other markers
delete nothing outside the columns that they are passed over with.
-/

namespace MergeScan

/-- Whether a marker can be passed over unseen: it is one on a whole row, and the row has a newer
value in the column without a name. -/
def Overtaken (data : List Cell) (marker : Cell) : Prop :=
  marker.kind = .deleteFamily ∧ ∃ value ∈ data, value.row = marker.row ∧ value.kind = .put ∧
    value.qualifier = [] ∧ marker.timestamp < value.timestamp

/-- Whether only markers that can be passed over unseen delete a value. -/
def Unmasked (data : List Cell) (value : Cell) : Prop :=
  ∀ marker ∈ data, marker.row = value.row → marker.masks value = true → Overtaken data marker

namespace ReadState

variable {σ φ : Type} [Source σ] [CellFilter φ] {order : CellOrder} [LawfulSource σ order]
variable {admits : Nat → List Cell → Prop} {name : Bytes} {data : List Cell}
variable {state next : ReadState σ φ} {top cell : Cell} {decision : Decision} {outcome : Turn}

/-- The data that sources with admitted cells may have: cells of one family, in order. -/
structure Data (order : CellOrder) (admits : Nat → List Cell → Prop) (name : Bytes)
    (data : List Cell) : Prop where
  sorted rank cells : admits rank cells → order.Sorted cells
  mem rank cells : admits rank cells → ∀ cell ∈ cells, cell ∈ data
  stored : Cell.StoredIn name data
  nameless cell : cell ∈ data → cell.Nameless

/-- What a state has seen: of every value that is left, the markers that delete it are left as
well, or it is refused because of them, or they can be passed over unseen. -/
structure Sees (order : CellOrder) (data : List Cell) (state : ReadState σ φ) : Prop where
  sameOrder : state.matcher.order = order
  valuesOnly : state.matcher.retainDeletes = false
  behind row cell : state.matcher.row = some row → state.merge.Has cell →
    (order.compareRows row cell.row).isLE = true
  met cell : state.merge.Has cell → state.matcher.row = some cell.row →
    state.matcher.markers.Met cell
  covers value marker : state.merge.Has value → value.kind = .put → marker ∈ data →
    marker.row = value.row → marker.masks value = true →
    state.merge.Has marker ∨ Overtaken data marker ∨
      state.matcher.row = some value.row ∧ state.matcher.Refuses value

omit [CellFilter φ] in
theorem Data.mem_of_has (hdata : Data order admits name data) {merge : Merge σ}
    (hmerge : Merge.Tidy order admits merge) (hcell : merge.Has cell) : cell ∈ data := by
  obtain ⟨rank, cells, hadmits, hcell⟩ := hmerge.admitted_of_has hcell
  exact hdata.mem rank cells hadmits cell hcell

variable [CellOrder.RowWise order]

omit [CellFilter φ] in
/-- The cell on top leads those of its row. -/
theorem Data.leads (hdata : Data order admits name data) {merge : Merge σ}
    (hmerge : Merge.Led order admits merge) (hpeek : merge.peek = some top)
    (hcell : merge.Has cell) (hrow : top.row = cell.row) : (top ∈ data ∧ top.Leads cell) ∧
      (top.qualifier = cell.qualifier → top.timestamp = cell.timestamp →
        cell.kind.code ≤ top.kind.code) := by
  have hle := hmerge.le_of_has hdata.sorted hpeek hcell
  rw [CellOrder.compare_of_row_eq hrow] at hle
  have hmem := hdata.mem_of_has hmerge.toTidy (hmerge.has_peek hpeek)
  obtain ⟨hleads, hcode⟩ := Cell.leads_of_isLE (hdata.stored top hmem)
    (hdata.stored cell (hdata.mem_of_has hmerge.toTidy hcell)) hrow hle
  exact ⟨⟨hmem, hleads⟩, hcode⟩

/-- A value that is handed out is deleted at most by markers that can be passed over unseen. -/
theorem Sees.unmasked (hsees : Sees order data state) (hdata : Data order admits name data)
    (hled : Merge.Led order admits state.merge) (hpeek : state.merge.peek = some top)
    (hjudged : Matcher.Judged state.matcher top decision next.matcher)
    (hemits : decision.emits = true) : Unmasked data top := by
  intro marker hmarker hrow hmasks
  have htop := hled.has_peek hpeek
  obtain ⟨hlive, hposition, -⟩ := hjudged.of_emits (.inr hsees.valuesOnly) hemits
  have hmem := hdata.mem_of_has hled.toTidy htop
  have hput : top.kind = .put := (hdata.stored top hmem).1.kind_eq_put hlive.value
  rcases hsees.covers top marker htop hput hmarker hrow hmasks with hleft | hover | ⟨-, hrefuses⟩
  · have hle := hled.le_of_has hdata.sorted hpeek hleft
    have hlt := Cell.lt_of_masks (hdata.stored marker hmarker) (hdata.stored top hmem) hrow
      (hdata.nameless marker hmarker) hput hmasks
    have hswap : Cell.compareKeys top marker = (Cell.compareKeys marker top).swap :=
      Std.OrientedCmp.eq_swap
    rw [CellOrder.compare_of_row_eq hrow.symm, hswap, hlt] at hle
    cases hle
  · exact hover
  · rcases hrefuses with hhides | hold | hearly
    · exact nomatch hlive.live.symm.trans hhides
    · exact nomatch hlive.age.symm.trans hold
    · exact nomatch hposition.symm.trans hearly

/-- What a turn leaves of what a state has seen, if the markers that it takes away are seen. -/
theorem Sees.onwards (hsees : Sees order data state) (hdata : Data order admits name data)
    (hled : Merge.Led order admits state.merge) (hpeek : state.merge.peek = some top)
    (hentered : state.matcher.row.isSome = true)
    (hjudged : Matcher.Judged state.matcher top decision next.matcher)
    (hhas : ∀ cell, next.merge.Has cell → state.merge.Has cell)
    (hcovers : ∀ value marker, next.merge.Has value → value.kind = .put → marker ∈ data →
      marker.row = value.row → marker.masks value = true → state.merge.Has marker →
      ¬next.merge.Has marker → Overtaken data marker ∨
        state.matcher.row = some value.row ∧ next.matcher.Refuses value) :
    Sees order data next := by
  have hreset := hjudged.reset_eq
  have hrow := Matcher.row_of_reset hreset
  have htop := hled.has_peek hpeek
  -- only of a cell of the current row something is remembered, and it leads the others
  have hhere (cell : Cell) (hcell : state.merge.Has cell)
      (hcellRow : state.matcher.row = some cell.row) :
      next.matcher = state.matcher ∨
        state.matcher.markers.Met top ∧ top.Leads cell := by
    by_cases hlooked : state.matcher.decideRow top = none
    · have htopRow := Matcher.row_eq_of_looked hsees.sameOrder hentered hlooked
      have hsame : top.row = cell.row := Option.some.inj (htopRow.symm.trans hcellRow)
      exact .inr ⟨hsees.met top htop htopRow, (hdata.leads hled hpeek hcell hsame).1.2⟩
    · exact .inl (hjudged.decideRow_or.resolve_left hlooked).2
  refine ⟨(Matcher.order_of_reset hreset).trans hsees.sameOrder,
    (Matcher.retainDeletes_of_reset hreset).trans hsees.valuesOnly, ?_, ?_, ?_⟩
  · intro row cell hcurrent hcell
    exact hsees.behind row cell (hrow ▸ hcurrent) (hhas cell hcell)
  · intro cell hcell hcellRow
    rw [hrow] at hcellRow
    have hmet := hsees.met cell (hhas cell hcell) hcellRow
    rcases hhere cell (hhas cell hcell) hcellRow with hsame | ⟨-, hleads⟩
    · rw [hsame]
      exact hmet
    · exact hjudged.met hleads hmet
  · intro value marker hvalue hput hmarker hmarkerRow hmasks
    rw [hrow]
    rcases hsees.covers value marker (hhas value hvalue) hput hmarker hmarkerRow hmasks with
      hleft | hover | ⟨hvalueRow, hrefuses⟩
    · by_cases hstill : next.merge.Has marker
      · exact .inl hstill
      · exact .inr (hcovers value marker hvalue hput hmarker hmarkerRow hmasks hleft hstill)
    · exact .inr (.inl hover)
    · refine .inr (.inr ⟨hvalueRow, ?_⟩)
      rcases hhere value (hhas value hvalue) hvalueRow with hsame | ⟨hmet, hleads⟩
      · rw [hsame]
        exact hrefuses
      · exact hjudged.refuses hmet hleads hrefuses

/-- A marker that is taken has been looked at. -/
theorem Sees.taken (hsees : Sees order data state) (hdata : Data order admits name data)
    (hled : Merge.Led order admits state.merge) (hpeek : state.merge.peek = some top)
    (hentered : state.matcher.row.isSome = true)
    (hjudged : Matcher.Judged state.matcher top decision next.matcher)
    (hstays : decision = .emit ∨ decision = .skip)
    (hparts : next.merge.parts.Perm (Part.stocked state.merge.advanced)) :
    Sees order data next := by
  have hlooked := hjudged.looked_of_stays hstays
  have htopRow := Matcher.row_eq_of_looked hsees.sameOrder hentered hlooked
  have hmet := hsees.met top (hled.has_peek hpeek) htopRow
  refine hsees.onwards hdata hled hpeek hentered hjudged
    (fun cell => (hled.has_advanced hpeek hparts).1) ?_
  intro value marker hvalue hput hmarker hrow hmasks hleft hgone
  obtain rfl := ((hled.has_advanced hpeek hparts).2 hleft).resolve_right hgone
  have hleads := hdata.leads hled hpeek ((hled.has_advanced hpeek hparts).1 hvalue) hrow
  exact .inr ⟨hrow ▸ htopRow, hjudged.refuses_masked hlooked hmet hleads.1.2 hmasks⟩

/-- Where everything before a key is left, the markers before it have to be seen that delete
something behind it. -/
theorem Sees.skipped (hsees : Sees order data state) (hdata : Data order admits name data)
    (hled : Merge.Led order admits state.merge) (hpeek : state.merge.peek = some top)
    (hentered : state.matcher.row.isSome = true)
    (hjudged : Matcher.Judged state.matcher top decision next.matcher) {key : Cell}
    (hparts : next.merge.parts.Perm
      (Part.stocked (state.merge.parts.map (Part.skipTo order key))))
    (hcovers : ∀ value marker, value ∈ data → order.compare value key ≠ .lt → marker ∈ data →
      marker.row = value.row → marker.masks value = true → state.merge.Has marker →
      order.compare marker key = .lt → Overtaken data marker ∨
        state.matcher.row = some value.row ∧ next.matcher.Refuses value) :
    Sees order data next := by
  have hhas (cell : Cell) : next.merge.Has cell ↔ state.merge.Has cell ∧
      order.compare cell key ≠ .lt := hled.has_skipTo hdata.sorted hparts
  refine hsees.onwards hdata hled hpeek hentered hjudged
    (fun cell hcell => ((hhas cell).mp hcell).1) ?_
  intro value marker hvalue _ hmarker hrow hmasks hleft hgone
  obtain ⟨hvalueLeft, hge⟩ := (hhas value).mp hvalue
  have hlt : order.compare marker key = .lt :=
    Decidable.byContradiction fun hnot => hgone ((hhas marker).mpr ⟨hleft, hnot⟩)
  exact hcovers value marker (hdata.mem_of_has hled.toTidy hvalueLeft) hge hmarker hrow hmasks
    hleft hlt

omit [CellFilter φ] in
/-- Before the end of a column, only a marker on the whole row deletes something that is behind
it, and this is of the row of the column. -/
theorem Data.wide_of_column (hdata : Data order admits name data) {value marker : Cell}
    (hvalue : value ∈ data) (hmarker : marker ∈ data) (hrow : marker.row = value.row)
    (hmasks : marker.masks value = true) {matcher : Matcher φ}
    (hlt : order.compare marker (matcher.nextColumnKey top) = .lt)
    (hge : order.compare value (matcher.nextColumnKey top) ≠ .lt) :
    value.row = top.row ∧ marker.kind = .deleteFamily := by
  have hkey := Matcher.row_nextColumnKey matcher top
  have hsame : value.row = top.row := by
    refine Decidable.byContradiction fun hne => ?_
    rw [CellOrder.compare_of_row_ne (by rw [hkey, hrow]; exact hne), hrow] at hlt
    rw [CellOrder.compare_of_row_ne (by rw [hkey]; exact hne)] at hge
    exact hge hlt
  refine ⟨hsame, Decidable.byContradiction fun hkind => ?_⟩
  -- any other marker stands in the column of the value, which would be before the key as well
  rw [CellOrder.compare_of_row_eq (by rw [hkey, hrow, hsame])] at hlt
  rw [CellOrder.compare_of_row_eq (by rw [hkey, hsame])] at hge
  obtain ⟨hmarkerReal, hmarkerFamily⟩ := hdata.stored marker hmarker
  obtain ⟨hvalueReal, hvalueFamily⟩ := hdata.stored value hvalue
  exact hge (Matcher.lt_nextColumnKey_of_column hmarkerReal hvalueReal hrow
    (hmarkerFamily.trans hvalueFamily.symm) (Cell.qualifier_eq_of_masks hmasks hkind) hlt)

/-- Of the markers of a column that is left, at most those on the whole row delete something
behind it, and these were overtaken by the value because of which it is left. -/
theorem Sees.columnLeft (hsees : Sees order data state) (hdata : Data order admits name data)
    (hled : Merge.Led order admits state.merge) (hpeek : state.merge.peek = some top)
    (hentered : state.matcher.row.isSome = true)
    (hjudged : Matcher.Judged state.matcher top decision next.matcher)
    (hleaves : decision = .nextColumn ∨ decision = .emitThenNextColumn)
    (hparts : next.merge.parts.Perm (Part.stocked (state.merge.parts.map
      (Part.skipTo order (next.matcher.nextColumnKey top))))) :
    Sees order data next := by
  refine hsees.skipped hdata hled hpeek hentered hjudged hparts ?_
  intro value marker hvalue hge hmarker hrow hmasks hleft hlt
  obtain ⟨hsame, hkind⟩ := hdata.wide_of_column hvalue hmarker hrow hmasks hlt hge
  obtain ⟨⟨htop, hleads⟩, hcode⟩ := hdata.leads hled hpeek hleft (hrow.trans hsame).symm
  have hnameless := hdata.nameless marker hmarker hkind
  have hcolumn : top.qualifier = marker.qualifier := by
    have hle := hleads.qualifier_le
    rw [hnameless] at hle
    rw [hnameless, List.le_nil.mp hle]
  have hlooked := hjudged.looked (by rcases hleaves with rfl | rfl <;> simp)
  have htopRow := Matcher.row_eq_of_looked hsees.sameOrder hentered hlooked
  rcases hjudged.refuses_or_put (hdata.stored top htop).1 hleaves hmasks
    (hleads.timestamp_le hcolumn) with hrefuses | htopPut
  · exact .inr ⟨hsame ▸ htopRow, hrefuses⟩
  · refine .inl ⟨hkind, top, htop, (hrow.trans hsame).symm, htopPut, hcolumn.trans hnameless, ?_⟩
    refine Std.lt_of_le_of_ne (hleads.timestamp_le hcolumn) fun hstamp => ?_
    have hle := hcode hcolumn hstamp.symm
    rw [hkind, htopPut] at hle
    exact absurd hle (by decide)

/-- A row is left with all its cells. -/
theorem Sees.rowLeft (hsees : Sees order data state) (hdata : Data order admits name data)
    (hled : Merge.Led order admits state.merge) (hpeek : state.merge.peek = some top)
    (hentered : state.matcher.row.isSome = true)
    (hjudged : Matcher.Judged state.matcher top decision next.matcher)
    (hparts : next.merge.parts.Perm (Part.stocked (state.merge.parts.map
      (Part.skipTo order (next.matcher.nextRowKey top))))) :
    Sees order data next := by
  refine hsees.skipped hdata hled hpeek hentered hjudged hparts ?_
  intro value marker hvalue hge _ hrow _ _ hlt
  have hkind := (hdata.stored value hvalue).1.1
  have hne : value.row ≠ (next.matcher.nextRowKey top).row := by
    intro hsame
    rw [CellOrder.compare_of_row_eq hsame] at hge
    exact hge ((Cell.lt_lastOnRow_iff hkind top.row).mpr (Std.le_of_eq hsame))
  -- the rows decide, and both are of one row
  rw [CellOrder.compare_of_row_ne (by rw [hrow]; exact hne), hrow] at hlt
  rw [CellOrder.compare_of_row_ne hne] at hge
  exact absurd hlt hge

/-- What is handed out in a turn is deleted at most by markers that can be passed over unseen. -/
theorem Sees.unmasked_of_emitted (hsees : Sees order data state)
    (hdata : Data order admits name data) (hled : Merge.Led order admits state.merge)
    (hpeek : state.merge.peek = some top) {previous : Option Cell}
    (hturned : Turned order admits state previous top outcome next) {value : Cell}
    (hvalue : outcome.emitted = some value) : Unmasked data value := by
  obtain ⟨decision, hjudged, hcourse⟩ := hturned.decided
  have hemitted : decision.emitted top = some value → Unmasked data value := by
    intro hvalue
    unfold Decision.emitted at hvalue
    split at hvalue
    next hemits =>
      cases hvalue
      exact hsees.unmasked hdata hled hpeek hjudged hemits
    next => cases hvalue
  cases hcourse with
  | cell => exact hemitted hvalue
  | column => exact hemitted hvalue
  | row => exact hemitted hvalue
  | rowDone => cases hvalue
  | scanDone => exact hemitted hvalue

/-- After a turn the state has seen what it has to, unless the scan is over. -/
theorem Sees.turned (hsees : Sees order data state) (hdata : Data order admits name data)
    (hled : Merge.Led order admits state.merge) (hpeek : state.merge.peek = some top)
    (hentered : state.matcher.row.isSome = true) {previous : Option Cell}
    (hturned : Turned order admits state previous top outcome next)
    (hgoes : ∀ emitted, outcome ≠ .stop emitted .scanDone) : Sees order data next := by
  obtain ⟨decision, hjudged, hcourse⟩ := hturned.decided
  cases hcourse with
  | cell _ hstays hparts => exact hsees.taken hdata hled hpeek hentered hjudged hstays hparts
  | column _ hleaves hparts =>
      exact hsees.columnLeft hdata hled hpeek hentered hjudged hleaves hparts
  | row _ _ hparts => exact hsees.rowLeft hdata hled hpeek hentered hjudged hparts
  | rowDone hmerge =>
      obtain ⟨merge, matcher⟩ := next
      obtain ⟨hmatcher, -⟩ := hjudged.of_done (.inl rfl)
      obtain rfl : merge = state.merge := hmerge
      obtain rfl : matcher = state.matcher := hmatcher
      exact hsees
  | scanDone => exact absurd rfl (hgoes _)

theorem Turns.unmasked {previous : Option Cell} {limit : Option Nat} {cells : List Cell}
    {ending : PassEnd} (hturns : Turns order admits previous limit state cells ending next)
    (hdata : Data order admits name data) (hstate : Unfiltered order admits state)
    (hsees : Sees order data state) (hentered : state.matcher.row.isSome = true) :
    (∀ value ∈ cells, Unmasked data value) ∧ (ending ≠ .scanDone → Sees order data next) := by
  induction hturns with
  | exhausted hpeek => exact ⟨nofun, fun _ => hsees⟩
  | stopped hpeek hturned =>
      refine ⟨fun value hvalue => hsees.unmasked_of_emitted hdata hstate.led hpeek hturned
        (Option.mem_toList.mp hvalue), fun hending => ?_⟩
      refine hsees.turned hdata hstate.led hpeek hentered hturned ?_
      rintro _ ⟨⟩
      exact hending rfl
  | filled hpeek hturned hlimit =>
      refine ⟨fun value hvalue => hsees.unmasked_of_emitted hdata hstate.led hpeek hturned ?_,
        fun _ => hsees.turned hdata hstate.led hpeek hentered hturned nofun⟩
      rw [List.mem_singleton.mp hvalue]
      rfl
  | goOn hpeek hturned hturns ih =>
      have hnext := hsees.turned hdata hstate.led hpeek hentered hturned nofun
      obtain ⟨decision, hjudged, -⟩ := hturned.decided
      obtain ⟨hrest, hfinal⟩ := ih hturned.unfiltered hnext
        (Matcher.row_of_reset hjudged.reset_eq ▸ hentered)
      refine ⟨fun value hvalue => ?_, hfinal⟩
      rcases List.mem_append.mp hvalue with hemitted | hlater
      · exact hsees.unmasked_of_emitted hdata hstate.led hpeek hturned
          (Option.mem_toList.mp hemitted)
      · exact hrest value hlater

omit [CellFilter φ] in
/-- A new row is one of which no marker was passed over. -/
theorem Sees.inRow {merge : Merge σ} {matcher : Matcher φ}
    (hsees : Sees order data ⟨merge, matcher⟩) (hdata : Data order admits name data)
    (hled : Merge.Led order admits merge) (hpeek : merge.peek = some top) :
    Sees order data ⟨merge, matcher.inRow top.row⟩ := by
  have hahead (cell : Cell) (hcell : merge.Has cell) :
      (order.compareRows top.row cell.row).isLE = true :=
    CellOrder.compareRows_isLE (hled.le_of_has hdata.sorted hpeek hcell)
  unfold Matcher.inRow
  split
  next => exact hsees
  next hother =>
    refine ⟨hsees.sameOrder, hsees.valuesOnly, ?_, fun _ _ _ => RowMarkers.met_empty _, ?_⟩
    · rintro _ cell ⟨⟩ hcell
      exact hahead cell hcell
    · intro value marker hvalue hput hmarker hrow hmasks
      rcases hsees.covers value marker hvalue hput hmarker hrow hmasks with
        hleft | hover | ⟨hvalueRow, -⟩
      · exact .inl hleft
      · exact .inr (.inl hover)
      · have hbehind := hsees.behind value.row top hvalueRow (hled.has_peek hpeek)
        have heq : top.row = value.row :=
          Std.LawfulEqCmp.eq_of_compare
            (Std.OrientedCmp.isLE_antisymm (hahead value hvalue) hbehind)
        exact absurd (heq ▸ hvalueRow) hother

end ReadState

namespace Scanner

variable {σ φ : Type} [Source σ] [CellFilter φ] {order : CellOrder} [LawfulSource σ order]
variable {admits : Nat → List Cell → Prop} {name : Bytes} {data : List Cell}
variable {scanner after : Scanner σ φ} {limit : Option Nat} {page : Page}

/-- What a scanner has seen that reads from sources. -/
def Sees (order : CellOrder) (data : List Cell) (scanner : Scanner σ φ) : Prop :=
  ∀ merge, scanner.phase = .active merge → ReadState.Sees order data ⟨merge, scanner.matcher⟩

omit [CellFilter φ] [LawfulSource σ order] in
theorem sees_of_closed (hclosed : scanner.phase = .closed) : Sees order data scanner :=
  fun _ hactive => nomatch hactive.symm.trans hclosed

variable [CellOrder.RowWise order]

/-- A read hands out nothing but unmasked values, and the next one does so as well. -/
theorem Paged.unmasked (hpaged : Paged order admits scanner limit page after)
    (hdata : ReadState.Data order admits name data) (hscanner : Unfiltered order admits scanner)
    (hsees : Sees order data scanner) :
    (∀ value ∈ page.cells, Unmasked data value) ∧ Sees order data after := by
  cases hpaged with
  | nothing hclosed => exact ⟨nofun, sees_of_closed hclosed⟩
  | @read merge first cells ending state more _ hactive hpeek hturns hmatcher hphase =>
      rw [Unfiltered, hactive] at hscanner
      have hentered := scanner.matcher.isSome_row_inRow first.row
      obtain ⟨hcells, hstate⟩ := hturns.unmasked hdata (hscanner.inRow first.row)
        ((hsees merge hactive).inRow hdata hscanner.led hpeek) hentered
      refine ⟨hcells, ?_⟩
      rcases hphase with hclosed | ⟨hending, hphase⟩
      · exact sees_of_closed hclosed
      · intro _ hreads
        cases hphase.symm.trans hreads
        rw [hmatcher]
        exact hstate hending

/-- Over a whole run, nothing but unmasked values is handed out. -/
theorem Unfiltered.run_unmasked (hscanner : Unfiltered order admits scanner)
    (hdata : ReadState.Data order admits name data) (hsees : Sees order data scanner)
    {supply : Supply σ} {limits : List ReadLimit}
    (hpage : .ok page ∈ scanner.run (limits.map .read) supply) :
    ∀ value ∈ page.cells, Unmasked data value := by
  induction limits generalizing scanner with
  | nil => cases hpage
  | cons limit rest ih =>
      have hread := hscanner.next (fun rank cells hadmits cell hcell =>
        (hdata.stored cell (hdata.mem rank cells hadmits cell hcell)).1.1) (some supply) limit
      rcases List.mem_cons.mp hpage with hfirst | hlater
      · exact ((hread.paged page hfirst.symm).unmasked hdata hscanner hsees).1
      · refine ih (hread.unfiltered hscanner) ?_ hlater
        cases hresult : (scanner.next (some supply) limit).value.1 with
        | error failure => exact sees_of_closed (hread.failed failure hresult)
        | ok other => exact ((hread.paged other hresult).unmasked hdata hscanner hsees).2

omit [CellFilter φ] in
/-- Where a scan begins, every marker on a row that it reads is ahead. -/
theorem sees_of_parts {family : Family} [LawfulSource σ family.order]
    [CellOrder.RowWise family.order] {scan : Scan φ} (hvalues : scan.retainDeletes = false)
    {sources : List σ} (hstored : Cell.StoredIn family.name (sources.flatMap Source.remaining))
    (hsorted : ∀ source ∈ sources, family.order.Sorted (Source.remaining source))
    {merge : Merge σ} (hparts : merge.parts.Perm (Part.stocked ((sources.map Source.part).map
      (Part.skipTo family.order (Matcher.ofScan family scan).startKey)))) :
    ReadState.Sees family.order (sources.flatMap Source.remaining)
      ⟨merge, Matcher.ofScan family scan⟩ := by
  have hhas (cell : Cell) : merge.Has cell ↔ cell ∈ sources.flatMap Source.remaining ∧
      family.order.compare cell (Matcher.ofScan family scan).startKey ≠ .lt := by
    rw [Merge.has_of_parts hparts, Part.exists_mem_skipTo, ← List.mem_flatMap, List.flatMap_map]
    · rfl
    · intro part hpart
      obtain ⟨source, hsource, rfl⟩ := List.mem_map.mp hpart
      exact hsorted source hsource
  refine ⟨rfl, hvalues, nofun, nofun, ?_⟩
  intro value marker hvalue hput hmarker hrow hmasks
  refine .inl ((hhas marker).mpr ⟨hmarker, ?_⟩)
  obtain ⟨-, hge⟩ := (hhas value).mp hvalue
  by_cases hfirst : marker.row = (Matcher.ofScan family scan).startKey.row
  · -- the start key comes before all cells of its row
    rw [CellOrder.compare_of_row_eq hfirst, ne_eq, Scan.lt_startKey_iff (hstored marker hmarker),
      RowRange.startsAfter_iff, hfirst]
    exact Std.lt_irrefl
  · rw [CellOrder.compare_of_row_ne hfirst, hrow]
    rwa [CellOrder.compare_of_row_ne (hrow ▸ hfirst)] at hge

/-- A scan of values, over sources that are in order, hands out no value that a marker of its row
deletes, unless the marker is one on the whole row, and the row has a newer value in the
column without a name. -/
theorem run_unmasked_unless_overtaken {family : Family} [LawfulSource σ family.order]
    [CellOrder.RowWise family.order] {scan : Scan φ} (hscan : scan.WellFormed)
    (hfilter : scan.filter = none) (hvalues : scan.retainDeletes = false) {supply : Supply σ}
    (hholds : ∀ source ∈ supply.sources scan.request,
      LawfulSource.Holds family.order source (Source.remaining source))
    (hsorted : ∀ source ∈ supply.sources scan.request,
      family.order.Sorted (Source.remaining source))
    (hstored : Cell.StoredIn family.name
      ((supply.sources scan.request).flatMap Source.remaining))
    (hnameless : ∀ cell ∈ (supply.sources scan.request).flatMap Source.remaining, cell.Nameless)
    {subscription : Nat} {scanner : Scanner σ φ}
    (hopen : (Scanner.open family supply subscription scan).value = .ok scanner)
    {limits : List ReadLimit} {page : Page}
    (hpage : .ok page ∈ scanner.run (limits.map .read) supply) :
    ∀ value ∈ page.cells,
      Unmasked ((supply.sources scan.request).flatMap Source.remaining) value := by
  let admits (_ : Nat) (cells : List Cell) : Prop := family.order.Sorted cells ∧
    cells ⊆ (supply.sources scan.request).flatMap Source.remaining
  have hdata : ReadState.Data family.order admits family.name
      ((supply.sources scan.request).flatMap Source.remaining) :=
    ⟨fun _ _ => And.left, fun _ _ hadmits _ hcell => hadmits.2 hcell, hstored, hnameless⟩
  obtain ⟨⟨hmatcher, -⟩, merge, hphase, hstate, hparts⟩ := @of_open _ _ _ _ admits _ _ _ _ _ hscan
    hfilter _ _ (fun source hsource => ⟨hholds source hsource, hsorted source hsource,
      fun _ hcell => List.mem_flatMap.mpr ⟨source, hsource, hcell⟩⟩) hopen
  have hscanner : Unfiltered family.order admits scanner := by
    rw [Unfiltered, hphase]
    exact hstate
  refine hscanner.run_unmasked hdata (fun _ hactive => ?_) hpage
  cases hphase.symm.trans hactive
  rw [hmatcher]
  exact sees_of_parts hvalues hstored hsorted hparts

/-- A row with a marker on all of it, a marker on a column, and what both of them leave. -/
theorem run_unmasked_unless_overtaken_of_script :
    let family : Family := { name := [102], maxVersions := 2, clock := .manual .oldest }
    let scan : Scan AnyFilter := { maxVersions := 2 }
    let kept := Cell.put [114] [102] [97] ⟨12⟩ [1]
    let markers : SourceScript := { sequenceId := 2, cells :=
      [.deleteFamily [114] [102] ⟨10⟩, kept, .deleteColumn [114] [102] [98] ⟨15⟩] }
    let values : SourceScript := { sequenceId := 1, cells :=
      [.put [114] [102] [97] ⟨5⟩ [1], .put [114] [102] [98] ⟨14⟩ [1]] }
    let supply : Supply ScriptedSource := fun _ => .ok [markers.open .keys 0, values.open .keys 1]
    ∃ scanner, (Scanner.open family supply 0 scan).value = .ok scanner ∧
      scanner.run [.read .ofScan, .read .ofScan] supply =
        [.ok ⟨[kept], true⟩, .ok ⟨[], false⟩] ∧
      Unmasked (markers.cells ++ values.cells) kept := by
  intro family scan kept markers values supply
  have hwellFormed : scan.WellFormed := ⟨List.Pairwise.nil, by decide⟩
  have hsources : supply.sources scan.request = [markers.open .keys 0, values.open .keys 1] := rfl
  have hsupplied : (supply.sources scan.request).flatMap Source.remaining =
      markers.cells ++ values.cells := rfl
  have hholds : ∀ source ∈ supply.sources scan.request,
      ScriptedSource.HoldsCells .keys source (Source.remaining source) := by
    simp only [hsources, List.forall_mem_cons]
    exact ⟨⟨rfl, rfl, rfl⟩, ⟨rfl, rfl, rfl⟩, nofun⟩
  have hsorted : ∀ source ∈ supply.sources scan.request,
      CellOrder.keys.Sorted (Source.remaining source) := by
    simp only [hsources, List.forall_mem_cons]
    refine ⟨?_, ?_, nofun⟩
    · exact (by decide : CellOrder.keys.Sorted markers.cells)
    · exact (by decide : CellOrder.keys.Sorted values.cells)
  have hstored : Cell.StoredIn family.name (markers.cells ++ values.cells) := by decide
  have hnameless : ∀ cell ∈ markers.cells ++ values.cells, cell.Nameless := by
    decide
  have hrun : ∃ scanner, (Scanner.open family supply 0 scan).value = .ok scanner ∧
      scanner.run ([ReadLimit.ofScan, .ofScan].map .read) supply =
        [.ok ⟨[kept], true⟩, .ok ⟨[], false⟩] := by
    refine ⟨_, rfl, ?_⟩
    simp only [family, scan, kept, markers, values, supply]
    cbv
  obtain ⟨scanner, hopen, hrun⟩ := hrun
  refine ⟨scanner, hopen, hrun, ?_⟩
  rw [← hsupplied] at hstored hnameless ⊢
  have hpage : .ok (Page.mk [kept] true) ∈
      scanner.run ([ReadLimit.ofScan, .ofScan].map .read) supply := by
    rw [hrun]
    exact List.mem_cons_self
  exact @run_unmasked_unless_overtaken _ _ _ _ family _ _ _ hwellFormed rfl rfl _ hholds hsorted
    hstored hnameless _ _ hopen _ _ hpage kept List.mem_cons_self

/-- A newer value in the column without a name uses up the versions of this column. The marker on
the whole row, which is behind it, is passed over with the rest of the column, and a value
that it deletes is handed out. -/
theorem overtaken_marker_leaks :
    let family : Family := { name := [102], maxVersions := 1, clock := .manual .oldest }
    let scan : Scan AnyFilter := {}
    let newer := Cell.put [114] [102] [] ⟨10⟩ [118]
    let marker := Cell.deleteFamily [114] [102] ⟨5⟩
    let value := Cell.put [114] [102] [97] ⟨3⟩ [108]
    let script : SourceScript := { sequenceId := 1, cells := [newer, marker, value] }
    let supply : Supply ScriptedSource := fun _ => .ok [script.open .keys 0]
    CellOrder.keys.Sorted script.cells ∧ marker.masks value = true ∧
      ∃ scanner, (Scanner.open family supply 0 scan).value = .ok scanner ∧
        scanner.run [.read .ofScan] supply = [.ok ⟨[newer, value], true⟩] := by
  intro family scan newer marker value script supply
  refine ⟨by decide, by decide, _, rfl, ?_⟩
  simp only [family, scan, newer, marker, value, script, supply]
  cbv

end Scanner

end MergeScan
