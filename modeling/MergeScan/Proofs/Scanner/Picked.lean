import MergeScan.Proofs.Matcher.Picked
import MergeScan.Proofs.Scanner.Abreast
import MergeScan.Proofs.Scanner.Leading
import MergeScan.Proofs.Scanner.Revised

/-! # Scans with a filter that picks cells

A scan asks such a filter about a value after it has held it against the markers of the row and the
time range, but before it counts the versions of its column. So what the filter skips might as well
not be there: it takes no other version's place, and of two copies of a value it may leave the older
one. A scan that filtered what is handed out would leave a gap instead.
-/

namespace MergeScan

open CellOrder

namespace Matcher

variable {φ : Type} [CellFilter φ] {matcher next : Matcher φ} {cell : Cell}
variable {rest ahead : List Cell} {family : Bytes} {accepts kept : Cell → Bool}

/-! ## Rows that are left -/

omit [CellFilter φ] in
theorem goOn_filter (hsorted : keys.Sorted rest) (kept : Cell → Bool) (decision : Decision) :
    matcher.goOn cell (rest.filter kept) decision =
      (matcher.goOn cell rest decision).map (List.filter kept) := by
  have hskip (key : Cell) : (.ok (keys.skipTo key (rest.filter kept)) : Except PassEnd _) =
      .ok ((keys.skipTo key rest).filter kept) := by
    rw [skipTo_filter hsorted]
  cases decision <;> simp only [goOn, hskip, Except.map]
  all_goals split <;> rfl

theorem decideRow_congr {first : Cell} (hrow : first.row = cell.row) :
    matcher.decideRow first = matcher.decideRow cell := by
  simp only [decideRow, compareRow, hrow]

/-- Of a row that is left, what is ahead of it makes no difference. -/
theorem Arrived.output_leave (harrived : Arrived family matcher ahead)
    (hrow : matcher.row = some cell.row) (hdecided : matcher.decideRow cell = some .nextRow) :
    matcher.output ahead = if matcher.rows.extendsPast cell.row then
      matcher.output (keys.skipTo (Cell.lastOnRow cell.row) ahead) else [] := by
  cases ahead with
  | nil => simp only [CellOrder.skipTo, List.dropWhile_nil, output_nil, ite_self]
  | cons first rest =>
      have hreal := (harrived.stored first List.mem_cons_self).1
      by_cases hsame : first.row = cell.row
      · have hjudge := judge_of_row ((decideRow_congr hsame).trans hdecided)
        -- one look at a cell of the row leads past all of them
        have hlook : matcher.look first rest = ⟨none, matcher,
            if matcher.rows.extendsPast cell.row then
              .ok (keys.skipTo (Cell.lastOnRow cell.row) rest) else .error .scanDone⟩ := by
          rw [Matcher.look, hjudge, ← hsame]
          rfl
        have hhere : matcher.row = some first.row := hsame ▸ hrow
        have hlt : Cell.compareKeys first (Cell.lastOnRow cell.row) = .lt :=
          (Cell.lt_lastOnRow_iff hreal.1 _).mpr (Std.le_of_eq hsame)
        rw [skipTo_cons_of_lt hlt]
        cases hextends : matcher.rows.extendsPast cell.row with
        | true =>
            rw [hextends, if_pos rfl] at hlook
            rw [output_here_ok hhere (congrArg Look.course hlook), hlook]
            rfl
        | false =>
            rw [hextends, if_neg Bool.false_ne_true] at hlook
            rw [output_here_error hhere (congrArg Look.course hlook), hlook]
            rfl
      · have hlt : cell.row < first.row :=
          Std.lt_of_le_of_ne (harrived.behind first cell.row List.mem_cons_self hrow)
            (Ne.symm hsame)
        have hnot : Cell.compareKeys first (Cell.lastOnRow cell.row) ≠ .lt :=
          mt (Cell.lt_lastOnRow_iff hreal.1 _).mp (Std.not_le.mpr hlt)
        rw [skipTo_cons_of_not_lt hnot]
        cases hextends : matcher.rows.extendsPast cell.row with
        | true => rfl
        | false =>
            exact harrived.output_past
              (harrived.none_contained (RowRange.contains_of_extendsPast hextends hlt))

/-! ## Side by side -/

/-- A matcher whose filter picks cells, and the cells ahead of it. A cell is kept unless it is a
value that the scan asks for and the filter skips. -/
structure Picking (accepts kept : Cell → Bool) (family : Bytes) (matcher : Matcher φ)
    (ahead : List Cell) : Prop where
  prepared : Prepared family matcher.bare ahead
  started cell : cell ∈ ahead → matcher.rows.startsAfter cell.row = false
  chooses : CellFilter.Chooses accepts matcher.filter
  spares cell : kept cell = (!matcher.seeks cell || accepts cell)
  met : MetAhead matcher.row matcher.markers ahead

theorem Picking.primed (hpicking : Picking accepts kept family matcher ahead) :
    Primed family matcher ahead :=
  ⟨hpicking.prepared, hpicking.started, hpicking.chooses.steady⟩

theorem Picking.arrived (hpicking : Picking accepts kept family matcher ahead) :
    Arrived family matcher.bare ahead :=
  ⟨hpicking.prepared, hpicking.started⟩

theorem Picking.onwards (hpicking : Picking accepts kept family matcher rest)
    (hreset : next.bare.reset = matcher.bare.reset) (hprimed : Primed family next ahead)
    (hcomes : CellFilter.ComesTo matcher.filter next.filter)
    (hmet : MetAhead next.row next.markers ahead) :
    Picking accepts kept family next ahead where
  prepared := hprimed.prepared
  started := hprimed.started
  chooses := hpicking.chooses.comesTo hcomes
  spares cell := by
    have hseeks : next.seeks cell = matcher.seeks cell := seeks_of_reset hreset cell
    rw [hseeks]
    exact hpicking.spares cell
  met := hmet

theorem Picking.enterRow (hpicking : Picking accepts kept family matcher (cell :: rest))
    (hrow : matcher.row ≠ some cell.row) :
    Picking accepts kept family (matcher.enterRow cell.row).value (cell :: rest) := by
  have hprimed := hpicking.primed.atRow
  have hcomes := atRow_comesTo matcher cell.row
  have hatRow : matcher.atRow cell.row = (matcher.enterRow cell.row).value := if_neg hrow
  rw [hatRow] at hprimed hcomes
  have hentered := enterRow_of_chooses hpicking.chooses cell.row
  exact {
    prepared := hprimed.prepared
    started := hprimed.started
    chooses := hpicking.chooses.comesTo hcomes
    spares other := by
      have hseeks : (matcher.enterRow cell.row).value.bare.seeks other = matcher.seeks other := by
        rw [hentered]
        rfl
      rw [hpicking.spares, ← hseeks]
      rfl
    met other _ _ := by
      have hmarkers : (matcher.enterRow cell.row).value.bare.markers = .empty := by
        rw [hentered]
        rfl
      have hempty : (matcher.enterRow cell.row).value.markers = .empty := hmarkers
      rw [hempty]
      exact RowMarkers.met_empty other }

/-- To enter the row of the first cell changes nothing of what is handed out. -/
theorem Prepared.output_entered (hprepared : Prepared family matcher (cell :: rest))
    (hrow : matcher.row ≠ some cell.row) (hahead : ahead ⊆ cell :: rest) :
    (matcher.entered cell.row).output ahead = matcher.output ahead := by
  refine output_congr fun first hfirst => ?_
  have hmem := hahead (List.mem_of_head? hfirst)
  by_cases hsame : first.row = cell.row
  · rw [hsame, inRow_of_row rfl, Matcher.inRow, if_neg hrow]
  · have hle := Cell.row_le_of_isLE (hprepared.le_first first hmem)
    have hlt : cell.row < first.row := Std.lt_of_le_of_ne hle (Ne.symm hsame)
    have hentered : (matcher.entered cell.row).row ≠ some first.row := fun hhere =>
      hsame (Option.some.inj hhere).symm
    have hnot : matcher.row ≠ some first.row := fun hhere =>
      Std.not_le.mpr hlt (hprepared.behind cell first.row List.mem_cons_self hhere)
    rw [Matcher.inRow, if_neg hentered, entered_entered, Matcher.inRow, if_neg hnot]

/-- A value that the filter skips is passed over, unless the row is left because of it. -/
theorem Picking.exists_skip (hpicking : Picking accepts kept family matcher (cell :: rest))
    (hrow : matcher.row = some cell.row) (hnot : kept cell = false)
    (hlooked : matcher.bare.decideRow cell = none) :
    ∃ filter, Heard cell matcher.filter filter ∧
      matcher.judge cell = (.skip, (matcher.afterMarkers cell).withFilter filter) := by
  have hready := hpicking.primed.ready hrow
  have hfits := hready.fits cell List.mem_cons_self hrow
  have hspares := hpicking.spares cell
  rw [hnot, eq_comm, Bool.or_eq_false_iff, Bool.not_eq_false'] at hspares
  obtain ⟨hseeks, hrejects⟩ := hspares
  simp only [seeks, Bool.and_eq_true, decide_eq_true_eq, Bool.not_eq_true'] at hseeks
  obtain ⟨⟨⟨hput, -⟩, htime⟩, hage⟩ := hseeks
  have hvalue : cell.isDelete = false := by rw [Cell.isDelete, hput]; rfl
  have hposition : matcher.timeRange.position cell.timestamp = .eq := by
    simpa [TimeRange.contains] using htime
  cases hfound : matcher.bare.markers.hides cell.qualifier cell.timestamp with
  | true =>
      obtain ⟨filter, hheard, hjudge⟩ := hready.judge_of_accepts hpicking.chooses fun hsought =>
        absurd (hsought.live.symm.trans hfound) Bool.false_ne_true
      have hbare : matcher.bare.judge cell = (.skip, matcher.bare.afterMarkers cell) :=
        judge_of_decideCell hlooked (decideCell_masked (isMasked_eq hfits) hage hvalue hfound)
      rw [hbare] at hjudge
      exact ⟨filter, hheard, hjudge⟩
  | false =>
      have hsought : Considers.Sought matcher.bare cell :=
        ⟨⟨⟨hlooked, hage⟩, hvalue, hfound⟩, hposition⟩
      exact hsought.judge_of_rejects ⟨hfits.column, hfits.marker⟩ hpicking.chooses hrejects

section

variable (hpicking : Picking accepts kept family matcher (cell :: rest))
variable (hrow : matcher.row = some cell.row)
variable (hrest : ∀ (next : Matcher φ) (ahead : List Cell), ahead.length ≤ rest.length →
  Picking accepts kept family next ahead →
    next.gather ahead = next.bare.output (ahead.filter kept))
include hpicking hrow hrest

/-- The scan without the filter looks at a cell that is kept as well. -/
theorem Picking.gather_kept (hkept : kept cell = true) :
    matcher.gather (cell :: rest) = matcher.bare.output ((cell :: rest).filter kept) := by
  have hready := hpicking.primed.ready hrow
  have hhere : matcher.bare.row = some cell.row := hrow
  obtain ⟨filter, hheard, hjudge⟩ := hready.judge_of_accepts hpicking.chooses fun hsought => by
    have hseeks : matcher.seeks cell = true := hsought.seeks hready.plain hready.isReal
    simpa [hkept, hseeks] using hpicking.spares cell
  have hinspect := hready.inspect_same hjudge fun _ =>
    (hpicking.chooses.comesTo hheard.comesTo).eq_of_shapes
  -- the same look leads to the cells that are kept of those that it leads to
  have hfiltered : (matcher.bare.look cell (rest.filter kept)).course =
      (matcher.bare.look cell rest).course.map (List.filter kept) :=
    goOn_filter (List.pairwise_cons.mp hready.sorted).2 kept _
  rw [List.filter_cons_of_pos hkept]
  cases hcourse : (matcher.inspect cell rest).course with
  | error ending =>
      have hlook : (matcher.bare.look cell rest).course = .error ending := by
        rw [← hcourse, hinspect]
      rw [hlook] at hfiltered
      rw [gather_cons_error (if_pos hrow) hcourse, output_here_error hhere hfiltered, hinspect]
      rfl
  | ok ahead =>
      have hlook : (matcher.bare.look cell rest).course = .ok ahead := by
        rw [← hcourse, hinspect]
      have hsuffix := inspect_suffix hcourse
      have hprimed := (hpicking.primed.inspect hrow hcourse).1
      rw [hlook] at hfiltered
      rw [gather_cons_ok (if_pos hrow) hcourse, output_here_ok hhere hfiltered]
      rw [hinspect] at hprimed ⊢
      have hbare : ((matcher.bare.judge cell).2.withFilter filter).bare = _ := hready.judge_bare
      have hbareMet : MetAhead matcher.bare.row matcher.bare.markers (cell :: rest) := hpicking.met
      have hmet := hbareMet.judge hready hrow
      have hnext := hpicking.onwards (by rw [hbare]; exact hready.judged.2.reset_eq) hprimed
        hheard.comesTo fun later hlater => hmet later (hsuffix.subset hlater)
      rw [hrest _ _ hsuffix.length_le hnext, hbare]
      rfl

/-- Of a row that is left, the cells that are skipped make no difference. -/
theorem Picking.gather_left {decision : Decision}
    (hdecided : matcher.bare.decideRow cell = some decision) :
    matcher.gather (cell :: rest) = matcher.bare.output (rest.filter kept) := by
  have hready := hpicking.primed.ready hrow
  have hsorted := (List.pairwise_cons.mp hready.sorted).2
  have hhere : matcher.bare.row = some cell.row := hrow
  have hsub : (rest.filter kept).Sublist (cell :: rest) :=
    List.filter_sublist.trans (List.sublist_cons_self _ _)
  have harrived := hpicking.arrived.sublist hsub
  have hjudge : matcher.judge cell = (decision, matcher) :=
    judge_of_row ((decideRow_of_not_stopped (isStopped_of_chooses hpicking.chooses)).trans
      hdecided)
  rcases decideRow_here hready.plain hhere (hpicking.started cell List.mem_cons_self)
    hdecided with ⟨rfl, hends⟩ | rfl
  · -- no cell from here on is in a row of the scan
    have hinspect : matcher.inspect cell rest = ⟨none, matcher, .error .scanDone⟩ := by
      rw [Matcher.inspect, hjudge]
      rfl
    rw [gather_cons_error (if_pos hrow) (congrArg Look.course hinspect), hinspect]
    refine (harrived.output_past fun other hother => ?_).symm
    exact hpicking.arrived.none_contained (RowRange.contains_of_endsBefore hends) other
      (hsub.mem hother)
  · have hinspect : matcher.inspect cell rest = ⟨none, matcher,
        if matcher.rows.extendsPast cell.row then
          .ok (keys.skipTo (Cell.lastOnRow cell.row) rest) else .error .scanDone⟩ := by
      rw [Matcher.inspect, hjudge]
      rfl
    have hrows : matcher.bare.rows = matcher.rows := rfl
    rw [harrived.output_leave hhere hdecided, hrows, skipTo_filter hsorted]
    cases hextends : matcher.rows.extendsPast cell.row with
    | true =>
        rw [hextends, if_pos rfl] at hinspect
        have hcourse := congrArg Look.course hinspect
        have hprimed := (hpicking.primed.inspect hrow hcourse).1
        have hsuffix := inspect_suffix hcourse
        rw [gather_cons_ok (if_pos hrow) hcourse]
        rw [hinspect] at hprimed ⊢
        exact hrest _ _ hsuffix.length_le (hpicking.onwards rfl hprimed (.refl _)
          fun later hlater => hpicking.met later (List.mem_cons_of_mem _
            (hsuffix.subset hlater)))
    | false =>
        rw [hextends, if_neg Bool.false_ne_true] at hinspect
        rw [gather_cons_error (if_pos hrow) (congrArg Look.course hinspect), hinspect]
        rfl

/-- A value that the filter skips might as well not be there. -/
theorem Picking.gather_skipped (hnot : kept cell = false) :
    matcher.gather (cell :: rest) = matcher.bare.output ((cell :: rest).filter kept) := by
  rw [List.filter_cons_of_neg (by simp [hnot])]
  cases hdecided : matcher.bare.decideRow cell with
  | some decision => exact hpicking.gather_left hrow hrest hdecided
  | none =>
      -- the value may have made the matcher forget a marker, which hides nothing ahead
      obtain ⟨filter, hheard, hjudge⟩ := hpicking.exists_skip hrow hnot hdecided
      have hinspect : matcher.inspect cell rest =
          ⟨none, (matcher.afterMarkers cell).withFilter filter, .ok rest⟩ := by
        rw [Matcher.inspect, hjudge]
        rfl
      have hcourse := congrArg Look.course hinspect
      have hprimed := (hpicking.primed.inspect hrow hcourse).1
      have halike : HidesAlike matcher.bare
          (matcher.markers.after cell.qualifier cell.timestamp) rest :=
        MetAhead.hidesAlike_after hpicking.met hpicking.prepared hrow
      rw [gather_cons_ok (if_pos hrow) hcourse]
      rw [hinspect] at hprimed ⊢
      have hnext : Picking accepts kept family
          ((matcher.afterMarkers cell).withFilter filter) rest :=
        hpicking.onwards rfl hprimed hheard.comesTo halike.otherMet
      rw [hrest _ _ (Nat.le_refl _) hnext, ← (halike.sublist List.filter_sublist).output_eq
        (hpicking.prepared.sublist
          (List.filter_sublist.trans (List.sublist_cons_self _ _)))]
      rfl

end

/-- A scan whose filter picks cells hands out what the scan without it does of the cells that are
kept. -/
theorem Picking.gather_eq (hpicking : Picking accepts kept family matcher ahead) :
    matcher.gather ahead = matcher.bare.output (ahead.filter kept) := by
  -- on how much is ahead, as a look may lead past any number of cells
  induction hlength : ahead.length using Nat.strongRecOn generalizing matcher ahead with
  | ind length ih =>
      cases ahead with
      | nil => rw [gather_nil, List.filter_nil, output_nil]
      | cons cell rest =>
          have hrest (next : Matcher φ) (ahead : List Cell) (hshorter : ahead.length ≤ rest.length)
              (hnext : Picking accepts kept family next ahead) :
              next.gather ahead = next.bare.output (ahead.filter kept) :=
            ih ahead.length (by rw [← hlength, List.length_cons]; omega) hnext rfl
          have hcons {matcher : Matcher φ} (hrow : matcher.row = some cell.row)
              (hpicking : Picking accepts kept family matcher (cell :: rest)) :
              matcher.gather (cell :: rest) = matcher.bare.output ((cell :: rest).filter kept) := by
            cases hkept : kept cell with
            | true => exact hpicking.gather_kept hrow hrest hkept
            | false => exact hpicking.gather_skipped hrow hrest hkept
          by_cases hrow : matcher.row = some cell.row
          · exact hcons hrow hpicking
          · have hatRow : matcher.atRow cell.row = (matcher.enterRow cell.row).value := if_neg hrow
            have hhere := row_atRow matcher cell.row
            rw [hatRow] at hhere
            rw [← gather_atRow, hatRow, hcons hhere (hpicking.enterRow hrow),
              enterRow_of_chooses hpicking.chooses, hpicking.prepared.output_entered hrow
                List.filter_sublist.subset]

end Matcher

namespace Scan

variable {φ : Type} [CellFilter φ] {family : Family} {scan : Scan φ} {filter : Option φ}
variable {cells : List Cell} {accepts kept : Cell → Bool}

omit [CellFilter φ] in
theorem Unfiltered.withFilter (hscan : scan.Unfiltered family) (filter : Option φ) :
    ({ scan with filter } : Scan φ).WellFormed :=
  ⟨hscan.wellFormed.columns, hscan.wellFormed.versions⟩

/-- The matcher of a scan with a filter that picks cells. -/
theorem Unfiltered.picking (hscan : scan.Unfiltered family) (hsorted : keys.Sorted cells)
    (hstored : Cell.StoredIn family.name cells) (hchooses : CellFilter.Chooses accepts filter)
    (hspares : ∀ cell, kept cell =
      (!(Matcher.ofScan family scan).seeks cell || accepts cell)) :
    Matcher.Picking accepts kept family.name (Matcher.ofScan family { scan with filter })
      (keys.skipTo (Matcher.ofScan family scan).startKey cells) := by
  have hprimed := Scanner.primed_ofScan (hscan.withFilter filter) hscan.order hchooses.steady
    hsorted hstored
  exact ⟨hprimed.prepared, hprimed.started, hchooses, hspares,
    fun cell _ _ => RowMarkers.met_empty cell⟩

/-- A scan whose filter picks cells hands out what the scan without it does where all that the scan
asks for and the filter skips is not there. -/
theorem Unfiltered.gather_eq (hscan : scan.Unfiltered family) (hsorted : keys.Sorted cells)
    (hstored : Cell.StoredIn family.name cells) (hchooses : CellFilter.Chooses accepts filter)
    (hspares : ∀ cell, kept cell =
      (!(Matcher.ofScan family scan).seeks cell || accepts cell)) :
    (Matcher.ofScan family { scan with filter }).gather
        (keys.skipTo (Matcher.ofScan family scan).startKey cells) =
      (Matcher.ofScan family scan).output
        (keys.skipTo (Matcher.ofScan family scan).startKey (cells.filter kept)) := by
  have hpicking := hscan.picking hsorted hstored hchooses hspares
  have hprepared := (Scanner.primed_ofScan hscan.wellFormed hscan.order hscan.steady hsorted
    hstored).prepared
  have hnone : (Matcher.ofScan family scan).filter = none := hscan.filter
  rw [Matcher.bare_of_unfiltered hnone] at hprepared
  have hbare : (Matcher.ofScan family { scan with filter }).bare =
      (Matcher.ofScan family scan).revised .empty
        (Matcher.ofScan family { scan with filter }).exactColumn := by
    rw [← Matcher.bare_of_unfiltered hnone]
    rfl
  have halike : Matcher.HidesAlike (Matcher.ofScan family scan) .empty
      ((keys.skipTo (Matcher.ofScan family scan).startKey cells).filter kept) :=
    ⟨fun cell _ _ => RowMarkers.met_empty cell, fun cell _ _ => RowMarkers.met_empty cell,
      fun _ _ _ => rfl⟩
  rw [hpicking.gather_eq, hbare, halike.output_eq (hprepared.sublist List.filter_sublist),
    skipTo_filter hsorted]

theorem Unfiltered.output_eq_gather (hscan : scan.Unfiltered family) (hsorted : keys.Sorted cells)
    (hstored : Cell.StoredIn family.name cells) :
    (Matcher.ofScan family scan).output
        (keys.skipTo (Matcher.ofScan family scan).startKey cells) =
      (Matcher.ofScan family scan).gather
        (keys.skipTo (Matcher.ofScan family scan).startKey cells) := by
  have hgather := @hscan.gather_eq _ _ _ _ none _ (fun _ => true) (fun _ => true) hsorted hstored
    (fun _ => rfl) fun _ => (Bool.or_true _).symm
  have hsame : { scan with filter := none } = scan := by rw [← hscan.filter]
  rw [hsame, List.filter_eq_self.mpr fun _ _ => rfl] at hgather
  exact hgather.symm

variable {σ τ : Type} [Source σ] [LawfulSource σ keys] [Source τ] [LawfulSource τ keys]
variable {supply : Supply σ} {provider : Supply τ}

/-- A filter that picks whole columns of a row only leaves out cells of those that are handed out
without it. -/
theorem Plain.yields_accepted (hplain : scan.Plain family) (hname : family.name ≠ [])
    (hbatch : scan.batch ≠ some 0) (hsupply : supply.Orderly family.name scan.request)
    (htagged : ∀ cell ∈ supply.cells scan.request, cell.Tagged)
    {filter : φ} (hpicks : CellFilter.Picks accepts filter)
    (hcolumns : ∀ first second : Cell, first.row = second.row →
      first.qualifier = second.qualifier → accepts first = accepts second) :
    ∃ total, scan.Yields family supply total ∧
      Yields family supply { scan with filter := some filter } (total.filter accepts) := by
  refine ⟨_, hplain.yields hname hbatch hsupply htagged, ?_⟩
  have hyields := hplain.yields_picked hname hbatch hsupply htagged hpicks.sieves hpicks.steady
    (hpicks.goesOn filter .start) hcolumns
  simpa only [Bool.true_and] using hyields

/-- What a filter that picks cells skips might as well not be there. A scan with the filter hands
out what the scan without it does where the sources lack the values that are in the rows and in the
time range of the scan, and not too old, and that the filter skips. So older versions take the place
of those. -/
theorem Unfiltered.yields_without_skipped (hscan : scan.Unfiltered family)
    (hbatch : scan.batch ≠ some 0) (hsupply : supply.Orderly family.name scan.request)
    {filter : φ} (hpicks : CellFilter.Picks accepts filter)
    (hprovider : provider.Orderly family.name scan.request)
    (hcells : provider.cells scan.request = (supply.cells scan.request).filter fun cell =>
      !(Matcher.ofScan family scan).seeks cell || accepts cell) :
    ∃ total, scan.Yields family provider total ∧
      Yields family supply { scan with filter := some filter } total := by
  have hchooses : CellFilter.Chooses accepts (some filter) := hpicks
  have hyields := hscan.wellFormed.yields_gather hscan.order hscan.steady hbatch hprovider
  have hfiltered := (hscan.withFilter (some filter)).yields_gather hscan.order hchooses.steady
    hbatch hsupply
  refine ⟨_, hyields, ?_⟩
  rw [← hscan.output_eq_gather (provider.cells_sorted _) hprovider.stored_cells, hcells,
    ← hscan.gather_eq (supply.cells_sorted _) hsupply.stored_cells hchooses fun _ => rfl]
  exact hfiltered

/-- The newer version of a column is skipped, and the older one takes its place. -/
theorem Unfiltered.yields_without_skipped_of_scripts :
    let family : Family := { name := [102], maxVersions := 1, clock := .manual .oldest }
    let scan : Scan AnyFilter := {}
    let filter : FilterScript :=
      ⟨[⟨[99], some ⟨2⟩, .skip⟩], .keep, .nowhere, [], none, none, none, 0⟩
    let newer := Cell.put [114] [102] [99] ⟨2⟩ [1]
    let older := Cell.put [114] [102] [99] ⟨1⟩ [2]
    let script : SourceScript := { sequenceId := 1, cells := [newer, older] }
    let rest : SourceScript := { sequenceId := 1, cells := [older] }
    let supply : Supply ScriptedSource := fun _ => .ok [script.open .keys 0]
    let provider : Supply ScriptedSource := fun _ => .ok [rest.open .keys 0]
    ∃ total, scan.Yields family provider total ∧
      Yields family supply { scan with filter := some (AnyFilter.scripted filter) } total := by
  intro family scan filter newer older script rest supply provider
  have hscan : scan.Unfiltered family :=
    ⟨⟨List.Pairwise.nil, by decide⟩, Nat.le_refl 1, rfl, rfl⟩
  have hsupply : supply.Sound family.name scan.request :=
    script.sound ⟨rfl, rfl⟩ (by decide) (by decide) _
  have hprovider : provider.Sound family.name scan.request :=
    rest.sound ⟨rfl, rfl⟩ (by decide) (by decide) _
  have hpicks := @FilterScript.picks filter (by decide) (.inl rfl) rfl rfl rfl rfl
  have hcells : provider.cells scan.request = (supply.cells scan.request).filter fun cell =>
      !(Matcher.ofScan family scan).seeks cell || filter.verdict cell = .keep := by
    have hall : supply.cells scan.request = [newer, older] :=
      merged_singleton (by decide : keys.Sorted (Part.mk 1 [newer, older]).cells)
    have hrest : provider.cells scan.request = [older] :=
      merged_singleton (by decide : keys.Sorted (Part.mk 1 [older]).cells)
    rw [hall, hrest]
    rfl
  exact hscan.yields_without_skipped (fun hzero => by cases hzero) hsupply.orderly hpicks
    hprovider.orderly hcells

/-- Of two versions of a column a scan hands out the newer one, where one is wanted. A filter that
skips that one lets the other through, which the scan without the filter does not hand out. -/
theorem older_version_takes_place_of_skipped :
    let family : Family := { name := [102], maxVersions := 1, clock := .manual .oldest }
    let scan : Scan AnyFilter := {}
    let filter : FilterScript :=
      ⟨[⟨[99], some ⟨2⟩, .skip⟩], .keep, .nowhere, [], none, none, none, 0⟩
    let accepts (cell : Cell) : Bool := filter.verdict cell = .keep
    let newer := Cell.put [114] [102] [99] ⟨2⟩ [1]
    let older := Cell.put [114] [102] [99] ⟨1⟩ [2]
    let script : SourceScript := { sequenceId := 1, cells := [newer, older] }
    let supply : Supply ScriptedSource := fun _ => .ok [script.open .keys 0]
    (CellFilter.Picks accepts (AnyFilter.scripted filter) ∧ [newer].filter accepts = []) ∧
    (∃ scanner, (Scanner.open family supply 0 scan).value = .ok scanner ∧
      scanner.run [.read .ofScan, .read .ofScan] supply =
        [.ok ⟨[newer], true⟩, .ok ⟨[], false⟩]) ∧
    ∃ scanner, (Scanner.open family supply 0
        { scan with filter := some (AnyFilter.scripted filter) }).value = .ok scanner ∧
      scanner.run [.read .ofScan, .read .ofScan] supply =
        [.ok ⟨[older], true⟩, .ok ⟨[], false⟩] := by
  intro family scan filter accepts newer older script supply
  refine ⟨⟨@FilterScript.picks filter (by decide) (.inl rfl) rfl rfl rfl rfl, by decide⟩,
    ⟨_, rfl, ?_⟩, _, rfl, ?_⟩
  · simp only [family, scan, newer, older, script, supply]
    cbv
  · simp only [family, scan, filter, newer, older, script, supply]
    cbv

end Scan

end MergeScan
