import MergeScan.Proofs.Scanner.Copies
import MergeScan.Proofs.Scanner.Sieving

/-! # What a scan hands out where its filter leaves out values

What a filter leaves out might as well not be there: a scan with such a filter hands out what the
scan without it hands out of the other cells. The two go along with each other cell by cell. Only
the scan with the filter looks at the values that are left out, and at further copies of a cell,
which the filter may judge otherwise than the first one.
-/

namespace MergeScan

open CellOrder

namespace Matcher

open SortedRun

variable {φ : Type} [CellFilter φ] {matcher next : Matcher φ} {cell other : Cell}
variable {keepsRow : Bytes → Bool} {accepts kept : Cell → Bool} {name row : Bytes}
variable {rest ahead later repeats : List Cell} {decision : Decision}

/-! ## Cells that are decided on as without the filter -/

/-- Of a cell that is kept, the filter accepts all that the scan asks for. -/
theorem Sieving.accepts_of_seeks (hsieving : Sieving keepsRow accepts kept name matcher ahead)
    (hkept : kept cell = true) (hseeks : matcher.seeks cell = true) : accepts cell = true := by
  have hspares := hsieving.spares cell
  rw [hkept, hseeks, eq_comm, Bool.not_true, Bool.false_or, Bool.and_eq_true] at hspares
  exact hspares.2

/-- The filter lets a cell pass that is kept. -/
theorem Sieving.exists_same (hsieving : Sieving keepsRow accepts kept name matcher (cell :: rest))
    (hrow : matcher.row = some cell.row) (hstopped : matcher.isStopped = false)
    (hkept : kept cell = true) :
    ∃ filter, Heard cell matcher.filter filter ∧
      matcher.judge cell =
        ((matcher.bare.judge cell).1, (matcher.bare.judge cell).2.withFilter filter) := by
  have hready := hsieving.toPrimed.ready hrow
  have haccepts (hsought : Considers.Sought matcher.bare cell) : accepts cell = true :=
    hsieving.accepts_of_seeks hkept (hsought.seeks hready.plain hready.isReal)
  obtain ⟨decision, next, hdecide, hsieved⟩ := hready.exists_sieved hstopped hsieving.sifts
  have hjudge : matcher.judge cell = (decision, next) := by rw [judge, hdecide]
  rw [hjudge]
  cases hsieved with
  | same filter hheard => exact ⟨filter, hheard, rfl⟩
  | skipped filter _ hsought hrejects =>
      rw [haccepts hsought] at hrejects
      cases hrejects
  | row filter _ hsought hall =>
      have hrejects := hall cell rfl (Std.le_refl _)
      rw [haccepts hsought] at hrejects
      cases hrejects
  | leads filter column _ hsought hlt hall =>
      have hrejects := hall cell rfl hlt
      rw [haccepts hsought] at hrejects
      cases hrejects

/-- What is remembered of a value that is not deleted. -/
theorem Judged.markers_of_live (hjudged : Judged matcher cell decision next)
    (hlive : Considers.Live matcher cell) :
    next.markers = matcher.markers.after cell.qualifier cell.timestamp := by
  cases hjudged with
  | row _ hrow =>
      rw [hlive.row] at hrow
      cases hrow
  | expired _ hage =>
      rw [hlive.age] at hage
      cases hage
  | marker _ hdelete =>
      rw [hlive.value] at hdelete
      cases hdelete
  | masked => rfl
  | tooNew => rfl
  | tooOld => rfl
  | version => rfl

/-- A copy of a cell that was handed out or passed over is passed over, whatever the filter says
about it. -/
theorem Primed.inspect_copy (hprimed : Primed name matcher (other :: rest))
    (hsifts : CellFilter.Sifts keepsRow accepts matcher.filter)
    (hstopped : matcher.isStopped = false) (hsettled : Settled matcher.bare other)
    (hrow : cell.row = other.row) (hcolumn : cell.qualifier = other.qualifier)
    (haccepts : Considers.Sought matcher.bare other → accepts cell = true) :
    ∃ filter, Heard other matcher.filter filter ∧
      matcher.inspect other rest = ⟨none, matcher.withFilter filter, .ok rest⟩ := by
  have hready := hprimed.ready hsettled.row
  have hbare : matcher.bare.judge other = (.skip, matcher.bare) := by
    rw [judge, hsettled.skips other hready.isReal Std.ReflCmp.compare_self]
  have hjudged := hready.judged.2
  rw [hbare] at hjudged
  have hskips : ∃ filter, Heard other matcher.filter filter ∧
      (matcher.decide other).value = (.ok .skip, matcher.withFilter filter) := by
    obtain ⟨decision, next, hdecide, hsieved⟩ := hready.exists_sieved hstopped hsifts
    rw [hdecide]
    cases hsieved with
    | same filter hheard =>
        rw [hbare]
        exact ⟨filter, hheard, rfl⟩
    | skipped filter hheard hsought =>
        -- the markers were held against the copy before
        have hmarkers : matcher.markers =
            matcher.markers.after other.qualifier other.timestamp :=
          hjudged.markers_of_live hsought.toLive
        refine ⟨filter, hheard, ?_⟩
        rw [Matcher.afterMarkers, ← hmarkers]
    | row filter hheard hsought hall =>
        have hrejects := hall cell hrow (hcolumn ▸ Std.le_refl _)
        rw [haccepts hsought] at hrejects
        cases hrejects
    | leads filter column hheard hsought hlt hall =>
        have hrejects := hall cell hrow (hcolumn ▸ hlt)
        rw [haccepts hsought] at hrejects
        cases hrejects
  obtain ⟨filter, hheard, hdecide⟩ := hskips
  have hjudge : matcher.judge other = (.skip, matcher.withFilter filter) := by rw [judge, hdecide]
  refine ⟨filter, hheard, ?_⟩
  rw [Matcher.inspect, hjudge]
  rfl

theorem Primed.gather_copies (hprimed : Primed name matcher (repeats ++ later))
    (hsifts : CellFilter.Sifts keepsRow accepts matcher.filter)
    (hstopped : matcher.isStopped = false)
    (hsettled : ∀ copy ∈ repeats, Settled matcher.bare copy)
    (hsame : ∀ copy ∈ repeats, cell.row = copy.row ∧ cell.qualifier = copy.qualifier)
    (haccepts : ∀ copy ∈ repeats, Considers.Sought matcher.bare copy → accepts cell = true) :
    ∃ filter, CellFilter.ComesTo matcher.filter filter ∧
      (matcher.withFilter filter).isStopped = false ∧
      matcher.gather (repeats ++ later) = (matcher.withFilter filter).gather later := by
  induction repeats generalizing matcher with
  | nil => exact ⟨matcher.filter, .refl _, hstopped, rfl⟩
  | cons copy repeats ih =>
      rw [List.cons_append] at hprimed ⊢
      obtain ⟨hcopy, hrepeats⟩ := List.forall_mem_cons.mp hsettled
      obtain ⟨⟨hrow, hcolumn⟩, hsame⟩ := List.forall_mem_cons.mp hsame
      obtain ⟨haccepted, haccepts⟩ := List.forall_mem_cons.mp haccepts
      obtain ⟨filter, hheard, hinspect⟩ :=
        hprimed.inspect_copy hsifts hstopped hcopy hrow hcolumn haccepted
      have hcourse := congrArg Look.course hinspect
      obtain ⟨hnext, -⟩ := hprimed.inspect hcopy.row hcourse
      have hgather := @gather_cons_ok _ _ matcher copy _ _ _ (if_pos hcopy.row) hcourse
      rw [hinspect] at hnext hgather
      have hfilter : Heard copy matcher.filter (matcher.withFilter filter).filter := hheard
      obtain ⟨last, hcomes, hlast, hlater⟩ := ih hnext (hsifts.comesTo hheard.comesTo)
        (hfilter.goesOn hsifts hstopped) hrepeats hsame haccepts
      exact ⟨last, hheard.comesTo.trans hcomes, hlast, hgather.trans hlater⟩

theorem Primed.sublist (hprimed : Primed name matcher rest) (hahead : ahead.Sublist rest) :
    Primed name matcher ahead where
  prepared := hprimed.prepared.sublist hahead
  started cell hcell := hprimed.started cell (hahead.mem hcell)
  steady := hprimed.steady

theorem Judged.rowOver_mono (hjudged : Judged matcher cell decision next)
    (hover : next.rowOver = false) : matcher.rowOver = false := by
  cases hjudged with
  | row => exact hover
  | expired => exact hover
  | marker =>
      simp only [decideMarker] at hover
      split at hover <;> exact hover
  | masked => exact hover
  | tooNew => exact hover
  | tooOld => exact hover
  | version =>
      simp only [withProgress, Bool.or_eq_false_iff] at hover
      exact hover.1

/-- A decision as without the filter leaves the same of the cells that are kept. -/
theorem Sieving.judged (hsieving : Sieving keepsRow accepts kept name matcher (cell :: rest))
    (hrow : matcher.row = some cell.row) (hstopped : matcher.isStopped = false) {filter : Option φ}
    (hheard : Heard cell matcher.filter filter)
    (hprimed : Primed name ((matcher.bare.judge cell).2.withFilter filter) ahead)
    (hahead : ahead ⊆ cell :: rest) (hthin : thin kept (cell :: rest) = cell :: later)
    (hcourse : (matcher.bare.look cell later).course = .ok (thin kept ahead)) :
    Sieving keepsRow accepts kept name ((matcher.bare.judge cell).2.withFilter filter) ahead := by
  have hready := hsieving.toPrimed.ready hrow
  have hjudged := hready.judged.2
  have hbare := hready.judge_bare
  have hnextRow : (matcher.bare.judge cell).2.row = some cell.row :=
    (row_of_reset hjudged.reset_eq).trans hrow
  have hlined := hsieving.lined
  rw [hthin] at hlined
  refine hsieving.onwards ?_ hprimed hheard.comesTo hahead (fun hover => ?_)
    (fun hover => hjudged.rowOver_mono hover) (fun other hother hhere => ?_) fun row hhere => ?_
  · rw [bare_withFilter, hbare]
    exact hjudged.reset_eq
  · have hfilter : Heard cell matcher.filter
        ((matcher.bare.judge cell).2.withFilter filter).filter := hheard
    rw [hfilter.goesOn hsieving.sifts hstopped] at hover
    cases hover
  · have hsame : other.row = cell.row := Option.some.inj (hhere.symm.trans hnextRow)
    exact hjudged.met (hsieving.leads (hahead hother) hsame)
      (hsieving.met other (hahead hother) (hsame ▸ hrow))
  · have hnext := (hlined.look hrow hcourse).current row hhere
    rw [bare_withFilter, hbare]
    exact hnext

/-- Where the column of a cell is read on, its copies make no difference. -/
theorem Sieving.gather_copies
    (hsieving : Sieving keepsRow accepts kept name matcher (cell :: (repeats ++ later)))
    (hrow : matcher.row = some cell.row) (hstopped : matcher.isStopped = false) {filter : Option φ}
    (hheard : Heard cell matcher.filter filter) (hkept : kept cell = true)
    (hprimed : Primed name ((matcher.bare.judge cell).2.withFilter filter) (repeats ++ later))
    (hstays : (matcher.bare.judge cell).1 = .emit ∨ (matcher.bare.judge cell).1 = .skip)
    (hrepeats : ∀ other ∈ repeats, Cell.compareKeys other cell = .eq)
    (hnext : Sieving keepsRow accepts kept name ((matcher.bare.judge cell).2.withFilter filter)
      later) :
    ∃ last, Sieving keepsRow accepts kept name ((matcher.bare.judge cell).2.withFilter last) later ∧
      ((matcher.bare.judge cell).2.withFilter filter).gather (repeats ++ later) =
        ((matcher.bare.judge cell).2.withFilter last).gather later := by
  have hready := hsieving.toPrimed.ready hrow
  have hjudged := hready.judged.2
  have hbare : ((matcher.bare.judge cell).2.withFilter filter).bare = (matcher.bare.judge cell).2 :=
    hready.judge_bare
  have hreal (copy : Cell) (hcopy : copy ∈ repeats) : copy.IsReal :=
    (hsieving.prepared.stored copy
      (List.mem_cons_of_mem _ (List.mem_append_left _ hcopy))).1
  have hsettled := hready.settled hsieving.valuesOnly hstays
  have hfilter : Heard cell matcher.filter ((matcher.bare.judge cell).2.withFilter filter).filter :=
    hheard
  have hsame (copy : Cell) (hcopy : copy ∈ repeats) :
      cell.row = copy.row ∧ cell.qualifier = copy.qualifier := by
    obtain ⟨hsameRow, -, hcolumn, -⟩ := (Cell.compareKeys_eq_eq_iff (hreal copy hcopy).not_lastOnRow
      hready.isReal.not_lastOnRow).mp (hrepeats copy hcopy)
    exact ⟨hsameRow.symm, hcolumn.symm⟩
  have haccepts (copy : Cell) (hcopy : copy ∈ repeats)
      (hsought : Considers.Sought (matcher.bare.judge cell).2 copy) : accepts cell = true := by
    -- the scan asks for the cell if it asks for a copy
    have hseeks := hsought.seeks (hjudged.plain hready.plain) (hreal copy hcopy)
    rw [seeks_of_reset hjudged.reset_eq,
      Cell.eq_withValue hready.isReal (hreal copy hcopy) (hrepeats copy hcopy)] at hseeks
    exact hsieving.accepts_of_seeks hkept hseeks
  rw [← hbare] at haccepts hsettled
  obtain ⟨last, hcomes, hlast, hgather⟩ := hprimed.gather_copies hnext.sifts
    (hfilter.goesOn hsieving.sifts hstopped)
    (fun copy hcopy => hsettled.congr (hreal copy hcopy) hready.isReal (hrepeats copy hcopy))
    hsame haccepts
  exact ⟨last, hnext.withFilter hcomes hlast, hgather⟩

/-- Where the filter has no say, the scan without it looks at the same cell. -/
theorem Sieving.gather_kept (hsieving : Sieving keepsRow accepts kept name matcher (cell :: rest))
    (hrow : matcher.row = some cell.row) (hstopped : matcher.isStopped = false)
    (hkept : kept cell = true)
    (hrest : ∀ (next : Matcher φ) (ahead : List Cell), ahead.length ≤ rest.length →
      Sieving keepsRow accepts kept name next ahead →
        next.gather ahead = next.bare.output (thin kept ahead)) :
    matcher.gather (cell :: rest) = matcher.bare.output (thin kept (cell :: rest)) := by
  have hready := hsieving.toPrimed.ready hrow
  have hjudged := hready.judged.2
  have hsorted := (List.pairwise_cons.mp hsieving.prepared.sorted).2
  obtain ⟨filter, hheard, hjudge⟩ := hsieving.exists_same hrow hstopped hkept
  have hinspect := hready.inspect_same hjudge fun _ =>
    (hsieving.sifts.comesTo hheard.comesTo).eq_of_shapes
  have hbare : ((matcher.bare.judge cell).2.withFilter filter).bare = (matcher.bare.judge cell).2 :=
    hready.judge_bare
  have hhere : matcher.bare.row = some cell.row := hrow
  obtain ⟨repeats, later, hsplit, hrepeats, hlater⟩ := exists_repeats hsieving.prepared.sorted
  have hthin : thin kept (cell :: rest) = cell :: thin kept later := by
    rw [hsplit]
    exact thin_cons_append hkept hrepeats hlater
  have hsuffix : later <:+ rest := ⟨repeats, hsplit.symm⟩
  rw [hthin]
  rcases hjudged.goOn_cases hready.plain hready.isReal with
    ⟨hstays, hgoOn⟩ | ⟨key, hkey, hgoOn⟩ | ⟨ending, hgoOn⟩
  · have hcourse : (matcher.inspect cell rest).course = .ok rest := by
      rw [hinspect]
      exact hgoOn rest
    have hlook : (matcher.bare.look cell (thin kept later)).course = .ok (thin kept later) :=
      hgoOn _
    have hprimed := (hsieving.toPrimed.inspect hrow hcourse).1
    rw [gather_cons_ok (if_pos hrow) hcourse, output_here_ok hhere hlook]
    rw [hinspect] at hprimed ⊢
    have hnext := hsieving.judged hrow hstopped hheard (hprimed.sublist hsuffix.sublist)
      (fun other hother => List.mem_cons_of_mem _ (hsuffix.subset hother)) hthin hlook
    subst hsplit
    obtain ⟨last, hlater, hgather⟩ :=
      hsieving.gather_copies hrow hstopped hheard hkept hprimed hstays hrepeats hnext
    have hbare : ((matcher.bare.judge cell).2.withFilter last).bare = _ := hready.judge_bare
    rw [hgather, hrest _ _ hsuffix.length_le hlater, hbare]
    rfl
  · -- the copies lie before the key
    have hahead : keys.skipTo key rest = keys.skipTo key later := by
      rw [hsplit]
      refine skipTo_append_of_lt (fun copy hcopy => ?_) later
      exact Std.TransCmp.lt_of_eq_of_lt (hrepeats copy hcopy) hkey
    have hcourse : (matcher.inspect cell rest).course = .ok (keys.skipTo key later) := by
      rw [hinspect, ← hahead]
      exact hgoOn rest
    have hlook : (matcher.bare.look cell (thin kept later)).course =
        .ok (thin kept (keys.skipTo key later)) := by
      rw [thin_skipTo (hsorted.sublist hsuffix.sublist)]
      exact hgoOn _
    have hprimed := (hsieving.toPrimed.inspect hrow hcourse).1
    have hsub := (@skipTo_sublist keys key later).trans hsuffix.sublist
    rw [gather_cons_ok (if_pos hrow) hcourse, output_here_ok hhere hlook]
    rw [hinspect] at hprimed ⊢
    have hnext := hsieving.judged hrow hstopped hheard hprimed
      (fun other hother => List.mem_cons_of_mem _ (hsub.mem hother)) hthin hlook
    rw [hrest _ _ hsub.length_le hnext, hbare]
    rfl
  · have hlook : (matcher.bare.look cell (thin kept later)).course = .error ending := hgoOn _
    rw [gather_cons_error (if_pos hrow) (by rw [hinspect]; exact hgoOn rest),
      output_here_error hhere hlook, hinspect]
    rfl

/-- Whatever is decided on a cell of the row that is being read, the scan without the filter goes
along with it. -/
theorem Sieving.gather_cons (hsieving : Sieving keepsRow accepts kept name matcher (cell :: rest))
    (hrow : matcher.row = some cell.row)
    (hrest : ∀ (next : Matcher φ) (ahead : List Cell), ahead.length ≤ rest.length →
      Sieving keepsRow accepts kept name next ahead →
        next.gather ahead = next.bare.output (thin kept ahead)) :
    matcher.gather (cell :: rest) = matcher.bare.output (thin kept (cell :: rest)) := by
  have hpassed (hover : PassesOver keepsRow accepts kept name matcher cell rest) :
      matcher.gather (cell :: rest) = matcher.bare.output (thin kept (cell :: rest)) := by
    cases hcourse : (matcher.inspect cell rest).course with
    | error ending =>
        rw [gather_cons_error (if_pos hrow) hcourse, hover.emitted, hover.stops ending hcourse]
        rfl
    | ok ahead =>
        obtain ⟨hnext, houtput⟩ := hover.goesOn ahead hcourse
        rw [gather_cons_ok (if_pos hrow) hcourse, hover.emitted,
          hrest _ ahead (inspect_suffix hcourse).length_le hnext, houtput]
        rfl
  cases hstopped : matcher.isStopped with
  | true => exact hpassed (hsieving.passes_stopped hstopped)
  | false =>
      cases hkept : kept cell with
      | true => exact hsieving.gather_kept hrow hstopped hkept hrest
      | false =>
          cases hdecided : matcher.bare.decideRow cell with
          | some decision => exact hpassed (hsieving.passes_decided hrow hstopped hdecided)
          | none => exact hpassed (hsieving.passes_rejected hrow hstopped hdecided hkept)

/-! ## Rows -/

/-- To enter a row makes it one to pass over if the filter drops it. -/
theorem enterRow_sifts (hsifts : CellFilter.Sifts keepsRow accepts matcher.filter) (row : Bytes) :
    ∃ filter, (matcher.enterRow row).value =
        { matcher.entered row with filter, rowOver := !keepsRow row } ∧
      ∀ state ∈ filter, CellFilter.stopsScan state = true →
        matcher.isStopped = true ∨ ∀ later, row ≤ later → keepsRow later = false := by
  unfold enterRow isStopped
  cases hfilter : matcher.filter with
  | none =>
      rw [hfilter] at hsifts
      refine ⟨none, ?_, nofun⟩
      rw [hsifts.1 row]
      exact congrArg (fun filter => { matcher.entered row with filter }) hfilter
  | some filter =>
      rw [hfilter] at hsifts
      refine ⟨some (CellFilter.judgeRow (CellFilter.reset filter) row).2, ?_, ?_⟩
      · have hdrops := hsifts.judgeRow _ row (CellFilter.Reaches.start.reset)
        simp only [Noted.value_bind]
        rw [← hdrops]
        rfl
      · rintro _ ⟨⟩ hstops
        cases hstopped : CellFilter.stopsScan filter with
        | true => exact .inl hstopped
        | false =>
            refine (hsifts.stopsAtRow _ row (CellFilter.Reaches.start.reset) hstops).imp_left
              fun hover => ?_
            rw [hsifts.resets filter .start hstopped] at hover
            cases hover

omit [CellFilter φ] in
theorem Current.withRowOver {matcher : Matcher φ} {cells : List Cell}
    (hcurrent : Current name matcher cells) (rowOver : Bool) :
    Current name { matcher with rowOver } cells where
  here := hcurrent.here
  stored := hcurrent.stored
  tagged := hcurrent.tagged
  ordered := hcurrent.ordered
  steady := ⟨hcurrent.steady.versions, hcurrent.steady.every, hcurrent.steady.reaches⟩
  room := hcurrent.room
  fresh := hcurrent.fresh
  met := hcurrent.met

theorem Sieving.enterRow (hsieving : Sieving keepsRow accepts kept name matcher (cell :: rest))
    (hrow : matcher.row ≠ some cell.row) :
    Sieving keepsRow accepts kept name (matcher.enterRow cell.row).value (cell :: rest) := by
  have hprimed := hsieving.toPrimed.atRow
  have hcomes := atRow_comesTo matcher cell.row
  obtain ⟨filter, hentered, hstops⟩ := enterRow_sifts hsieving.sifts cell.row
  have hatRow : matcher.atRow cell.row = (matcher.enterRow cell.row).value := if_neg hrow
  rw [hatRow] at hprimed hcomes
  have hnotMet : matcher.bare.inRow cell.row = matcher.bare.entered cell.row := if_neg hrow
  have hcurrent := hsieving.lined.current_inRow cell.row
  rw [hnotMet] at hcurrent
  rw [hentered] at hprimed hcomes ⊢
  have hle (other : Cell) (hother : other ∈ cell :: rest) : cell.row ≤ other.row := by
    rcases List.mem_cons.mp hother with rfl | hmem
    · exact Std.le_refl _
    · exact Cell.row_le_of_isLE
        ((List.pairwise_cons.mp hsieving.prepared.sorted).1 other hmem)
  exact {
    toPrimed := hprimed
    named := hsieving.named
    tagged := hsieving.tagged
    lasting := (hcurrent.withRowOver _).steady
    valuesOnly := hsieving.valuesOnly
    spares := hsieving.spares
    sifts := hsieving.sifts.comesTo hcomes
    stopped hover other hother := by
      cases filter with
      | none => cases hover
      | some state =>
          rcases hstops state rfl hover with hbefore | hlater
          · exact hsieving.stopped hbefore other hother
          · exact hlater other.row (hle other hother)
    wanted row hhere hwanted := by
      obtain rfl := Option.some.inj hhere
      simpa using hwanted
    met other _ _ := RowMarkers.met_empty other
    current row hhere := by
      obtain rfl := Option.some.inj hhere
      exact hcurrent.withRowOver _ }

/-- To enter the row of the first cell changes nothing of what is handed out of the cells that are
kept, also where the filter drops the row. -/
theorem Sieving.output_enterRow
    (hsieving : Sieving keepsRow accepts kept name matcher (cell :: rest))
    (hrow : matcher.row ≠ some cell.row) :
    (matcher.enterRow cell.row).value.bare.output (thin kept (cell :: rest)) =
      matcher.bare.output (thin kept (cell :: rest)) := by
  have hentered := hsieving.enterRow hrow
  rw [hentered.lined.output_eq_filter, hsieving.lined.output_eq_filter]
  obtain ⟨filter, heq, -⟩ := enterRow_sifts hsieving.sifts cell.row
  have hnot : matcher.bare.inRow cell.row = matcher.bare.entered cell.row := if_neg hrow
  refine List.filter_congr fun other hother => ?_
  have hmem := (mem_of_thin hother).1
  -- the filter speaks of the row that is entered; a later row is entered afresh either way
  by_cases hsame : other.row = cell.row
  · cases hkeeps : keepsRow cell.row with
    | false =>
        have hrejects : (keepsRow other.row && accepts other) = false := by
          rw [hsame, hkeeps, Bool.false_and]
        rw [hentered.handsOut_rejected hother hrejects, hsieving.handsOut_rejected hother hrejects]
    | true =>
        have hbare : (matcher.enterRow cell.row).value.bare = matcher.bare.entered cell.row := by
          rw [heq, hkeeps]
          rfl
        rw [handsOut, handsOut, hbare, hsame, hnot]
        exact congrArg (fun matcher : Matcher φ => matcher.keeps _ other) (if_pos rfl)
  · have hle := hentered.prepared.behind other cell.row hmem (by rw [heq]; rfl)
    have hlt : cell.row < other.row := Std.lt_of_le_of_ne hle (Ne.symm hsame)
    have hlater : (matcher.enterRow cell.row).value.bare.entered other.row =
        matcher.bare.entered other.row := by
      rw [heq]
      exact congrArg (fun columns => { matcher.bare.entered other.row with columns })
        (ColumnProgress.reset_reset matcher.columns)
    rw [handsOut, handsOut, inRow_eq_entered, inRow_eq_entered, hlater]
    · intro row hcurrent
      have hbefore := hsieving.prepared.behind cell row List.mem_cons_self hcurrent
      exact Std.lt_of_le_of_lt hbefore hlt
    · intro row hcurrent
      rw [heq] at hcurrent
      exact Option.some.inj hcurrent ▸ hlt

/-- A scan whose filter leaves out values hands out what the scan without it does of the cells
that are kept. -/
theorem Sieving.gather_eq (hsieving : Sieving keepsRow accepts kept name matcher ahead) :
    matcher.gather ahead = matcher.bare.output (thin kept ahead) := by
  induction hlength : ahead.length using Nat.strongRecOn generalizing matcher ahead with
  | ind length ih =>
      cases ahead with
      | nil => rw [gather_nil, thin, List.filter_nil, dedupe, output_nil]
      | cons cell rest =>
          have hrest (next : Matcher φ) (ahead : List Cell) (hshorter : ahead.length ≤ rest.length)
              (hnext : Sieving keepsRow accepts kept name next ahead) :
              next.gather ahead = next.bare.output (thin kept ahead) :=
            ih ahead.length (by rw [← hlength, List.length_cons]; omega) hnext rfl
          by_cases hrow : matcher.row = some cell.row
          · exact hsieving.gather_cons hrow hrest
          · have hatRow : matcher.atRow cell.row = (matcher.enterRow cell.row).value := if_neg hrow
            have hhere := row_atRow matcher cell.row
            rw [hatRow] at hhere
            rw [← gather_atRow, hatRow, (hsieving.enterRow hrow).gather_cons hhere hrest,
              hsieving.output_enterRow hrow]

end Matcher

end MergeScan
