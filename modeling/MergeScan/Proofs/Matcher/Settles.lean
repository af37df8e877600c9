import MergeScan.Proofs.Matcher.Keeps

/-! # What a decision does to the cells that are kept

A decision takes the first cell of a row off the cells ahead, and some more with it. Of
those that it leaves ahead the same are kept as before, and of the others none were. This
is shown for each ground of a decision, and so holds of every decision.
-/

namespace MergeScan.Matcher

variable {φ : Type} [CellFilter φ] {matcher next : Matcher φ} {name : Bytes} {cell other : Cell}
variable {rest row left : List Cell} {decision : Decision}

/-- What a decision on the first cell of a row has to do with the cells that are kept. -/
structure Settles (matcher next : Matcher φ) (cell : Cell) (rest : List Cell)
    (decision : Decision) : Prop where
  first : matcher.keeps (cell :: rest) cell = decision.emits
  left other : other ∈ rest → next.leaves cell decision other = true →
    next.keeps ((cell :: rest).filter (next.leaves cell decision)) other =
      matcher.keeps (cell :: rest) other
  dropped other : other ∈ rest → next.leaves cell decision other = false →
    matcher.keeps (cell :: rest) other = false

omit [CellFilter φ] in
/-- Where nothing of the row is kept, it may be left. -/
theorem settles_of_none (hnone : ∀ other ∈ cell :: rest, matcher.keeps (cell :: rest) other = false)
    (hemits : decision.emits = false) (hleaves : ∀ other, next.leaves cell decision other = false) :
    Settles matcher next cell rest decision where
  first := (hnone cell List.mem_cons_self).trans hemits.symm
  left other _ hleft := by rw [hleaves] at hleft; cases hleft
  dropped other hother _ := hnone other (List.mem_cons_of_mem _ hother)

/-- Of a row that decides by itself, nothing is kept. -/
theorem keeps_of_decideRow (hplain : Plain matcher) (hsteady : Steady matcher)
    (hcompare : matcher.compareRow cell = .eq) (hrow : matcher.decideRow cell = some decision)
    (hsame : other.row = cell.row) (row : List Cell) : matcher.keeps row other = false := by
  have hnot : ¬matcher.decideRow cell = none := by rw [hrow]; exact Option.some_ne_none _
  rw [decideRow_eq_none_iff hplain] at hnot
  by_cases hcontains : matcher.rows.contains other.row = false
  · exact keeps_of_not_contained hcontains
  · have hrange : matcher.rows.endsBefore cell.row = false ∧
        matcher.rows.startsAfter cell.row = false := by
      rw [hsame, Bool.not_eq_false, RowRange.contains] at hcontains
      simpa [and_comm] using hcontains
    cases hover : matcher.rowOver with
    | true => simp [keeps, hover]
    | false =>
        cases hfinished : matcher.columns.isFinished with
        | false => exact absurd ⟨hrange, hcompare, hover, hfinished⟩ hnot
        | true =>
            cases hretain : matcher.retainDeletes with
            | false => exact keeps_of_full (ColumnProgress.taken_of_isFinished hfinished _) hretain
            | true =>
                obtain ⟨current, hevery⟩ := hsteady.every hretain
                simp [ColumnProgress.isFinished, hevery] at hfinished

/-- A decision that the row leads to. -/
theorem Current.settles_row (hcurrent : Current name matcher (cell :: rest))
    (hplain : Plain matcher) (hrow : matcher.decideRow cell = some decision) :
    Settles matcher matcher cell rest decision := by
  have hsame (other) (hother : other ∈ cell :: rest) : other.row = cell.row :=
    Option.some.inj ((hcurrent.here other hother).symm.trans
      (hcurrent.here cell List.mem_cons_self))
  have hcompare : matcher.compareRow cell = .eq := by
    simp [compareRow, hcurrent.here cell List.mem_cons_self, hplain.order]
  have hdecision := decideRow_mem hrow
  simp only [List.mem_cons, List.not_mem_nil, or_false] at hdecision
  refine settles_of_none (fun other hother => ?_) ?_ fun other => ?_
  · exact keeps_of_decideRow hplain hcurrent.steady hcompare hrow (hsame other hother) _
  · rcases hdecision with rfl | rfl | rfl <;> rfl
  · rcases hdecision with rfl | rfl | rfl <;> rfl

/-! ### Cells that are passed over -/

omit [CellFilter φ] in
theorem finds_of_deletes (hreset : next.reset = matcher.reset)
    (hdeletes : matcher.seeks cell = true → next.deletes left cell = matcher.deletes row cell) :
    next.finds left cell = matcher.finds row cell := by
  rw [finds, finds, seeks_of_reset hreset]
  cases hseeks : matcher.seeks cell with
  | false => rfl
  | true => rw [hdeletes hseeks]

omit [CellFilter φ] in
/-- A cell that is not found, and whose column is read on. -/
theorem Current.settles_stay (hcurrent : Current name matcher (cell :: rest))
    (hreset : next.reset = matcher.reset) (hover : next.rowOver = matcher.rowOver)
    (hcolumns : next.columns = matcher.columns) (hstays : decision = .emit ∨ decision = .skip)
    (hnot : matcher.finds (cell :: rest) cell = false)
    (hfirst : matcher.keeps (cell :: rest) cell = decision.emits)
    (hdeletes : ∀ other ∈ rest, matcher.seeks other = true →
      next.deletes rest other = matcher.deletes (cell :: rest) other) :
    Settles matcher next cell rest decision := by
  have hleaves : next.leaves cell decision = fun other => (other ≠ cell : Bool) := by
    rcases hstays with rfl | rfl <;> rfl
  have hfinds (other : Cell) (hother : other ∈ rest) :
      next.finds rest other = matcher.finds (cell :: rest) other :=
    finds_of_deletes hreset (hdeletes other hother)
  refine ⟨hfirst, fun other hother _ => ?_, fun other hother hleft => ?_⟩
  · have hleft : (cell :: rest).filter (next.leaves cell decision) = rest :=
      hleaves ▸ hcurrent.filter_ne
    refine keeps_filter hreset hover (fun third hthird hkept => ?_) (fun third hthird hkept _ => ?_)
      (by rw [hcolumns]) (List.mem_cons_of_mem _ hother) ?_
    · rw [hleft]
      exact hfinds third (hleft ▸ List.mem_filter.mpr ⟨hthird, hkept⟩)
    · rw [hleaves] at hkept
      have hsame : third = cell := by simpa using hkept
      rw [hsame, hnot]
    · rw [hleaves]
      simpa using (hcurrent.behind hother).ne
  · rw [hleaves] at hleft
    exact absurd (by simpa using hleft) (hcurrent.behind hother).ne

theorem contains_of_decideRow (hplain : Plain matcher) (hrow : matcher.decideRow cell = none) :
    matcher.rows.contains cell.row = true ∧ matcher.rowOver = false := by
  obtain ⟨hrange, -, hover, -⟩ := (decideRow_eq_none_iff hplain).mp hrow
  exact ⟨by rw [RowRange.contains, hrange.1, hrange.2]; rfl, hover⟩

/-- Of the row that is being read, the range of the scan decides or the row is left. -/
theorem decideRow_here {decision : Decision} (hplain : Plain matcher)
    (hrow : matcher.row = some cell.row) (hstarted : matcher.rows.startsAfter cell.row = false)
    (hdecided : matcher.decideRow cell = some decision) :
    decision = .scanDone ∧ matcher.rows.endsBefore cell.row = true ∨ decision = .nextRow := by
  have hcompare : matcher.compareRow cell = .eq := by
    rw [compareRow, hrow, hplain.order]
    exact Std.ReflCmp.compare_self
  have hstopped : matcher.isStopped = false := by
    rw [isStopped, hplain.filter]
  simp only [decideRow, hstopped, hstarted, hcompare, Bool.false_or] at hdecided
  split at hdecided
  next hends => exact .inl ⟨(Option.some.inj hdecided).symm, hends⟩
  next =>
    split at hdecided
    · exact .inr (Option.some.inj hdecided).symm
    · split at hdecided
      · exact .inr (Option.some.inj hdecided).symm
      · cases hdecided

omit [CellFilter φ] in
theorem finds_of_isDelete (hdelete : cell.isDelete = true) : matcher.finds row cell = false := by
  have hkind : cell.kind ≠ .put := by
    intro hput
    simp [Cell.isDelete, CellKind.isDelete, hput] at hdelete
  simp [finds, seeks, hkind]

/-- A marker is remembered if it matters. -/
theorem Current.settles_marker (hcurrent : Current name matcher (cell :: rest))
    (hplain : Plain matcher) (hconsiders : Considers matcher cell)
    (hdelete : cell.isDelete = true) :
    Settles matcher (matcher.decideMarker cell).2 cell rest matcher.markerDecision := by
  have hnot : matcher.finds (cell :: rest) cell = false := finds_of_isDelete hdelete
  obtain ⟨hcontains, hover⟩ := contains_of_decideRow hplain hconsiders.row
  have hreset := decideMarker_reset matcher cell
  refine hcurrent.settles_stay hreset ?_ ?_ ?_ hnot ?_ fun other hother hseeks => ?_
  · simp only [decideMarker]
    split <;> rfl
  · simp only [decideMarker]
    split <;> rfl
  · rcases matcher.markerDecision_eq with ⟨heq, -⟩ | ⟨heq, -⟩ <;> simp [heq]
  · have hmarker : matcher.keepsMarker cell = matcher.retainDeletes := by
      simp [keepsMarker, hdelete, hcontains, hconsiders.age]
    rw [keeps, keepsValue, hnot, hmarker, hover, hcurrent.comesTo_first, markerDecision]
    cases matcher.retainDeletes <;> rfl
  · rw [deletes, deletes, List.any_cons]
    have hbehind := hcurrent.behind hother
    simp only [decideMarker]
    split
    next =>
      rw [(hcurrent.met cell List.mem_cons_self).hides_add hbehind.leads hdelete, Bool.or_assoc]
    next hreaches =>
      have hmasks : cell.masks other = false := by
        cases hmasks : cell.masks other with
        | false => rfl
        | true =>
            have hle := Cell.timestamp_le_of_masks hmasks
            simp only [seeks, TimeRange.contains, TimeRange.position, Bool.and_eq_true] at hseeks
            simp only [TimeRange.reaches, decide_eq_true_eq, Std.not_le] at hreaches
            simp [Std.lt_of_le_of_lt hle hreaches] at hseeks
      rw [hmasks, Bool.false_or]

omit [CellFilter φ] in
/-- A value that is deleted, or newer than the scan asks for. -/
theorem Current.settles_passed (hcurrent : Current name matcher (cell :: rest))
    (hvalue : cell.isDelete = false) (hnot : matcher.finds (cell :: rest) cell = false) :
    Settles matcher (matcher.afterMarkers cell) cell rest .skip := by
  have hput := (hcurrent.isReal List.mem_cons_self).kind_eq_put hvalue
  refine hcurrent.settles_stay rfl rfl rfl (.inr rfl) hnot (keeps_of_not_finds hnot hvalue)
    fun other hother _ => ?_
  rw [deletes, deletes, List.any_cons, Cell.masks_of_put hput, Bool.false_or]
  congr 1
  exact (hcurrent.met cell List.mem_cons_self).hides_after (hcurrent.behind hother).leads

/-! ### Columns that are left -/

omit [CellFilter φ] in
/-- Where every column is wanted, that stays so. -/
theorem every_of_reset (hreset : next.reset = matcher.reset) {current : Option Bytes}
    (hevery : matcher.columns.choice = .every current) :
    next.columns.next? = none ∧ next.columns.isFinished = false := by
  have hchoice := congrArg (fun matcher : Matcher φ => matcher.columns.choice) hreset
  simp only [reset, ColumnProgress.reset, hevery] at hchoice
  cases hnext : next.columns.choice with
  | every column => simp [ColumnProgress.next?, ColumnProgress.isFinished, hnext]
  | listed wanted ahead => simp [hnext] at hchoice

omit [CellFilter φ] in
/-- Of an ascending list, what is passed behind the column of the cell is not wanted. -/
theorem Current.keeps_unwanted (hcurrent : Current name matcher (cell :: rest))
    (hreset : next.reset = matcher.reset)
    (hfull : next.columns.taken other.qualifier = next.columns.rule.max)
    (htaken : next.columns.taken other.qualifier = matcher.columns.taken other.qualifier)
    (hlisted : next.columns.next? ≠ none ∨ next.columns.isFinished = true) :
    matcher.keeps (cell :: rest) other = false := by
  rw [htaken, rule_of_reset hreset] at hfull
  cases hretain : matcher.retainDeletes with
  | false => exact keeps_of_full hfull hretain
  | true =>
      obtain ⟨current, hevery⟩ := hcurrent.steady.every hretain
      obtain ⟨hnone, hunfinished⟩ := every_of_reset hreset hevery
      simp [hnone, hunfinished] at hlisted

omit [CellFilter φ] in
/-- What is passed is of the column of the cell, or not wanted. -/
theorem Current.of_passes (hcurrent : Current name matcher (cell :: rest))
    (hother : other ∈ cell :: rest) (hpassed : next.passes cell other = true) :
    other.qualifier = cell.qualifier ∨ cell.qualifier < other.qualifier ∧
      ∃ column, next.columns.next? = some column ∧ other.qualifier < column := by
  have hle : cell.qualifier ≤ other.qualifier := by
    rcases List.mem_cons.mp hother with rfl | hmem
    · exact Std.le_refl _
    · exact (hcurrent.behind hmem).qualifier_le
  unfold passes at hpassed
  split at hpassed
  next column hnext =>
    by_cases hsame : other.qualifier = cell.qualifier
    · exact .inl hsame
    · exact .inr ⟨by grind, column, hnext, of_decide_eq_true hpassed⟩
  next => exact .inl (Std.le_antisymm (of_decide_eq_true hpassed) hle)

omit [CellFilter φ] in
theorem lt_of_not_passes
    (hlater : ∀ column, next.columns.next? = some column → cell.qualifier < column)
    (hkept : next.passes cell other = false) : cell.qualifier < other.qualifier := by
  unfold passes at hkept
  split at hkept
  next column hnext =>
    exact Std.lt_of_lt_of_le (hlater column hnext) (Std.not_lt.mp (of_decide_eq_false hkept))
  next => exact Std.not_le.mp (of_decide_eq_false hkept)

omit [CellFilter φ] in
theorem passes_congr {third : Cell} (hsame : third.qualifier = other.qualifier) :
    next.passes cell third = next.passes cell other := by
  simp only [passes, hsame]

omit [CellFilter φ] in
/-- What is passed deletes nothing behind it, except for markers on the whole row. -/
theorem masks_of_passes {third : Cell} (htagged : third.Tagged)
    (hpassed : next.passes cell third = true) (hkept : next.passes cell other = false)
    (hwide : third.qualifier = [] → third.masks other = false) : third.masks other = false := by
  have hne : third.qualifier ≠ other.qualifier := by
    intro hsame
    rw [passes_congr hsame, hkept] at hpassed
    cases hpassed
  by_cases hempty : third.qualifier = []
  · exact hwide hempty
  · exact Cell.not_masks_of_ne htagged hempty hne

omit [CellFilter φ] in
/-- Of the column of the first cell, which is left, nothing more is kept. -/
theorem Current.settles_column (hcurrent : Current name matcher (cell :: rest))
    (hreset : next.reset = matcher.reset) (hover : next.rowOver = matcher.rowOver)
    (hascending : next.columns.Ascending)
    (hleaves : decision = .nextColumn ∨ decision = .emitThenNextColumn)
    (hlater : ∀ column, next.columns.next? = some column → cell.qualifier < column)
    (hhides : ∀ other ∈ rest, next.markers.hides other.qualifier other.timestamp =
      matcher.markers.hides other.qualifier other.timestamp)
    (htaken : ∀ column, cell.qualifier < column →
      next.columns.taken column = matcher.columns.taken column)
    (hwide : ∀ marker ∈ cell :: rest, marker.qualifier = [] →
      ∀ other, matcher.seeks other = true → marker.masks other = false)
    (hfirst : matcher.keeps (cell :: rest) cell = decision.emits)
    (hcolumn : ∀ other ∈ rest, other.qualifier = cell.qualifier →
      matcher.keeps (cell :: rest) other = false) :
    Settles matcher next cell rest decision := by
  have hleaves (other : Cell) : next.leaves cell decision other = !next.passes cell other := by
    rcases hleaves with rfl | rfl <;> rfl
  -- the cell itself is passed over, so what is not passed over is ahead of it
  have hself : next.passes cell cell = true := by
    cases hpasses : next.passes cell cell with
    | true => rfl
    | false => exact absurd (lt_of_not_passes hlater hpasses) Std.lt_irrefl
  refine ⟨hfirst, fun other hother hkept => ?_, fun other hother hpassed => ?_⟩
  · have hnot : next.passes cell other = false := by simpa [hleaves] using hkept
    refine keeps_filter hreset hover (fun third hthird hkept => ?_)
      (fun third hthird hpassed hsame => ?_) (htaken _ (lt_of_not_passes hlater hnot))
      (List.mem_cons_of_mem _ hother) hkept
    · have hnot : next.passes cell third = false := by simpa [hleaves] using hkept
      have hmem : third ∈ rest := by
        refine (List.mem_cons.mp hthird).resolve_left ?_
        rintro rfl
        rw [hself] at hnot
        cases hnot
      refine finds_filter hreset (hhides third hmem) fun hseeks marker hmarker hpassed => ?_
      refine masks_of_passes (hcurrent.tagged marker hmarker) (by simpa [hleaves] using hpassed)
        hnot fun hempty => hwide marker hmarker hempty third hseeks
    · rw [hleaves, passes_congr hsame, hnot] at hpassed
      cases hpassed
  · rw [hleaves, Bool.not_eq_false'] at hpassed
    rcases hcurrent.of_passes (List.mem_cons_of_mem _ hother) hpassed with
      hsame | ⟨hlt, column, hnext, hbefore⟩
    · exact hcolumn other hother hsame
    · exact hcurrent.keeps_unwanted hreset
        (ColumnProgress.taken_of_lt_next hascending hnext hbefore) (htaken _ hlt)
        (.inl (by simp [hnext]))

omit [CellFilter φ] in
/-- Of a row that is left because no column of the list is left, nothing more is kept. -/
theorem Current.settles_finished (hcurrent : Current name matcher (cell :: rest))
    (hreset : next.reset = matcher.reset) (hfinished : next.columns.isFinished = true)
    (hleaves : decision = .nextRow ∨ decision = .emitThenNextRow)
    (htaken : ∀ column, cell.qualifier < column →
      next.columns.taken column = matcher.columns.taken column)
    (hfirst : matcher.keeps (cell :: rest) cell = decision.emits)
    (hcolumn : ∀ other ∈ rest, other.qualifier = cell.qualifier →
      matcher.keeps (cell :: rest) other = false) :
    Settles matcher next cell rest decision := by
  have hleaves (other : Cell) : next.leaves cell decision other = false := by
    rcases hleaves with rfl | rfl <;> rfl
  refine ⟨hfirst, fun other _ hkept => ?_, fun other hother _ => ?_⟩
  · rw [hleaves] at hkept
    cases hkept
  · by_cases hsame : other.qualifier = cell.qualifier
    · exact hcolumn other hother hsame
    · have hle := (hcurrent.behind hother).qualifier_le
      exact hcurrent.keeps_unwanted hreset (ColumnProgress.taken_of_isFinished hfinished _)
        (htaken _ (by grind)) (.inr hfinished)

omit [CellFilter φ] in
/-- The markers of a column that is left delete nothing of the others, where the column is
one of values. -/
theorem Current.not_wide (hcurrent : Current name matcher (cell :: rest))
    (hvalue : cell.isDelete = false) {marker : Cell} (hmarker : marker ∈ cell :: rest) :
    marker.qualifier ≠ [] := by
  intro hempty
  have hput := (hcurrent.isReal List.mem_cons_self).kind_eq_put hvalue
  have hle : cell.qualifier ≤ [] := by
    rcases List.mem_cons.mp hmarker with rfl | hmem
    · exact hempty ▸ Std.le_refl _
    · exact hempty ▸ (hcurrent.behind hmem).qualifier_le
  have hfamily := (hcurrent.tagged cell List.mem_cons_self).mp (List.le_nil.mp hle)
  rw [hput] at hfamily
  cases hfamily

omit [CellFilter φ] in
/-- Of a column that is given up, nothing more is kept. -/
theorem Current.settles_giveUp (hcurrent : Current name matcher (cell :: rest))
    (hplain : Plain matcher) {base : Matcher φ} (hcolumns : base.columns = matcher.columns)
    (hreset : base.reset = matcher.reset) (hover : base.rowOver = matcher.rowOver)
    (hhides : ∀ other ∈ rest, base.markers.hides other.qualifier other.timestamp =
      matcher.markers.hides other.qualifier other.timestamp)
    (hwide : ∀ marker ∈ cell :: rest, marker.qualifier = [] →
      ∀ other, matcher.seeks other = true → marker.masks other = false)
    (hcolumn : ∀ other ∈ cell :: rest, other.qualifier = cell.qualifier →
      matcher.keeps (cell :: rest) other = false) :
    Settles matcher (base.giveUpColumn cell).2 cell rest (base.giveUpColumn cell).1 := by
  have hnext := (giveUpColumn_reset base cell).trans hreset
  have htaken (column : Bytes) (hlt : cell.qualifier < column) :
      (base.giveUpColumn cell).2.columns.taken column = matcher.columns.taken column :=
    (ColumnProgress.taken_giveUp hlt).trans (by rw [hcolumns])
  have hascending : base.columns.Ascending := hcolumns ▸ hplain.columns
  have hfirst (hemits : (base.giveUpColumn cell).1.emits = false) :=
    (hcolumn cell List.mem_cons_self rfl).trans hemits.symm
  have hrest (other : Cell) (hother : other ∈ rest) := hcolumn other (List.mem_cons_of_mem _ hother)
  rcases base.columns.giveUp_decision cell.qualifier with hdecision | hdecision
  · have hdecision : (base.giveUpColumn cell).1 = .nextColumn := hdecision
    exact hcurrent.settles_column hnext hover (hascending.giveUp _) (.inl hdecision)
      (fun column hlater => hascending.lt_next_giveUp hlater) hhides htaken hwide
      (hfirst (by rw [hdecision]; rfl)) hrest
  · have hdecision : (base.giveUpColumn cell).1 = .nextRow := hdecision
    exact hcurrent.settles_finished hnext (ColumnProgress.isFinished_giveUp hdecision)
      (.inl hdecision) htaken (hfirst (by rw [hdecision]; rfl)) hrest

omit [CellFilter φ] in
/-- A cell that has expired. -/
theorem Current.settles_expired (hcurrent : Current name matcher (cell :: rest))
    (hplain : Plain matcher) (hage : matcher.columns.rule.rulesOut cell.timestamp = true) :
    Settles matcher (matcher.giveUpColumn cell).2 cell rest (matcher.giveUpColumn cell).1 := by
  -- all that follow in the column are as old, so they have expired as well
  have hout (timestamp : Timestamp) (hle : timestamp ≤ cell.timestamp) :=
    VersionRule.rulesOut_mono hle hage
  have hle (other : Cell) (hother : other ∈ cell :: rest)
      (hsame : other.qualifier = cell.qualifier) : other.timestamp ≤ cell.timestamp := by
    rcases List.mem_cons.mp hother with rfl | hmem
    · exact Std.le_refl _
    · exact (hcurrent.behind hmem).timestamp_le hsame.symm
  refine hcurrent.settles_giveUp hplain rfl rfl rfl (fun _ _ => rfl)
    (fun marker hmarker hempty other hseeks => ?_)
    fun other hother hsame => keeps_of_rulesOut (hout _ (hle other hother hsame))
  cases hmasks : marker.masks other with
  | false => rfl
  | true =>
      have hfirst : cell.qualifier = [] := by
        rcases List.mem_cons.mp hmarker with rfl | hmem
        · exact hempty
        · exact List.le_nil.mp (hempty ▸ (hcurrent.behind hmem).qualifier_le)
      have hmarkerLe := hle marker hmarker (hempty.trans hfirst.symm)
      have hotherLe := Std.le_trans (Cell.timestamp_le_of_masks hmasks) hmarkerLe
      simp [seeks, hout _ hotherLe] at hseeks

omit [CellFilter φ] in
/-- A value that is older than the scan asks for. -/
theorem Current.settles_tooOld (hcurrent : Current name matcher (cell :: rest))
    (hplain : Plain matcher) (hvalue : cell.isDelete = false)
    (hposition : matcher.timeRange.position cell.timestamp = .lt) :
    Settles matcher ((matcher.afterMarkers cell).giveUpColumn cell).2 cell rest
      ((matcher.afterMarkers cell).giveUpColumn cell).1 := by
  have hvalues : matcher.retainDeletes = false := by
    cases hretain : matcher.retainDeletes with
    | false => rfl
    | true => exact absurd hposition (hcurrent.steady.reaches _ hretain)
  refine hcurrent.settles_giveUp hplain rfl rfl rfl
    (fun other hother =>
      (hcurrent.met cell List.mem_cons_self).hides_after (hcurrent.behind hother).leads)
    (fun marker hmarker hempty => absurd hempty (hcurrent.not_wide hvalue hmarker))
    fun other hother hsame => ?_
  have hle : other.timestamp ≤ cell.timestamp := by
    rcases List.mem_cons.mp hother with rfl | hmem
    · exact Std.le_refl _
    · exact (hcurrent.behind hmem).timestamp_le hsame.symm
  have hbefore := TimeRange.position_mono hle hposition
  simp [keeps, keepsValue, keepsMarker, hvalues, finds, seeks, TimeRange.contains, hbefore]

/-! ### Versions -/

/-- A live value inside the time range is found. -/
theorem Current.finds_first (hcurrent : Current name matcher (cell :: rest))
    (hplain : Plain matcher) (hlive : Considers.Live matcher cell)
    (hposition : matcher.timeRange.position cell.timestamp = .eq) :
    matcher.finds (cell :: rest) cell = true := by
  have hput := (hcurrent.isReal List.mem_cons_self).kind_eq_put hlive.value
  rw [finds, hcurrent.deletes_first hput, hlive.live]
  simp [seeks, hput, (contains_of_decideRow hplain hlive.row).1, TimeRange.contains, hposition,
    hlive.age]

theorem Current.keeps_version (hcurrent : Current name matcher (cell :: rest))
    (hplain : Plain matcher) (hlive : Considers.Live matcher cell)
    (hposition : matcher.timeRange.position cell.timestamp = .eq) {columns : ColumnProgress}
    (hchecked : matcher.columns.Checked cell.qualifier cell.timestamp decision columns) :
    matcher.keeps (cell :: rest) cell = decision.emits := by
  rw [(hchecked.emits_eq (hcurrent.fresh cell List.mem_cons_self) hplain.columns
    hcurrent.room).1]
  simp [keeps, keepsValue, keepsMarker, hcurrent.finds_first hplain hlive hposition,
    hcurrent.comesTo_first, hcurrent.newer_first, hlive.value,
    (contains_of_decideRow hplain hlive.row).2]

omit [CellFilter φ] in
/-- A value that is found is one of the newer versions of what comes behind it in its column. -/
theorem Current.newer_cons (hcurrent : Current name matcher (cell :: rest))
    (hvalue : cell.kind = .put) (hfinds : matcher.finds (cell :: rest) cell = true)
    (hother : other ∈ rest) (hsame : other.qualifier = cell.qualifier) :
    matcher.newer (cell :: rest) other =
      cell :: rest.filter fun third => third.qualifier = other.qualifier &&
        other.timestamp < third.timestamp && matcher.finds (cell :: rest) third := by
  have hlt := (hcurrent.behind hother).timestamp_lt hvalue
    (hcurrent.isReal (List.mem_cons_of_mem _ hother)) hsame.symm
  rw [newer, List.filter_cons_of_pos]
  simp [hsame, hlt, hfinds]

/-- Where the column of a version is left, nothing more of it is kept. -/
theorem Current.keeps_left (hcurrent : Current name matcher (cell :: rest))
    (hplain : Plain matcher) (hlive : Considers.Live matcher cell)
    (hposition : matcher.timeRange.position cell.timestamp = .eq) {columns : ColumnProgress}
    (hchecked : matcher.columns.Checked cell.qualifier cell.timestamp decision columns)
    (hleaves : decision ≠ .emit) (hother : other ∈ rest)
    (hsame : other.qualifier = cell.qualifier) : matcher.keeps (cell :: rest) other = false := by
  have hput := (hcurrent.isReal List.mem_cons_self).kind_eq_put hlive.value
  have hnewer := hcurrent.newer_cons hput (hcurrent.finds_first hplain hlive hposition) hother hsame
  have hemits := (hchecked.emits_eq (hcurrent.fresh cell List.mem_cons_self) hplain.columns
    hcurrent.room).2
  have hholds := Bool.eq_false_iff.mpr (mt hemits.mpr hleaves)
  have hcomes : matcher.comesTo (cell :: rest) other = false := by
    rw [comesTo, hnewer, List.all_cons, hcurrent.newer_first, List.length_nil, hholds,
      Bool.false_and]
  rw [keeps, hcomes, Bool.and_false, Bool.false_and]

/-- A version whose column is left. -/
theorem Current.settles_left (hcurrent : Current name matcher (cell :: rest))
    (hplain : Plain matcher) (hlive : Considers.Live matcher cell)
    (hposition : matcher.timeRange.position cell.timestamp = .eq) {columns : ColumnProgress}
    (hchecked : matcher.columns.Checked cell.qualifier cell.timestamp decision columns)
    (hleaves : decision ≠ .emit) :
    Settles matcher ((matcher.afterMarkers cell).withProgress decision columns) cell rest
      decision := by
  have hjudged : Judged matcher cell decision _ :=
    .version decision columns hlive hposition hchecked
  have hfirst := hcurrent.keeps_version hplain hlive hposition hchecked
  have hcolumn (other : Cell) (hother : other ∈ rest) (hsame : other.qualifier = cell.qualifier) :=
    hcurrent.keeps_left hplain hlive hposition hchecked hleaves hother hsame
  have htaken (column : Bytes) (hlt : cell.qualifier < column) := hchecked.taken_of_lt hlt
  have hhides (other : Cell) (hother : other ∈ rest) :=
    (hcurrent.met cell List.mem_cons_self).hides_after (hcurrent.behind hother).leads
  have hrow (hdecision : decision = .nextRow ∨ decision = .emitThenNextRow) :=
    hcurrent.settles_finished hjudged.reset_eq (hchecked.isFinished_of_row hdecision) hdecision
      htaken hfirst hcolumn
  have hleft (hdecision : decision = .nextColumn ∨ decision = .emitThenNextColumn) :
      Settles matcher ((matcher.afterMarkers cell).withProgress decision columns) cell rest
        decision := by
    refine hcurrent.settles_column hjudged.reset_eq ?_ (hchecked.ascending hplain.columns) hdecision
      (fun column => hchecked.lt_next hplain.columns hdecision) hhides htaken
      (fun marker hmarker hempty => absurd hempty (hcurrent.not_wide hlive.value hmarker))
      hfirst hcolumn
    rcases hdecision with rfl | rfl <;> simp [withProgress, afterMarkers]
  -- either the rest of the column is passed over, or the rest of the row
  have hmem := hchecked.decision_mem
  simp only [List.mem_cons, List.not_mem_nil, or_false] at hmem
  rcases hmem with hdecision | hdecision | hdecision | hdecision | hdecision | hdecision
  · exact absurd hdecision hleaves
  · exact hleft (.inr hdecision)
  · exact hrow (.inr hdecision)
  · exact absurd hdecision (hchecked.ne_skip (hcurrent.fresh cell List.mem_cons_self))
  · exact hleft (.inl hdecision)
  · exact hrow (.inl hdecision)

omit [CellFilter φ] in
/-- What is kept of a column behind a version that is counted and after which it is read on. -/
theorem Current.keeps_counted (hcurrent : Current name matcher (cell :: rest))
    (hvalue : cell.kind = .put) (hfound : matcher.finds (cell :: rest) cell = true)
    (hreset : next.reset = matcher.reset) (hover : next.rowOver = matcher.rowOver)
    (hfinds : ∀ third ∈ rest, next.finds rest third = matcher.finds (cell :: rest) third)
    (htaken : next.columns.taken cell.qualifier = matcher.columns.taken cell.qualifier + 1)
    (hholds : matcher.columns.holds cell.qualifier cell.timestamp 0 = true)
    (hother : other ∈ rest) (hsame : other.qualifier = cell.qualifier) :
    next.keeps rest other = matcher.keeps (cell :: rest) other := by
  have hrule := rule_of_reset hreset
  -- the version that was counted is one more of those before the others of its column
  have hnewer (third : Cell) (hthird : third ∈ rest) (hcolumn : third.qualifier = cell.qualifier) :
      matcher.newer (cell :: rest) third = cell :: next.newer rest third := by
    rw [hcurrent.newer_cons hvalue hfound hthird hcolumn, newer]
    congr 1
    exact List.filter_congr fun fourth hfourth => by rw [hfinds fourth hfourth]
  have hgrants (timestamp : Timestamp) (count : Nat) :
      next.columns.grants cell.qualifier timestamp count =
        matcher.columns.grants cell.qualifier timestamp (count + 1) := by
    rw [ColumnProgress.grants, ColumnProgress.grants, htaken, hrule, isListed_of_reset hreset,
      Nat.add_right_comm, Nat.add_assoc]
  have hholdsNext (timestamp : Timestamp) (count : Nat) :
      next.columns.holds cell.qualifier timestamp count =
        matcher.columns.holds cell.qualifier timestamp (count + 1) := by
    rw [ColumnProgress.holds, ColumnProgress.holds, htaken, hrule, isListed_of_reset hreset,
      Nat.add_right_comm (matcher.columns.taken cell.qualifier) 1 count,
      Nat.add_assoc (matcher.columns.taken cell.qualifier) count 1]
  have hcomes : next.comesTo rest other = matcher.comesTo (cell :: rest) other := by
    rw [comesTo, comesTo, hnewer other hother hsame, List.all_cons, hcurrent.newer_first,
      List.length_nil, hholds, Bool.true_and (List.all _ _), Bool.eq_iff_iff, List.all_eq_true,
      List.all_eq_true]
    refine forall_congr' fun third => imp_congr_right fun hthird => ?_
    obtain ⟨hmem, ⟨hcolumn, -⟩, -⟩ := mem_newer.mp hthird
    rw [hnewer third hmem (hcolumn.trans hsame), hcolumn, hsame, hholdsNext, List.length_cons]
  rw [keeps, keeps, keepsValue, keepsValue, keepsMarker, keepsMarker, hover, hcomes,
    hfinds other hother, retainDeletes_of_reset hreset, rows_of_reset hreset, hrule,
    hnewer other hother hsame, List.length_cons, hsame, hgrants]

/-- A version whose column is read on: it counts for the older ones. -/
theorem Current.settles_counted (hcurrent : Current name matcher (cell :: rest))
    (hplain : Plain matcher) (hlive : Considers.Live matcher cell)
    (hposition : matcher.timeRange.position cell.timestamp = .eq) {columns : ColumnProgress}
    (hchecked : matcher.columns.Checked cell.qualifier cell.timestamp .emit columns) :
    Settles matcher ((matcher.afterMarkers cell).withProgress .emit columns) cell rest .emit := by
  have hput := (hcurrent.isReal List.mem_cons_self).kind_eq_put hlive.value
  have hfresh := hcurrent.fresh cell List.mem_cons_self
  have hfirst := hcurrent.keeps_version hplain hlive hposition hchecked
  have hreset : ((matcher.afterMarkers cell).withProgress .emit columns).reset = matcher.reset :=
    (Judged.version _ columns hlive hposition hchecked).reset_eq
  generalize hnext : (matcher.afterMarkers cell).withProgress .emit columns = next at hreset ⊢
  have hcolumns : next.columns = columns := by rw [← hnext]; rfl
  have hover : next.rowOver = matcher.rowOver := by
    rw [← hnext]
    simp [withProgress, afterMarkers]
  have hfinds (third : Cell) (hthird : third ∈ rest) :
      next.finds rest third = matcher.finds (cell :: rest) third := by
    refine finds_of_deletes hreset fun _ => ?_
    rw [deletes, deletes, List.any_cons, Cell.masks_of_put hput, Bool.false_or, ← hnext]
    congr 1
    exact (hcurrent.met cell List.mem_cons_self).hides_after (hcurrent.behind hthird).leads
  have hsameNewer (third : Cell) : next.newer rest third =
      rest.filter fun other => other.qualifier = third.qualifier &&
        third.timestamp < other.timestamp && matcher.finds (cell :: rest) other :=
    List.filter_congr fun other hother => by rw [hfinds other hother]
  have hleft : (cell :: rest).filter (next.leaves cell .emit) = rest := hcurrent.filter_ne
  refine ⟨hfirst, fun other hother _ => ?_, fun other hother hgone => ?_⟩
  · rw [hleft]
    -- the column has one version less to give, and one less of it comes first
    by_cases hsame : other.qualifier = cell.qualifier
    · refine hcurrent.keeps_counted hput (hcurrent.finds_first hplain hlive hposition) hreset hover
        hfinds (hcolumns ▸ hchecked.taken_emit hfresh rfl) ?_ hother hsame
      exact (hchecked.emits_eq hfresh hplain.columns hcurrent.room).2.mp rfl
    · have hlt : cell.qualifier < other.qualifier := by
        have := (hcurrent.behind hother).qualifier_le
        grind
      refine keeps_of_newer hreset hover (hfinds other hother) (fun third hthird hcolumn => ?_)
        hother (hcolumns ▸ hchecked.taken_of_lt hlt)
      rw [hsameNewer, newer, List.filter_cons_of_neg]
      simp [hcolumn, Ne.symm hsame]
  · have hgone : (other ≠ cell : Bool) = false := hgone
    exact absurd (by simpa using hgone) (hcurrent.behind hother).ne

/-! ### Every decision -/

/-- A decision takes the first cell of a row off the cells ahead, and none of those that it
takes off with it were kept. -/
theorem Judged.settles (hjudged : Judged matcher cell decision next)
    (hcurrent : Current name matcher (cell :: rest)) (hplain : Plain matcher) :
    Settles matcher next cell rest decision := by
  cases hjudged with
  | row decision hrow => exact hcurrent.settles_row hplain hrow
  | expired hrow hage => exact hcurrent.settles_expired hplain hage
  | marker hconsiders hdelete => exact hcurrent.settles_marker hplain hconsiders hdelete
  | masked hconsiders hvalue hhides =>
      have hput := (hcurrent.isReal List.mem_cons_self).kind_eq_put hvalue
      refine hcurrent.settles_passed hvalue ?_
      rw [finds, hcurrent.deletes_first hput, hhides, Bool.not_true, Bool.and_false]
  | tooNew hlive hposition =>
      refine hcurrent.settles_passed hlive.value ?_
      simp [finds, seeks, TimeRange.contains, hposition]
  | tooOld hlive hposition => exact hcurrent.settles_tooOld hplain hlive.value hposition
  | version decision columns hlive hposition hchecked =>
      by_cases hemit : decision = .emit
      · subst hemit
        exact hcurrent.settles_counted hplain hlive hposition hchecked
      · exact hcurrent.settles_left hplain hlive hposition hchecked hemit

/-- The first cell itself is not left ahead. -/
theorem Judged.leaves_self (hjudged : Judged matcher cell decision next) (hplain : Plain matcher) :
    next.leaves cell decision cell = false := by
  have hcolumn (hleaves : decision = .nextColumn ∨ decision = .emitThenNextColumn) :
      next.passes cell cell = true := by
    cases hpasses : next.passes cell cell with
    | true => rfl
    | false =>
        exact absurd (lt_of_not_passes (fun _ => hjudged.lt_next hplain.columns hleaves) hpasses)
          Std.lt_irrefl
  unfold leaves
  split
  · simp
  · simp
  · simp
  · rw [hcolumn (.inl rfl), Bool.not_true]
  · rw [hcolumn (.inr rfl), Bool.not_true]
  all_goals rfl

/-- Versions that are ahead stay fresh. -/
theorem Judged.fresh (hjudged : Judged matcher cell decision next) (hreal : cell.IsReal)
    (hother : other.IsReal) (hbehind : cell.Behind other)
    (hfresh : matcher.columns.Fresh other.qualifier other.timestamp) :
    next.columns.Fresh other.qualifier other.timestamp := by
  cases hjudged with
  | row decision hrow => exact hfresh
  | expired hrow hage => exact hfresh.giveUp _
  | marker hconsiders hdelete =>
      simp only [decideMarker]
      split <;> exact hfresh
  | masked hconsiders hvalue hhides => exact hfresh
  | tooNew hlive hposition => exact hfresh
  | tooOld hlive hposition => exact ColumnProgress.Fresh.giveUp hfresh _
  | version decision columns hlive hposition hchecked =>
      exact hchecked.fresh hfresh fun hsame =>
        hbehind.timestamp_lt (hreal.kind_eq_put hlive.value) hother hsame.symm

/-- What is known of a row that is read stays known of the cells that a decision leaves ahead. -/
theorem Judged.current (hjudged : Judged matcher cell decision next)
    (hcurrent : Current name matcher (cell :: rest)) (hplain : Plain matcher) :
    Current name next ((cell :: rest).filter (next.leaves cell decision)) := by
  have hreset := hjudged.reset_eq
  have hmem (other : Cell)
      (hother : other ∈ (cell :: rest).filter (next.leaves cell decision)) : other ∈ rest := by
    obtain ⟨hmem, hleft⟩ := List.mem_filter.mp hother
    refine (List.mem_cons.mp hmem).resolve_left ?_
    rintro rfl
    rw [hjudged.leaves_self hplain] at hleft
    cases hleft
  have hsub := List.filter_sublist (p := next.leaves cell decision) (l := cell :: rest)
  exact {
    here other hother := (row_of_reset hreset).trans (hcurrent.here other (hsub.mem hother))
    stored other hother := hcurrent.stored other (hsub.mem hother)
    tagged other hother := hcurrent.tagged other (hsub.mem hother)
    ordered := hcurrent.ordered.sublist hsub
    steady := hcurrent.steady.of_reset hreset
    room := hjudged.hasRoom hcurrent.room
    fresh other hother := hjudged.fresh (hcurrent.isReal List.mem_cons_self)
      (hcurrent.isReal (hsub.mem hother)) (hcurrent.behind (hmem other hother))
      (hcurrent.fresh other (hsub.mem hother))
    met other hother := hjudged.met (hcurrent.behind (hmem other hother)).leads
      (hcurrent.met other (hsub.mem hother)) }

end MergeScan.Matcher
