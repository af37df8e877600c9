import Mathlib
import MergeScan.Proofs.Matcher.Expired
import MergeScan.Proofs.Matcher.Refuses
import MergeScan.Proofs.Scanner.Safety
import MergeScan.Proofs.Scanner.Unfiltered
import MergeScan.Proofs.Source.Scripted

/-! # Expired cells that are handed out

What a matcher has counted of the current row accounts for the versions that were handed out of
it, over all reads of a scan. So the rule for one version holds of every cell that has expired:
it comes after fewer versions of its column than the family keeps whatever their age, or it is
the first that has expired of a column that the scan lists.
-/

namespace MergeScan

/-- Whether a cell is too old by the time a scan of a family begins. -/
def Family.HasExpired (family : Family) (cell : Cell) : Prop :=
  ∃ ttl, family.ttl = some ttl ∧ cell.timestamp < family.clock.now.subSaturating ttl

theorem Family.hasExpired_iff {family : Family} {cell : Cell} (max min : Nat) :
    family.HasExpired cell ↔
      (VersionRule.mk max min family.oldestUnexpired).isExpired cell.timestamp = true := by
  unfold HasExpired VersionRule.isExpired oldestUnexpired
  cases family.ttl <;> simp

section KeepsAge

variable {φ : Type}

/-- Whether a scan may hand out a cell behind others of which it may have expired. -/
def Scan.MayFollow (family : Family) (scan : Scan φ) (before : List Cell) (cell : Cell) : Prop :=
  family.HasExpired cell →
    (versionsOf cell.row cell.qualifier before).length < family.minVersions ∨
      (scan.columns ≠ [] ∧ 0 < family.minVersions) ∧
        ∀ earlier ∈ versionsOf cell.row cell.qualifier before, ¬family.HasExpired earlier

/-- The cells of the reads that did not fail. -/
def cellsRead (results : List (Except ScanError Page)) : List Cell :=
  results.flatMap fun result => result.toOption.elim [] Page.cells

/-- Whether a scan may hand out each of some cells behind those before it. -/
def Scan.KeepsAge (family : Family) (scan : Scan φ) (cells : List Cell) : Prop :=
  ∀ before cell, before ++ [cell] <+: cells → scan.MayFollow family before cell

variable {family : Family} {scan : Scan φ} {cells : List Cell}

theorem Scan.keepsAge_nil : scan.KeepsAge family [] := by
  intro before cell hprefix
  have hnone := List.prefix_nil.mp hprefix
  simp at hnone

theorem Scan.KeepsAge.append (hcells : scan.KeepsAge family cells) {cell : Option Cell}
    (hcell : ∀ last, cell = some last → scan.MayFollow family cells last) :
    scan.KeepsAge family (cells ++ cell.toList) := by
  cases cell with
  | none =>
      rw [Option.toList_none, List.append_nil]
      exact hcells
  | some last =>
      intro before other hprefix
      rcases List.prefix_concat_iff.mp hprefix with hall | hearlier
      · obtain ⟨rfl, hother⟩ := List.append_inj' hall rfl
        cases hother
        exact hcell _ rfl
      · exact hcells before other hearlier

end KeepsAge

variable {σ φ : Type} [Source σ] [CellFilter φ] {family : Family} {scan : Scan φ}
variable [LawfulSource σ family.order] {admits : Nat → List Cell → Prop}
variable {done : List Cell}

namespace ReadState

/-- What the state of a scan of a family knows of the cells that were handed out: nothing that is
left comes before them, none of them is of a later row than the current one, and the versions
of the current row are accounted for. -/
structure Recounts (family : Family) (scan : Scan φ) (done : List Cell) (state : ReadState σ φ) :
    Prop where
  sameScan row : state.matcher.entered row = (Matcher.ofScan family scan).entered row
  room : state.matcher.columns.HasRoom
  stored : Cell.StoredIn family.name done
  past earlier cell : earlier ∈ done → state.merge.Has cell →
    (family.order.compare earlier cell).isLE = true
  begun earlier : earlier ∈ done → ∃ row, state.matcher.row = some row ∧
    (family.order.compareRows earlier.row row).isLE = true
  behind row cell : state.matcher.row = some row → state.merge.Has cell →
    (family.order.compareRows row cell.row).isLE = true
  accounts row qualifier : state.matcher.row = some row →
    state.matcher.columns.Accounts qualifier
      ((versionsOf row qualifier done).map Cell.timestamp)

variable {state next : ReadState σ φ} {top cell : Cell} {decision : Decision} {outcome : Turn}
variable {previous : Option Cell}

omit [CellFilter φ] [LawfulSource σ family.order] in
theorem Recounts.sameOrder (hrecounts : Recounts family scan done state) :
    state.matcher.order = family.order :=
  (congrArg Matcher.order (hrecounts.sameScan []) :)

omit [CellFilter φ] [LawfulSource σ family.order] in
theorem Recounts.hasExpired_iff (hrecounts : Recounts family scan done state) :
    family.HasExpired cell ↔ state.matcher.columns.rule.isExpired cell.timestamp = true := by
  rw [Matcher.rule_of_sameScan hrecounts.sameScan]
  exact Family.hasExpired_iff _ _

omit [CellFilter φ] [LawfulSource σ family.order] in
/-- At its beginning a scan has handed out nothing. -/
theorem recounts_ofScan (hscan : scan.WellFormed) (hfamily : family.WellFormed) (merge : Merge σ) :
    Recounts family scan [] ⟨merge, Matcher.ofScan family scan⟩ :=
  ⟨fun _ => rfl, fun _ _ _ => Nat.le_min.mpr ⟨hscan.versions, hfamily⟩, nofun, nofun, nofun, nofun,
    nofun⟩

variable [CellOrder.RowWise family.order]

/-- A turn that does not end the scan leaves cells that were there before. -/
theorem Turned.has_of_has (hturned : Turned family.order admits state previous top outcome next)
    (hled : Merge.Led family.order admits state.merge)
    (hsorted : ∀ rank cells, admits rank cells → family.order.Sorted cells)
    (hpeek : state.merge.peek = some top) (hgoes : ∀ emitted, outcome ≠ .stop emitted .scanDone)
    (hcell : next.merge.Has cell) : state.merge.Has cell := by
  obtain ⟨decision, -, hcourse⟩ := hturned.decided
  cases hcourse with
  | cell _ _ hparts => exact (hled.has_advanced hpeek hparts).1 hcell
  | column _ _ hparts => exact ((hled.has_skipTo hsorted hparts).mp hcell).1
  | row _ _ hparts => exact ((hled.has_skipTo hsorted hparts).mp hcell).1
  | rowDone hmerge => exact hmerge ▸ hcell
  | scanDone => exact absurd rfl (hgoes _)

omit [CellOrder.RowWise family.order] in
/-- What a turn hands out is what is decided on the cell on top, unless the row is over. -/
theorem Turned.exists_judged
    (hturned : Turned family.order admits state previous top outcome next) :
    ∃ decision, Matcher.Judged state.matcher top decision next.matcher ∧
      outcome.emitted = decision.emitted top := by
  obtain ⟨decision, hjudged, hcourse⟩ := hturned.decided
  refine ⟨decision, hjudged, ?_⟩
  cases hcourse with
  | cell => rfl
  | column => rfl
  | row => rfl
  | rowDone => rfl
  | scanDone => rfl

variable (hsorted : ∀ rank cells, admits rank cells → family.order.Sorted cells)
variable (hstored : ∀ rank cells, admits rank cells → Cell.StoredIn family.name cells)
include hsorted hstored

omit [CellFilter φ] [CellOrder.RowWise family.order] hsorted in
theorem stored_of_has (hled : Merge.Led family.order admits state.merge)
    (hcell : state.merge.Has cell) : cell.IsReal ∧ cell.family = family.name := by
  obtain ⟨rank, cells, hadmits, hmem⟩ := hled.admitted_of_has hcell
  exact hstored rank cells hadmits cell hmem

omit [CellFilter φ] hsorted in
/-- The cell on top is not newer than what was handed out of its column. -/
theorem Recounts.older (hrecounts : Recounts family scan done state)
    (hled : Merge.Led family.order admits state.merge) (hpeek : state.merge.peek = some top) :
    ∀ earlier ∈ versionsOf top.row top.qualifier done, top.timestamp ≤ earlier.timestamp := by
  intro earlier hearlier
  obtain ⟨hmem, hsame⟩ := List.mem_filter.mp hearlier
  simp only [Bool.and_eq_true, decide_eq_true_eq] at hsame
  have htop := hled.has_peek hpeek
  have hle := hrecounts.past earlier top hmem htop
  rw [CellOrder.compare_of_row_eq hsame.1] at hle
  exact (Cell.leads_of_isLE (hrecounts.stored earlier hmem) (stored_of_has hstored hled htop)
    hsame.1 hle).1.timestamp_le hsame.2

omit hsorted hstored in
/-- An expired cell is handed out only where it may follow those before it. -/
theorem Recounts.mayFollow (hrecounts : Recounts family scan done state)
    (hvalues : scan.retainDeletes = false) (hstate : Unfiltered family.order admits state)
    (hentered : state.matcher.row.isSome = true)
    (hjudged : Matcher.Judged state.matcher top decision next.matcher)
    (hemits : decision.emits = true) : scan.MayFollow family done top := by
  intro hexpired
  have hretain := (Matcher.retainDeletes_of_sameScan hrecounts.sameScan).trans hvalues
  obtain ⟨hlive, -, columns, hchecked, -⟩ := hjudged.of_emits (.inr hretain) hemits
  have hrow := Matcher.row_eq_of_looked hrecounts.sameOrder hentered hlive.row
  have hrule := Matcher.rule_of_sameScan hrecounts.sameScan
  have hexpired := hrecounts.hasExpired_iff.mp hexpired
  have hmin : 0 < state.matcher.columns.rule.min := by
    have hage := hlive.age
    simp only [VersionRule.rulesOut, hexpired, Bool.and_true, decide_eq_false_iff_not] at hage
    exact Nat.pos_of_ne_zero hage
  have haccounts := hrecounts.accounts top.row top.qualifier hrow
  rcases hchecked.of_expired hstate.columns hemits hexpired hmin haccounts with
    hfew | ⟨⟨wanted, ahead, hchoice⟩, hnone⟩
  · rw [hrule, List.length_map] at hfew
    exact .inl hfew
  · rw [hrule] at hmin
    refine .inr ⟨⟨fun hcolumns => ?_, hmin⟩, fun earlier hearlier hold => ?_⟩
    · have hreset := congrArg ColumnProgress.choice (Matcher.reset_of_sameScan hrecounts.sameScan)
      simp [ColumnProgress.reset, hchoice, Matcher.ofScan, ColumnProgress.start, hcolumns] at hreset
    · have hnot := hnone _ (List.mem_map_of_mem hearlier)
      exact absurd (hrecounts.hasExpired_iff.mp hold) (by simp [hnot])

/-- A turn that does not end the scan keeps count of what it hands out. -/
theorem Recounts.turned (hrecounts : Recounts family scan done state)
    (hvalues : scan.retainDeletes = false) (hstate : Unfiltered family.order admits state)
    (hpeek : state.merge.peek = some top) (hentered : state.matcher.row.isSome = true)
    (hturned : Turned family.order admits state previous top outcome next)
    (hgoes : ∀ emitted, outcome ≠ .stop emitted .scanDone) :
    Recounts family scan (done ++ outcome.emitted.toList) next := by
  have hhas {cell : Cell} (hcell : next.merge.Has cell) : state.merge.Has cell :=
    hturned.has_of_has hstate.led hsorted hpeek hgoes hcell
  have hretain := (Matcher.retainDeletes_of_sameScan hrecounts.sameScan).trans hvalues
  have htop := hstate.led.has_peek hpeek
  obtain ⟨decision, hjudged, hemitted⟩ := hturned.exists_judged
  have hreset := hjudged.reset_eq
  have hrow := Matcher.row_of_reset hreset
  rw [hemitted]
  have hmem (cell : Cell) (hcell : cell ∈ (decision.emitted top).toList) :
      decision.emits = true ∧ cell = top := Matcher.mem_emitted hcell
  refine ⟨fun row => (Matcher.entered_of_reset hreset row).trans (hrecounts.sameScan row),
    hjudged.hasRoom hrecounts.room, ?_, ?_, ?_, ?_, ?_⟩
  -- what was handed out is stored
  · intro cell hcell
    rcases List.mem_append.mp hcell with hbefore | hnew
    · exact hrecounts.stored cell hbefore
    · exact (hmem cell hnew).2 ▸ stored_of_has hstored hstate.led htop
  -- nothing that is left comes before it
  · intro earlier cell hearlier hcell
    rcases List.mem_append.mp hearlier with hbefore | hnew
    · exact hrecounts.past earlier cell hbefore (hhas hcell)
    · exact (hmem earlier hnew).2 ▸ hstate.led.le_of_has hsorted hpeek (hhas hcell)
  -- none of it is of a later row than the current one
  · intro earlier hearlier
    rw [hrow]
    rcases List.mem_append.mp hearlier with hbefore | hnew
    · exact hrecounts.begun earlier hbefore
    · obtain ⟨hemits, rfl⟩ := hmem earlier hnew
      obtain ⟨hlive, -⟩ := hjudged.of_emits (.inr hretain) hemits
      exact ⟨_, Matcher.row_eq_of_looked hrecounts.sameOrder hentered hlive.row,
        Std.ReflCmp.isLE_rfl⟩
  · intro row cell hcurrent hcell
    exact hrecounts.behind row cell (hrow ▸ hcurrent) (hhas hcell)
  -- the versions handed out of a column of the row are the ones that were counted
  · intro row qualifier hcurrent
    rw [hrow] at hcurrent
    have hrowTop (hemits : decision.emits = true) : top.row = row := by
      obtain ⟨hlive, -⟩ := hjudged.of_emits (.inr hretain) hemits
      have htopRow := Matcher.row_eq_of_looked hrecounts.sameOrder hentered hlive.row
      exact Option.some.inj (htopRow.symm.trans hcurrent)
    have haccounts := hjudged.accounts hretain hstate.columns hrecounts.room
      (hrecounts.accounts row qualifier hcurrent) (fun hemits hsame version hversion => by
        obtain ⟨earlier, hearlier, rfl⟩ := List.mem_map.mp hversion
        obtain ⟨rfl, rfl⟩ := And.intro (hrowTop hemits) hsame
        exact hrecounts.older hstored hstate.led hpeek earlier hearlier)
    rw [Matcher.versionsOf_append, List.map_append, Matcher.versionsOf_emitted]
    by_cases hemits : decision.emits = true
    · simp only [hrowTop hemits, true_and, apply_ite (List.map Cell.timestamp)]
      exact haccounts
    · simpa [hemits] using haccounts

omit hsorted hstored in
/-- What a turn hands out may follow what was handed out before. -/
theorem Recounts.mayFollow_turned (hrecounts : Recounts family scan done state)
    (hvalues : scan.retainDeletes = false) (hstate : Unfiltered family.order admits state)
    (hentered : state.matcher.row.isSome = true)
    (hturned : Turned family.order admits state previous top outcome next) :
    ∀ last, outcome.emitted = some last → scan.MayFollow family done last := by
  intro last hlast
  obtain ⟨decision, hjudged, hemitted⟩ := hturned.exists_judged
  rw [hemitted, Decision.emitted] at hlast
  split at hlast
  next hemits =>
    cases hlast
    exact hrecounts.mayFollow hvalues hstate hentered hjudged hemits
  next => cases hlast

theorem Turns.keepsAge {limit : Option Nat} {cells : List Cell} {ending : PassEnd}
    (hturns : Turns family.order admits previous limit state cells ending next)
    (hvalues : scan.retainDeletes = false) (hstate : Unfiltered family.order admits state)
    (hentered : state.matcher.row.isSome = true) (hrecounts : Recounts family scan done state)
    (hdone : scan.KeepsAge family done) : scan.KeepsAge family (done ++ cells) ∧
      (ending ≠ .scanDone → Recounts family scan (done ++ cells) next) := by
  induction hturns generalizing done with
  | exhausted hpeek =>
      rw [List.append_nil]
      exact ⟨hdone, fun _ => hrecounts⟩
  | stopped hpeek hturned =>
      refine ⟨hdone.append (hrecounts.mayFollow_turned hvalues hstate hentered hturned),
        fun hending => ?_⟩
      refine hrecounts.turned hsorted hstored hvalues hstate hpeek hentered hturned ?_
      rintro _ ⟨⟩
      exact hending rfl
  | filled hpeek hturned hlimit =>
      exact ⟨hdone.append (hrecounts.mayFollow_turned hvalues hstate hentered hturned),
        fun _ => hrecounts.turned hsorted hstored hvalues hstate hpeek hentered hturned nofun⟩
  | goOn hpeek hturned hturns ih =>
      obtain ⟨decision, hjudged, -⟩ := hturned.decided
      rw [← List.append_assoc]
      exact ih hturned.unfiltered (Matcher.row_of_reset hjudged.reset_eq ▸ hentered)
        (hrecounts.turned hsorted hstored hvalues hstate hpeek hentered hturned nofun)
        (hdone.append (hrecounts.mayFollow_turned hvalues hstate hentered hturned))

omit [CellFilter φ] hstored in
/-- Nothing was handed out yet of a row that is entered. -/
theorem Recounts.inRow {merge : Merge σ} {matcher : Matcher φ} (hscan : scan.WellFormed)
    (hfamily : family.WellFormed) (hrecounts : Recounts family scan done ⟨merge, matcher⟩)
    (hled : Merge.Led family.order admits merge) (hpeek : merge.peek = some top) :
    Recounts family scan done ⟨merge, matcher.inRow top.row⟩ := by
  unfold Matcher.inRow
  split
  next => exact hrecounts
  next hother =>
    -- nothing of the row was handed out before, so its versions are counted from none on
    have hearlier (earlier : Cell) (hmem : earlier ∈ done) :
        (family.order.compareRows earlier.row top.row).isLE = true ∧ earlier.row ≠ top.row := by
      obtain ⟨row, hrow, hle⟩ := hrecounts.begun earlier hmem
      have hbehind := hrecounts.behind row top hrow (hled.has_peek hpeek)
      refine ⟨Std.TransCmp.isLE_trans hle hbehind, fun hsame => hother ?_⟩
      rw [hsame] at hle
      have heq : row = top.row :=
        Std.LawfulEqCmp.eq_of_compare (Std.OrientedCmp.isLE_antisymm hbehind hle)
      exact heq ▸ hrow
    refine ⟨fun row => ?_, ?_, hrecounts.stored, hrecounts.past, ?_, ?_, ?_⟩
    · rw [Matcher.entered_entered]
      exact hrecounts.sameScan row
    · apply ColumnProgress.hasRoom_reset
      rw [Matcher.rule_of_sameScan hrecounts.sameScan]
      exact Nat.le_min.mpr ⟨hscan.versions, hfamily⟩
    · exact fun earlier hmem => ⟨top.row, rfl, (hearlier earlier hmem).1⟩
    · rintro row cell ⟨⟩ hcell
      exact CellOrder.compareRows_isLE (hled.le_of_has hsorted hpeek hcell)
    · rintro row qualifier ⟨⟩
      have hnone : versionsOf top.row qualifier done = [] := by
        rw [versionsOf, List.filter_eq_nil_iff]
        intro earlier hmem
        simp [(hearlier earlier hmem).2]
      rw [hnone]
      exact ColumnProgress.accounts_nil _ _

end ReadState

namespace Scanner

variable {scanner after : Scanner σ φ} {limit : Option Nat} {page : Page}

/-- What a scanner that is reading knows of the cells that were handed out. -/
def Recounts (family : Family) (scan : Scan φ) (done : List Cell) (scanner : Scanner σ φ) : Prop :=
  ∀ merge, scanner.phase = .active merge →
    ReadState.Recounts family scan done ⟨merge, scanner.matcher⟩

omit [CellFilter φ] [LawfulSource σ family.order] in
theorem recounts_of_closed (hclosed : scanner.phase = .closed) :
    scanner.Recounts family scan done :=
  fun _ hactive => nomatch hactive.symm.trans hclosed

variable [CellOrder.RowWise family.order]
variable (hsorted : ∀ rank cells, admits rank cells → family.order.Sorted cells)
variable (hstored : ∀ rank cells, admits rank cells → Cell.StoredIn family.name cells)
variable (hscan : scan.WellFormed) (hfamily : family.WellFormed)
variable (hvalues : scan.retainDeletes = false)
include hsorted hstored hscan hfamily hvalues

/-- A read hands out only what may follow what was handed out before, and so will the next. -/
theorem Paged.keepsAge (hpaged : Paged family.order admits scanner limit page after)
    (hscanner : Unfiltered family.order admits scanner)
    (hrecounts : scanner.Recounts family scan done) (hdone : scan.KeepsAge family done) :
    scan.KeepsAge family (done ++ page.cells) ∧
      after.Recounts family scan (done ++ page.cells) := by
  cases hpaged with
  | nothing hclosed =>
      rw [List.append_nil]
      exact ⟨hdone, recounts_of_closed hclosed⟩
  | @read merge first cells ending state more _ hactive hpeek hturns hmatcher hphase =>
      rw [Unfiltered, hactive] at hscanner
      have hentered := scanner.matcher.isSome_row_inRow first.row
      obtain ⟨hcells, hstate⟩ := hturns.keepsAge hsorted hstored hvalues
        (hscanner.inRow first.row) hentered
        ((hrecounts merge hactive).inRow hsorted hscan hfamily hscanner.led hpeek) hdone
      refine ⟨hcells, ?_⟩
      rcases hphase with hclosed | ⟨hending, hphase⟩
      · exact recounts_of_closed hclosed
      · intro _ hreads
        cases hphase.symm.trans hreads
        rw [hmatcher]
        exact hstate hending

/-- Over a whole run, every cell that is handed out may follow those before it. -/
theorem Unfiltered.keepsAge_run (hscanner : Unfiltered family.order admits scanner)
    (hrecounts : scanner.Recounts family scan done) (hdone : scan.KeepsAge family done)
    (supply : Supply σ) (limits : List ReadLimit) :
    scan.KeepsAge family (done ++ cellsRead (scanner.run (limits.map .read) supply)) := by
  induction limits generalizing scanner done with
  | nil =>
      rw [List.map_nil, Scanner.run, cellsRead, List.flatMap_nil, List.append_nil]
      exact hdone
  | cons limit rest ih =>
      have hread := hscanner.next (fun rank cells hadmits cell hcell =>
        (hstored rank cells hadmits cell hcell).1.1) (some supply) limit
      have hlater := @ih done _ (hread.unfiltered hscanner)
      simp only [List.map_cons, Scanner.run, cellsRead, List.flatMap_cons]
      cases hresult : (scanner.next (some supply) limit).value.1 with
      | error failure =>
          exact hlater (recounts_of_closed (hread.failed failure hresult)) hdone
      | ok page =>
          obtain ⟨hcells, hafter⟩ := (hread.paged page hresult).keepsAge hsorted hstored hscan
            hfamily hvalues hscanner hrecounts hdone
          rw [← List.append_assoc]
          exact ih (hread.unfiltered hscanner) hafter hcells

omit hsorted hstored hscan hfamily hvalues

/-- A scan of values, over sources that are in order, hands out a cell that has expired only if it
has handed out fewer versions of its column in this row than the family keeps whatever their age,
or if its column is one that the scan lists, and it is the first version of it that has expired. -/
theorem run_keepsAge {scan : Scan φ} (hscan : scan.WellFormed) (hfamily : family.WellFormed)
    (hfilter : scan.filter = none) (hvalues : scan.retainDeletes = false) {supply : Supply σ}
    (hholds : ∀ source ∈ supply.sources scan.request,
      LawfulSource.Holds family.order source (Source.remaining source))
    (hsorted : ∀ source ∈ supply.sources scan.request,
      family.order.Sorted (Source.remaining source))
    (hstored : ∀ source ∈ supply.sources scan.request,
      Cell.StoredIn family.name (Source.remaining source))
    {subscription : Nat} {scanner : Scanner σ φ}
    (hopen : (Scanner.open family supply subscription scan).value = .ok scanner)
    (limits : List ReadLimit) :
    scan.KeepsAge family (cellsRead (scanner.run (limits.map .read) supply)) := by
  let admits (_ : Nat) (cells : List Cell) : Prop :=
    family.order.Sorted cells ∧ Cell.StoredIn family.name cells
  obtain ⟨⟨hmatcher, -⟩, merge, hphase, hstate, -⟩ := @of_open _ _ _ _ admits _ _ _ _ _ hscan
    hfilter _ _ (fun source hsource => ⟨hholds source hsource, hsorted source hsource,
      hstored source hsource⟩) hopen
  have hscanner : Unfiltered family.order admits scanner := by
    rw [Unfiltered, hphase]
    exact hstate
  refine @Unfiltered.keepsAge_run _ _ _ _ _ _ _ _ [] _ _ (fun _ _ => And.left)
    (fun _ _ => And.right) hscan hfamily hvalues hscanner (fun other hactive => ?_)
    scan.keepsAge_nil supply limits
  cases hphase.symm.trans hactive
  rw [hmatcher]
  exact ReadState.recounts_ofScan hscan hfamily merge

/-- Of two versions that have expired, the one that the family keeps. -/
theorem run_keepsAge_of_script :
    let family : Family :=
      { name := [102], ttl := some (.ofMillis 100), minVersions := 1, maxVersions := 3
        clock := .manual ⟨1000⟩ }
    let scan : Scan AnyFilter := { columns := [[99]], maxVersions := 3 }
    let kept := Cell.put [114] [102] [99] ⟨800⟩ [1]
    let older := Cell.put [114] [102] [99] ⟨700⟩ [2]
    let script : SourceScript := { sequenceId := 1, cells := [kept, older] }
    let supply : Supply ScriptedSource := fun _ => .ok [script.open .keys 0]
    (scan.WellFormed ∧ family.WellFormed ∧ CellOrder.keys.Sorted script.cells ∧
      Cell.StoredIn family.name script.cells) ∧
    ∃ scanner, (Scanner.open family supply 0 scan).value = .ok scanner ∧
      scanner.run [.read .ofScan, .read .ofScan] supply =
        [.ok ⟨[kept], true⟩, .ok ⟨[], false⟩] ∧
      scan.KeepsAge family (cellsRead (scanner.run [.read .ofScan, .read .ofScan] supply)) := by
  intro family scan kept older script supply
  have hscan : scan.WellFormed := ⟨by decide, by decide⟩
  have hfamily : family.WellFormed := (by decide : 1 ≤ 3)
  have hsorted : CellOrder.keys.Sorted script.cells := by decide
  have hstored : Cell.StoredIn family.name script.cells := by decide
  refine ⟨⟨hscan, hfamily, hsorted, hstored⟩, ?_⟩
  have hsources : supply.sources scan.request = [script.open .keys 0] := rfl
  have hrun : ∃ scanner, (Scanner.open family supply 0 scan).value = .ok scanner ∧
      scanner.run [.read .ofScan, .read .ofScan] supply =
        [.ok ⟨[kept], true⟩, .ok ⟨[], false⟩] := by
    refine ⟨_, rfl, ?_⟩
    simp only [family, scan, kept, older, script, supply]
    cbv
  obtain ⟨scanner, hopen, hrun⟩ := hrun
  refine ⟨scanner, hopen, hrun, ?_⟩
  have hholds : ∀ source ∈ supply.sources scan.request,
      ScriptedSource.HoldsCells .keys source (Source.remaining source) := by
    rw [hsources, List.forall_mem_singleton]
    exact ⟨rfl, rfl, rfl⟩
  have hordered : ∀ source ∈ supply.sources scan.request,
      CellOrder.keys.Sorted (Source.remaining source) := by
    rw [hsources, List.forall_mem_singleton]
    exact hsorted
  have hreal : ∀ source ∈ supply.sources scan.request,
      Cell.StoredIn family.name (Source.remaining source) := by
    rw [hsources, List.forall_mem_singleton]
    exact hstored
  exact @run_keepsAge _ _ _ _ family _ _ _ hscan hfamily rfl rfl _ hholds hordered hreal _ _ hopen
    [.ofScan, .ofScan]

/-- A family keeps one version whatever its age. Where a column is listed, its first version is
handed out, which has not expired, and then another one, which has. Where every column is
wanted, the same scan leaves that one out. -/
theorem listed_column_keeps_another_version :
    let family : Family :=
      { name := [102], ttl := some (.ofMillis 100), minVersions := 1, maxVersions := 3
        clock := .manual ⟨1000⟩ }
    let fresh := Cell.put [114] [102] [99] ⟨950⟩ [1]
    let expired := Cell.put [114] [102] [99] ⟨800⟩ [2]
    let script : SourceScript := { sequenceId := 1, cells := [fresh, expired] }
    let supply : Supply ScriptedSource := fun _ => .ok [script.open .keys 0]
    let listed : Scan AnyFilter := { columns := [[99]], maxVersions := 3 }
    let every : Scan AnyFilter := { maxVersions := 3 }
    (family.HasExpired expired ∧
      (versionsOf expired.row expired.qualifier [fresh]).length = family.minVersions) ∧
    (∃ scanner, (Scanner.open family supply 0 listed).value = .ok scanner ∧
      scanner.run [.read .ofScan] supply = [.ok ⟨[fresh, expired], true⟩]) ∧
    ∃ scanner, (Scanner.open family supply 0 every).value = .ok scanner ∧
      scanner.run [.read .ofScan] supply = [.ok ⟨[fresh], true⟩] := by
  intro family fresh expired script supply listed every
  refine ⟨⟨⟨_, rfl, by decide⟩, rfl⟩, ⟨_, rfl, ?_⟩, _, rfl, ?_⟩
  · simp only [family, fresh, expired, script, supply, listed]
    cbv
  · simp only [family, fresh, expired, script, supply, every]
    cbv

end Scanner

end MergeScan
