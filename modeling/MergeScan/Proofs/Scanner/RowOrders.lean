import Mathlib
import MergeScan.Proofs.Scanner.ByRows
import MergeScan.Proofs.Source.Scripted

/-! # Scans in an order of rows

A scan of all rows reads them in the order that the family has for them, and hands out of each row
what it hands out of it in the usual order. But it begins at the empty row, and that is the first
of all rows in the usual order only. The rows that another order has before it are not read.
-/

namespace MergeScan

open CellOrder

namespace Scanner

variable {σ φ : Type} [Source σ] [CellFilter φ] {order : CellOrder} [LawfulSource σ order]
variable {family : Bytes} {scanner : Scanner σ φ} {supply : Supply σ} {limit : Option Nat}
variable {left : Bytes → List Cell} {ahead : List Cell}

/-- What a scanner has still to hand out of each row, and the cells that it has not read. -/
inductive OwesRows (order : CellOrder) [LawfulSource σ order] (family : Bytes)
    (scanner : Scanner σ φ) : (left : Bytes → List Cell) → (ahead : List Cell) → Prop
  | active {merge : Merge σ} {matcher : Matcher φ} {ahead : List Cell} :
      scanner.phase = .active merge → scanner.matcher = matcher.inOrder order →
      merge.Offers order ahead → matcher.Before order family ahead →
      OwesRows order family scanner (matcher.rowOutput ahead) ahead
  | closed : scanner.phase = .closed → scanner.matcher.filter = none →
      OwesRows order family scanner (fun _ => []) []

/-- What a read does: it hands out cells of the first row, and ends the scan or brings it nearer to
its end. -/
structure DeliversRow (order : CellOrder) [LawfulSource σ order] (family : Bytes)
    (left : Bytes → List Cell) (ahead : List Cell) (page : Page) (after : Scanner σ φ) : Prop where
  owes : ∃ later further, OwesRows order family after later further ∧
    (∀ row, left row = Cell.inRow row page.cells ++ later row) ∧
    (∀ cell other, cell ∈ page.cells → other ∈ page.cells ++ further →
      (order.compareRows cell.row other.row).isLE = true) ∧
    (page.more = false → ∀ row, later row = []) ∧
    (page.more = true → further.length < ahead.length)

theorem OwesRows.filter (howes : OwesRows order family scanner left ahead) :
    scanner.matcher.filter = none := by
  cases howes with
  | active _ hmatcher _ hbefore =>
      rw [hmatcher]
      exact hbefore.plain.filter
  | closed _ hfilter => exact hfilter

/-- Cells are owed of the rows only that there are cells ahead of. -/
theorem OwesRows.exists_ahead (howes : OwesRows order family scanner left ahead) {cell : Cell}
    {row : Bytes} (hcell : cell ∈ left row) : ∃ other ∈ ahead, other.row = row := by
  cases howes with
  | active => exact Matcher.exists_of_mem_rowOutput hcell
  | closed => cases hcell

/-- A scanner that releases its sources owes nothing more. -/
theorem release_owesRows (hfilter : scanner.matcher.filter = none) :
    OwesRows order family scanner.release.value (fun _ => []) [] := by
  obtain ⟨⟨hclosed, hmatcher⟩, -⟩ := release_closed scanner
  exact .closed hclosed (hmatcher ▸ hfilter)

section

variable {later : Bytes → List Cell} {further cells : List Cell} {after : Scanner σ φ}

theorem delivers_more (howes : OwesRows order family after later further)
    (houtput : ∀ row, left row = Cell.inRow row cells ++ later row)
    (hfirst : ∀ cell other, cell ∈ cells → other ∈ cells ++ further →
      (order.compareRows cell.row other.row).isLE = true)
    (hshorter : further.length < ahead.length) :
    DeliversRow order family left ahead ⟨cells, true⟩ after :=
  ⟨later, further, howes, houtput, hfirst, nofun, fun _ => hshorter⟩

theorem delivers_last (howes : OwesRows order family after (fun _ => []) [])
    (houtput : ∀ row, left row = Cell.inRow row cells)
    (hfirst : ∀ cell other, cell ∈ cells → other ∈ cells →
      (order.compareRows cell.row other.row).isLE = true) :
    DeliversRow order family left ahead ⟨cells, false⟩ after := by
  refine ⟨fun _ => [], [], howes, fun row => ?_, fun cell other hcell hother => ?_,
    fun _ _ => rfl, nofun⟩
  · rw [houtput, List.append_nil]
  · exact hfirst cell other hcell (List.append_nil cells ▸ hother)

theorem delivers_nothing (howes : OwesRows order family after (fun _ => []) [])
    (hnothing : ∀ row, left row = []) :
    DeliversRow order family left ahead ⟨[], false⟩ after :=
  delivers_last howes hnothing nofun

end

variable [RowWise order]

theorem read_delivers {merge : Merge σ} {matcher : Matcher φ} {first : Cell} {rest : List Cell}
    (hmatcher : scanner.matcher = matcher.inOrder order)
    (hoffers : merge.Offers order (first :: rest))
    (hbefore : matcher.Before order family (first :: rest)) :
    ∃ page after, (scanner.read merge first limit).value = (.ok page, after) ∧
      DeliversRow order family (matcher.rowOutput (first :: rest)) (first :: rest) page after := by
  obtain ⟨later, hsplit, hlater⟩ := @Cell.exists_later order _ (first :: rest) first.row
    hbefore.sorted (by
      intro cell hcell
      rcases List.mem_cons.mp hcell with rfl | hmem
      · rw [compareRows_self]
        rfl
      · exact compareRows_isLE ((List.pairwise_cons.mp hbefore.sorted).1 cell hmem))
  have hfilter : scanner.matcher.filter = none := by
    rw [hmatcher]
    exact hbefore.plain.filter
  have hamid : ReadState.Amid order family first.row
      ⟨merge, scanner.matcher.inRow first.row⟩ (matcher.inRow first.row)
      (Cell.inRow first.row (first :: rest)) later :=
    ⟨hbefore.within first.row, by rw [hmatcher, Matcher.inRow_inOrder], hsplit ▸ hoffers, hlater⟩
  obtain ⟨ending, next, hpass, hends⟩ := hamid.pass limit
  generalize hpassed :
    (matcher.inRow first.row).passOver limit (Cell.inRow first.row (first :: rest)) = passed
    at hpass hends
  have hgiven := hbefore.passRow hsplit hlater hpassed
  have hnext : next.matcher.filter = none := by
    rw [hends.amid.matcher]
    exact hends.amid.within.plain.filter
  simp only [Scanner.read, Noted.value_bind, enterRow_eq hfilter, hpass, Matcher.completeRow,
    hnext, Noted.value_pure, ite_self]
  split
  next hover =>
    have hexhausted : ending = .exhausted := by
      simp only [hends.notDone, decide_false, Bool.false_or, Bool.and_eq_true,
        decide_eq_true_eq] at hover
      exact hover.1
    obtain ⟨hnothing, rfl⟩ := hends.exhausted hexhausted
    rw [hnothing] at hgiven
    refine ⟨_, _, rfl, delivers_last (release_owesRows hnext) (fun row => ?_)
      fun cell other hcell hother => ?_⟩
    · rw [hgiven.output, List.nil_append, Matcher.rowOutput_nil, List.append_nil]
    · exact hgiven.first cell other hcell (List.mem_append_left _ hother)
  next =>
    exact ⟨_, _, rfl, delivers_more (.active rfl hends.amid.matcher hends.amid.offers hgiven.before)
      hgiven.output hgiven.first hgiven.shorter⟩

theorem OwesRows.fill (howes : OwesRows order family scanner left ahead)
    (supply : Option (Supply σ)) (limit : Option Nat) :
    ∃ page after, (scanner.fill supply limit).value = (.ok page, after) ∧
      DeliversRow order family left ahead page after := by
  cases howes with
  | closed hclosed hfilter =>
      simp only [Scanner.fill, resync, hclosed, Noted.value_bind, Noted.value_pure]
      exact ⟨_, _, rfl, delivers_nothing (.closed hclosed hfilter) fun _ => rfl⟩
  | @active merge matcher ahead hactive hmatcher hoffers hbefore =>
      simp only [Scanner.fill, resync, hactive, hoffers.peek_eq, Noted.value_bind,
        Noted.value_pure]
      cases ahead with
      | nil =>
          have hfilter : scanner.matcher.filter = none := by
            rw [hmatcher]
            exact hbefore.plain.filter
          exact ⟨_, _, rfl, delivers_nothing (release_owesRows hfilter) matcher.rowOutput_nil⟩
      | cons first rest => exact read_delivers hmatcher hoffers hbefore

/-- A read does not fail, and delivers. -/
theorem OwesRows.next (howes : OwesRows order family scanner left ahead)
    (supply : Option (Supply σ)) (limit : ReadLimit) :
    ∃ page after, (scanner.next supply limit).value = (.ok page, after) ∧
      DeliversRow order family left ahead page after := by
  obtain ⟨page, after, hfill, hdelivers⟩ := howes.fill supply (scanner.limitOf limit)
  refine ⟨page, after, ?_, hdelivers⟩
  simp only [Scanner.next, Matcher.refuses_unfiltered howes.filter, Noted.value_bind, hfill]
  rfl

/-- A run of reads, by what a scanner owes of each row: a piece of it by each read, with the rows
in their order, and all of it once a read says that there is no more. -/
structure PaidRows (order : CellOrder) (left : Bytes → List Cell) (ahead : List Cell)
    (limits : List ReadLimit) (pages : List Page) : Prop where
  paid : ∃ later : Bytes → List Cell,
    (∀ row, left row = Cell.inRow row (pages.flatMap (·.cells)) ++ later row) ∧
    ((∃ page ∈ pages, page.more = false) → ∀ row, later row = [])
  ascends : (pages.flatMap (·.cells)).Pairwise fun cell other =>
    (order.compareRows cell.row other.row).isLE = true
  ends : ahead.length < limits.length → ∃ page ∈ pages, page.more = false

theorem OwesRows.run (howes : OwesRows order family scanner left ahead)
    (limits : List ReadLimit) :
    ∃ pages : List Page, scanner.run (limits.map .read) supply = pages.map .ok ∧
      PaidRows order left ahead limits pages := by
  induction limits generalizing scanner left ahead with
  | nil => exact ⟨[], rfl, ⟨left, fun _ => rfl, nofun⟩, List.Pairwise.nil, nofun⟩
  | cons limit limits ih =>
      obtain ⟨page, after, hnext, hdelivers⟩ := howes.next (some supply) limit
      obtain ⟨later, further, hafter, hleft, hfirst, hlast, hless⟩ := hdelivers.owes
      obtain ⟨pages, hrun, hpaid⟩ := ih hafter
      obtain ⟨owed, hlater, hover⟩ := hpaid.paid
      refine ⟨page :: pages, ?_, ⟨owed, ?_, ?_⟩, ?_, ?_⟩
      · simp only [List.map_cons, Scanner.run, hnext, hrun]
      · intro row
        rw [List.flatMap_cons, Cell.inRow_append, List.append_assoc, ← hlater, hleft]
      · rintro ⟨other, hother, hfalse⟩ row
        rcases List.mem_cons.mp hother with rfl | hmem
        · have hnone := hlast hfalse row
          rw [hlater] at hnone
          exact (List.append_eq_nil_iff.mp hnone).2
        · exact hover ⟨other, hmem, hfalse⟩ row
      · rw [List.flatMap_cons]
        refine List.pairwise_append.mpr ⟨?_, hpaid.ascends, fun cell hcell other hother => ?_⟩
        · exact List.pairwise_of_forall_mem_list fun cell hcell other hother =>
            hfirst cell other hcell (List.mem_append_left _ hother)
        · -- what comes later is of rows that there are cells ahead of
          have howed : other ∈ later other.row := by
            rw [hlater]
            exact List.mem_append_left _ (Cell.mem_inRow.mpr ⟨hother, rfl⟩)
          obtain ⟨same, hsame, hrow⟩ := hafter.exists_ahead howed
          rw [← hrow]
          exact hfirst cell same hcell (List.mem_append_right _ hsame)
      · intro hmany
        cases hmore : page.more with
        | false => exact ⟨page, List.mem_cons_self, hmore⟩
        | true =>
            have hfewer := hless hmore
            rw [List.length_cons] at hmany
            obtain ⟨other, hother, hfalse⟩ := hpaid.ends (by omega)
            exact ⟨other, List.mem_cons_of_mem _ hother, hfalse⟩

/-! ## From the empty row on -/

omit [Source σ] [CellFilter φ] [LawfulSource σ order] in
/-- Before the first key of a scan of all rows are the rows that come before the empty one. -/
theorem lt_startKey_iff_rows {family : Family} {scan : Scan φ} (hrows : scan.rows = .all)
    {cell : Cell} (hcell : cell.IsReal ∧ cell.family = family.name) :
    order.compare cell (Matcher.ofScan family scan).startKey = .lt ↔
      order.compareRows [] cell.row = .gt := by
  have hkey : (Matcher.ofScan family scan).startKey.row = [] := congrArg RowRange.start hrows
  by_cases hrow : cell.row = []
  · have hcontains := RowRange.contains_all cell.row
    simp only [RowRange.contains, Bool.and_eq_true, Bool.not_eq_true'] at hcontains
    rw [compare_of_row_eq (hrow.trans hkey.symm), Scan.lt_startKey_iff hcell, hrows, hcontains.1,
      hrow, compareRows_self]
    exact iff_of_false (by decide) (by decide)
  · rw [compare_of_row_ne (hkey ▸ hrow), hkey]
    exact Std.OrientedCmp.gt_iff_lt.symm

omit [Source σ] [CellFilter φ] [LawfulSource σ order] in
theorem inRow_from_startKey {family : Family} {scan : Scan φ} (hrows : scan.rows = .all)
    {cells : List Cell} (hsorted : order.Sorted cells) (hstored : Cell.StoredIn family.name cells)
    (row : Bytes) :
    Cell.inRow row (order.skipTo (Matcher.ofScan family scan).startKey cells) =
      if order.compareRows [] row = .gt then [] else Cell.inRow row cells := by
  rw [skipTo_eq_filter hsorted, Cell.inRow, List.filter_filter]
  split
  next hbefore =>
    rw [List.filter_eq_nil_iff]
    intro cell hcell hkept
    simp only [Bool.and_eq_true, decide_eq_true_eq] at hkept
    exact hkept.2 ((lt_startKey_iff_rows hrows (hstored cell hcell)).mpr (hkept.1 ▸ hbefore))
  next hbefore =>
    refine List.filter_congr fun cell hcell => ?_
    by_cases hrow : cell.row = row
    · have hnot : order.compare cell (Matcher.ofScan family scan).startKey ≠ .lt :=
        mt (lt_startKey_iff_rows hrows (hstored cell hcell)).mp (hrow ▸ hbefore)
      simp [hrow, hnot]
    · simp [hrow]

/-- A scan of all rows can be opened, and owes what there is from its first key on. -/
theorem open_owesRows {family : Family} {scan : Scan φ} (hscan : scan.WellFormed)
    (hfilter : scan.filter = none) (hrows : scan.rows = .all)
    (hsupply : supply.SoundIn order family.name scan.request) (subscription : Nat) :
    let matcher := Matcher.ofScan { family with order := keys } scan
    let ahead := order.skipTo matcher.startKey (order.merged (supply.stock scan.request))
    ∃ scanner, (Scanner.open { family with order } supply subscription scan).value = .ok scanner ∧
      OwesRows order family.name scanner (matcher.rowOutput ahead) ahead := by
  intro matcher ahead
  obtain ⟨placed, hplaced, hsound, hreliable, hstream⟩ :=
    hsupply.placed (opening_lawful matcher) matcher.startKey
  have hbefore : matcher.Before order family.name ahead := by
    refine ⟨⟨hfilter, rfl, hscan.columns_ascending⟩, hrows, (merged_sorted _).skipTo _,
      fun cell hcell => ?_, nofun, nofun⟩
    exact hsupply.stored cell ((skipTo_sublist _ _).subset hcell)
  refine ⟨start (matcher.inOrder order) scan order (Merge.ofSources order placed).value
    (some subscription), ?_, .active rfl rfl ⟨hsound, hreliable, hstream⟩ hbefore⟩
  have hopening : (placeAll (opening (Matcher.ofScan { family with order } scan))
      (Matcher.ofScan { family with order } scan).startKey
      (supply.sources scan.request)).value = .ok placed := hplaced
  simp only [Scanner.open, Scan.validate_unfiltered hfilter, Noted.value_bind,
    askFor_of_isOk hsupply.answers, hopening]
  rfl

/-- A scan of all rows in an order of rows. Reads of it do not fail, and enough of them come to the
end. They hand out of each row that does not come before the empty one what a matcher that enters
the row hands out of its cells. -/
theorem open_reads_rows {family : Family} {scan : Scan φ} (hscan : scan.WellFormed)
    (hfilter : scan.filter = none) (hrows : scan.rows = .all)
    (hsupply : supply.SoundIn order family.name scan.request) (subscription : Nat) :
    let matcher := Matcher.ofScan { family with order := keys } scan
    ∃ scanner, (Scanner.open { family with order } supply subscription scan).value = .ok scanner ∧
      ∀ limits : List ReadLimit,
        ((supply.stock scan.request).flatMap Part.cells).length < limits.length →
        ∃ pages : List Page, scanner.run (limits.map .read) supply = pages.map .ok ∧
          (∃ page ∈ pages, page.more = false) ∧
          (∀ row, Cell.inRow row (pages.flatMap (·.cells)) =
            if order.compareRows [] row = .gt then []
            else (matcher.inRow row).output
              (Cell.inRow row (order.merged (supply.stock scan.request)))) ∧
          (pages.flatMap (·.cells)).Pairwise fun cell other =>
            (order.compareRows cell.row other.row).isLE = true := by
  intro matcher
  obtain ⟨scanner, hopen, howes⟩ := open_owesRows hscan hfilter hrows hsupply subscription
  refine ⟨scanner, hopen, fun limits hmany => ?_⟩
  obtain ⟨pages, hrun, hpaid⟩ := howes.run limits
  have hfewer := @skipTo_length_le order matcher.startKey (order.merged (supply.stock scan.request))
  rw [length_merged] at hfewer
  obtain ⟨later, hleft, hover⟩ := hpaid.paid
  have hends := hpaid.ends (Nat.lt_of_le_of_lt hfewer hmany)
  refine ⟨pages, hrun, hends, fun row => ?_, hpaid.ascends⟩
  have hrow := hleft row
  rw [hover hends row, List.append_nil] at hrow
  have hfrom := @inRow_from_startKey _ order _ { family with order := keys } scan hrows _
    (merged_sorted (supply.stock scan.request)) hsupply.stored row
  rw [← hrow, Matcher.rowOutput, hfrom]
  split
  · exact Matcher.output_nil _
  · rfl

/-- A scan of all rows without a filter does not depend on the order of the rows but for where it
begins. It hands out of each row what a scan in the usual order does of the same sources sorted
anew, unless the row comes before the empty one, and it hands out the rows in their order. -/
theorem run_reads_rows_in_order {τ : Type} [Source τ] [LawfulSource τ keys] {resorted : Supply τ}
    {family : Family} {scan : Scan φ} (hscan : scan.WellFormed) (hfilter : scan.filter = none)
    (hrows : scan.rows = .all) (hsupply : supply.SoundIn order family.name scan.request)
    (hresorted : resorted.SoundIn keys family.name scan.request)
    (hsame : (resorted.stock scan.request).Perm
      ((supply.stock scan.request).map (Part.resort keys))) (subscription : Nat) :
    ∃ scanner usual,
      (Scanner.open { family with order } supply subscription scan).value = .ok scanner ∧
      (Scanner.open { family with order := keys } resorted subscription scan).value = .ok usual ∧
      ∀ limits others : List ReadLimit,
        ((supply.stock scan.request).flatMap Part.cells).length < limits.length →
        ((supply.stock scan.request).flatMap Part.cells).length < others.length →
        ∃ pages usualPages : List Page,
          scanner.run (limits.map .read) supply = pages.map .ok ∧
          usual.run (others.map .read) resorted = usualPages.map .ok ∧
          (∃ page ∈ pages, page.more = false) ∧ (∃ page ∈ usualPages, page.more = false) ∧
          (∀ row, Cell.inRow row (pages.flatMap (·.cells)) =
            if order.compareRows [] row = .gt then []
            else Cell.inRow row (usualPages.flatMap (·.cells))) ∧
          (pages.flatMap (·.cells)).Pairwise fun cell other =>
            (order.compareRows cell.row other.row).isLE = true := by
  obtain ⟨scanner, hopen, hreads⟩ := open_reads_rows hscan hfilter hrows hsupply subscription
  obtain ⟨usual, husual, husualReads⟩ :=
    open_reads_rows hscan hfilter hrows hresorted subscription
  refine ⟨scanner, usual, hopen, husual, fun limits others hlimits hothers => ?_⟩
  have hcount : ((resorted.stock scan.request).flatMap Part.cells).length =
      ((supply.stock scan.request).flatMap Part.cells).length := by
    rw [(hsame.flatMap_right _).length_eq, List.flatMap_map, List.length_flatMap,
      List.length_flatMap]
    exact congrArg List.sum (List.map_congr_left fun part _ => (sort_perm part.cells).length_eq)
  obtain ⟨pages, hrun, hends, hcells, hascends⟩ := hreads limits hlimits
  obtain ⟨usualPages, husualRun, husualEnds, husualCells, -⟩ :=
    husualReads others (hcount.symm ▸ hothers)
  refine ⟨pages, usualPages, hrun, husualRun, hends, husualEnds, fun row => ?_, hascends⟩
  have hfirst : keys.compareRows [] row ≠ .gt := fun hgt =>
    List.not_lt_nil row (Std.compare_eq_gt.mp hgt)
  rw [hcells, husualCells, if_neg hfirst, merged_perm hresorted.distinct hsame,
    @inRow_merged_resort order]

/-- An order in which shorter rows come first, the empty one before all of them. -/
theorem run_reads_rows_in_order_of_script :
    let order := byRows "ShorterRow" fun left right =>
      (compare left.length right.length).then (Ord.compare left right)
    let family : Family := { name := [102], maxVersions := 1, clock := .manual .oldest }
    let scan : Scan AnyFilter := {}
    let short := Cell.put [98] [102] [99] ⟨1⟩ [1]
    let long := Cell.put [97, 97] [102] [99] ⟨1⟩ [1]
    let script : SourceScript := { sequenceId := 1, cells := [short, long] }
    let sorted : SourceScript := { sequenceId := 1, cells := [long, short] }
    let supply : Supply ScriptedSource := fun _ => .ok [script.open order 0]
    let resorted : Supply ScriptedSource := fun _ => .ok [sorted.open .keys 0]
    ∃ scanner usual, (Scanner.open { family with order } supply 0 scan).value = .ok scanner ∧
      (Scanner.open family resorted 0 scan).value = .ok usual ∧
      ∃ pages usualPages : List Page,
        scanner.run (List.replicate 3 (.read .ofScan)) supply = pages.map .ok ∧
        usual.run (List.replicate 3 (.read .ofScan)) resorted = usualPages.map .ok ∧
        ∀ row, Cell.inRow row (pages.flatMap (·.cells)) =
          if order.compareRows [] row = .gt then []
          else Cell.inRow row (usualPages.flatMap (·.cells)) := by
  intro order family scan short long script sorted supply resorted
  have hrows : Std.TransCmp order.compareRows :=
    inferInstanceAs (Std.TransCmp (compareLex (compareOn List.length)
      fun left right : Bytes => Ord.compare left right))
  have hlawful : Std.LawfulEqCmp order.compareRows :=
    { compare_self := Std.ReflCmp.compare_self
      eq_of_compare := fun hsame =>
        Std.LawfulEqCmp.eq_of_compare (Ordering.then_eq_eq.mp hsame).2 }
  have hrowWise : RowWise order := ⟨hrows, hlawful, fun _ _ => rfl⟩
  have hscan : scan.WellFormed := ⟨List.Pairwise.nil, by decide⟩
  have hsupply : supply.SoundIn order family.name scan.request :=
    script.soundIn ⟨rfl, rfl⟩ (by decide) (by decide) _
  have hresorted : resorted.SoundIn keys family.name scan.request :=
    sorted.soundIn ⟨rfl, rfl⟩ (by decide) (by decide) _
  have hsame : (resorted.stock scan.request).Perm
      ((supply.stock scan.request).map (Part.resort keys)) := by
    have hsort : keys.sort [short, long] = [long, short] :=
      StrictlySorted.eq_of_perm (sort_strictlySorted (by decide)) (List.pairwise_pair.mpr rfl)
        ((sort_perm _).trans (.swap long short []))
    exact List.Perm.of_eq (congrArg (fun cells => [Part.mk 1 cells]) hsort.symm)
  obtain ⟨scanner, usual, hopen, husual, hreads⟩ :=
    @run_reads_rows_in_order _ _ _ _ order _ supply _ _ _ _ resorted family scan hscan rfl rfl
      hsupply hresorted hsame 0
  obtain ⟨pages, usualPages, hrun, husualRun, -, -, hcells, -⟩ :=
    hreads (List.replicate 3 .ofScan) (List.replicate 3 .ofScan) (by decide) (by decide)
  exact ⟨scanner, usual, hopen, husual, pages, usualPages, hrun, husualRun, hcells⟩

/-- In the order in which rows descend, all rows come before the empty one. A scan of all rows
hands out none of them, though each lies in its range, and in the usual order hands out the first
of them at once. -/
theorem descending_rows_are_not_read :
    let family : Family := { name := [102], maxVersions := 1, clock := .manual .oldest }
    let scan : Scan AnyFilter := {}
    let first := Cell.put [97] [102] [99] ⟨1⟩ [1]
    let second := Cell.put [98] [102] [99] ⟨1⟩ [1]
    let script : SourceScript := { sequenceId := 1, cells := [second, first] }
    let sorted : SourceScript := { sequenceId := 1, cells := [first, second] }
    let supply : Supply ScriptedSource := fun _ => .ok [script.open reverseRows 0]
    let resorted : Supply ScriptedSource := fun _ => .ok [sorted.open .keys 0]
    scan.rows = .all ∧ reverseRows.Sorted script.cells ∧
      (∀ cell ∈ script.cells, scan.rows.contains cell.row = true) ∧
      (∃ scanner, (Scanner.open { family with order := reverseRows } supply 0 scan).value =
          .ok scanner ∧
        scanner.run [.read .ofScan] supply = [.ok ⟨[], false⟩]) ∧
      ∃ usual, (Scanner.open family resorted 0 scan).value = .ok usual ∧
        usual.run [.read .ofScan] resorted = [.ok ⟨[first], true⟩] := by
  intro family scan first second script sorted supply resorted
  refine ⟨rfl, by decide, by decide, ⟨_, rfl, ?_⟩, _, rfl, ?_⟩
  · simp only [family, scan, first, second, script, supply]
    cbv
  · simp only [family, scan, first, second, sorted, resorted]
    cbv

end Scanner

end MergeScan
