import Mathlib
import MergeScan.Filter.Any
import MergeScan.Proofs.Scanner.Unfiltered
import MergeScan.Proofs.Source.Scripted

/-! # What comes out in order

Each turn holds the cell on top against the one before it, so what a pass hands out ascends
also where a source is not in order; otherwise the pass fails. A pass that stops because it
has as many cells as wanted has not looked at the next cell, and the next pass begins
without a cell before. So it is between two reads, where the first has used up its limit,
that a scan can go back.
-/

namespace MergeScan

/-- Whether a page has fewer cells than it could have. -/
def Page.Unfilled (limit : Option Nat) (page : Page) : Prop :=
  ∀ count, limit = some count → page.cells.length < count

variable {σ φ : Type} [Source σ] [CellFilter φ] {order : CellOrder} [LawfulSource σ order]
variable {admits : Nat → List Cell → Prop}

namespace CellOrder

theorem sorted_toList (cell : Option Cell) : order.Sorted cell.toList := by
  cases cell with
  | none => exact List.Pairwise.nil
  | some cell => exact List.pairwise_singleton _ _

/-- Cells that are in order are so behind the first of them, met once more, and behind one that
comes before it. -/
theorem Sorted.behind [Std.TransCmp order.compare] {cell : Cell} {rest found : List Cell}
    (hsorted : order.Sorted (cell :: rest)) (hfound : found.Sublist (cell :: rest))
    {previous : Option Cell}
    (hprevious : ∀ last, previous = some last → (order.compare last cell).isLE = true) :
    order.Sorted (previous.toList ++ cell :: found) := by
  have hcell : ∀ other ∈ found, (order.compare cell other).isLE = true := by
    intro other hother
    rcases List.mem_cons.mp (hfound.subset hother) with rfl | hmem
    · exact Std.ReflCmp.isLE_rfl
    · exact (List.pairwise_cons.mp hsorted).1 other hmem
  refine List.pairwise_append.mpr ⟨sorted_toList previous,
    List.pairwise_cons.mpr ⟨hcell, hsorted.sublist hfound⟩, fun last hlast other hother => ?_⟩
  have hle := hprevious last (Option.mem_toList.mp hlast)
  rcases List.mem_cons.mp hother with rfl | hmem
  · exact hle
  · exact Std.TransCmp.isLE_trans hle (hcell other hmem)

end CellOrder

namespace ReadState

variable {state next : ReadState σ φ} {previous : Option Cell} {limit : Option Nat}
variable {cell : Cell} {outcome : Turn} {cells : List Cell} {ending : PassEnd}

/-- Nothing but the cell on top is handed out. -/
theorem Turned.emitted_sublist (hturned : Turned order admits state previous cell outcome next) :
    outcome.emitted.toList.Sublist [cell] := by
  have hemitted (decision : Decision) : (decision.emitted cell).toList.Sublist [cell] := by
    unfold Decision.emitted
    split
    · exact .refl _
    · exact List.nil_sublist _
  obtain ⟨decision, -, hcourse⟩ := hturned.decided
  cases hcourse with
  | cell => exact hemitted decision
  | column => exact hemitted decision
  | row => exact hemitted decision
  | rowDone => exact List.nil_sublist _
  | scanDone => exact hemitted decision

/-- Where a pass stops before the end of the scan, the cell on top has been looked at. -/
theorem Turned.peek_of_stop {emitted : Option Cell}
    (hturned : Turned order admits state previous cell (.stop emitted ending) next)
    (hending : ending ≠ .scanDone) : emitted = none ∧ next.merge.peek = state.merge.peek := by
  obtain ⟨decision, -, hcourse⟩ := hturned.decided
  cases hcourse with
  | rowDone hmerge => exact ⟨rfl, congrArg Merge.peek hmerge⟩
  | scanDone => exact absurd rfl hending

/-- What a pass hands out ascends, behind the cell before it and the one on top at its beginning,
and before the one on top at its end unless it has stopped at its limit. -/
structure Ordered (order : CellOrder) (previous : Option Cell) (limit : Option Nat)
    (state : ReadState σ φ) (cells : List Cell) (ending : PassEnd) (next : ReadState σ φ) :
    Prop where
  sorted : order.Sorted (previous.toList ++ (state.merge.peek.toList ++ cells))
  upTo : (∀ count, limit = some count → cells.length < count) → ending ≠ .scanDone →
    ∀ last, next.merge.peek = some last →
      ∀ cell ∈ previous.toList ++ (state.merge.peek.toList ++ cells),
        (order.compare cell last).isLE = true

theorem Turns.ordered [Std.TransCmp order.compare]
    (hturns : Turns order admits previous limit state cells ending next) :
    Ordered order previous limit state cells ending next := by
  -- the cell of each turn is the previous one of the next
  induction hturns with
  | @exhausted previous limit state hpeek =>
      refine ⟨?_, fun _ _ last hlast => nomatch hpeek.symm.trans hlast⟩
      rw [hpeek, Option.toList_none, List.append_nil, List.append_nil]
      exact CellOrder.sorted_toList previous
  | @stopped previous limit state next cell emitted ending hpeek hturned =>
      have hemitted : emitted.toList.Sublist [cell] := hturned.emitted_sublist
      have hcell : order.Sorted [cell] := List.pairwise_singleton _ _
      refine ⟨hpeek ▸ hcell.behind hemitted hturned.inOrder, ?_⟩
      intro _ hending last hlast other hother
      obtain ⟨rfl, hsame⟩ := hturned.peek_of_stop hending
      cases (hsame.trans hpeek).symm.trans hlast
      rw [hpeek, Option.toList_none, List.append_nil] at hother
      rcases List.mem_append.mp hother with hbefore | hmem
      · exact hturned.inOrder other (Option.mem_toList.mp hbefore)
      · rw [List.mem_singleton.mp hmem]
        exact Std.ReflCmp.isLE_rfl
  | @filled previous limit state next cell emitted hpeek hturned hlimit =>
      have hemitted : [emitted].Sublist [cell] := hturned.emitted_sublist
      have hcell : order.Sorted [cell] := List.pairwise_singleton _ _
      refine ⟨hpeek ▸ hcell.behind hemitted hturned.inOrder, fun hunfilled => ?_⟩
      obtain ⟨count, rfl, hcount⟩ := Option.map_eq_some_iff.mp hlimit
      have := hunfilled count rfl
      simp only [Option.toList_some, List.length_singleton] at this hcount
      omega
  | @goOn previous limit state next final cell emitted cells ending hpeek hturned hturns ih =>
      have hemitted : emitted.toList.Sublist [cell] := hturned.emitted_sublist
      have hfound : (emitted.toList ++ cells).Sublist (cell :: cells) :=
        hemitted.append (.refl cells)
      have hseen : (cell :: cells).Sublist (cell :: (next.merge.peek.toList ++ cells)) :=
        (List.sublist_append_right _ _).cons_cons cell
      have hrest : order.Sorted (cell :: cells) := ih.sorted.sublist hseen
      refine ⟨hpeek ▸ hrest.behind hfound hturned.inOrder, ?_⟩
      intro hunfilled hending last hlast other hother
      have hall : ∀ other ∈ cell :: cells, (order.compare other last).isLE = true := by
        intro other hother
        refine ih.upTo ?_ hending last hlast other (hseen.subset hother)
        intro count hcount
        obtain ⟨whole, rfl, rfl⟩ := Option.map_eq_some_iff.mp hcount
        have := hunfilled whole rfl
        rw [List.length_append] at this
        omega
      rw [hpeek] at hother
      rcases List.mem_append.mp hother with hbefore | hmem
      · exact Std.TransCmp.isLE_trans (hturned.inOrder other (Option.mem_toList.mp hbefore))
          (hall cell List.mem_cons_self)
      · rcases List.mem_cons.mp hmem with rfl | hmem
        · exact hall _ List.mem_cons_self
        · exact hall other (hfound.subset hmem)

end ReadState

namespace Scanner

variable {scanner after : Scanner σ φ} {limit : Option Nat} {page : Page} {done : List Cell}

/-- To what was read in order, a read adds in order. If it has not used up its limit, what
is read next comes in order as well. -/
theorem Paged.sorted [Std.TransCmp order.compare]
    (hpaged : Paged order admits scanner limit page after) (hdone : order.Sorted done)
    (hpast : scanner.IsPast order done) :
    order.Sorted (done ++ page.cells) ∧
      (page.Unfilled limit → after.IsPast order (done ++ page.cells)) := by
  cases hpaged with
  | nothing hclosed =>
      rw [List.append_nil]
      exact ⟨hdone, fun _ => isPast_of_closed hclosed order done⟩
  | @read merge first cells ending state more _ hactive hpeek hturns hmatcher hphase =>
      obtain ⟨hsorted, hupTo⟩ := hturns.ordered
      rw [hpeek] at hsorted hupTo
      obtain ⟨hfrom, hsorted⟩ := List.pairwise_cons.mp hsorted
      have hfirst : ∀ cell ∈ done, (order.compare cell first).isLE = true := by
        apply hpast
        rw [Scanner.peek, hactive]
        exact hpeek
      refine ⟨List.pairwise_append.mpr ⟨hdone, hsorted, fun cell hcell other hother =>
        Std.TransCmp.isLE_trans (hfirst cell hcell) (hfrom other hother)⟩, ?_⟩
      intro hunfilled
      rcases hphase with hclosed | ⟨hending, hphase⟩
      · exact isPast_of_closed hclosed order _
      · intro last hlast cell hcell
        rw [Scanner.peek, hphase] at hlast
        have hlast := hupTo hunfilled hending last hlast
        rcases List.mem_append.mp hcell with hmem | hmem
        · exact Std.TransCmp.isLE_trans (hfirst cell hmem) (hlast first List.mem_cons_self)
        · exact hlast cell (List.mem_cons_of_mem first hmem)

variable {batch : Option Nat} {limits : List ReadLimit} {pages : List Page} {supply : Supply σ}

variable [CellOrder.RowWise order]
variable (hkinds : ∀ rank cells, admits rank cells → ∀ cell ∈ cells, cell.kind ≠ .minimum)
include hkinds

/-- Reads of which none but the last has used up its limit add in order to what was read in
order before. -/
theorem Unfiltered.run_sorted (hscanner : Unfiltered order admits scanner)
    (hrun : scanner.run (limits.map .read) supply = pages.map .ok) (hdone : order.Sorted done)
    (hpast : scanner.IsPast order done) {stretch rest : List (ReadLimit × Page)}
    {last : ReadLimit × Page} (hreads : limits.zip pages = stretch ++ last :: rest)
    (hunfilled : ∀ read ∈ stretch, read.2.Unfilled (read.1.cells scanner.batch)) :
    order.Sorted (done ++ (stretch ++ [last]).flatMap (·.2.cells)) := by
  induction stretch generalizing scanner done limits pages with
  | nil =>
      cases limits with
      | nil => cases hreads
      | cons limit limits =>
          obtain ⟨page, later, rfl, hpage, -⟩ := run_cons_eq hrun
          obtain ⟨rfl, -⟩ := List.cons.inj hreads
          have hpaged := (hscanner.next hkinds (some supply) limit).paged page hpage
          simpa using (hpaged.sorted hdone hpast).1
  | cons first stretch ih =>
      cases limits with
      | nil => cases hreads
      | cons limit limits =>
          obtain ⟨page, later, rfl, hpage, hlater⟩ := run_cons_eq hrun
          obtain ⟨rfl, hothers⟩ := List.cons.inj hreads
          obtain ⟨hfirst, hunfilled⟩ := List.forall_mem_cons.mp hunfilled
          have hread := hscanner.next hkinds (some supply) limit
          obtain ⟨hsorted, hahead⟩ := (hread.paged page hpage).sorted hdone hpast
          have hsorted := ih (hread.unfiltered hscanner) hlater hsorted (hahead hfirst) hothers
            (hread.sameScan.batch ▸ hunfilled)
          rw [List.append_assoc] at hsorted
          exact hsorted

/-- The same of reads in the middle of others. -/
theorem Unfiltered.run_sorted_infix (hscanner : Unfiltered order admits scanner)
    (hrun : scanner.run (limits.map .read) supply = pages.map .ok)
    {before stretch rest : List (ReadLimit × Page)} {last : ReadLimit × Page}
    (hreads : limits.zip pages = before ++ (stretch ++ last :: rest))
    (hunfilled : ∀ read ∈ stretch, read.2.Unfilled (read.1.cells scanner.batch)) :
    order.Sorted ((stretch ++ [last]).flatMap (·.2.cells)) := by
  induction before generalizing scanner limits pages with
  | nil =>
      exact hscanner.run_sorted hkinds hrun List.Pairwise.nil (fun _ _ _ hcell => nomatch hcell)
        hreads hunfilled
  | cons first before ih =>
      cases limits with
      | nil => cases hreads
      | cons limit limits =>
          obtain ⟨page, later, rfl, hpage, hlater⟩ := run_cons_eq hrun
          obtain ⟨-, hothers⟩ := List.cons.inj hreads
          have hread := hscanner.next hkinds (some supply) limit
          exact ih (hread.unfiltered hscanner) hlater hothers (hread.sameScan.batch ▸ hunfilled)

omit hkinds

/-- Whatever the sources hold, in order or not, and whether or not they fail: reads in a row
that do not fail hand out cells in order, as long as none of them but the last has used up
its limit. The one condition on the cells of the sources is that none is of the kind of the keys
that end a column or a row: a scan that meets such a cell moves on to where it is. -/
theorem run_ascends_within_limits {family : Family} [LawfulSource σ family.order]
    [CellOrder.RowWise family.order] {scan : Scan φ} (hscan : scan.WellFormed)
    (hfilter : scan.filter = none) {supply : Supply σ}
    (hholds : ∀ source ∈ supply.sources scan.request,
      LawfulSource.Holds family.order source (Source.remaining source))
    (hkinds : ∀ source ∈ supply.sources scan.request,
      ∀ cell ∈ Source.remaining source, cell.kind ≠ .minimum)
    {subscription : Nat} {scanner : Scanner σ φ}
    (hopen : (Scanner.open family supply subscription scan).value = .ok scanner)
    {limits : List ReadLimit} {pages : List Page}
    (hrun : scanner.run (limits.map .read) supply = pages.map .ok)
    {stretch : List (ReadLimit × Page)} {last : ReadLimit × Page}
    (hreads : stretch ++ [last] <:+: limits.zip pages)
    (hunfilled : ∀ read ∈ stretch, read.2.Unfilled (read.1.cells scan.batch)) :
    family.order.Sorted ((stretch ++ [last]).flatMap (·.2.cells)) := by
  let admits (_ : Nat) (cells : List Cell) : Prop := ∀ cell ∈ cells, cell.kind ≠ .minimum
  obtain ⟨⟨-, hbatch⟩, merge, hphase, hstate, -⟩ := @of_open _ _ _ _ admits _ _ _ _ _ hscan
    hfilter _ _ (fun source hsource => ⟨hholds source hsource, hkinds source hsource⟩) hopen
  have hscanner : Unfiltered family.order admits scanner := by
    rw [Unfiltered, hphase]
    exact hstate
  obtain ⟨before, rest, hsplit⟩ := hreads
  rw [List.append_assoc, List.append_assoc] at hsplit
  exact hscanner.run_sorted_infix (fun _ _ => id) hrun hsplit.symm (hbatch ▸ hunfilled)

/-- A source whose first row comes too early, behind which a read that could have had two cells
finds one. -/
theorem run_ascends_within_limits_of_script :
    let family : Family := { name := [102], maxVersions := 2, clock := .manual .oldest }
    let scan : Scan AnyFilter := { maxVersions := 2 }
    let first := Cell.put [97] [102] [99] ⟨1⟩ [1]
    let second := Cell.put [98] [102] [99] ⟨1⟩ [1]
    let third := Cell.put [99] [102] [99] ⟨1⟩ [1]
    let script : SourceScript := { sequenceId := 1, cells := [third, first, second] }
    let supply : Supply ScriptedSource := fun _ => .ok [script.open .keys 0]
    let limits := [ReadLimit.own (some 1), .own (some 2), .ofScan]
    let stretch := [(ReadLimit.own (some 2), Page.mk [first] true)]
    let last := (ReadLimit.ofScan, Page.mk [second] true)
    ∃ scanner, (Scanner.open family supply 0 scan).value = .ok scanner ∧
      scanner.run (limits.map .read) supply =
        [⟨[third], true⟩, ⟨[first], true⟩, ⟨[second], true⟩].map .ok ∧
      CellOrder.keys.Sorted ((stretch ++ [last]).flatMap (·.2.cells)) := by
  intro family scan first second third script supply limits stretch last
  have hwellFormed : scan.WellFormed := ⟨List.Pairwise.nil, by decide⟩
  have hholds : ∀ source ∈ supply.sources scan.request,
      ScriptedSource.HoldsCells .keys source (Source.remaining source) := by
    rintro source hsource
    obtain rfl := List.mem_singleton.mp hsource
    exact ⟨rfl, rfl, rfl⟩
  have hkinds : ∀ source ∈ supply.sources scan.request,
      ∀ cell ∈ Source.remaining source, cell.kind ≠ .minimum := by
    rintro source hsource
    obtain rfl := List.mem_singleton.mp hsource
    exact (by decide : ∀ cell ∈ [third, first, second], cell.kind ≠ .minimum)
  have hrun : ∃ scanner, (Scanner.open family supply 0 scan).value = .ok scanner ∧
      scanner.run (limits.map .read) supply =
        [⟨[third], true⟩, ⟨[first], true⟩, ⟨[second], true⟩].map .ok := by
    refine ⟨_, rfl, ?_⟩
    simp only [family, scan, first, second, third, script, supply, limits]
    cbv
  obtain ⟨scanner, hopen, hrun⟩ := hrun
  have hunfilled : ∀ read ∈ stretch, read.2.Unfilled (read.1.cells scan.batch) := by
    simp only [stretch, List.forall_mem_cons]
    refine ⟨?_, List.forall_mem_nil _⟩
    rintro _ ⟨⟩
    exact Nat.lt_succ_self 1
  exact ⟨scanner, hopen, hrun, @run_ascends_within_limits _ _ _ _ family _ _ _ hwellFormed rfl _
    hholds hkinds _ _ hopen _ _ hrun _ last (List.suffix_cons _ _).isInfix hunfilled⟩

/-- Between two reads the last cell of one and the first cell of the next are not compared: a
source that goes back there goes unnoticed. -/
theorem step_back_unnoticed :
    let family : Family := { name := [102], maxVersions := 2, clock := .manual .oldest }
    let scan : Scan AnyFilter := { maxVersions := 2 }
    let first := Cell.put [97] [102] [99] ⟨1⟩ [1]
    let second := Cell.put [98] [102] [99] ⟨1⟩ [1]
    let script : SourceScript := { sequenceId := 1, cells := [second, first] }
    let supply : Supply ScriptedSource := fun _ => .ok [script.open .keys 0]
    let read := ScanEvent.read (.own (some 1))
    ∃ scanner, (Scanner.open family supply 0 scan).value = .ok scanner ∧
      scanner.run [read, read, read] supply =
        [.ok ⟨[second], true⟩, .ok ⟨[first], true⟩, .ok ⟨[], false⟩] ∧
      ¬CellOrder.keys.Sorted [second, first] := by
  intro family scan first second script supply read
  refine ⟨_, rfl, ?_, ?_⟩
  · simp only [family, scan, first, second, script, supply, read]
    cbv
  · intro hsorted
    have hle := (List.pairwise_cons.mp hsorted).1 first List.mem_cons_self
    exact absurd hle (by decide)

end Scanner

end MergeScan
