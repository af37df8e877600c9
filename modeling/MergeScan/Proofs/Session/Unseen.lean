import Mathlib
import MergeScan.Proofs.Scanner.Reference
import MergeScan.Proofs.Session.Scans

/-! # Changes that are not seen

A scan reads on after its sources were exchanged for others in which it finds the same. All
that it hands out is the same then. Where copies of a cell are in other sources than before
a single read can end elsewhere, because a read that has reached its limit still passes over
the copies behind. A flush does not move copies, so it is not even seen in the single reads.
-/

namespace MergeScan

open CellOrder

section

variable {φ : Type} [CellFilter φ] {family : Family} {scan : Scan φ}

/-- A reading of a list from the first key of a scan on. -/
theorem Reading.tracks_start (hplain : scan.Plain family) {data : List Cell}
    (hsorted : keys.Sorted data) (hstored : Cell.StoredIn family.name data) :
    Tracks family.name scan.rows data (Reading.start family scan data) where
  sorted := hsorted
  stored := hstored
  rows := rfl
  known := hplain.begun_start hsorted hstored
  located ahead hspot := by
    cases hspot
    exact Matcher.located_skipTo hsorted _

theorem ScanEvent.filter_isRead_onCells {σ : Type} [Source σ] (request : SourceRequest)
    (events : List (ScanEvent (Supply σ))) :
    (events.filter isRead).map (onCells request) =
      (events.map (onCells request)).filter isRead := by
  rw [List.filter_map]
  congr 2
  ext event
  cases event <;> rfl

/-- What is seen of changes to sources in which a scan finds the same: no read fails, and
the reads hand out pieces of one list, from its beginning on, the one that is handed out if
nothing changes. If further copies are where they were, every single read hands out the same. -/
structure Scanner.ReadsThrough {σ : Type} [Source σ] [LawfulSource σ keys] (family : Bytes)
    (request : SourceRequest) (supply : Supply σ) (scanner : Scanner σ φ) (total : List Cell) :
    Prop where
  whole limit count : (supply.cells request).length < count →
    ∃ pages : List Page, (scanner.pages (some supply) limit count).value.1 = pages.map .ok ∧
      pages.flatMap Page.cells = total
  pieces (events : List (ScanEvent (Supply σ))) :
    (∀ other, .change other ∈ events → other.Sound family request ∧
      Alike request.rows False (other.cells request) (supply.cells request)) →
    ∃ pages : List Page, scanner.run events supply = pages.map .ok ∧
      pages.flatMap Page.cells <+: total ∧
      ((∃ page ∈ pages, page.more = false) → pages.flatMap Page.cells = total)
  single (events : List (ScanEvent (Supply σ))) :
    (∀ other, .change other ∈ events → other.Sound family request ∧
      Alike request.rows True (other.cells request) (supply.cells request)) →
    ∃ pages undisturbed : List Page, scanner.run events supply = pages.map .ok ∧
      scanner.run (events.filter ScanEvent.isRead) supply = undisturbed.map .ok ∧
      pages.map Page.cells = undisturbed.map Page.cells

/-- A scan reads through changes to sources in which it finds the same. -/
theorem Scanner.open_readsThrough {σ : Type} [Source σ] [LawfulSource σ keys]
    (hplain : scan.Plain family) {supply : Supply σ}
    (hsupply : supply.Sound family.name scan.request) (subscription : Nat) :
    ∃ scanner total, (Scanner.open family supply subscription scan).value = .ok scanner ∧
      scanner.ReadsThrough family.name scan.request supply total := by
  obtain ⟨scanner, hopen, hstands, hrequest, hbatch⟩ :=
    open_stands hplain.unfiltered hsupply subscription
  have hsorted := supply.cells_sorted scan.request
  have hprepared := hplain.prepared hsorted hsupply.stored
  have htracks := Reading.tracks_start hplain hsorted hsupply.stored
  let start := Reading.start family scan (supply.cells scan.request)
  have hsettled : start.Settled := nofun
  -- what happens to the provider happens to the lists of cells that it provides
  have hdata (counted : Prop) (events : List (ScanEvent (Supply σ)))
      (hevents : ∀ other, .change other ∈ events → other.Sound family.name scan.request ∧
        Alike scan.rows counted (other.cells scan.request) (supply.cells scan.request)) :
      scanner.run events supply = (start.run scan.batch (events.map (.onCells scan.request))
          (supply.cells scan.request)).map .ok ∧
        ∀ other, .change other ∈ events.map (ScanEvent.onCells scan.request) →
          keys.Sorted other ∧ Cell.StoredIn family.name other ∧
            Alike scan.rows counted other (supply.cells scan.request) := by
    have hrun : scanner.run events supply = _ := hstands.run hprepared (hrequest ▸ hsupply)
      fun other hother => hrequest ▸ (hevents other hother).1
    rw [hrequest, hbatch] at hrun
    exact ⟨hrun, ScanEvent.forall_onCells fun next hnext =>
      ⟨next.cells_sorted _, (hevents next hnext).1.stored, (hevents next hnext).2⟩⟩
  refine ⟨scanner, start.output (supply.cells scan.request), hopen, fun limit count hcount => ?_,
    fun events hevents => ?_, fun events hevents => ?_⟩
  · have hahead : (start.ahead []).length < count :=
      Nat.lt_of_le_of_lt (skipTo_length_le _ _) hcount
    obtain ⟨hpages, -⟩ := hstands.pages hprepared hsettled (some supply) limit count
    obtain ⟨earlier, last, hreads, -, -, hcells, -⟩ := hprepared.pages_output hsettled hahead
    exact ⟨_, hpages, hreads ▸ hcells⟩
  · obtain ⟨hrun, hlists⟩ := hdata False events hevents
    exact ⟨_, hrun, htracks.run_output hlists⟩
  · obtain ⟨hrun, hlists⟩ := hdata True events hevents
    obtain ⟨hquiet, -⟩ := hdata True (events.filter ScanEvent.isRead)
      fun other hother => nomatch (List.mem_filter.mp hother).2
    rw [ScanEvent.filter_isRead_onCells] at hquiet
    have hstep : Reading.InStep (supply.cells scan.request) (supply.cells scan.request) start
        start := .abreast rfl (.level (.refl _))
    exact ⟨_, _, hrun, hquiet, hstep.run htracks htracks hlists⟩

end

/-! ## Flushes -/

/-- Whether a step is a read. -/
def StoreStep.isNext : StoreStep → Bool
  | next _ => true
  | flush => false

theorem StoreStep.filterMap_limit?_filter (steps : List StoreStep) :
    (steps.filter isNext).filterMap limit? = steps.filterMap limit? := by
  induction steps with
  | nil => rfl
  | cons step rest ih =>
      cases step with
      | next limit => exact congrArg (limit :: ·) ih
      | flush => exact ih

namespace StoreSession

variable {session : StoreSession}

/-- Each read of a scan of a store hands out the same cells whether or not the store is
flushed in between, however often. -/
def FlushesUnseen (session : StoreSession) (name : String) : Prop :=
  ∀ steps, ∃ pages undisturbed : List Page,
    session.answers name steps = pages.map (.page <| .ok ·) ∧
    session.answers name (steps.filter StoreStep.isNext) = undisturbed.map (.page <| .ok ·) ∧
    pages.map Page.cells = undisturbed.map Page.cells

/-- A scan of a store does not see the flushes. -/
theorem open_flushesUnseen (hkept : session.store.Kept)
    (hroom : session.store.nextSequence < Store.bufferSequence) (hdesk : session.desk = [])
    {scan : Scan AnyFilter} (hplain : scan.Plain session.store.family)
    (hselection : scan.selection = .all) (name : String) :
    (session.open name scan).1 = .ok () ∧ (session.open name scan).2.FlushesUnseen name := by
  have hsupply := hkept.sound.supply_sound hkept.stored (Nat.le_of_lt hroom) scan.request
  obtain ⟨scanner, total, hopen, hthrough⟩ :=
    Scanner.open_readsThrough hplain hsupply session.store.nextSubscription
  obtain ⟨hok, hscans, hdata, hsame⟩ := open_scans hdesk hopen name
  refine ⟨hok, fun steps => ?_⟩
  have hopened := hkept.of_data hdata
  have hfamily : (session.open name scan).2.store.family = session.store.family :=
    congrArg (·.1) hdata
  have hnext : (session.open name scan).2.store.nextSequence = session.store.nextSequence :=
    congrArg (·.2.2.2) hdata
  -- what is answered with flushes and without them is read off the same undisturbed run
  have hanswers (steps : List StoreStep) : ∃ pages undisturbed : List Page,
      (session.open name scan).2.answers name steps = pages.map (.page <| .ok ·) ∧
      scanner.run ((steps.filterMap StoreStep.limit?).map .read) session.store.supply =
        undisturbed.map .ok ∧
      pages.map Page.cells = undisturbed.map Page.cells := by
    have hselection : scan.request.selection = .all := hselection
    obtain ⟨events, hanswers, hlimits, hevents⟩ := hscans.answers hopened
      (hnext ▸ Nat.le_of_lt hroom) (fun _ => hnext ▸ hroom) hselection steps
    rw [hfamily, hsame] at hevents
    obtain ⟨pages, undisturbed, hpages, hquiet, hcells⟩ := hthrough.single events hevents
    rw [ScanEvent.filter_isRead, hlimits] at hquiet
    refine ⟨pages, undisturbed, ?_, hquiet, hcells⟩
    rw [hanswers, hsame, hpages, List.map_map]
    rfl
  obtain ⟨pages, undisturbed, hpages, hquiet, hcells⟩ := hanswers steps
  obtain ⟨others, undisturbed', hothers, hquiet', hcells'⟩ :=
    hanswers (steps.filter StoreStep.isNext)
  rw [StoreStep.filterMap_limit?_filter, hquiet] at hquiet'
  have heq : undisturbed = undisturbed' :=
    (List.map_inj_right fun _ _ => Except.ok.inj).mp hquiet'
  exact ⟨pages, others, hpages, hothers, by rw [hcells, hcells', heq]⟩

/-- Neither a change to sources in which a scan finds the same nor a flush is seen. -/
theorem changes_unseen {σ φ : Type} [Source σ] [LawfulSource σ keys] [CellFilter φ]
    {family : Family} {scan : Scan φ} (hplain : scan.Plain family) {supply : Supply σ}
    (hsupply : supply.Sound family.name scan.request) (subscription : Nat)
    (hkept : session.store.Kept) (hroom : session.store.nextSequence < Store.bufferSequence)
    (hdesk : session.desk = []) {other : Scan AnyFilter}
    (hother : other.Plain session.store.family) (hselection : other.selection = .all)
    (name : String) :
    (∃ scanner total, (Scanner.open family supply subscription scan).value = .ok scanner ∧
      scanner.ReadsThrough family.name scan.request supply total) ∧
    (session.open name other).1 = .ok () ∧ (session.open name other).2.FlushesUnseen name :=
  ⟨Scanner.open_readsThrough hplain hsupply subscription,
    open_flushesUnseen hkept hroom hdesk hother hselection name⟩

/-- A scan at the second of three versions when the runs are exchanged for others, where the copy
behind that version is another one, and a scan of a store with such a copy in a run. -/
theorem changes_unseen_of_add :
    let family : Family := { name := [102], maxVersions := 3, clock := .manual .oldest }
    let scan : Scan AnyFilter := { maxVersions := 3 }
    let cell (time : UInt64) (value : UInt8) := Cell.put [114] [102] [99] ⟨time⟩ [value]
    let before := (Store.addRun (Store.addRun { family } [cell 2 9]).2
      [cell 3 3, cell 2 2, cell 1 1]).2
    let after := (Store.addRun (Store.addRun { family } [cell 2 8, cell 1 1]).2
      [cell 3 3, cell 2 2]).2
    let read := ScanEvent.read (.own (some 1))
    let calls : List StoreCall :=
      [.add (cell 2 9), .flush, .add (cell 3 3), .add (cell 2 2), .add (cell 1 1)]
    let session := (fresh family).callAll calls
    (scan.Plain family ∧ before.supply.Sound family.name scan.request ∧
      after.supply.Sound family.name scan.request ∧
      before.supply.cells scan.request = [cell 3 3, cell 2 2, cell 2 9, cell 1 1] ∧
      after.supply.cells scan.request = [cell 3 3, cell 2 2, cell 2 8, cell 1 1] ∧
      Alike scan.rows True (after.supply.cells scan.request) (before.supply.cells scan.request) ∧
      session.store.Kept ∧ session.store.nextSequence < Store.bufferSequence ∧
      session.desk = [] ∧ session.store.buffer.cells = [cell 3 3, cell 2 2, cell 1 1] ∧
      session.store.runs.map SortedRun.toList = [[cell 2 9]]) ∧
      (∃ scanner total, (Scanner.open family before.supply 0 scan).value = .ok scanner ∧
        scanner.ReadsThrough family.name scan.request before.supply total ∧
        scanner.run [read, .change after.supply, read, read, read] before.supply =
          [⟨[cell 3 3], true⟩, ⟨[cell 2 2], true⟩, ⟨[cell 1 1], true⟩, ⟨[], false⟩].map .ok) ∧
      (session.open "scan" scan).1 = .ok () ∧
      (session.open "scan" scan).2.FlushesUnseen "scan" := by
  intro family scan cell before after read calls session
  have hplain : scan.Plain family :=
    ⟨⟨List.Pairwise.nil, by decide⟩, Nat.le_add_left 1 2, rfl, rfl, rfl⟩
  have hloaded (older newer : List Cell) (holder : Cell.StoredIn family.name older)
      (hnewer : Cell.StoredIn family.name newer) :
      (Store.addRun (Store.addRun { family } older).2 newer).2.supply.Sound family.name
        scan.request :=
    (((Store.fresh_sound family).addRun _).addRun _).supply_sound
      (((Store.fresh_stored family).addRun holder).addRun hnewer)
      (show 3 ≤ Store.bufferSequence by decide) _
  have hbefore : before.supply.Sound family.name scan.request :=
    hloaded _ _ (by decide) (by decide)
  have hafter : after.supply.Sound family.name scan.request := hloaded _ _ (by decide) (by decide)
  have hcells : before.supply.cells scan.request = [cell 3 3, cell 2 2, cell 2 9, cell 1 1] := by
    simp only [before, cell, family, scan]
    decide_cbv
  have hothers : after.supply.cells scan.request = [cell 3 3, cell 2 2, cell 2 8, cell 1 1] := by
    simp only [after, cell, family, scan]
    decide_cbv
  have halike : Alike scan.rows True (after.supply.cells scan.request)
      (before.supply.cells scan.request) := by
    rw [hcells, hothers]
    exact .of_replaced rfl rfl [cell 3 3] [cell 1 1]
  have hreal : ∀ call ∈ calls, ∀ cell ∈ call.cells, cell.IsReal := by decide
  have hkept : session.store.Kept := callAll_kept (Store.fresh_kept family) hreal
  obtain ⟨⟨scanner, total, hopen, hthrough⟩, hok, hflushes⟩ :=
    changes_unseen hplain hbefore 0 hkept (by decide) rfl hplain rfl "scan"
  refine ⟨⟨hplain, hbefore, hafter, hcells, hothers, halike, hkept, by decide, rfl, by decide,
    by decide_cbv⟩, ⟨scanner, total, hopen, hthrough, ?_⟩, hok, hflushes⟩
  obtain ⟨other, hother, hrun⟩ := Scanner.open_run hplain hbefore 0
  obtain rfl : other = scanner := Except.ok.inj (hother.symm.trans hopen)
  rw [hrun _ (by simp [read, hafter])]
  simp only [List.map_cons, ScanEvent.onCells, hcells, hothers, read]
  simp only [cell, family, scan]
  cbv

end StoreSession

/-- A copy that comes up behind the cell at which a read stops can keep the next read from
going on: with the copy it passes over it and has reached its limit. -/
theorem Scanner.stale_copy_delays :
    let family : Family := { name := [102], maxVersions := 2, clock := .manual .oldest }
    let scan : Scan AnyFilter := { maxVersions := 2 }
    let first := Cell.put [48] [102] [98] ⟨1⟩ [1]
    let second := Cell.put [49] [102] [99] ⟨1⟩ [1]
    let third := Cell.put [50] [102] [100] ⟨1⟩ [1]
    let before : Store := (Store.addRun { family } [first, second, third]).2
    let after : Store := ((Store.addRun { family } [second]).2.addRun [first, second, third]).2
    let read := ScanEvent.read (.own (some 1))
    (scan.Plain family ∧ before.supply.Sound family.name scan.request ∧
      after.supply.Sound family.name scan.request ∧
      SortedRun.dedupe (after.supply.cells scan.request) =
        SortedRun.dedupe (before.supply.cells scan.request)) ∧
      ∃ scanner, (Scanner.open family before.supply 0 scan).value = .ok scanner ∧
        scanner.run [read, .change after.supply, read, read] before.supply =
          [.ok ⟨[first], true⟩, .ok ⟨[second], true⟩, .ok ⟨[], true⟩] ∧
        scanner.run [read, read, read] before.supply =
          [.ok ⟨[first], true⟩, .ok ⟨[second], true⟩, .ok ⟨[third], true⟩] := by
  intro family scan first second third before after read
  have hplain : scan.Plain family := ⟨⟨List.Pairwise.nil, by decide⟩, Nat.le_succ 1, rfl, rfl, rfl⟩
  have hcells : Cell.StoredIn family.name [first, second, third] := by decide
  have hsecond : Cell.StoredIn family.name [second] := by decide
  have hbefore : before.supply.Sound family.name scan.request :=
    ((Store.fresh_sound family).addRun _).supply_sound ((Store.fresh_stored family).addRun hcells)
      (by decide) _
  have hafter : after.supply.Sound family.name scan.request :=
    (((Store.fresh_sound family).addRun _).addRun _).supply_sound
      (((Store.fresh_stored family).addRun hsecond).addRun hcells) (by decide) _
  have hsame : SortedRun.dedupe (after.supply.cells scan.request) =
      SortedRun.dedupe (before.supply.cells scan.request) := by
    simp only [after, before, first, second, third, family, scan]
    decide_cbv
  obtain ⟨scanner, hopen, hrun⟩ := Scanner.open_run hplain hbefore 0
  refine ⟨⟨hplain, hbefore, hafter, hsame⟩, scanner, hopen, ?_, ?_⟩
  · rw [hrun _ (by simp [read, hafter])]
    simp only [after, before, first, second, third, family, scan, read]
    cbv
  · rw [hrun _ (by simp [read])]
    simp only [before, first, second, third, family, scan, read]
    cbv

end MergeScan
