import MergeScan.Proofs.Scanner.Runs
import MergeScan.Proofs.Scanner.Turns

/-! # Reads without a filter

What a scanner without a filter reads from sources of which nothing is known but that they
hold admitted cells: in any order, with any ranks, and whether or not they fail. A read that
does not fail is a pass, and one that fails ends the scan.
-/

namespace MergeScan

variable {σ φ : Type} [Source σ] [CellFilter φ] {order : CellOrder} [LawfulSource σ order]
variable {admits : Nat → List Cell → Prop}

namespace ReadState

variable {state next : ReadState σ φ} {previous limit : Option Nat} {cells : List Cell}

theorem Turns.unfiltered {previous : Option Cell} {limit : Option Nat}
    {ending : PassEnd} (hturns : Turns order admits previous limit state cells ending next)
    (hstate : Unfiltered order admits state) : Unfiltered order admits next := by
  induction hturns with
  | exhausted hpeek => exact hstate
  | stopped hpeek hturned => exact hturned.unfiltered
  | filled hpeek hturned hlimit => exact hturned.unfiltered
  | goOn hpeek hturned hturns ih => exact ih hturned.unfiltered

omit [CellFilter φ] in
/-- To enter a row leaves a matcher of the same scan. -/
theorem Unfiltered.inRow {merge : Merge σ} {matcher : Matcher φ}
    (hstate : Unfiltered order admits ⟨merge, matcher⟩) (row : Bytes) :
    Unfiltered order admits ⟨merge, matcher.inRow row⟩ := by
  unfold Matcher.inRow
  split
  · exact hstate
  · exact ⟨hstate.led, hstate.filter, hstate.columns.reset⟩

end ReadState

namespace Scanner

/-- A scanner that reads sources with admitted cells without a filter, or has ended. -/
def Unfiltered (order : CellOrder) [LawfulSource σ order] (admits : Nat → List Cell → Prop)
    (scanner : Scanner σ φ) : Prop :=
  match scanner.phase with
  | .active merge => ReadState.Unfiltered order admits ⟨merge, scanner.matcher⟩
  | .resync _ => False
  | .closed => True

/-- What a read hands out that does not fail, and where it leaves the scanner. -/
inductive Paged (order : CellOrder) [LawfulSource σ order] (admits : Nat → List Cell → Prop)
    (scanner : Scanner σ φ) (limit : Option Nat) : Page → Scanner σ φ → Prop
  /-- No cell is left. -/
  | nothing {after : Scanner σ φ} : after.phase = .closed →
      Paged order admits scanner limit ⟨[], false⟩ after
  | read {merge : Merge σ} {first : Cell} {cells : List Cell} {ending : PassEnd}
      {state : ReadState σ φ} {more : Bool} {after : Scanner σ φ} :
      scanner.phase = .active merge → merge.peek = some first →
      ReadState.Turns order admits none limit ⟨merge, scanner.matcher.inRow first.row⟩ cells
        ending state →
      after.matcher = state.matcher →
      after.phase = .closed ∨ ending ≠ .scanDone ∧ after.phase = .active state.merge →
      Paged order admits scanner limit ⟨cells, more⟩ after

variable {scanner : Scanner σ φ}

/-- The cell that a scanner reads next does not come before any of some cells. -/
def IsPast (order : CellOrder) (scanner : Scanner σ φ) (done : List Cell) : Prop :=
  ∀ top, scanner.peek = some top → ∀ cell ∈ done, (order.compare cell top).isLE = true

omit [Source σ] [CellFilter φ] in
theorem isPast_of_closed (hclosed : scanner.phase = .closed) (order : CellOrder)
    (done : List Cell) : scanner.IsPast order done := by
  intro top htop
  rw [Scanner.peek, hclosed] at htop
  cases htop

theorem Paged.unfiltered {limit : Option Nat} {page : Page} {after : Scanner σ φ}
    (hpaged : Paged order admits scanner limit page after)
    (hscanner : Unfiltered order admits scanner) : Unfiltered order admits after := by
  have hended (hclosed : after.phase = .closed) : Unfiltered order admits after := by
    rw [Unfiltered, hclosed]
    trivial
  cases hpaged with
  | nothing hclosed => exact hended hclosed
  | read hactive hpeek hturns hmatcher hphase =>
      rcases hphase with hclosed | ⟨-, hphase⟩
      · exact hended hclosed
      · rw [Unfiltered, hactive] at hscanner
        have hafter := hturns.unfiltered (hscanner.inRow _)
        rw [Unfiltered, hphase]
        simp only [hmatcher]
        exact hafter

/-- What a read does: one that does not fail is a pass, and one that fails ends the scan. -/
structure WasRead (order : CellOrder) [LawfulSource σ order] (admits : Nat → List Cell → Prop)
    (scanner : Scanner σ φ) (limit : Option Nat)
    (outcome : Except ScanError Page × Scanner σ φ) : Prop where
  sameScan : SameScan scanner outcome.2
  paged page : outcome.1 = .ok page → Paged order admits scanner limit page outcome.2
  failed failure : outcome.1 = .error failure → outcome.2.phase = .closed

theorem WasRead.unfiltered {limit : Option Nat}
    {outcome : Except ScanError Page × Scanner σ φ}
    (hread : WasRead order admits scanner limit outcome)
    (hscanner : Unfiltered order admits scanner) : Unfiltered order admits outcome.2 := by
  cases hresult : outcome.1 with
  | error failure =>
      rw [Unfiltered, hread.failed failure hresult]
      trivial
  | ok page => exact (hread.paged page hresult).unfiltered hscanner

variable [CellOrder.RowWise order]

section

variable (hkinds : ∀ rank cells, admits rank cells → ∀ cell ∈ cells, cell.kind ≠ .minimum)
include hkinds

/-- To read from a merge is a pass over it. -/
theorem Unfiltered.read (hscanner : Unfiltered order admits scanner) {merge : Merge σ}
    (hactive : scanner.phase = .active merge) {first : Cell} (hpeek : merge.peek = some first)
    (limit : Option Nat) :
    SameScan scanner (scanner.read merge first limit).value.2 ∧
      ∀ page, (scanner.read merge first limit).value.1 = .ok page →
        Paged order admits scanner limit page (scanner.read merge first limit).value.2 := by
  rw [Unfiltered, hactive] at hscanner
  have hstate := hscanner.inRow first.row
  simp only [Scanner.read, Noted.value_bind, enterRow_eq hscanner.filter]
  cases hpass : (ReadState.pass ⟨merge, scanner.matcher.inRow first.row⟩ limit).value with
  | mk result state =>
      cases result with
      | error failure => exact ⟨⟨rfl, rfl, rfl⟩, fun _ hpage => by cases hpage⟩
      | ok found =>
          obtain ⟨cells, ending⟩ := found
          have hturns := hstate.pass hkinds hpass
          have hfilter : state.matcher.filter = none := (hturns.unfiltered hstate).filter
          simp only [Noted.value_bind, Matcher.completeRow, hfilter, Noted.value_pure, ite_self]
          split
          · obtain ⟨⟨hclosed, hmatcher⟩, hrequest, horder, hbatch⟩ := release_closed
              { scanner with phase := .active state.merge, matcher := state.matcher }
            refine ⟨⟨hrequest, horder, hbatch⟩, ?_⟩
            rintro _ ⟨⟩
            exact .read hactive hpeek hturns hmatcher (.inl hclosed)
          next hmore =>
            refine ⟨⟨rfl, rfl, rfl⟩, ?_⟩
            rintro _ ⟨⟩
            refine .read hactive hpeek hturns rfl (.inr ⟨?_, rfl⟩)
            rintro rfl
            simp at hmore

/-- To read a scanner is a pass over its merge, if it has one. -/
theorem Unfiltered.fill (hscanner : Unfiltered order admits scanner) (supply : Option (Supply σ))
    (limit : Option Nat) :
    SameScan scanner (scanner.fill supply limit).value.2 ∧
      ∀ page, (scanner.fill supply limit).value.1 = .ok page →
        Paged order admits scanner limit page (scanner.fill supply limit).value.2 := by
  cases hphase : scanner.phase with
  | active merge =>
      simp only [Scanner.fill, resync, hphase, Noted.value_bind, Noted.value_pure]
      cases hpeek : merge.peek with
      | none =>
          obtain ⟨⟨hclosed, -⟩, hsame⟩ := release_closed scanner
          refine ⟨hsame, ?_⟩
          rintro _ ⟨⟩
          exact .nothing hclosed
      | some first => exact hscanner.read hkinds hphase hpeek limit
  | resync key =>
      rw [Unfiltered, hphase] at hscanner
      exact hscanner.elim
  | closed =>
      simp only [Scanner.fill, resync, hphase, Noted.value_bind, Noted.value_pure]
      refine ⟨⟨rfl, rfl, rfl⟩, ?_⟩
      rintro _ ⟨⟩
      exact .nothing hphase

/-- A read that was refused or has failed leaves an ended scanner. -/
theorem Unfiltered.next (hscanner : Unfiltered order admits scanner) (supply : Option (Supply σ))
    (limit : ReadLimit) :
    WasRead order admits scanner (limit.cells scanner.batch) (scanner.next supply limit).value := by
  rw [← limitOf_eq]
  unfold Scanner.next
  split
  next failure hrefuses =>
    refine ⟨⟨rfl, rfl, rfl⟩, nofun, fun _ _ => ?_⟩
    cases hphase : scanner.phase with
    | active merge =>
        rw [Unfiltered, hphase] at hscanner
        exact nomatch (Matcher.refuses_unfiltered hscanner.filter _).symm.trans hrefuses
    | resync key =>
        rw [Unfiltered, hphase] at hscanner
        exact hscanner.elim
    | closed => rfl
  next =>
    obtain ⟨hsame, hpaged⟩ := hscanner.fill hkinds supply (scanner.limitOf limit)
    rw [Noted.value_bind]
    unfold concluding
    split
    next page reached hfill =>
      rw [hfill] at hsame hpaged
      exact ⟨hsame, hpaged, nofun⟩
    next failure reached hfill =>
      rw [hfill] at hsame
      obtain ⟨⟨hclosed, -⟩, hreleased⟩ := release_closed reached
      have hsame := hsame.trans hreleased
      exact ⟨⟨hsame.request, hsame.order, hsame.batch⟩, nofun, fun _ _ => hclosed⟩

end

/-! ## Opening -/

/-- A scan that was opened without a filter reads what the sources of its provider hold from its
first key on. -/
theorem of_open {family : Family} [LawfulSource σ family.order] [CellOrder.RowWise family.order]
    {scan : Scan φ} (hscan : scan.WellFormed) (hfilter : scan.filter = none)
    {supply : Supply σ} {subscription : Nat}
    (hheld : ∀ source ∈ supply.sources scan.request,
      LawfulSource.Holds family.order source (Source.remaining source) ∧
        admits (Source.sequenceId source) (Source.remaining source))
    (hopen : (Scanner.open family supply subscription scan).value = .ok scanner) :
    (scanner.matcher = Matcher.ofScan family scan ∧ scanner.batch = scan.batch) ∧
      ∃ merge, scanner.phase = .active merge ∧
        ReadState.Unfiltered family.order admits ⟨merge, scanner.matcher⟩ ∧
        merge.parts.Perm (Part.stocked (((supply.sources scan.request).map Source.part).map
          (Part.skipTo family.order (Matcher.ofScan family scan).startKey))) := by
  obtain ⟨placed, hplace, rfl⟩ := exists_placed_of_open hopen
  obtain ⟨hplaced, hparts⟩ := placeEach_ok (opening_lawful _) hheld (of_placeAll hplace)
  obtain ⟨hled, hmerge⟩ := Merge.ofSources_led hplaced
  refine ⟨⟨rfl, rfl⟩, _, rfl, ⟨hled, hfilter, hscan.columns_ascending⟩, ?_⟩
  rw [← hparts]
  exact hmerge

end Scanner

end MergeScan
