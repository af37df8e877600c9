import Mathlib.Data.List.Induction
import MergeScan.Proofs.Merge.Spent
import MergeScan.Proofs.Scanner.Scanning
import MergeScan.Proofs.Scanner.Unfiltered

/-! # Sources that a scan is done with

A scanner lets go of a source when it has come past all its cells, and of no other one. Until
the sources change, it does not take up again what it has let go of, wherever it is positioned.
-/

namespace MergeScan

open CellOrder

variable {σ φ : Type} [Source σ] [CellFilter φ]

/-! ## Passes -/

namespace ReadState

variable {order : CellOrder} [LawfulSource σ order] {admits : Nat → List Cell → Prop}
variable {held : Nat → List Cell} {state next final : ReadState σ φ} {cell : Cell}
variable [Std.TransCmp order.compare]
variable (hadmits : ∀ rank cells, admits rank cells → cells = held rank ∧ order.Sorted cells)
include hadmits

/-- A turn goes on with the merge, unless it ends the scan. -/
theorem Turned.goneOn {previous : Option Cell} {outcome : Turn}
    (hturned : Turned order admits state previous cell outcome next)
    (hstate : Unfiltered order admits state) (hpeek : state.merge.peek = some cell)
    (hgoes : ∀ emitted, outcome ≠ .stop emitted .scanDone) :
    state.merge.GoneOn order held next.merge := by
  obtain ⟨decision, -, hcourse⟩ := hturned.decided
  cases hcourse with
  | cell _ _ hparts => exact hstate.led.goneOn_advanced hadmits hpeek hparts
  | column _ _ hparts => exact hstate.led.goneOn_skipTo hadmits hparts
  | row _ _ hparts => exact hstate.led.goneOn_skipTo hadmits hparts
  | rowDone hsame => exact hsame ▸ .refl _
  | scanDone => exact absurd rfl (hgoes _)

theorem Turns.goneOn {previous : Option Cell} {limit : Option Nat} {cells : List Cell}
    {ending : PassEnd} (hturns : Turns order admits previous limit state cells ending final)
    (hstate : Unfiltered order admits state) (hgoes : ending ≠ .scanDone) :
    state.merge.GoneOn order held final.merge := by
  induction hturns with
  | exhausted hpeek => exact .refl _
  | stopped hpeek hturned =>
      refine hturned.goneOn hadmits hstate hpeek ?_
      rintro _ ⟨⟩
      exact hgoes rfl
  | filled hpeek hturned hlimit => exact hturned.goneOn hadmits hstate hpeek (by rintro _ ⟨⟩)
  | goOn hpeek hturned hturns ih =>
      exact (hturned.goneOn hadmits hstate hpeek (by rintro _ ⟨⟩)).trans
        (ih hturned.unfiltered hgoes)

end ReadState

/-! ## Scanners -/

namespace Scanner

variable {scanner reached : Scanner σ φ} {supply : Supply σ} {merge : Merge σ} {key : Cell}
variable {part : Part} {cells : List Cell}

/-- Whether a seek takes up the source of a rank: one that is merged and has not run dry, or any
if the sources have changed. -/
def goesOnWith (scanner : Scanner σ φ) (rank : Nat) : Bool :=
  match scanner.phase with
  | .active merge => merge.parts.any fun part => part.rank = rank
  | .resync _ => true
  | .closed => false

omit [CellFilter φ] in
theorem goesOnWith_active (hactive : scanner.phase = .active merge) (rank : Nat) :
    scanner.goesOnWith rank = true ↔ merge.Keeps rank := by
  simp [goesOnWith, hactive, Merge.Keeps]

omit [CellFilter φ] in
theorem isClosed_of_goesOnWith {rank : Nat} (hgoes : scanner.goesOnWith rank = true) :
    scanner.isClosed = false := by
  unfold isClosed
  cases hphase : scanner.phase with
  | active merge => rfl
  | resync resumeAt => rfl
  | closed => simp [goesOnWith, hphase] at hgoes

/-- Whether a scanner goes on with the source that has these cells, or is past all of them. -/
def AccountsFor (scanner : Scanner σ φ) (part : Part) : Prop :=
  scanner.goesOnWith part.rank = true ∨ scanner.IsPast keys part.cells

omit [CellFilter φ] in
theorem accountsFor_of_closed (hclosed : scanner.phase = .closed) (part : Part) :
    scanner.AccountsFor part :=
  .inr (isPast_of_closed hclosed keys part.cells)

omit [CellFilter φ] in
theorem accountsFor_release (scanner : Scanner σ φ) (part : Part) :
    scanner.release.value.AccountsFor part :=
  accountsFor_of_closed (release_closed scanner).1.1 part

omit [CellFilter φ] in
/-- A scanner that has failed is past everything. -/
theorem accountsFor_concluding {α : Type} {outcome : Except ScanError α × Scanner σ φ}
    (hanswered : ∀ answer, outcome.1 = .ok answer → outcome.2.AccountsFor part) :
    (concluding outcome).value.2.AccountsFor part := by
  obtain ⟨failure | answer, reached⟩ := outcome
  · exact accountsFor_release reached part
  · exact hanswered answer rfl

variable [LawfulSource σ keys]

omit [CellFilter φ] in
theorem accountsFor_of_merge {admits : Nat → List Cell → Prop} (hmerge : merge.Led keys admits)
    (hactive : scanner.phase = .active merge) (hpart : merge.AccountsFor keys part) :
    scanner.AccountsFor part := by
  rcases hpart with hkeeps | hpast
  · exact .inl ((goesOnWith_active hactive _).mpr hkeeps)
  · refine .inr fun top htop cell hcell => ?_
    rw [peek, hactive] at htop
    exact hpast cell hcell top (hmerge.has_peek htop)

omit [CellFilter φ] in
/-- A scanner whose merge was moved accounts for what the merge does, if that has not failed. -/
theorem moved_accountsFor {moved : Noted (Except SourceError Bool × Merge σ)}
    {admits : Nat → List Cell → Prop} (hled : moved.value.2.Led keys admits)
    (hpart : moved.value.1.isOk = true → moved.value.2.AccountsFor keys part) :
    (moved >>= fun outcome =>
      concluding (scanner.ofMerge outcome)).value.2.AccountsFor part := by
  rw [Noted.value_bind]
  refine accountsFor_concluding fun answer hanswer => accountsFor_of_merge hled rfl (hpart ?_)
  cases hresult : moved.value.1 with
  | error failure =>
      rw [ofMerge, hresult] at hanswer
      cases hanswer
  | ok found => rfl

/-! ## Reading and positioning -/

section

variable {admits : Nat → List Cell → Prop} {held : Nat → List Cell}
variable (hadmits : ∀ rank cells, admits rank cells → cells = held rank ∧ keys.Sorted cells)
variable (hheld : held part.rank = part.cells)
include hadmits hheld

/-- A read goes on with the merge, or ends the scan. -/
theorem Paged.accountsFor {limit : Option Nat} {page : Page}
    (hpaged : Paged keys admits scanner limit page reached)
    (hscanner : Unfiltered keys admits scanner) (hactive : scanner.phase = .active merge)
    (hpart : merge.AccountsFor keys part) : reached.AccountsFor part := by
  cases hpaged with
  | nothing hclosed => exact accountsFor_of_closed hclosed _
  | read hmerge hpeek hturns hmatcher hphase =>
      cases hactive.symm.trans hmerge
      rcases hphase with hclosed | ⟨hgoes, hphase⟩
      · exact accountsFor_of_closed hclosed _
      · rw [Unfiltered, hactive] at hscanner
        have hgone := hturns.goneOn hadmits (hscanner.inRow _) hgoes
        exact accountsFor_of_merge (hturns.unfiltered (hscanner.inRow _)).led hphase
          (hgone.accountsFor hheld hpart)

omit [CellFilter φ] in
theorem movedForward_accountsFor {positioning : Positioning σ}
    (hpositioning : positioning.LawfulForward keys) (hmerge : merge.Led keys admits)
    (hpart : merge.AccountsFor keys part) :
    (merge.moveForward positioning key >>= fun outcome =>
      concluding (scanner.ofMerge outcome)).value.2.AccountsFor part := by
  have hshifts := hmerge.moveForward (hpositioning.forward admits) key
  refine moved_accountsFor hshifts.led fun hok => ?_
  exact (hmerge.goneOn_skipTo hadmits (hshifts.complete hok)).accountsFor hheld hpart

end

/-! ## Sources of a provider -/

variable {family : Family} {scan : Scan φ}

omit [CellFilter φ] in
/-- A merge of the sources of a provider that were positioned on a key accounts for all that
the provider has. -/
theorem accountsFor_placed (hsupply : supply.Orderly family.name scan.request)
    {positioning : Positioning σ} (hpositioning : positioning.Lawful keys) {placed : List σ}
    (hplace : (placeAll positioning key (supply.sources scan.request)).value = .ok placed)
    (hpart : part ∈ supply.stock scan.request) :
    (Merge.ofSources keys placed).value.Led keys (fun _ => keys.Sorted) ∧
      (Merge.ofSources keys placed).value.AccountsFor keys part := by
  obtain ⟨hheld, hparts⟩ := @placeEach_ok _ _ _ _ _ keys _ (fun _ => keys.Sorted) hpositioning
    (fun source hsource => ⟨hsupply.holds source hsource, hsupply.sorted source hsource⟩) _
    (of_placeAll hplace)
  obtain ⟨hled, hmerged⟩ := Merge.ofSources_led hheld
  rw [hparts] at hmerged
  exact ⟨hled, Merge.accountsFor_of_skipTo hsupply.sorted_parts hmerged hpart⟩

omit [CellFilter φ] in
/-- What a scanner reads are cells of its sources, each of them in order, without a filter. -/
theorem DrawsOn.unfiltered (hscanner : scanner.DrawsOn family scan supply)
    (hfilter : scan.filter = none) (hactive : scanner.phase = .active merge) :
    Unfiltered keys (fun rank cells => cells = Part.cellsAt (supply.stock scan.request) rank ∧
      keys.Sorted cells) scanner := by
  rw [Unfiltered, hactive]
  exact ⟨(hscanner.merge merge hactive).carries.led, hscanner.filter.trans hfilter,
    hscanner.matcher.columns⟩

/-- A scanner with sources goes on with them. One that was told of a change has new ones, which are
positioned on the cell that it had come to, and is in the row of the first of their cells. -/
theorem resync_cases (hscanner : scanner.DrawsOn family scan supply) (hfilter : scan.filter = none)
    (hresync : (scanner.resync (some supply)).value = (.ok (), reached)) :
    (∀ resumeAt, scanner.phase ≠ .resync resumeAt) ∧ reached = scanner ∨
    ∃ resumeAt placed, scanner.phase = .resync resumeAt ∧
      (placeAll .seek resumeAt (supply.sources scan.request)).value = .ok placed ∧
      reached.phase = .active (Merge.ofSources keys placed).value ∧
      reached.matcher = scanner.matcher.inRow
        ((Merge.ofSources keys placed).value.peek.getD resumeAt).row := by
  have hnone : scanner.matcher.filter = none := hscanner.filter.trans hfilter
  unfold Scanner.resync at hresync
  split at hresync
  next resumeAt hphase =>
    rw [Noted.value_bind] at hresync
    cases hrebuild : (scanner.rebuild (some supply) (some resumeAt)).value with
    | error failure =>
        rw [hrebuild] at hresync
        cases hresync
    | ok merge =>
        obtain ⟨placed, rfl, hplaced, -⟩ := exists_of_rebuild hrebuild
        have hplace := hplaced resumeAt rfl
        rw [hscanner.request] at hplace
        rw [hrebuild] at hresync
        simp only [Noted.value_bind, enterRow_eq hnone, Noted.value_pure] at hresync
        cases hresync
        rw [hscanner.order]
        exact .inr ⟨resumeAt, placed, hphase, hplace, rfl, rfl⟩
  next hnot =>
    cases hresync
    exact .inl ⟨hnot, rfl⟩

variable (hsupply : supply.Orderly family.name scan.request)
include hsupply

omit [CellFilter φ] in
/-- The cells of a provider are real ones. -/
theorem kind_ne_minimum : ∀ rank cells,
    cells = Part.cellsAt (supply.stock scan.request) rank ∧ keys.Sorted cells →
      ∀ cell ∈ cells, cell.kind ≠ .minimum := by
  rintro rank _ ⟨rfl, -⟩ cell hcell
  obtain ⟨part, hpart, -, hcells⟩ := Part.exists_of_cellsAt_ne_nil (List.ne_nil_of_mem hcell)
  obtain ⟨source, hsource, rfl⟩ := List.mem_map.mp hpart
  rw [← hcells] at hcell
  exact (hsupply.stored source hsource cell hcell).1.1

omit [CellFilter φ] in
/-- A scanner with sources has them to seek in, and one that was told of a change takes all that
there are. -/
theorem refreshSources_takes (hscanner : scanner.DrawsOn family scan supply)
    (hopen : scanner.isClosed = false)
    (hrefresh : (scanner.refreshSources (some supply)).value = (.ok (), reached)) :
    ∃ merge, reached.phase = .active merge ∧ reached.matcher = scanner.matcher ∧
      ∀ part ∈ supply.stock scan.request, part.cells ≠ [] →
        (scanner.goesOnWith part.rank = true ↔ merge.Keeps part.rank) := by
  unfold Scanner.refreshSources at hrefresh
  split at hrefresh
  next resumeAt hphase =>
    rw [Noted.value_bind] at hrefresh
    cases hrebuild : (scanner.rebuild (some supply) none).value with
    | error failure =>
        rw [hrebuild] at hrefresh
        cases hrefresh
    | ok merge =>
        rw [hrebuild] at hrefresh
        cases hrefresh
        obtain ⟨sources, rfl, -, hsources⟩ := exists_of_rebuild hrebuild
        obtain rfl := hsources rfl
        refine ⟨_, rfl, rfl, fun part hpart hcells => ?_⟩
        rw [hscanner.request, hscanner.order]
        have hheld (source : σ) (hsource : source ∈ supply.sources scan.request) :
            LawfulSource.Held keys (fun _ => keys.Sorted) source :=
          ⟨_, hsupply.holds source hsource, hsupply.sorted source hsource⟩
        -- the new sources were not positioned, so that all of them which have a cell are merged
        have hparts := (Merge.ofSources_led hheld).2
        refine iff_of_true (by rw [goesOnWith, hphase]) ?_
        exact Merge.keeps_of_parts hparts hpart hcells rfl
  next hnot =>
    cases hrefresh
    unfold isClosed at hopen
    cases hphase : scanner.phase with
    | active merge => exact ⟨merge, rfl, rfl, fun part _ _ => goesOnWith_active hphase part.rank⟩
    | resync resumeAt => exact absurd hphase (hnot resumeAt)
    | closed =>
        rw [hphase] at hopen
        cases hopen

section

variable (hscanner : scanner.DrawsOn family scan supply)
variable (hpart : part ∈ supply.stock scan.request)
variable (hgoes : scanner.goesOnWith part.rank = true)
include hscanner hpart hgoes

omit [CellFilter φ] in
/-- A seek goes through what there is of the sources of the scanner from the key on. -/
theorem seek_accountsFor (key : Cell) :
    (scanner.seek (some supply) key).value.2.AccountsFor part := by
  by_cases hcells : part.cells = []
  · refine .inr fun _ _ cell hcell => ?_
    rw [hcells] at hcell
    cases hcell
  have hrefreshed := hscanner.refreshSources hsupply
  have htakes (reached : Scanner σ φ)
      (hreached : (scanner.refreshSources (some supply)).value = (.ok (), reached)) :=
    refreshSources_takes hsupply hscanner (isClosed_of_goesOnWith hgoes) hreached
  unfold Scanner.seek
  rw [Noted.value_bind]
  generalize (scanner.refreshSources (some supply)).value = refreshed at hrefreshed htakes ⊢
  obtain ⟨failure | _, reached⟩ := refreshed
  · exact accountsFor_concluding (by rintro _ ⟨⟩)
  · obtain ⟨merge, hactive, -, hkept⟩ := htakes reached rfl
    have hled := (hrefreshed.merge merge hactive).carries.led
    have hshifts := hled.seek (fun _ _ hadmitted => hadmitted.1) key
    have hsorted : ∀ other ∈ merge.parts,
        keys.Sorted (Part.cellsAt (supply.stock scan.request) other.rank) := by
      intro other hother
      obtain ⟨_, ⟨rfl, hsorted⟩, -⟩ := hled.exists_admitted hother
      exact hsorted
    simp only [hactive]
    refine moved_accountsFor hshifts.led fun hok => ?_
    have hsought := Merge.accountsFor_of_seek hsorted (hshifts.complete hok)
      ((hkept part hpart hcells).mp hgoes)
    have hheld : Part.cellsAt (supply.stock scan.request) part.rank = part.cells :=
      hsupply.distinct.cellsAt_eq hpart
    rwa [hheld] at hsought

variable (hfilter : scan.filter = none)
include hfilter

/-- New sources that are positioned where the scan had come to are kept as long as they have cells
from there on. -/
theorem resync_accountsFor
    (hresync : (scanner.resync (some supply)).value = (.ok (), reached)) :
    ∃ merge, reached.phase = .active merge ∧ merge.AccountsFor keys part := by
  rcases resync_cases hscanner hfilter hresync with
    ⟨hnot, rfl⟩ | ⟨resumeAt, placed, -, hplace, hactive, -⟩
  · cases hphase : reached.phase with
    | active merge => exact ⟨merge, rfl, .inl ((goesOnWith_active hphase _).mp hgoes)⟩
    | resync key => exact absurd hphase (hnot key)
    | closed => simp [goesOnWith, hphase] at hgoes
  · exact ⟨_, hactive, (accountsFor_placed hsupply Positioning.seek_lawful hplace hpart).2⟩

theorem next_accountsFor (limit : ReadLimit) :
    (scanner.next (some supply) limit).value.2.AccountsFor part := by
  have hnone : scanner.matcher.filter = none := hscanner.filter.trans hfilter
  have hresync := hscanner.resync hfilter hsupply
  have htakes (reached : Scanner σ φ)
      (hreached : (scanner.resync (some supply)).value = (.ok (), reached)) :=
    resync_accountsFor hsupply hscanner hpart hgoes hfilter hreached
  simp only [Scanner.next, Matcher.refuses_unfiltered hnone, Noted.value_bind]
  refine accountsFor_concluding fun page hpage => ?_
  unfold fill at hpage ⊢
  rw [Noted.value_bind] at hpage ⊢
  generalize (scanner.resync (some supply)).value = resynced at hresync htakes hpage ⊢
  obtain ⟨failure | _, reached⟩ := resynced
  · cases hpage
  · obtain ⟨merge, hactive, hmerge⟩ := htakes reached rfl
    have hreached := DrawsOn.unfiltered hresync hfilter hactive
    simp only [hactive] at hpage ⊢
    cases hpeek : merge.peek with
    | none =>
        rw [Noted.value_bind]
        exact accountsFor_release reached part
    | some first =>
        simp only [hpeek] at hpage
        have hpaged := (hreached.read (kind_ne_minimum hsupply) hactive hpeek _).2 page hpage
        exact hpaged.accountsFor (fun _ _ => id) (hsupply.distinct.cellsAt_eq hpart) hreached
          hactive hmerge

/-- To go forward is to go on with the merge, or fails. -/
theorem reseek_accountsFor (key : Cell) :
    (scanner.reseek (some supply) key).value.2.AccountsFor part := by
  have hresync := hscanner.resync hfilter hsupply
  have htakes (reached : Scanner σ φ)
      (hreached : (scanner.resync (some supply)).value = (.ok (), reached)) :=
    resync_accountsFor hsupply hscanner hpart hgoes hfilter hreached
  unfold Scanner.reseek
  rw [Noted.value_bind]
  generalize (scanner.resync (some supply)).value = resynced at hresync htakes ⊢
  obtain ⟨failure | _, reached⟩ := resynced
  · exact accountsFor_concluding (by rintro _ ⟨⟩)
  · obtain ⟨merge, hactive, hmerge⟩ := htakes reached rfl
    have hled := (hresync.merge merge hactive).carries.led
    have hheld := hsupply.distinct.cellsAt_eq hpart
    simp only [hactive]
    split
    · exact movedForward_accountsFor (fun _ _ => id) hheld Positioning.exactly_lawfulForward hled
        hmerge
    · exact movedForward_accountsFor (fun _ _ => id) hheld Positioning.reseek_lawfulForward hled
        hmerge

end

omit [CellFilter φ] [LawfulSource σ keys] hsupply in
/-- A scanner that was told of a change takes all sources anew, unless it is past everything. -/
theorem accountsFor_sourcesChanged (scanner : Scanner σ φ) (part : Part) :
    scanner.sourcesChanged.value.AccountsFor part := by
  unfold Scanner.sourcesChanged
  cases hphase : scanner.phase with
  | active merge =>
      cases hpeek : merge.peek with
      | none =>
          refine .inr fun top htop => ?_
          simp [hpeek, peek, hphase] at htop
      | some top =>
          simp only [hpeek]
          exact .inl rfl
  | resync resumeAt =>
      refine .inl ?_
      rw [Noted.value_pure, goesOnWith, hphase]
  | closed => exact accountsFor_of_closed hphase part

/-- A scan that was opened is past the sources that have nothing for it. -/
theorem accountsFor_of_open (horder : family.order = keys) {subscription : Nat}
    (hopen : (Scanner.open family supply subscription scan).value = .ok scanner)
    (hpart : part ∈ supply.stock scan.request) : scanner.AccountsFor part := by
  obtain ⟨placed, hplace, rfl⟩ := exists_placed_of_open hopen
  obtain ⟨hmerge, hplaced⟩ := accountsFor_placed hsupply (opening_lawful _) hplace hpart
  rw [horder]
  exact accountsFor_of_merge hmerge rfl hplaced

end Scanner

/-! ## A scan under way -/

namespace Scanning

variable [LawfulSource σ keys] {family : Family} {scan : Scan φ} {scanning : Scanning σ φ}
variable {part : Part}

omit [LawfulSource σ keys] in
/-- Whether a scan was past all of these cells at some time since its sources last changed. -/
def WasPast (scanning : Scanning σ φ) (steps : List (ScanStep σ)) (cells : List Cell) : Prop :=
  ∃ before later, steps = before ++ later ∧ (∀ supply, .change supply ∉ later) ∧
    (scanning.after before).scanner.IsPast keys cells

variable {steps : List (ScanStep σ)} {step : ScanStep σ} {cells : List Cell}

omit [LawfulSource σ keys] in
theorem wasPast_of_isPast (hpast : (scanning.after steps).scanner.IsPast keys cells) :
    scanning.WasPast steps cells :=
  ⟨steps, [], (List.append_nil steps).symm, fun _ => List.not_mem_nil, hpast⟩

omit [LawfulSource σ keys] in
theorem WasPast.later (hpast : scanning.WasPast steps cells)
    (hstep : ∀ supply, step ≠ .change supply) : scanning.WasPast (steps ++ [step]) cells := by
  obtain ⟨before, later, rfl, hlater, hpast⟩ := hpast
  refine ⟨before, later ++ [step], List.append_assoc .., fun supply hsupply => ?_, hpast⟩
  rcases List.mem_append.mp hsupply with hmem | hmem
  · exact hlater supply hmem
  · exact hstep supply (List.mem_singleton.mp hmem).symm

/-- Whatever happens to a scan next, it does not let go of a source that it is not past. -/
theorem Draws.step_accountsFor (hscanning : scanning.Draws family scan)
    (hfilter : scan.filter = none) (hpart : part ∈ scanning.supply.stock scan.request)
    (hgoes : scanning.scanner.goesOnWith part.rank = true) :
    (scanning.step step).scanner.AccountsFor part := by
  obtain ⟨hsupply, hscanner⟩ := hscanning
  cases step with
  | read limit => exact Scanner.next_accountsFor hsupply hscanner hpart hgoes hfilter limit
  | seek key => exact Scanner.seek_accountsFor hsupply hscanner hpart hgoes key
  | reseek key => exact Scanner.reseek_accountsFor hsupply hscanner hpart hgoes hfilter key
  | change supply => exact Scanner.accountsFor_sourcesChanged scanning.scanner part

/-- A scan goes on with each source that its provider has, unless it was past all cells of the
source at some time since the sources last changed. -/
theorem Draws.goesOn_or_wasPast (hscanning : scanning.Draws family scan)
    (hfilter : scan.filter = none)
    (hsteps : ∀ supply, .change supply ∈ steps → supply.Orderly family.name scan.request)
    (hbegins : ∀ part ∈ scanning.supply.stock scan.request, scanning.scanner.AccountsFor part) :
    ∀ part ∈ (scanning.after steps).supply.stock scan.request,
      (scanning.after steps).scanner.goesOnWith part.rank = true ∨
        scanning.WasPast steps part.cells := by
  induction steps using List.reverseRecOn with
  | nil => exact fun part hpart => (hbegins part hpart).imp_right wasPast_of_isPast
  | append_singleton steps step ih =>
      intro part hpart
      have hbefore : ∀ supply, .change supply ∈ steps → supply.Orderly family.name scan.request :=
        fun supply hsupply => hsteps supply (List.mem_append_left _ hsupply)
      have hreached := hscanning.after hfilter hbefore
      have hafter : scanning.after (steps ++ [step]) = (scanning.after steps).step step :=
        List.foldl_append
      have hcomes (haccounts : ((scanning.after steps).step step).scanner.AccountsFor part) :
          ((scanning.after steps).step step).scanner.goesOnWith part.rank = true ∨
            scanning.WasPast (steps ++ [step]) part.cells :=
        haccounts.imp_right fun hpast => wasPast_of_isPast (hafter ▸ hpast)
      rw [hafter] at hpart ⊢
      cases step with
      | change supply => exact hcomes (Scanner.accountsFor_sourcesChanged _ part)
      | read | seek | reseek =>
          rcases ih hbefore part hpart with hgoes | hpast
          · exact hcomes (hreached.step_accountsFor hfilter hpart hgoes)
          · exact .inr (hpast.later (by rintro _ ⟨⟩))

end Scanning

end MergeScan
