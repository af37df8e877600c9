import MergeScan.Proofs.Merge.Draws
import MergeScan.Proofs.Scanner.Preserved
import MergeScan.Proofs.Scanner.Runs
import MergeScan.Scanner.Seek

/-! # A scan that is positioned anew

A scanner without a filter is read, positioned anywhere, and told of changes. Whatever comes of
that, and whichever sources fail, its matcher remembers nothing of the scan but what belongs to
the row it is in, and its sources hold what its provider has handed out.
-/

namespace MergeScan

open CellOrder

/-! ## Matchers of a scan -/

namespace Matcher

variable {φ : Type} [CellFilter φ] {matcher next begun : Matcher φ} {cell : Cell}

/-- The matcher without the row it is in and all that belongs to it. -/
def restarted (matcher : Matcher φ) : Matcher φ :=
  { matcher.reset with row := none }

/-- A matcher of the scan that `begun` is the first matcher of, in any row. -/
structure Of (matcher begun : Matcher φ) : Prop where
  restarted : matcher.restarted = begun
  columns : matcher.columns.Ascending

omit [CellFilter φ] in
theorem of_ofScan {family : Family} {scan : Scan φ} (hscan : scan.WellFormed) :
    (ofScan family scan).Of (ofScan family scan) := by
  refine ⟨?_, hscan.columns_ascending⟩
  have hstart (rule : VersionRule) (columns : List Bytes) :
      (ColumnProgress.start rule columns).reset = .start rule columns := by
    unfold ColumnProgress.start
    cases columns <;> rfl
  unfold Matcher.restarted reset ofScan
  rw [hstart]

omit [CellFilter φ] in
theorem Of.filter (hmatcher : matcher.Of begun) : matcher.filter = begun.filter :=
  (congrArg Matcher.filter hmatcher.restarted :)

omit [CellFilter φ] in
theorem Of.of_reset (hmatcher : matcher.Of begun) (hreset : next.reset = matcher.reset)
    (hcolumns : next.columns.Ascending) : next.Of begun :=
  ⟨(congrArg (fun reset => { reset with row := none }) hreset).trans hmatcher.restarted, hcolumns⟩

omit [CellFilter φ] in
theorem Of.inRow (hmatcher : matcher.Of begun) (row : Bytes) : (matcher.inRow row).Of begun := by
  unfold Matcher.inRow
  split
  · exact hmatcher
  · refine ⟨?_, hmatcher.columns.reset⟩
    rw [← hmatcher.restarted]
    unfold Matcher.restarted Matcher.entered reset
    simp only [ColumnProgress.reset_reset]

/-- A decision that fails has looked at the markers of the row at most. -/
theorem of_decide_error {failure : ScanError} (hfilter : matcher.filter = none)
    (hdecide : (matcher.decide cell).value = (.error failure, next)) :
    next.reset = matcher.reset ∧ next.columns = matcher.columns := by
  unfold Matcher.decide at hdecide
  split at hdecide
  next => cases hdecide
  next =>
    unfold decideCell at hdecide
    split at hdecide
    next => cases hdecide
    split at hdecide
    next => cases hdecide
    -- without a filter, looking at the markers and at the version are the two ways to fail
    cases hmasked : matcher.isMasked cell with
    | error failure =>
        rw [hmasked] at hdecide
        cases hdecide
        exact ⟨rfl, rfl⟩
    | ok found =>
        cases eq_of_isMasked hmasked
        rw [hmasked] at hdecide
        cases hhides : matcher.markers.hides cell.qualifier cell.timestamp with
        | true =>
            rw [hhides] at hdecide
            cases hdecide
        | false =>
            rw [hhides] at hdecide
            dsimp only at hdecide
            split at hdecide
            · cases hdecide
            · cases hdecide
            · have hfilter : (matcher.afterMarkers cell).filter = none := hfilter
              rw [decideValue_unfiltered hfilter] at hdecide
              unfold decideVersion at hdecide
              split at hdecide
              · cases hdecide
                exact ⟨rfl, rfl⟩
              · cases hdecide

theorem Of.decide (hmatcher : matcher.Of begun) (hfilter : begun.filter = none) (cell : Cell) :
    (matcher.decide cell).value.2.Of begun := by
  have hfilter : matcher.filter = none := hmatcher.filter.trans hfilter
  cases hdecide : (matcher.decide cell).value with
  | mk result next =>
      cases result with
      | error failure =>
          obtain ⟨hreset, hcolumns⟩ := of_decide_error hfilter hdecide
          exact hmatcher.of_reset hreset (hcolumns ▸ hmatcher.columns)
      | ok decision =>
          have hjudged := judged_of_decide hfilter hdecide
          exact hmatcher.of_reset hjudged.reset_eq (hjudged.columns_ascending hmatcher.columns)

omit [CellFilter φ] in
/-- Matchers of one scan are the same at the beginning of a row. -/
theorem Of.entered_eq (hmatcher : matcher.Of begun) (row : Bytes) :
    matcher.entered row = { begun with row := some row } := by
  rw [← hmatcher.restarted]
  rfl

end Matcher

/-! ## Scanners -/

variable {σ φ : Type} [Source σ] [LawfulSource σ keys] [CellFilter φ]

namespace Supply

variable {supply : Supply σ} {request : SourceRequest} {name : Bytes}

theorem Orderly.draws (hsupply : supply.Orderly name request) {sources : List σ}
    (hheld : ∀ source ∈ sources,
      LawfulSource.Held keys (fun rank cells => ⟨rank, cells⟩ ∈ supply.stock request) source)
    (hdistinct : Part.Distinct (sources.map Source.part))
    (hreliable : supply.Sound name request →
      ∀ source ∈ sources, LawfulSource.Reliable keys source) :
    (Merge.ofSources keys sources).value.Draws keys (supply.Sound name request)
      (supply.stock request) :=
  Merge.ofSources_draws hsupply.distinct hsupply.sorted_parts hheld hdistinct hreliable

/-- The sources of a provider as they are handed out. -/
theorem Orderly.draws_sources (hsupply : supply.Orderly name request) :
    (Merge.ofSources keys (supply.sources request)).value.Draws keys (supply.Sound name request)
      (supply.stock request) := by
  refine hsupply.draws (fun source hsource => ?_) hsupply.distinct fun hsure source hsource => ?_
  · exact ⟨_, hsupply.holds source hsource, List.mem_map_of_mem hsource⟩
  · obtain ⟨held, hfresh, -⟩ := hsure.fresh source hsource
    exact hfresh.reliable

/-- The sources of a provider, positioned on a key. -/
theorem Orderly.draws_placed (hsupply : supply.Orderly name request) {positioning : Positioning σ}
    (hpositioning : positioning.Lawful keys) {key : Cell} {placed : List σ}
    (hplace : (placeAll positioning key (supply.sources request)).value = .ok placed) :
    (Merge.ofSources keys placed).value.Draws keys (supply.Sound name request)
      (supply.stock request) := by
  have heach := of_placeAll hplace
  obtain ⟨hheld, hparts⟩ := @placeEach_ok _ _ _ _ _ keys _
    (fun rank cells => ⟨rank, cells⟩ ∈ supply.stock request) hpositioning
    (fun source hsource => ⟨hsupply.holds source hsource, List.mem_map_of_mem hsource⟩) _ heach
  refine hsupply.draws hheld ?_ fun hsure => ?_
  · rw [hparts]
    exact List.pairwise_map.mpr hsupply.distinct
  · obtain ⟨others, hothers, hreliable⟩ := placeEach_reliable hpositioning key
      fun source hsource =>
        have ⟨_, hfresh, _⟩ := hsure.fresh source hsource
        ⟨hsupply.holds source hsource, hfresh.reliable⟩
    cases heach.symm.trans hothers
    exact hreliable

end Supply

variable {family : Family} {scan : Scan φ} {sure : Prop} {stock : List Part}

/-- A pass leaves a merge of the same stock, and a matcher of the same scan. -/
theorem ReadState.pass_draws {begun : Matcher φ} (hfilter : begun.filter = none)
    {state : ReadState σ φ} (hmerge : state.merge.Draws keys sure stock)
    (hmatcher : state.matcher.Of begun) (limit : Option Nat) :
    (state.pass limit).value.2.merge.Draws keys sure stock ∧
      (state.pass limit).value.2.matcher.Of begun := by
  have hpreserved : Preserved fun state : ReadState σ φ =>
      state.merge.Draws keys sure stock ∧ state.matcher.Of begun :=
    { advance := fun _ hstate => ⟨hstate.1.advance, hstate.2⟩
      reseek := fun _ key hstate => ⟨hstate.1.reseek key, hstate.2⟩
      seekExactly := fun _ key hstate => ⟨hstate.1.seekExactly key, hstate.2⟩
      decide := fun _ cell hstate => ⟨hstate.1, hstate.2.decide hfilter cell⟩ }
  exact hpreserved.pass ⟨hmerge, hmatcher⟩ limit

namespace Scanner

variable {scanner after : Scanner σ φ} {merge : Merge σ} {supply : Supply σ}

/-- A scanner of a scan, whatever row it is in, that merges sources of which it has these in
stock, wherever they stand. -/
structure Draws (family : Family) (scan : Scan φ) (sure : Prop) (stock : List Part)
    (scanner : Scanner σ φ) : Prop where
  matcher : scanner.matcher.Of (.ofScan family scan)
  request : scanner.request = scan.request
  order : scanner.order = keys
  batch : scanner.batch = scan.batch
  merge merge : scanner.phase = .active merge → merge.Draws keys sure stock

omit [CellFilter φ] in
theorem Draws.filter (hscanner : scanner.Draws family scan sure stock) :
    scanner.matcher.filter = scan.filter :=
  hscanner.matcher.filter

omit [CellFilter φ] in
theorem Draws.reached (hscanner : scanner.Draws family scan sure stock) {matcher : Matcher φ}
    (hmatcher : matcher.Of (.ofScan family scan)) (hmerge : merge.Draws keys sure stock) :
    Draws family scan sure stock { scanner with phase := .active merge, matcher } := by
  refine ⟨hmatcher, hscanner.request, hscanner.order, hscanner.batch, ?_⟩
  rintro _ ⟨⟩
  exact hmerge

omit [CellFilter φ] in
/-- A scanner without sources can be one of any stock. -/
theorem Draws.without (hscanner : scanner.Draws family scan sure stock)
    (hsame : SameScan scanner after) (hmatcher : after.matcher = scanner.matcher)
    (hphase : ∀ merge, after.phase ≠ .active merge) {certain : Prop} {others : List Part} :
    after.Draws family scan certain others where
  matcher := hmatcher ▸ hscanner.matcher
  request := hsame.request.trans hscanner.request
  order := hsame.order.trans hscanner.order
  batch := hsame.batch.trans hscanner.batch
  merge merge hactive := absurd hactive (hphase merge)

omit [CellFilter φ] in
theorem Draws.release (hscanner : scanner.Draws family scan sure stock) :
    scanner.release.value.Draws family scan sure stock := by
  obtain ⟨⟨hclosed, hmatcher⟩, hsame⟩ := release_closed scanner
  exact hscanner.without hsame hmatcher fun merge => by rw [hclosed]; nofun

omit [CellFilter φ] in
theorem Draws.concluding {α : Type} {outcome : Except ScanError α × Scanner σ φ}
    (houtcome : outcome.2.Draws family scan sure stock) :
    (concluding outcome).value.2.Draws family scan sure stock := by
  obtain ⟨failure | answer, reached⟩ := outcome
  · have hreleased := houtcome.release
    exact ⟨hreleased.matcher, hreleased.request, hreleased.order, hreleased.batch, hreleased.merge⟩
  · exact houtcome

omit [CellFilter φ] in
/-- To learn of a change is to give up the sources, if any has a cell left. -/
theorem Draws.sourcesChanged (hscanner : scanner.Draws family scan sure stock) {certain : Prop}
    {others : List Part} : scanner.sourcesChanged.value.Draws family scan certain others := by
  unfold Scanner.sourcesChanged
  split
  next merge hactive =>
    split
    next hpeek =>
      refine ⟨hscanner.matcher, hscanner.request, hscanner.order, hscanner.batch, ?_⟩
      intro other hother
      cases hactive.symm.trans hother
      exact (hscanner.merge merge hactive).of_idle hpeek
    next =>
      apply hscanner.without
      · exact ⟨rfl, rfl, rfl⟩
      · rfl
      · nofun
  next hphase => exact hscanner.without ⟨rfl, rfl, rfl⟩ rfl hphase

omit [LawfulSource σ keys] [CellFilter φ] in
/-- New sources are merged as they are handed out, or positioned on a key. -/
theorem exists_of_rebuild {resumeAt : Option Cell}
    (hrebuild : (scanner.rebuild (some supply) resumeAt).value = .ok merge) :
    ∃ sources, merge = (Merge.ofSources scanner.order sources).value ∧
      (∀ key, resumeAt = some key →
        (placeAll Positioning.seek key (supply.sources scanner.request)).value = .ok sources) ∧
      (resumeAt = none → sources = supply.sources scanner.request) := by
  simp only [rebuild, Noted.value_bind, askFor] at hrebuild
  cases hsupply : supply scanner.request with
  | error failure =>
      rw [hsupply] at hrebuild
      cases hrebuild
  | ok sources =>
      have hsources : supply.sources scanner.request = sources := by rw [Supply.sources, hsupply]
      simp only [hsupply, Noted.value_bind, Noted.value_pure] at hrebuild
      rw [hsources]
      cases resumeAt with
      | none =>
          exact ⟨sources, (Except.ok.inj hrebuild).symm,
            fun _ hkey => absurd hkey.symm (Option.some_ne_none _), fun _ => rfl⟩
      | some key =>
          cases hplace : (placeAll Positioning.seek key sources).value with
          | error failure =>
              rw [Noted.value_bind, hplace] at hrebuild
              cases hrebuild
          | ok placed =>
              rw [Noted.value_bind, hplace] at hrebuild
              refine ⟨placed, (Except.ok.inj hrebuild).symm, ?_,
                fun hnone => absurd hnone (Option.some_ne_none _)⟩
              rintro _ ⟨⟩
              exact hplace

section

variable (hsupply : supply.Orderly family.name scan.request)
include hsupply

omit [CellFilter φ] in
theorem rebuild_draws (hrequest : scanner.request = scan.request) (horder : scanner.order = keys)
    {resumeAt : Option Cell}
    (hrebuild : (scanner.rebuild (some supply) resumeAt).value = .ok merge) :
    merge.Draws keys (supply.Sound family.name scan.request) (supply.stock scan.request) := by
  obtain ⟨sources, rfl, hplaced, hunplaced⟩ := exists_of_rebuild hrebuild
  rw [hrequest] at hplaced hunplaced
  rw [horder]
  cases resumeAt with
  | none =>
      obtain rfl := hunplaced rfl
      exact hsupply.draws_sources
  | some key => exact hsupply.draws_placed Positioning.seek_lawful (hplaced key rfl)

end

/-- A scanner of a scan that merges sources of a provider. -/
def DrawsOn (family : Family) (scan : Scan φ) (supply : Supply σ) (scanner : Scanner σ φ) : Prop :=
  scanner.Draws family scan (supply.Sound family.name scan.request) (supply.stock scan.request)

omit [CellFilter φ] in
theorem DrawsOn.refreshSources (hscanner : scanner.DrawsOn family scan supply)
    (hsupply : supply.Orderly family.name scan.request) :
    (scanner.refreshSources (some supply)).value.2.DrawsOn family scan supply := by
  unfold Scanner.refreshSources
  split
  next =>
    have hrebuilt (merge : Merge σ) := @rebuild_draws _ _ _ _ _ _ scanner merge _ hsupply
      hscanner.request hscanner.order none
    rw [Noted.value_bind]
    generalize (scanner.rebuild (some supply) none).value = rebuilt at hrebuilt ⊢
    obtain failure | merge := rebuilt
    · exact hscanner
    · exact hscanner.reached hscanner.matcher (hrebuilt merge rfl)
  next => exact hscanner

omit [CellFilter φ] in
/-- A scanner whose merge was moved ends if that failed. -/
theorem Draws.moved (hscanner : scanner.Draws family scan sure stock)
    {moved : Noted (Except SourceError Bool × Merge σ)}
    (hmoved : moved.value.2.Draws keys sure stock) :
    (moved >>= fun outcome =>
      Scanner.concluding (scanner.ofMerge outcome)).value.2.Draws family scan sure stock := by
  rw [Noted.value_bind]
  exact (hscanner.reached hscanner.matcher hmoved).concluding

omit [CellFilter φ] in
theorem DrawsOn.seek (hscanner : scanner.DrawsOn family scan supply)
    (hsupply : supply.Orderly family.name scan.request) (key : Cell) :
    (scanner.seek (some supply) key).value.2.DrawsOn family scan supply := by
  have hrefreshed := hscanner.refreshSources hsupply
  unfold Scanner.seek
  rw [Noted.value_bind]
  generalize (scanner.refreshSources (some supply)).value = refreshed at hrefreshed ⊢
  obtain ⟨failure | _, reached⟩ := refreshed
  · exact Draws.concluding hrefreshed
  · dsimp only
    split
    next merge hactive => exact Draws.moved hrefreshed ((hrefreshed.merge merge hactive).seek key)
    next => exact hrefreshed

section

variable (hfilter : scan.filter = none)
include hfilter

theorem Draws.read (hscanner : scanner.Draws family scan sure stock)
    (hmerge : merge.Draws keys sure stock) (first : Cell) (limit : Option Nat) :
    (scanner.read merge first limit).value.2.Draws family scan sure stock := by
  have hnone : scanner.matcher.filter = none := hscanner.filter.trans hfilter
  have hpass := @ReadState.pass_draws _ _ _ _ _ sure stock _ hfilter
    ⟨merge, scanner.matcher.inRow first.row⟩ hmerge (hscanner.matcher.inRow first.row) limit
  simp only [Scanner.read, Noted.value_bind, enterRow_eq hnone]
  generalize (ReadState.pass ⟨merge, scanner.matcher.inRow first.row⟩ limit).value = passed
    at hpass ⊢
  obtain ⟨hmerged, hmatcher⟩ := hpass
  obtain ⟨_ | ⟨cells, ending⟩, state⟩ := passed
  · exact hscanner.reached hmatcher hmerged
  · have hcomplete : state.matcher.filter = none := hmatcher.filter.trans hfilter
    have hreached := hscanner.reached hmatcher hmerged
    simp only [Matcher.completeRow, hcomplete, Noted.value_bind, Noted.value_pure, ite_self]
    split
    · exact hreached.release
    · exact hreached

variable (hsupply : supply.Orderly family.name scan.request)
include hsupply

theorem DrawsOn.resync (hscanner : scanner.DrawsOn family scan supply) :
    (scanner.resync (some supply)).value.2.DrawsOn family scan supply := by
  have hnone : scanner.matcher.filter = none := hscanner.filter.trans hfilter
  unfold Scanner.resync
  split
  next key _ =>
    have hrebuilt (merge : Merge σ) := @rebuild_draws _ _ _ _ _ _ scanner merge _ hsupply
      hscanner.request hscanner.order (some key)
    rw [Noted.value_bind]
    generalize (scanner.rebuild (some supply) (some key)).value = rebuilt at hrebuilt ⊢
    obtain failure | merge := rebuilt
    · apply Draws.without hscanner
      · exact ⟨rfl, rfl, rfl⟩
      · rfl
      · nofun
    · simp only [Noted.value_bind, enterRow_eq hnone, Noted.value_pure]
      exact hscanner.reached (hscanner.matcher.inRow _) (hrebuilt merge rfl)
  next => exact hscanner

theorem DrawsOn.next (hscanner : scanner.DrawsOn family scan supply) (limit : ReadLimit) :
    (scanner.next (some supply) limit).value.2.DrawsOn family scan supply := by
  have hresync := hscanner.resync hfilter hsupply
  unfold Scanner.next
  split
  · exact hscanner
  · refine Draws.concluding ?_
    unfold fill
    rw [Noted.value_bind]
    generalize (scanner.resync (some supply)).value = resynced at hresync ⊢
    obtain ⟨failure | _, reached⟩ := resynced
    · exact hresync
    · dsimp only
      split
      next merge hactive =>
        split
        · exact Draws.read hfilter hresync (hresync.merge merge hactive) _ _
        · exact Draws.release hresync
      next => exact hresync

theorem DrawsOn.reseek (hscanner : scanner.DrawsOn family scan supply) (key : Cell) :
    (scanner.reseek (some supply) key).value.2.DrawsOn family scan supply := by
  have hresync := hscanner.resync hfilter hsupply
  unfold Scanner.reseek
  rw [Noted.value_bind]
  generalize (scanner.resync (some supply)).value = resynced at hresync ⊢
  obtain ⟨failure | _, reached⟩ := resynced
  · exact Draws.concluding hresync
  · dsimp only
    split
    next merge hactive =>
      have hmerge := hresync.merge merge hactive
      split
      · exact Draws.moved hresync (hmerge.seekExactly key)
      · exact Draws.moved hresync (hmerge.reseek key)
    next => exact hresync

end

/-- A scan that was opened merges sources of its provider. -/
theorem drawsOn_of_open (hscan : scan.WellFormed) (horder : family.order = keys)
    (hsupply : supply.Orderly family.name scan.request) {subscription : Nat}
    (hopen : (Scanner.open family supply subscription scan).value = .ok scanner) :
    scanner.DrawsOn family scan supply := by
  obtain ⟨placed, hplace, rfl⟩ := exists_placed_of_open hopen
  refine ⟨Matcher.of_ofScan hscan, rfl, horder, rfl, ?_⟩
  rintro _ ⟨⟩
  rw [horder]
  exact hsupply.draws_placed (opening_lawful _) hplace

end Scanner

/-! ## A scan under way -/

/-- What happens to a scan that can be positioned. -/
inductive ScanStep (σ : Type)
  | read (limit : ReadLimit)
  | seek (key : Cell)
  | reseek (key : Cell)
  /-- The provider has other sources from now on, and tells the scanner. -/
  | change (supply : Supply σ)

/-- A scanner and its provider as it is at the time. -/
structure Scanning (σ φ : Type) where
  scanner : Scanner σ φ
  supply : Supply σ

namespace Scanning

omit [LawfulSource σ keys] in
/-- Let something happen to a scan. -/
def step (scanning : Scanning σ φ) : ScanStep σ → Scanning σ φ
  | .read limit =>
    { scanning with scanner := (scanning.scanner.next (some scanning.supply) limit).value.2 }
  | .seek key =>
    { scanning with scanner := (scanning.scanner.seek (some scanning.supply) key).value.2 }
  | .reseek key =>
    { scanning with scanner := (scanning.scanner.reseek (some scanning.supply) key).value.2 }
  | .change supply => ⟨scanning.scanner.sourcesChanged.value, supply⟩

omit [LawfulSource σ keys] in
/-- Let one thing happen after the other. -/
def after (scanning : Scanning σ φ) (steps : List (ScanStep σ)) : Scanning σ φ :=
  steps.foldl step scanning

/-- A scan whose scanner merges sources that its provider has, each of them in order. -/
structure Draws (family : Family) (scan : Scan φ) (scanning : Scanning σ φ) : Prop where
  supply : scanning.supply.Orderly family.name scan.request
  scanner : scanning.scanner.DrawsOn family scan scanning.supply

variable {scanning : Scanning σ φ}

theorem Draws.step (hscanning : scanning.Draws family scan) (hfilter : scan.filter = none)
    {step : ScanStep σ}
    (hstep : ∀ supply, step = .change supply → supply.Orderly family.name scan.request) :
    (scanning.step step).Draws family scan := by
  obtain ⟨hsupply, hscanner⟩ := hscanning
  cases step with
  | read limit => exact ⟨hsupply, hscanner.next hfilter hsupply limit⟩
  | seek key => exact ⟨hsupply, hscanner.seek hsupply key⟩
  | reseek key => exact ⟨hsupply, hscanner.reseek hfilter hsupply key⟩
  | change supply => exact ⟨hstep supply rfl, Scanner.Draws.sourcesChanged hscanner⟩

theorem Draws.after (hscanning : scanning.Draws family scan) (hfilter : scan.filter = none)
    {steps : List (ScanStep σ)}
    (hsteps : ∀ supply, .change supply ∈ steps → supply.Orderly family.name scan.request) :
    (scanning.after steps).Draws family scan := by
  induction steps generalizing scanning with
  | nil => exact hscanning
  | cons step rest ih =>
      refine ih (hscanning.step hfilter ?_) fun supply hsupply =>
        hsteps supply (List.mem_cons_of_mem _ hsupply)
      rintro supply rfl
      exact hsteps supply List.mem_cons_self

end Scanning

end MergeScan
