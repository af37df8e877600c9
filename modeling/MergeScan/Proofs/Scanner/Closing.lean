import MergeScan.Proofs.Matcher.Asks
import MergeScan.Proofs.Merge.Closing
import MergeScan.Proofs.Scanner.Preserved
import MergeScan.Scanner.Read
import MergeScan.Scanner.Seek

/-! # Closing what was opened

A scan closes its sources when it ends, when they have changed, and when they could not be
positioned. If its sources can be closed, it reports no failure to close one, however it is
read, positioned, and told of changes.
-/

namespace MergeScan

variable {σ φ : Type} [Source σ] [CellFilter φ] {Held : σ → Prop}

omit [Source σ] in
/-- Positioning leaves fresh sources as they have to be, whether or not it fails. -/
theorem placeEach_keeps {positioning : Positioning σ} (hkeeps : positioning.Keeps Held)
    (key : Cell) {sources : List σ} (hsources : ∀ source ∈ sources, Held source) :
    ∀ source ∈ (placeEach positioning key sources).value.2, Held source := by
  induction sources with
  | nil => exact hsources
  | cons source rest ih =>
      obtain ⟨hsource, hrest⟩ := List.forall_mem_cons.mp hsources
      have hmoved := hkeeps source key hsource
      simp only [placeEach, Noted.value_bind]
      generalize (positioning source key).value = moved at hmoved ⊢
      obtain ⟨_ | _, source⟩ := moved
      · exact List.forall_mem_cons.mpr ⟨hmoved, hrest⟩
      · exact List.forall_mem_cons.mpr ⟨hmoved, ih hrest⟩

theorem closeAll_of_held (hclosable : Closable Held) {sources : List σ}
    (hsources : ∀ source ∈ sources, Held source) : (closeAll sources).value = [] := by
  induction sources with
  | nil => rfl
  | cons source rest ih =>
      obtain ⟨hsource, hrest⟩ := List.forall_mem_cons.mp hsources
      simp only [closeAll, Noted.value_bind, Noted.value_use, hclosable.close source hsource,
        Noted.value_pure, ih hrest]
      rfl

/-! ## Failures without more of them -/

/-- The failures to close sources that a failure is reported with. -/
def ScanError.suppressed : ScanError → List SourceError
  | source _ suppressed => suppressed
  | close failures => failures
  | _ => []

/-- What holds of an answer, unless it is a failure. No failure to close a source is reported
with that. -/
def ScanError.LoneOr {α : Type} (Answered : α → Prop) : Except ScanError α → Prop
  | .ok answer => Answered answer
  | .error failure => failure.suppressed = []

/-- Whether no failure to close a source is reported with an answer. -/
def ScanError.Lone {α : Type} (answer : Except ScanError α) : Prop :=
  LoneOr (fun _ => True) answer

/-- Whether a failure is one that reading meets: of a source, or of the order of what was
read. -/
def ScanError.InReading : ScanError → Prop
  | source _ suppressed => suppressed = []
  | outOfOrder .. | columnOrder .. => True
  | _ => False

/-- Whether an answer is no failure but one that reading meets. -/
def ScanError.OfReading {α : Type} : Except ScanError α → Prop
  | .ok _ => True
  | .error failure => failure.InReading

open ScanError (LoneOr Lone OfReading)

namespace ScanError

theorem OnColumns.ofReading {α : Type} {answer : Except ScanError α}
    (hanswer : OnColumns answer) : OfReading answer := by
  cases answer with
  | error failure =>
      obtain ⟨previous, next, rfl⟩ := hanswer failure rfl
      exact trivial
  | ok => exact trivial

theorem OfReading.lone {α : Type} {answer : Except ScanError α} (hanswer : OfReading answer) :
    Lone answer := by
  obtain failure | _ := answer
  · cases failure with
    | source met suppressed => exact hanswer
    | outOfOrder | columnOrder => rfl
    | _ => cases hanswer
  · exact trivial

end ScanError

/-- Positioning leaves fresh sources as they have to be, or closes them without a failure. -/
theorem placeAll_keeps (hclosable : Closable Held) {positioning : Positioning σ}
    (hkeeps : positioning.Keeps Held) (key : Cell) {sources : List σ}
    (hsources : ∀ source ∈ sources, Held source) :
    LoneOr (∀ source ∈ ·, Held source) (placeAll positioning key sources).value := by
  have heach := placeEach_keeps hkeeps key hsources
  rw [placeAll, Noted.value_bind]
  generalize (placeEach positioning key sources).value = reached at heach
  obtain ⟨_ | failure, placed⟩ := reached
  · exact heach
  · exact closeAll_of_held hclosable heach

namespace ReadState

theorem preserved_calm (hclosable : Closable Held) :
    Preserved fun state : ReadState σ φ => state.merge.Calm Held where
  advance _ hcalm := hcalm.advance hclosable
  reseek _ key hcalm := hcalm.moveForward hclosable hclosable.reseek_keeps key
  seekExactly _ key hcalm := hcalm.moveForward hclosable (hclosable.exactly_keeps true) key
  decide _ _ hcalm := hcalm

omit [Source σ] [CellFilter φ] in
theorem after_ofReading {α : Type} (emitted : Option Cell)
    (moved : Except SourceError α × ReadState σ φ) : OfReading (after emitted moved).1 := by
  obtain ⟨failure | _, state⟩ := moved
  · rfl
  · exact trivial

theorem turn_ofReading (state : ReadState σ φ) (previous : Option Cell) (cell : Cell) :
    OfReading (state.turn previous cell).value.1 := by
  have hfollow (state : ReadState σ φ) (decision : Decision) :
      OfReading (state.follow cell decision).value.1 := by
    have hrow (emitted : Option Cell) : OfReading (state.leaveRow cell emitted).value.1 := by
      unfold leaveRow
      split
      · exact after_ofReading emitted _
      · exact trivial
    cases decision with
    | emit | skip | emitThenNextColumn | nextColumn => exact after_ofReading _ _
    | emitThenNextRow | nextRow => exact hrow _
    | rowDone | scanDone => exact trivial
    | seekTo key =>
        rw [follow]
        split <;> exact after_ofReading _ _
  unfold turn
  split
  · exact trivial
  · have hcolumns := (state.matcher.decide_onColumns cell).ofReading
    rw [Noted.value_bind]
    generalize (state.matcher.decide cell).value = decided at hcolumns ⊢
    obtain ⟨failure | decision, matcher⟩ := decided
    · exact hcolumns
    · exact hfollow _ decision

theorem turns_ofReading (previous : Option Cell) (limit : Option Nat) (fuel : Nat)
    (state : ReadState σ φ) : OfReading (turns previous limit fuel state).value.1 := by
  induction fuel generalizing previous limit state with
  | zero => exact trivial
  | succ fuel ih =>
      unfold turns
      split
      · exact trivial
      next cell _ =>
        have hturn := turn_ofReading state previous cell
        rw [Noted.value_bind]
        generalize (state.turn previous cell).value = turned at hturn ⊢
        obtain ⟨failure | ⟨emitted⟩ | ⟨emitted, ending⟩, next⟩ := turned
        · exact hturn
        · dsimp only
          split
          · exact trivial
          · have hrest := ih (some cell) (remainingLimit limit emitted) next
            rw [Noted.value_map]
            generalize (turns _ _ fuel next).value = rest at hrest ⊢
            obtain ⟨failure | _, state⟩ := rest
            · exact hrest
            · exact trivial
        · exact trivial

end ReadState

/-! ## Scanners -/

/-- A provider that hands out only sources as they have to be. -/
def Supply.Holds (Held : σ → Prop) (supply : Supply σ) : Prop :=
  ∀ request sources, supply request = .ok sources → ∀ source ∈ sources, Held source

theorem askFor_keeps {supply : Supply σ} (hsupply : supply.Holds Held) (request : SourceRequest) :
    LoneOr (∀ source ∈ ·, Held source) (askFor supply request).value := by
  rw [askFor, Noted.value_bind]
  cases hanswer : supply request with
  | error failure => rfl
  | ok sources => exact hsupply request sources hanswer

namespace Scanner

variable {scanner : Scanner σ φ} {supply : Option (Supply σ)}

/-- A scanner whose sources can be closed, and that has no failure to report. -/
structure Calm (Held : σ → Prop) (scanner : Scanner σ φ) : Prop where
  suppressed : scanner.suppressed = []
  merge merge : scanner.phase = .active merge → merge.Calm Held

/-- An answer that reports no failure to close a source, with a scanner that has none to
report. -/
structure CalmAnswer {α : Type} (Held : σ → Prop) (outcome : Except ScanError α × Scanner σ φ) :
    Prop where
  calm : Calm Held outcome.2
  lone : Lone outcome.1

omit [Source σ] [CellFilter φ] in
theorem CalmAnswer.ok {α : Type} {answer : α} (hcalm : Calm Held scanner) :
    CalmAnswer Held ((.ok answer, scanner) : Except ScanError α × Scanner σ φ) :=
  ⟨hcalm, trivial⟩

omit [Source σ] [CellFilter φ] in
theorem Calm.reached (hcalm : Calm Held scanner) {merge : Merge σ} (hmerge : merge.Calm Held)
    (matcher : Matcher φ) : Calm Held { scanner with phase := .active merge, matcher } := by
  refine ⟨hcalm.suppressed, ?_⟩
  rintro _ ⟨⟩
  exact hmerge

section Ending

variable (hclosable : Closable Held)

omit [CellFilter φ]

include hclosable in
theorem Calm.release (hcalm : Calm Held scanner) : Calm Held scanner.release.value := by
  have hclosed : scanner.closeSources.value.suppressed = [] ∧
      scanner.closeSources.value.phase = .closed := by
    unfold closeSources
    split
    next merge hphase =>
      refine ⟨?_, rfl⟩
      show scanner.suppressed ++ merge.close.value.1 = []
      rw [hcalm.suppressed, (hcalm.merge merge hphase).close hclosable]
      rfl
    next => exact ⟨hcalm.suppressed, rfl⟩
  have hreleased : scanner.release.value.suppressed = [] ∧
      scanner.release.value.phase = .closed := by
    unfold Scanner.release
    rw [Noted.value_bind, Noted.value_bind]
    split <;> exact hclosed
  refine ⟨hreleased.1, fun merge => ?_⟩
  rw [hreleased.2]
  nofun

include hclosable in
/-- To end a scan whose sources can be closed reports no failure. -/
theorem Calm.close (hcalm : Calm Held scanner) : scanner.close.value.1 = [] :=
  (hcalm.release hclosable).suppressed

include hclosable in
theorem CalmAnswer.concluding {α : Type} {outcome : Except ScanError α × Scanner σ φ}
    (houtcome : CalmAnswer Held outcome) : CalmAnswer Held (concluding outcome).value := by
  obtain ⟨failure | answer, scanner⟩ := outcome
  · have hreleased := houtcome.calm.release hclosable
    refine ⟨⟨?_, hreleased.merge⟩, ?_⟩
    · show unreported scanner.release.value.suppressed failure = []
      unfold unreported
      split
      · rfl
      · exact hreleased.suppressed
    · have hlone : failure.suppressed = [] := houtcome.lone
      show (gather scanner.release.value.suppressed failure).suppressed = []
      rw [hreleased.suppressed]
      cases failure with
      | source failure others => exact (List.append_nil others).trans hlone
      | _ => exact hlone
  · exact houtcome

include hclosable in
theorem Calm.sourcesChanged (hcalm : Calm Held scanner) :
    Calm Held scanner.sourcesChanged.value := by
  unfold Scanner.sourcesChanged
  split
  next merge hphase =>
    split
    · exact hcalm
    · refine ⟨?_, nofun⟩
      show scanner.suppressed ++ merge.close.value.1 = []
      rw [hcalm.suppressed, (hcalm.merge merge hphase).close hclosable]
      rfl
  next => exact hcalm

end Ending

omit [Source σ] in
/-- A scan is refused because its batches split the rows that its filter needs. -/
theorem of_validate_error {scan : Scan φ} {failure : ScanError}
    (hrefused : scan.validate = .error failure) :
    ∃ size filter, scan.batch = some size ∧ scan.filter = some filter ∧
      CellFilter.needsWholeRow filter = true ∧
      failure = .incompatibleFilter size (CellFilter.describe filter) := by
  unfold Scan.validate at hrefused
  split at hrefused
  next size filter hbatch hfilter =>
    split at hrefused
    next hwhole =>
      cases hrefused
      exact ⟨size, filter, hbatch, hfilter, hwhole, rfl⟩
    next => cases hrefused
  next => cases hrefused

omit [Source σ] in
/-- A limit is refused because it splits the rows that the filter needs. -/
theorem of_refuses {matcher : Matcher φ} {limit : Option Nat} {failure : ScanError}
    (hrefused : matcher.refuses limit = some failure) :
    ∃ size filter, limit = some size ∧ matcher.filter = some filter ∧
      CellFilter.needsWholeRow filter = true ∧
      failure = .incompatibleFilter size (CellFilter.describe filter) := by
  unfold Matcher.refuses at hrefused
  split at hrefused
  next size filter hfilter =>
    split at hrefused
    next hwhole =>
      cases hrefused
      exact ⟨size, filter, rfl, hfilter, hwhole, rfl⟩
    next => cases hrefused
  next => cases hrefused

omit [Source σ] in
theorem incompatible_of_validate {scan : Scan φ} {failure : ScanError}
    (hrefused : scan.validate = .error failure) :
    ∃ limit filter, failure = .incompatibleFilter limit filter := by
  obtain ⟨size, filter, -, -, -, rfl⟩ := of_validate_error hrefused
  exact ⟨size, _, rfl⟩

omit [Source σ] in
theorem incompatible_of_refuses {matcher : Matcher φ} {limit : Option Nat} {failure : ScanError}
    (hrefused : matcher.refuses limit = some failure) :
    ∃ limit filter, failure = .incompatibleFilter limit filter := by
  obtain ⟨size, filter, -, -, -, rfl⟩ := of_refuses hrefused
  exact ⟨size, _, rfl⟩

omit [Source σ] in
theorem Calm.enterRow (hcalm : Calm Held scanner) (row : Bytes) :
    Calm Held (scanner.enterRow row).value := by
  unfold Scanner.enterRow
  split
  · exact hcalm
  · exact ⟨hcalm.suppressed, hcalm.merge⟩

section

variable (hclosable : Closable Held) (hsupply : ∀ provider ∈ supply, provider.Holds Held)

include hclosable hsupply

omit [CellFilter φ] in
/-- New sources are there to be merged, or nothing is left of them. -/
theorem rebuild_calm (scanner : Scanner σ φ) (resumeAt : Option Cell) :
    LoneOr (Merge.Calm Held) (scanner.rebuild supply resumeAt).value := by
  unfold rebuild
  split
  · rfl
  next supply =>
    have hasked := askFor_keeps (hsupply supply rfl) scanner.request
    rw [Noted.value_bind]
    generalize (askFor supply scanner.request).value = asked at hasked ⊢
    obtain failure | sources := asked
    · exact hasked
    · cases resumeAt with
      | some key =>
          have hplaced := placeAll_keeps hclosable hclosable.seek_keeps key hasked
          simp only [Noted.value_bind]
          generalize (placeAll Positioning.seek key sources).value = placed at hplaced ⊢
          obtain failure | placed := placed
          · exact hplaced
          · exact Merge.ofSources_calm hclosable scanner.order hplaced
      | none => exact Merge.ofSources_calm hclosable scanner.order hasked

theorem Calm.resync (hcalm : Calm Held scanner) :
    CalmAnswer Held (scanner.resync supply).value := by
  unfold Scanner.resync
  split
  next key _ =>
    have hrebuilt := rebuild_calm hclosable hsupply scanner (some key)
    rw [Noted.value_bind]
    generalize (scanner.rebuild supply (some key)).value = rebuilt at hrebuilt ⊢
    obtain failure | merge := rebuilt
    · exact ⟨⟨hcalm.suppressed, nofun⟩, hrebuilt⟩
    · have hentered := hcalm.enterRow (merge.peek.getD key).row
      exact .ok (hentered.reached hrebuilt _)
  next => exact .ok hcalm

omit [CellFilter φ] in
theorem Calm.refreshSources (hcalm : Calm Held scanner) :
    CalmAnswer Held (scanner.refreshSources supply).value := by
  unfold Scanner.refreshSources
  split
  next =>
    have hrebuilt := rebuild_calm hclosable hsupply scanner none
    rw [Noted.value_bind]
    generalize (scanner.rebuild supply none).value = rebuilt at hrebuilt ⊢
    obtain failure | merge := rebuilt
    · exact ⟨hcalm, hrebuilt⟩
    · exact .ok (hcalm.reached hrebuilt scanner.matcher)
  next => exact .ok hcalm

end

section

variable (hclosable : Closable Held)

include hclosable

omit [CellFilter φ] in
theorem Calm.handOut (hcalm : Calm Held scanner) (cells : List Cell) (ended : Bool) :
    CalmAnswer Held (scanner.handOut cells ended).value := by
  unfold Scanner.handOut
  split
  · exact .ok (hcalm.release hclosable)
  · exact .ok hcalm

theorem Calm.read (hcalm : Calm Held scanner) {merge : Merge σ} (hmerge : merge.Calm Held)
    (first : Cell) (limit : Option Nat) :
    CalmAnswer Held (scanner.read merge first limit).value := by
  have hentered := hcalm.enterRow first.row
  unfold Scanner.read
  rw [Noted.value_bind]
  generalize (scanner.enterRow first.row).value = entered at hentered ⊢
  have hpass : (ReadState.pass ⟨merge, entered.matcher⟩ limit).value.2.merge.Calm Held :=
    (ReadState.preserved_calm hclosable).pass hmerge limit
  have hlone : Lone (ReadState.pass ⟨merge, entered.matcher⟩ limit).value.1 :=
    (ReadState.turns_ofReading _ _ _ _).lone
  rw [Noted.value_bind]
  generalize (ReadState.pass ⟨merge, entered.matcher⟩ limit).value = passed at hpass hlone ⊢
  obtain ⟨_ | ⟨cells, ending⟩, state⟩ := passed
  · exact ⟨hentered.reached hpass _, hlone⟩
  · have hreached := hentered.reached hpass
    dsimp only
    split
    · rw [Noted.value_bind]
      exact (hreached _).handOut hclosable _ _
    · exact (hreached _).handOut hclosable _ _

omit [CellFilter φ] in
/-- A scanner whose merge was moved ends if that failed. -/
theorem Calm.moved (hcalm : Calm Held scanner) {moved : Noted (Except SourceError Bool × Merge σ)}
    (hmoved : moved.value.2.Calm Held) :
    CalmAnswer Held (moved >>= fun outcome => concluding (scanner.ofMerge outcome)).value := by
  refine CalmAnswer.concluding hclosable ⟨hcalm.reached hmoved scanner.matcher, ?_⟩
  generalize moved.value = outcome
  obtain ⟨failure | _, merge⟩ := outcome
  · rfl
  · exact trivial

variable (hsupply : ∀ provider ∈ supply, provider.Holds Held)

include hsupply

/-- A read reports no failure to close a source, if the sources can be closed. -/
theorem Calm.next (hcalm : Calm Held scanner) (limit : ReadLimit) :
    CalmAnswer Held (scanner.next supply limit).value := by
  unfold Scanner.next
  split
  next failure hrefused =>
    obtain ⟨size, filter, rfl⟩ := incompatible_of_refuses hrefused
    exact ⟨hcalm, rfl⟩
  · refine CalmAnswer.concluding hclosable ?_
    have hresync := hcalm.resync hclosable hsupply
    unfold fill
    rw [Noted.value_bind]
    generalize (scanner.resync supply).value = resynced at hresync ⊢
    obtain ⟨failure | _, reached⟩ := resynced
    · exact ⟨hresync.calm, hresync.lone⟩
    · dsimp only
      split
      next merge hactive =>
        split
        · exact hresync.calm.read hclosable (hresync.calm.merge merge hactive) _ _
        · exact .ok (hresync.calm.release hclosable)
      next => exact .ok hresync.calm

theorem Calm.pages (hcalm : Calm Held scanner) (limit : ReadLimit) (count : Nat) :
    Calm Held (Scanner.pages supply limit count scanner).value.2 ∧
      ∀ answer ∈ (Scanner.pages supply limit count scanner).value.1, Lone answer := by
  induction count generalizing scanner with
  | zero => exact ⟨hcalm, nofun⟩
  | succ count ih =>
      have hnext := hcalm.next hclosable hsupply limit
      rw [Scanner.pages, Noted.value_bind]
      generalize (scanner.next supply limit).value = answered at hnext ⊢
      obtain ⟨_ | ⟨cells, _ | _⟩, reached⟩ := answered
      · exact ⟨hnext.calm, List.forall_mem_singleton.mpr hnext.lone⟩
      · exact ⟨hnext.calm, List.forall_mem_singleton.mpr hnext.lone⟩
      · obtain ⟨hcalm, hlone⟩ := ih hnext.calm
        exact ⟨hcalm, List.forall_mem_cons.mpr ⟨hnext.lone, hlone⟩⟩

omit [CellFilter φ] in
theorem Calm.seek (hcalm : Calm Held scanner) (key : Cell) :
    CalmAnswer Held (scanner.seek supply key).value := by
  have hrefreshed := hcalm.refreshSources hclosable hsupply
  unfold Scanner.seek
  rw [Noted.value_bind]
  generalize (scanner.refreshSources supply).value = refreshed at hrefreshed ⊢
  obtain ⟨failure | _, reached⟩ := refreshed
  · exact CalmAnswer.concluding hclosable ⟨hrefreshed.calm, hrefreshed.lone⟩
  · dsimp only
    split
    next merge hactive =>
      exact hrefreshed.calm.moved hclosable
        ((hrefreshed.calm.merge merge hactive).seek hclosable key)
    next => exact .ok hrefreshed.calm

theorem Calm.reseek (hcalm : Calm Held scanner) (key : Cell) :
    CalmAnswer Held (scanner.reseek supply key).value := by
  have hresync := hcalm.resync hclosable hsupply
  unfold Scanner.reseek
  rw [Noted.value_bind]
  generalize (scanner.resync supply).value = resynced at hresync ⊢
  obtain ⟨failure | _, reached⟩ := resynced
  · exact CalmAnswer.concluding hclosable ⟨hresync.calm, hresync.lone⟩
  · dsimp only
    split
    next merge hactive =>
      have hmerge := hresync.calm.merge merge hactive
      split
      · exact hresync.calm.moved hclosable
          (hmerge.moveForward hclosable (hclosable.exactly_keeps true) key)
      · exact hresync.calm.moved hclosable (hmerge.moveForward hclosable hclosable.reseek_keeps key)
    next => exact .ok hresync.calm

end

/-- A scan that was opened over sources that can be closed has no failure to report, nor has
opening it. -/
theorem open_calm (hclosable : Closable Held) {supply : Supply σ} (hsupply : supply.Holds Held)
    (family : Family) (subscription : Nat) (scan : Scan φ) :
    LoneOr (Calm Held) (Scanner.open family supply subscription scan).value := by
  have hopening : (opening (Matcher.ofScan family scan) : Positioning σ).Keeps Held := by
    unfold opening
    split
    · exact hclosable.exactly_keeps false
    · exact hclosable.seek_keeps
  unfold Scanner.open
  split
  next failure hrefused =>
    obtain ⟨size, filter, rfl⟩ := incompatible_of_validate hrefused
    rfl
  next =>
    have hasked := askFor_keeps hsupply scan.request
    rw [Noted.value_bind]
    generalize (askFor supply scan.request).value = asked at hasked ⊢
    obtain failure | sources := asked
    · exact hasked
    · have hplaced := placeAll_keeps hclosable hopening (Matcher.ofScan family scan).startKey hasked
      dsimp only
      rw [Noted.value_bind]
      generalize (placeAll _ _ sources).value = placed at hplaced ⊢
      obtain failure | placed := placed
      · exact hplaced
      · refine ⟨rfl, ?_⟩
        rintro _ ⟨⟩
        exact Merge.ofSources_calm hclosable family.order hplaced

/-- The same of a scan over given sources. -/
theorem ofSources_calm (hclosable : Closable Held) (family : Family) (scan : Scan φ)
    {sources : List σ} (hsources : ∀ source ∈ sources, Held source) :
    LoneOr (Calm Held) (Scanner.ofSources family scan sources).value := by
  unfold Scanner.ofSources
  dsimp only
  split
  next failure hrefused =>
    obtain ⟨size, filter, rfl⟩ := incompatible_of_validate hrefused
    rfl
  next =>
    have hplaced := placeAll_keeps hclosable hclosable.seek_keeps
      (Matcher.ofScan family { scan with columns := [] }).startKey hsources
    rw [Noted.value_bind]
    generalize (placeAll _ _ sources).value = placed at hplaced ⊢
    obtain failure | placed := placed
    · exact hplaced
    · refine ⟨rfl, ?_⟩
      rintro _ ⟨⟩
      exact Merge.ofSources_calm hclosable family.order hplaced

end Scanner

end MergeScan
