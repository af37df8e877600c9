import MergeScan.Proofs.Merge.Dues
import MergeScan.Proofs.Scanner.Closing

/-! # What a scanner still has to do

A scanner has to close its sources, to report the failures to close others, and to end its
subscription. What each of its operations leaves of that is with the scanner afterwards or
was answered, whatever failed: a failure that was met is neither lost nor answered twice.
-/

namespace MergeScan

variable {σ φ : Type} [Source σ]

/-! ## Failures -/

namespace ScanError

/-- What is reported with a failure. -/
def dues : ScanError → Multiset Due
  | source failure suppressed => {.cause failure} + Due.closeFailures suppressed
  | close failures => Due.closeFailures failures
  | _ => 0

/-- What a result holds, or reports if it is a failure. -/
def duesOr {α : Type} (held : α → Multiset Due) : Except ScanError α → Multiset Due
  | .ok value => held value
  | .error failure => failure.dues

/-- What an answer reports. -/
def reported {α : Type} (answer : Except ScanError α) : Multiset Due :=
  duesOr (fun _ => 0) answer

theorem dues_ofSource (failure : SourceError) : (ofSource failure).dues = {.cause failure} :=
  add_zero _

end ScanError

open ScanError (duesOr reported)

theorem Noted.Asks.settles {α : Type} {noted : Noted α} (hasks : noted.Asks)
    (dues : Multiset Due) : noted.Settles dues fun _ => dues := by
  refine settles_of_idle (fun note hnote => ?_) dues
  obtain ⟨call, rfl⟩ := hasks note hnote
  exact ⟨rfl, rfl⟩

/-! ## Taking sources -/

theorem Noted.settles_opened (sources : List σ) :
    (noteAll (sources.map fun source => .opened (Source.origin source))).Settles 0
      fun _ => Source.dues sources := by
  induction sources with
  | nil => exact .nil 0
  | cons source rest ih =>
      have hopened := Settles.single (.opened (Source.origin source))
      have hrest := (ih.frame {Source.due source}).of_eq (zero_add _).symm
      rw [Noted.Settles, Source.dues_cons, add_comm]
      exact hopened.trans hrest

theorem closeAll_settles (sources : List σ) :
    (closeAll sources).Settles (Source.dues sources) Due.closeFailures := by
  induction sources with
  | nil => exact Noted.settles_pure rfl
  | cons source rest ih =>
      rw [closeAll, Source.dues_cons]
      refine ((Noted.settles_close source).frame _).bind fun closed => ?_
      rw [add_comm]
      refine (ih.frame _).bind fun failures => Noted.settles_pure ?_
      rw [Due.closeFailures_append, add_comm]

section

variable {positioning : Positioning σ} (hpositioning : positioning.Traceable)

include hpositioning

theorem placeEach_settles (key : Cell) (sources : List σ) :
    (placeEach positioning key sources).Settles (Source.dues sources)
      fun placed => Source.dues placed.2 + Due.causeOf placed.1 := by
  induction sources with
  | nil => exact Noted.settles_pure rfl
  | cons source rest ih =>
      rw [placeEach, Source.dues_cons]
      refine .bind_moved (hpositioning source key) (fun found source => ?_) fun failure source => ?_
      · rw [add_comm]
        refine (ih.frame _).bind fun placed => Noted.settles_pure ?_
        rw [Source.dues_cons]
        abel
      · exact Noted.settles_pure rfl

theorem placeAll_settles (key : Cell) (sources : List σ) :
    (placeAll positioning key sources).Settles (Source.dues sources) (duesOr Source.dues) := by
  refine (placeEach_settles hpositioning key sources).bind ?_
  rintro ⟨failure | _, placed⟩
  · exact Noted.settles_pure (add_zero _)
  · exact ((closeAll_settles placed).frame _).bind fun suppressed =>
      Noted.settles_pure (add_comm _ _)

end

theorem askFor_settles (supply : Supply σ) (request : SourceRequest) :
    (askFor supply request).Settles 0 (duesOr Source.dues) := by
  have hrequested (dues : Multiset Due) :
      (Noted.note (.requested request)).Settles dues fun _ => dues := by
    refine Noted.settles_of_idle (fun entry hentry => ?_) dues
    obtain rfl := List.mem_singleton.mp hentry
    exact ⟨rfl, rfl⟩
  unfold askFor
  cases supply request with
  | error failure =>
      refine Settles.refused request failure ?_
      rw [← Multiset.singleton_add, add_zero, ← ScanError.dues_ofSource]
      exact .nil _
  | ok sources =>
      exact (hrequested 0).bind fun _ =>
        (Noted.settles_opened sources).bind fun _ => Noted.settles_pure rfl

/-! ## Reading a row -/

namespace ReadState

/-- What is due after something was read. -/
def readDues {α : Type} (outcome : Except ScanError α × ReadState σ φ) : Multiset Due :=
  outcome.2.merge.dues + reported outcome.1

theorem readDues_after {α : Type} (emitted : Option Cell)
    (moved : Except SourceError α × ReadState σ φ) :
    readDues (after emitted moved) =
      moved.2.merge.dues + Due.causeOf (failureOf moved.1) := by
  obtain ⟨failure | answer, state⟩ := moved
  · exact congrArg (_ + ·) (ScanError.dues_ofSource failure)
  · rfl

theorem readDues_prepend (emitted : Option Cell)
    (rest : Except ScanError (List Cell × PassEnd) × ReadState σ φ) :
    readDues (prepend emitted rest) = readDues rest := by
  obtain ⟨_ | _, state⟩ := rest <;> rfl

variable [TraceableSource σ]

theorem moveTo_settles (state : ReadState σ φ) (key : Cell) :
    (state.moveTo key).Settles state.merge.dues
      fun moved => moved.2.merge.dues + Due.causeOf (failureOf moved.1) := by
  unfold moveTo
  split
  · exact (state.merge.seekExactly_settles key true).bind fun _ => Noted.settles_pure rfl
  · exact (state.merge.reseek_settles key).bind fun _ => Noted.settles_pure rfl

variable [CellFilter φ]

theorem follow_settles (state : ReadState σ φ) (cell : Cell) (decision : Decision) :
    (state.follow cell decision).Settles state.merge.dues readDues := by
  -- whatever is decided, the merge is moved once at most
  have hmove (emitted : Option Cell) (key : Cell) :
      (after emitted <$> state.moveTo key).Settles state.merge.dues readDues :=
    (state.moveTo_settles key).map (readDues_after emitted)
  have hcell (emitted : Option Cell) :
      (state.leaveCell emitted).Settles state.merge.dues readDues := by
    have htaken : state.takeTop.Settles state.merge.dues
        fun moved => moved.2.merge.dues + Due.causeOf (failureOf moved.1) :=
      state.merge.advance_settles.bind fun _ => Noted.settles_pure rfl
    exact htaken.map (readDues_after emitted)
  have hrow (emitted : Option Cell) :
      (state.leaveRow cell emitted).Settles state.merge.dues readDues := by
    unfold leaveRow
    split
    · exact hmove emitted _
    · exact Noted.settles_pure (add_zero _).symm
  have hemit {next : Cell → Noted (Except ScanError Turn × ReadState σ φ)}
      (hnext : ∀ emitted, (next emitted).Settles state.merge.dues readDues) :
      (state.matcher.reshape cell >>= next).Settles state.merge.dues readDues :=
    ((state.matcher.reshape_asks cell).settles _).bind hnext
  cases decision with
  | emit => exact hemit fun emitted => hcell (some emitted)
  | emitThenNextColumn => exact hemit fun emitted => hmove (some emitted) _
  | emitThenNextRow => exact hemit fun emitted => hrow (some emitted)
  | skip => exact hcell none
  | nextColumn => exact hmove none _
  | nextRow => exact hrow none
  | seekTo key =>
      rw [follow]
      split
      · exact hmove none key
      · exact hcell none
  | rowDone | scanDone => exact Noted.settles_pure (add_zero _).symm

theorem turn_settles (state : ReadState σ φ) (previous : Option Cell) (cell : Cell) :
    (state.turn previous cell).Settles state.merge.dues readDues := by
  unfold turn
  split
  · exact (Noted.settles_raise _ _).bind fun _ => Noted.settles_pure (add_zero _).symm
  · have hcolumns := state.matcher.decide_onColumns cell
    refine ((state.matcher.decide_asks cell).settles _).bind_value ?_
    generalize (state.matcher.decide cell).value = decided at hcolumns ⊢
    obtain ⟨failure | decision, matcher⟩ := decided
    · obtain ⟨previous, next, rfl⟩ := hcolumns failure rfl
      exact Noted.settles_pure (add_zero _).symm
    · exact follow_settles { state with matcher } cell decision

theorem turns_settles (previous : Option Cell) (limit : Option Nat) (fuel : Nat)
    (state : ReadState σ φ) :
    (turns previous limit fuel state).Settles state.merge.dues readDues := by
  induction fuel generalizing previous limit state with
  | zero => exact Noted.settles_pure (add_zero _).symm
  | succ fuel ih =>
      unfold turns
      split
      · exact Noted.settles_pure (add_zero _).symm
      next cell _ =>
        refine (state.turn_settles previous cell).bind ?_
        rintro ⟨failure | ⟨emitted⟩ | ⟨emitted, ending⟩, next⟩
        · exact Noted.settles_pure rfl
        · dsimp only
          rw [readDues, show reported (.ok (Turn.goOn emitted)) = 0 from rfl, add_zero]
          split
          · exact Noted.settles_pure (add_zero _).symm
          · exact (ih (some cell) (remainingLimit limit emitted) next).map
              (readDues_prepend emitted)
        · exact Noted.settles_pure rfl

end ReadState

/-! ## Scanners -/

/-- A scanner is to close the sources that it merges. -/
def Phase.dues : Phase σ → Multiset Due
  | .active merge => merge.dues
  | _ => 0

namespace Scanner

/-- What is due from a scanner apart from its sources. -/
def keptDues (scanner : Scanner σ φ) : Multiset Due :=
  Due.closeFailures scanner.suppressed + scanner.subscription.toList.map Due.subscription

/-- A scanner is to close its sources, to report its failures, and to end its subscription. -/
def dues (scanner : Scanner σ φ) : Multiset Due :=
  scanner.phase.dues + scanner.keptDues

/-- What is due after something was asked of a scanner. -/
def answeredDues {α : Type} (outcome : Except ScanError α × Scanner σ φ) : Multiset Due :=
  outcome.2.dues + reported outcome.1

variable {scanner : Scanner σ φ}

omit [Source σ] in
/-- At first a scanner has nothing to report. -/
theorem keptDues_of_begun {number : Nat} (hsuppressed : scanner.suppressed = [])
    (hsubscription : scanner.subscription = some number) :
    scanner.keptDues = {.subscription number} := by
  rw [keptDues, hsuppressed, hsubscription]
  exact zero_add _

theorem dues_of_active {merge : Merge σ} (hphase : scanner.phase = .active merge) :
    scanner.dues = merge.dues + scanner.keptDues := by
  unfold dues
  rw [hphase]
  rfl

theorem dues_of_resync {key : Cell} (hphase : scanner.phase = .resync key) :
    scanner.dues = 0 + scanner.keptDues := by
  unfold dues
  rw [hphase]
  rfl

/-! ### Ending a scan -/

theorem closeSources_settles (scanner : Scanner σ φ) :
    scanner.closeSources.Settles scanner.dues dues := by
  obtain ⟨phase, matcher, request, order, batch, subscription, suppressed⟩ := scanner
  cases phase with
  | active merge =>
      refine (merge.close_settles.frame _).bind fun closed => Noted.settles_pure ?_
      simp only [dues, keptDues, Phase.dues, Due.closeFailures_append]
      abel
  | resync resumeAt => exact Noted.settles_pure rfl
  | closed => exact Noted.settles_pure rfl

theorem unsubscribe_settles (scanner : Scanner σ φ) :
    scanner.unsubscribe.Settles scanner.dues dues := by
  obtain ⟨phase, matcher, request, order, batch, subscription, suppressed⟩ := scanner
  cases subscription with
  | none => exact Noted.settles_pure rfl
  | some subscription =>
      have hended := (Noted.settles_note (.unsubscribed subscription)).frame
        (phase.dues + Due.closeFailures suppressed)
      refine Noted.Settles.of_eq (hended.bind fun _ => Noted.settles_pure ?_) ?_
      · show 0 + (phase.dues + Due.closeFailures suppressed) =
          phase.dues + (Due.closeFailures suppressed + 0)
        rw [zero_add, add_zero]
      · show phase.dues + (Due.closeFailures suppressed + {.subscription subscription}) = _
        rw [← add_assoc, add_comm]
        rfl

theorem release_settles (scanner : Scanner σ φ) :
    scanner.release.Settles scanner.dues dues := by
  unfold release
  refine scanner.closeSources_settles.bind fun closed =>
    closed.unsubscribe_settles.bind fun released => ?_
  split
  · exact Noted.settles_pure rfl
  · exact (Noted.settles_raise _ _).bind fun _ => Noted.settles_pure rfl

theorem abort_settles (scanner : Scanner σ φ) (failure : ScanError) :
    (scanner.abort failure).Settles (scanner.dues + failure.dues)
      fun aborted => aborted.2.dues + aborted.1.dues := by
  refine (scanner.release_settles.frame failure.dues).bind fun released => ?_
  refine (Noted.settles_raise _ _).bind fun _ => Noted.settles_pure ?_
  cases failure with
  | source failure others =>
      simp only [dues, keptDues, gather, unreported, ScanError.dues, Due.closeFailures_append,
        Due.closeFailures_nil]
      abel
  | _ => rfl

theorem concluding_settles {α : Type} (outcome : Except ScanError α × Scanner σ φ) :
    (concluding outcome).Settles (answeredDues outcome) answeredDues := by
  obtain ⟨failure | answer, scanner⟩ := outcome
  · exact (scanner.abort_settles failure).bind fun _ => Noted.settles_pure rfl
  · exact Noted.settles_pure rfl

/-- To end a scan answers the failures that were not reported. -/
theorem close_settles (scanner : Scanner σ φ) :
    scanner.close.Settles scanner.dues
      fun closed => closed.2.dues + Due.closeFailures closed.1 := by
  refine scanner.release_settles.bind fun released => Noted.settles_pure ?_
  simp only [dues, keptDues, Due.closeFailures_nil]
  abel

theorem sourcesChanged_settles (scanner : Scanner σ φ) :
    scanner.sourcesChanged.Settles scanner.dues dues := by
  obtain ⟨phase, matcher, request, order, batch, subscription, suppressed⟩ := scanner
  cases phase with
  | active merge =>
      unfold sourcesChanged
      dsimp only
      split
      · exact Noted.settles_pure rfl
      · refine (merge.close_settles.frame _).bind fun closed =>
          (Noted.settles_raise _ _).bind fun _ => Noted.settles_pure ?_
        simp only [dues, keptDues, Phase.dues, Due.closeFailures_append]
        abel
  | resync resumeAt => exact Noted.settles_pure rfl
  | closed => exact Noted.settles_pure rfl

/-! ### Taking new sources -/

section Entering

variable [CellFilter φ]

omit [Source σ] in
theorem enterRow_settles (scanner : Scanner σ φ) (row : Bytes) (dues : Multiset Due) :
    (scanner.enterRow row).Settles dues fun _ => dues := by
  unfold enterRow
  split
  · exact Noted.settles_pure rfl
  · exact ((scanner.matcher.enterRow_asks row).settles dues).bind fun _ => Noted.settles_pure rfl

omit [Source σ] in
/-- A scanner that enters a row owes what it owed. -/
theorem keptDues_enterRow (scanner : Scanner σ φ) (row : Bytes) :
    (scanner.enterRow row).value.keptDues = scanner.keptDues := by
  unfold enterRow
  split <;> rfl

end Entering

variable [TraceableSource σ]

theorem rebuild_settles (scanner : Scanner σ φ) (supply : Option (Supply σ))
    (resumeAt : Option Cell) :
    (scanner.rebuild supply resumeAt).Settles 0 (duesOr Merge.dues) := by
  have hmerged (sources : List σ) :
      (Except.ok <$> Merge.ofSources scanner.order sources : Noted (Except ScanError _)).Settles
        (Source.dues sources) (duesOr Merge.dues) :=
    (Merge.ofSources_settles scanner.order sources).map fun _ => rfl
  unfold rebuild
  split
  · exact Noted.settles_pure rfl
  next supply =>
    refine (askFor_settles supply scanner.request).bind ?_
    rintro (failure | sources)
    · exact Noted.settles_pure rfl
    · cases resumeAt with
      | some key =>
          refine (placeAll_settles Positioning.seek_traceable key sources).bind ?_
          rintro (failure | placed)
          · exact Noted.settles_pure rfl
          · exact hmerged placed
      | none => exact hmerged sources

variable [CellFilter φ]

theorem resync_settles (scanner : Scanner σ φ) (supply : Option (Supply σ)) :
    (scanner.resync supply).Settles scanner.dues answeredDues := by
  unfold resync
  split
  next key hphase =>
    rw [dues_of_resync hphase]
    refine ((scanner.rebuild_settles supply (some key)).frame _).bind ?_
    rintro (failure | merge)
    · refine Noted.settles_pure ?_
      show failure.dues + scanner.keptDues = 0 + scanner.keptDues + failure.dues
      abel
    · have hkept := scanner.keptDues_enterRow (merge.peek.getD key).row
      refine (scanner.enterRow_settles _ _).bind_value ?_
      refine (Noted.settles_raise _ _).bind fun _ => Noted.settles_pure ?_
      show merge.dues + scanner.keptDues =
        merge.dues + (scanner.enterRow (merge.peek.getD key).row).value.keptDues + 0
      rw [hkept, add_zero]
  next => exact Noted.settles_pure (add_zero _).symm

omit [CellFilter φ] in
theorem refreshSources_settles (scanner : Scanner σ φ) (supply : Option (Supply σ)) :
    (scanner.refreshSources supply).Settles scanner.dues answeredDues := by
  unfold refreshSources
  split
  next key hphase =>
    rw [dues_of_resync hphase]
    refine ((scanner.rebuild_settles supply none).frame _).bind ?_
    rintro (failure | merge)
    · refine Noted.settles_pure ?_
      show failure.dues + scanner.keptDues = scanner.dues + failure.dues
      rw [dues_of_resync hphase]
      abel
    · exact Noted.settles_pure (add_zero _).symm
  next => exact Noted.settles_pure (add_zero _).symm

/-! ### Reading and positioning -/

omit [TraceableSource σ] [CellFilter φ] in
theorem handOut_settles (scanner : Scanner σ φ) (cells : List Cell) (ended : Bool) :
    (scanner.handOut cells ended).Settles scanner.dues answeredDues := by
  unfold handOut
  split
  · exact scanner.release_settles.bind fun _ => Noted.settles_pure (add_zero _).symm
  · exact Noted.settles_pure (add_zero _).symm

theorem read_settles (scanner : Scanner σ φ) (merge : Merge σ) (first : Cell)
    (limit : Option Nat) :
    (scanner.read merge first limit).Settles (merge.dues + scanner.keptDues) answeredDues := by
  have hkept := scanner.keptDues_enterRow first.row
  unfold read
  refine (scanner.enterRow_settles _ _).bind_value ?_
  rw [← hkept]
  generalize (scanner.enterRow first.row).value = entered
  refine ((ReadState.turns_settles none limit _ ⟨merge, entered.matcher⟩).frame _).bind ?_
  rintro ⟨failure | ⟨cells, ending⟩, state⟩
  · exact Noted.settles_pure (add_right_comm _ _ _)
  · have hstate : ReadState.readDues
        ((.ok (cells, ending), state) : Except ScanError (List Cell × PassEnd) × _) =
          state.merge.dues := add_zero _
    rw [hstate]
    dsimp only
    split
    · exact ((Matcher.completeRow_asks _ cells).settles _).bind fun _ => handOut_settles _ _ _
    · exact handOut_settles _ _ _

theorem fill_settles (scanner : Scanner σ φ) (supply : Option (Supply σ)) (limit : Option Nat) :
    (scanner.fill supply limit).Settles scanner.dues answeredDues := by
  unfold fill
  refine (scanner.resync_settles supply).bind ?_
  rintro ⟨failure | _, reached⟩
  · exact Noted.settles_pure rfl
  · have hreached : answeredDues ((.ok (), reached) : Except ScanError Unit × _) = reached.dues :=
      add_zero _
    rw [hreached]
    dsimp only
    split
    next merge hphase =>
      split
      · rw [dues_of_active hphase]
        exact reached.read_settles merge _ limit
      · exact reached.release_settles.bind fun _ => Noted.settles_pure (add_zero _).symm
    next => exact Noted.settles_pure (add_zero _).symm

/-- What a scanner that is read does not settle is due from it afterwards, or answered. -/
theorem next_settles (scanner : Scanner σ φ) (supply : Option (Supply σ)) (limit : ReadLimit) :
    (scanner.next supply limit).Settles scanner.dues answeredDues := by
  unfold next
  split
  next failure hrefused =>
    obtain ⟨size, filter, rfl⟩ := incompatible_of_refuses hrefused
    exact Noted.settles_pure (add_zero _).symm
  next => exact (scanner.fill_settles supply _).bind concluding_settles

theorem pages_settles (supply : Option (Supply σ)) (limit : ReadLimit) (count : Nat)
    (scanner : Scanner σ φ) :
    (pages supply limit count scanner).Settles scanner.dues
      fun read => read.2.dues + (read.1.map reported).sum := by
  induction count generalizing scanner with
  | zero => exact Noted.settles_pure (add_zero _).symm
  | succ count ih =>
      rw [pages]
      have hlast (answer : Except ScanError Page) (reached : Scanner σ φ) :
          answeredDues (answer, reached) = reached.dues + ([answer].map reported).sum := by
        rw [List.map_cons, List.map_nil, List.sum_singleton]
        rfl
      refine (scanner.next_settles supply limit).bind ?_
      rintro ⟨failure | ⟨cells, _ | _⟩, reached⟩
      · exact Noted.settles_pure (hlast _ reached)
      · exact Noted.settles_pure (hlast _ reached)
      · refine Noted.Settles.of_eq ((ih reached).bind fun read => Noted.settles_pure ?_)
          (add_zero _)
        rw [List.map_cons, List.sum_cons]
        exact congrArg (read.2.dues + ·) (zero_add _).symm

section Positioning

omit [CellFilter φ]

omit [TraceableSource σ] in
/-- A scanner whose merge was moved ends if that failed. -/
theorem moved_settles {merge : Merge σ} (hphase : scanner.phase = .active merge)
    {moved : Noted (Except SourceError Bool × Merge σ)}
    (hmoved : moved.Settles merge.dues Merge.movedDues) :
    (moved >>= fun outcome => concluding (scanner.ofMerge outcome)).Settles scanner.dues
      answeredDues := by
  rw [dues_of_active hphase]
  refine (hmoved.frame _).bind fun outcome => (concluding_settles _).of_eq ?_
  obtain ⟨failure | found, merge⟩ := outcome
  · show merge.dues + {.cause failure} + scanner.keptDues =
      merge.dues + scanner.keptDues + ({.cause failure} + 0)
    abel
  · show merge.dues + 0 + scanner.keptDues = merge.dues + scanner.keptDues + 0
    abel

theorem seek_settles (scanner : Scanner σ φ) (supply : Option (Supply σ)) (key : Cell) :
    (scanner.seek supply key).Settles scanner.dues answeredDues := by
  unfold seek
  refine (scanner.refreshSources_settles supply).bind ?_
  rintro ⟨failure | _, reached⟩
  · exact concluding_settles _
  · refine Noted.Settles.of_eq ?_ (add_zero _)
    dsimp only
    split
    next merge hphase => exact moved_settles hphase (merge.seek_settles key)
    next => exact Noted.settles_pure (add_zero _).symm

end Positioning

theorem reseek_settles (scanner : Scanner σ φ) (supply : Option (Supply σ)) (key : Cell) :
    (scanner.reseek supply key).Settles scanner.dues answeredDues := by
  unfold reseek
  refine (scanner.resync_settles supply).bind ?_
  rintro ⟨failure | _, reached⟩
  · exact concluding_settles _
  · refine Noted.Settles.of_eq ?_ (add_zero _)
    dsimp only
    split
    next merge hphase =>
      split
      · exact moved_settles hphase (merge.seekExactly_settles key true)
      · exact moved_settles hphase (merge.reseek_settles key)
    next => exact Noted.settles_pure (add_zero _).symm

/-! ### Opening -/

/-- A scanner that was opened is to close its sources. Where opening failed, nothing is due but
to report the failure. -/
theorem open_settles (family : Family) (supply : Supply σ) (subscription : Nat) (scan : Scan φ) :
    (Scanner.open family supply subscription scan).Settles 0
      (duesOr fun scanner => scanner.phase.dues) := by
  have hopening : (opening (Matcher.ofScan family scan) : Positioning σ).Traceable := by
    unfold opening
    split
    · exact Positioning.exactly_traceable false
    · exact Positioning.seek_traceable
  unfold Scanner.open
  split
  next failure hrefused =>
    obtain ⟨size, filter, rfl⟩ := incompatible_of_validate hrefused
    exact Noted.settles_pure rfl
  next =>
    refine (askFor_settles supply scan.request).bind ?_
    rintro (failure | sources)
    · exact Noted.settles_pure rfl
    · refine (placeAll_settles hopening _ sources).bind ?_
      rintro (failure | placed)
      · exact Noted.settles_pure rfl
      · exact (Merge.ofSources_settles family.order placed).bind fun merge =>
          (Noted.settles_raise _ _).bind fun _ => Noted.settles_pure rfl

/-- The same of a scan over given sources, unless it was refused. -/
theorem ofSources_settles (family : Family) {scan : Scan φ}
    (hscan : { scan with columns := [] }.validate = .ok ()) (sources : List σ) :
    (Scanner.ofSources family scan sources).Settles (Source.dues sources) (duesOr dues) := by
  unfold Scanner.ofSources
  dsimp only
  rw [hscan]
  refine (placeAll_settles Positioning.seek_traceable _ sources).bind ?_
  rintro (failure | placed)
  · exact Noted.settles_pure rfl
  · exact (Merge.ofSources_settles family.order placed).bind fun merge =>
      (Noted.settles_raise _ _).bind fun _ => Noted.settles_pure (add_zero _).symm

omit [TraceableSource σ] in
/-- Of a refused scan over given sources none is closed. -/
theorem ofSources_of_refused (family : Family) {scan : Scan φ} {failure : ScanError}
    (hscan : { scan with columns := [] }.validate = .error failure) (sources : List σ) :
    Scanner.ofSources family scan sources = pure (.error failure) := by
  unfold Scanner.ofSources
  dsimp only
  rw [hscan]

end Scanner

end MergeScan
