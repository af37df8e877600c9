import MergeScan.Proofs.Scanner.Life

/-! # When a scan ends

A scan ends with the last page, with a failure, or when its scanner is closed. The reply that
says so is the one with which it ends, and a scan goes on as long as there is none. After the
end a scanner does nothing any more, whatever is asked of it.
-/

namespace MergeScan

/-! ## Replies that end a scan -/

namespace ScanError

/-- Whether a scan ends with a failure. If only a limit was refused, it goes on. -/
def isFatal : ScanError → Bool
  | incompatibleFilter .. => false
  | _ => true

/-- Whether a scan ends with an answer, given which answers are the last ones. -/
def endsWith {α : Type} (last : α → Bool) : Except ScanError α → Bool
  | .ok answer => last answer
  | .error failure => failure.isFatal

/-- Whether an answer is no failure but one with which a scan ends. -/
def Fatal {α : Type} : Except ScanError α → Prop
  | .ok _ => True
  | .error failure => failure.isFatal = true

theorem OfReading.fatal {α : Type} {answer : Except ScanError α} (hanswer : OfReading answer) :
    Fatal answer := by
  obtain failure | _ := answer
  · cases failure with
    | incompatibleFilter => cases hanswer
    | _ => rfl
  · exact trivial

theorem isFatal_gather (suppressed : List SourceError) (failure : ScanError) :
    (Scanner.gather suppressed failure).isFatal = failure.isFatal := by
  cases failure <;> rfl

end ScanError

/-- Whether a page is the last one. -/
def Page.isLast (page : Page) : Bool :=
  !page.more

/-- Whether a scan ends with a reply. -/
def ScannerReply.ends : ScannerReply → Bool
  | page result => ScanError.endsWith Page.isLast result
  | found result => ScanError.endsWith (fun _ => false) result
  | told => false
  | closed _ => true

open ScanError (Fatal endsWith)

variable {σ φ : Type} [Source σ]

namespace Scanner

variable {scanner : Scanner σ φ}

omit [Source σ] in
theorem phase_of_isClosed (hclosed : scanner.isClosed = true) : scanner.phase = .closed := by
  unfold isClosed at hclosed
  split at hclosed
  next hphase => exact hphase
  next => cases hclosed

omit [Source σ] in
theorem isClosed_of_phase (hphase : scanner.phase = .closed) : scanner.isClosed = true := by
  rw [isClosed, hphase]

theorem isClosed_release (scanner : Scanner σ φ) : scanner.release.value.isClosed = true :=
  isClosed_of_phase (release_ended scanner).1

/-! ## What is asked after the end -/

theorem seek_of_ended (hphase : scanner.phase = .closed) (supply : Option (Supply σ))
    (key : Cell) : scanner.seek supply key = pure (.ok false, scanner) := by
  have hrefresh : scanner.refreshSources supply = pure (.ok (), scanner) := by
    rw [refreshSources, hphase]
  rw [seek, hrefresh, pure_bind]
  simp only [hphase]

theorem sourcesChanged_of_ended (hphase : scanner.phase = .closed) :
    scanner.sourcesChanged = pure scanner := by
  rw [sourcesChanged, hphase]

variable [CellFilter φ]

theorem reseek_of_ended (hphase : scanner.phase = .closed) (supply : Option (Supply σ))
    (key : Cell) : scanner.reseek supply key = pure (.ok false, scanner) := by
  have hresync : scanner.resync supply = pure (.ok (), scanner) := by rw [resync, hphase]
  rw [reseek, hresync, pure_bind]
  simp only [hphase]

/-- What an ended scanner is like: it is told of nothing and shows nothing, it hands out nothing
and finds nothing, and it stays as it is but for what it had to report. -/
structure Terminal (scanner : Scanner σ φ) : Prop where
  isClosed : scanner.isClosed = true
  subscription : scanner.subscription = none
  peek : scanner.peek = none
  sourcesChanged : scanner.sourcesChanged = pure scanner
  next supply limit : scanner.next supply limit =
    pure ((scanner.matcher.refuses (scanner.limitOf limit)).elim (.ok ⟨[], false⟩) .error, scanner)
  seek supply key : scanner.seek supply key = pure (.ok false, scanner)
  reseek supply key : scanner.reseek supply key = pure (.ok false, scanner)
  close : scanner.close = pure (scanner.suppressed, { scanner with suppressed := [] })

theorem Ended.terminal (hended : scanner.Ended) : scanner.Terminal where
  isClosed := isClosed_of_phase hended.1
  subscription := hended.2
  peek := by rw [Scanner.peek, hended.1]
  sourcesChanged := sourcesChanged_of_ended hended.1
  next := next_of_ended hended.1
  seek := seek_of_ended hended.1
  reseek := reseek_of_ended hended.1
  close := by
    -- a scanner that is not subscribed notes nothing when it unsubscribes
    obtain ⟨phase, matcher, request, order, batch, subscription, suppressed⟩ := scanner
    obtain ⟨rfl, rfl⟩ := hended
    rfl

/-- To ask something of an ended scanner does nothing and leaves it ended. -/
theorem Terminal.call (hterminal : scanner.Terminal) (call : ScannerCall σ) :
    (scanner.call call).notes = [] ∧ (scanner.call call).value.2.Terminal := by
  cases call with
  | next supply limit =>
      rw [Scanner.call, hterminal.next]
      exact ⟨rfl, hterminal⟩
  | seek supply key =>
      rw [Scanner.call, hterminal.seek]
      exact ⟨rfl, hterminal⟩
  | reseek supply key =>
      rw [Scanner.call, hterminal.reseek]
      exact ⟨rfl, hterminal⟩
  | sourcesChanged =>
      rw [Scanner.call, hterminal.sourcesChanged]
      exact ⟨rfl, hterminal⟩
  | close =>
      have hended : Ended { scanner with suppressed := [] } :=
        ⟨phase_of_isClosed hterminal.isClosed, hterminal.subscription⟩
      rw [Scanner.call, hterminal.close]
      exact ⟨rfl, hended.terminal⟩

theorem Terminal.calls (hterminal : scanner.Terminal) (calls : List (ScannerCall σ)) :
    (Scanner.calls calls scanner).notes = [] ∧
      (Scanner.calls calls scanner).value.2.Terminal := by
  induction calls generalizing scanner with
  | nil => exact ⟨rfl, hterminal⟩
  | cons call rest ih =>
      obtain ⟨hquiet, hcalled⟩ := hterminal.call call
      obtain ⟨hrest, hlast⟩ := ih hcalled
      refine ⟨?_, hlast⟩
      simp [Scanner.calls, hquiet, hrest]

/-! ## How a scan ends -/

/-- An operation before it is concluded: its answer tells whether the scan has ended, and if it
failed the scan is still to be ended for that. -/
structure Concludes {α : Type} (last : α → Bool) (outcome : Except ScanError α × Scanner σ φ) :
    Prop where
  fatal : Fatal outcome.1
  isClosed answer : outcome.1 = .ok answer → outcome.2.isClosed = last answer

/-- An open scanner has ended after an operation just if the answer says so. -/
def Tells {α : Type} (last : α → Bool) (outcome : Except ScanError α × Scanner σ φ) : Prop :=
  outcome.2.isClosed = endsWith last outcome.1

omit [Source σ] [CellFilter φ] in
theorem concludes_ok {α : Type} {last : α → Bool} {answer : α}
    (hclosed : scanner.isClosed = last answer) :
    Concludes last ((.ok answer, scanner) : Except ScanError α × Scanner σ φ) := by
  refine ⟨trivial, ?_⟩
  rintro _ ⟨⟩
  exact hclosed

omit [CellFilter φ] in
theorem tells_concluding {α : Type} {last : α → Bool}
    {outcome : Except ScanError α × Scanner σ φ} (houtcome : Concludes last outcome) :
    Tells last (concluding outcome).value := by
  obtain ⟨failure | answer, reached⟩ := outcome
  · show reached.release.value.isClosed = _
    rw [isClosed_release]
    exact ((ScanError.isFatal_gather _ failure).trans houtcome.fatal).symm
  · exact houtcome.isClosed answer rfl

omit [CellFilter φ] in
theorem rebuild_fatal (scanner : Scanner σ φ) (supply : Option (Supply σ))
    (resumeAt : Option Cell) : Fatal (scanner.rebuild supply resumeAt).value := by
  have hplace (key : Cell) (sources : List σ) :
      Fatal (placeAll Positioning.seek key sources).value := by
    rw [placeAll, Noted.value_bind]
    generalize (placeEach Positioning.seek key sources).value = reached
    obtain ⟨_ | failure, placed⟩ := reached
    · exact trivial
    · rfl
  unfold rebuild
  split
  · rfl
  next supply =>
    rw [askFor, Noted.value_bind, Noted.value_bind]
    cases supply scanner.request with
    | error failure => rfl
    | ok sources =>
        cases resumeAt with
        | none => exact trivial
        | some key =>
            have hplaced := hplace key sources
            simp only [Noted.value_bind, Noted.value_pure]
            generalize (placeAll Positioning.seek key sources).value = placed at hplaced ⊢
            obtain failure | placed := placed
            · exact hplaced
            · exact trivial

/-- New sources were taken if there had to be, and the scanner can read, or that failed. -/
structure Readies (outcome : Except ScanError Unit × Scanner σ φ) : Prop where
  fatal : Fatal outcome.1
  active : outcome.1 = .ok () → ∃ merge, outcome.2.phase = .active merge

section

variable (hopen : scanner.isClosed = false)

include hopen

omit [CellFilter φ] in
theorem refreshSources_readies (supply : Option (Supply σ)) :
    Readies (scanner.refreshSources supply).value := by
  unfold refreshSources
  cases hphase : scanner.phase with
  | active merge => exact ⟨trivial, fun _ => ⟨merge, hphase⟩⟩
  | closed => cases hopen.symm.trans (isClosed_of_phase hphase)
  | resync key =>
      have hrebuilt := rebuild_fatal scanner supply none
      simp only [Noted.value_bind]
      generalize (scanner.rebuild supply none).value = rebuilt at hrebuilt ⊢
      obtain failure | merge := rebuilt
      · exact ⟨hrebuilt, nofun⟩
      · exact ⟨trivial, fun _ => ⟨merge, rfl⟩⟩

theorem resync_readies (supply : Option (Supply σ)) :
    Readies (scanner.resync supply).value := by
  unfold resync
  cases hphase : scanner.phase with
  | active merge => exact ⟨trivial, fun _ => ⟨merge, hphase⟩⟩
  | closed => cases hopen.symm.trans (isClosed_of_phase hphase)
  | resync key =>
      have hrebuilt := rebuild_fatal scanner supply (some key)
      simp only [Noted.value_bind]
      generalize (scanner.rebuild supply (some key)).value = rebuilt at hrebuilt ⊢
      obtain failure | merge := rebuilt
      · exact ⟨hrebuilt, nofun⟩
      · exact ⟨trivial, fun _ => ⟨merge, rfl⟩⟩

end

omit [CellFilter φ] in
theorem handOut_concludes (hopen : scanner.isClosed = false) (cells : List Cell) (ended : Bool) :
    Concludes Page.isLast (scanner.handOut cells ended).value := by
  unfold handOut
  split
  · exact concludes_ok scanner.isClosed_release
  · exact concludes_ok hopen

theorem read_concludes (scanner : Scanner σ φ) (merge : Merge σ) (first : Cell)
    (limit : Option Nat) : Concludes Page.isLast (scanner.read merge first limit).value := by
  unfold read
  rw [Noted.value_bind]
  generalize (scanner.enterRow first.row).value = entered
  have hpass : ScanError.OfReading (ReadState.pass ⟨merge, entered.matcher⟩ limit).value.1 :=
    ReadState.turns_ofReading _ _ _ _
  rw [Noted.value_bind]
  generalize (ReadState.pass ⟨merge, entered.matcher⟩ limit).value = passed at hpass ⊢
  obtain ⟨failure | ⟨cells, ending⟩, state⟩ := passed
  · exact ⟨hpass.fatal, nofun⟩
  · dsimp only
    split
    · exact handOut_concludes rfl _ _
    · exact handOut_concludes rfl _ _

theorem fill_concludes (hopen : scanner.isClosed = false) (supply : Option (Supply σ))
    (limit : Option Nat) : Concludes Page.isLast (scanner.fill supply limit).value := by
  have hresync := resync_readies hopen supply
  unfold fill
  rw [Noted.value_bind]
  generalize (scanner.resync supply).value = resynced at hresync ⊢
  obtain ⟨failure | _, reached⟩ := resynced
  · exact ⟨hresync.fatal, nofun⟩
  · obtain ⟨merge, hactive⟩ : ∃ merge, reached.phase = .active merge := hresync.active rfl
    simp only [hactive]
    split
    · exact read_concludes reached _ _ _
    · exact concludes_ok reached.isClosed_release

omit [CellFilter φ] in
/-- A scanner whose merge was moved has ended if that failed. -/
theorem moved_tells (scanner : Scanner σ φ) (moved : Noted (Except SourceError Bool × Merge σ)) :
    Tells (fun _ => false)
      (moved >>= fun outcome => concluding (scanner.ofMerge outcome)).value := by
  refine tells_concluding ?_
  generalize moved.value = outcome
  obtain ⟨failure | found, merge⟩ := outcome
  · exact ⟨rfl, nofun⟩
  · exact concludes_ok rfl

/-- A read ends an open scan just if it says so. -/
theorem isClosed_next (scanner : Scanner σ φ) (supply : Option (Supply σ)) (limit : ReadLimit) :
    (scanner.next supply limit).value.2.isClosed =
      (scanner.isClosed || endsWith Page.isLast (scanner.next supply limit).value.1) := by
  cases hopen : scanner.isClosed with
  | true =>
      rw [next_of_ended (phase_of_isClosed hopen)]
      exact hopen
  | false =>
      unfold next
      split
      next failure hrefused =>
        obtain ⟨size, filter, rfl⟩ := incompatible_of_refuses hrefused
        exact hopen
      next => exact tells_concluding (fill_concludes hopen supply _)

omit [CellFilter φ] in
theorem isClosed_seek (scanner : Scanner σ φ) (supply : Option (Supply σ)) (key : Cell) :
    (scanner.seek supply key).value.2.isClosed =
      (scanner.isClosed || endsWith (fun _ => false) (scanner.seek supply key).value.1) := by
  cases hopen : scanner.isClosed with
  | true =>
      rw [seek_of_ended (phase_of_isClosed hopen)]
      exact hopen
  | false =>
      have hrefreshed := refreshSources_readies hopen supply
      show Tells (fun _ => false) (scanner.seek supply key).value
      unfold seek
      rw [Noted.value_bind]
      generalize (scanner.refreshSources supply).value = refreshed at hrefreshed ⊢
      obtain ⟨failure | _, reached⟩ := refreshed
      · exact tells_concluding ⟨hrefreshed.fatal, nofun⟩
      · obtain ⟨merge, hactive⟩ : ∃ merge, reached.phase = .active merge := hrefreshed.active rfl
        simp only [hactive]
        exact moved_tells reached _

theorem isClosed_reseek (scanner : Scanner σ φ) (supply : Option (Supply σ)) (key : Cell) :
    (scanner.reseek supply key).value.2.isClosed =
      (scanner.isClosed || endsWith (fun _ => false) (scanner.reseek supply key).value.1) := by
  cases hopen : scanner.isClosed with
  | true =>
      rw [reseek_of_ended (phase_of_isClosed hopen)]
      exact hopen
  | false =>
      have hresync := resync_readies hopen supply
      show Tells (fun _ => false) (scanner.reseek supply key).value
      unfold reseek
      rw [Noted.value_bind]
      generalize (scanner.resync supply).value = resynced at hresync ⊢
      obtain ⟨failure | _, reached⟩ := resynced
      · exact tells_concluding ⟨hresync.fatal, nofun⟩
      · obtain ⟨merge, hactive⟩ : ∃ merge, reached.phase = .active merge := hresync.active rfl
        simp only [hactive]
        split <;> exact moved_tells reached _

omit [CellFilter φ] in
theorem isClosed_sourcesChanged (scanner : Scanner σ φ) :
    scanner.sourcesChanged.value.isClosed = scanner.isClosed := by
  unfold sourcesChanged
  split
  next merge hactive =>
    split
    · rfl
    · rw [isClosed, isClosed, hactive]
      rfl
  next => rfl

theorem isClosed_pages (supply : Option (Supply σ)) (limit : ReadLimit) (count : Nat)
    (scanner : Scanner σ φ) : (Scanner.pages supply limit count scanner).value.2.isClosed =
      (scanner.isClosed ||
        (Scanner.pages supply limit count scanner).value.1.any (endsWith Page.isLast)) := by
  induction count generalizing scanner with
  | zero => exact (Bool.or_false _).symm
  | succ count ih =>
      have hnext := isClosed_next scanner supply limit
      rw [pages, Noted.value_bind]
      generalize (scanner.next supply limit).value = answered at hnext ⊢
      obtain ⟨failure | ⟨cells, _ | _⟩, reached⟩ := answered
      · simpa using hnext
      · simpa using hnext
      · simp only [Noted.value_bind, Noted.value_pure, List.any_cons]
        rw [ih, show reached.isClosed = _ from hnext, Bool.or_assoc]

/-- A scanner has ended after something was asked of it just if it had before, or if the reply
says so. -/
theorem isClosed_call (scanner : Scanner σ φ) (call : ScannerCall σ) :
    (scanner.call call).value.2.isClosed =
      (scanner.isClosed || (scanner.call call).value.1.ends) := by
  cases call with
  | next supply limit => exact isClosed_next scanner supply limit
  | seek supply key => exact isClosed_seek scanner supply key
  | reseek supply key => exact isClosed_reseek scanner supply key
  | sourcesChanged => exact (isClosed_sourcesChanged scanner).trans (Bool.or_false _).symm
  | close => exact scanner.isClosed_release.trans (Bool.or_true _).symm

/-- A scan goes on until a reply says that it has ended. -/
theorem isClosed_calls (calls : List (ScannerCall σ)) (scanner : Scanner σ φ) :
    (Scanner.calls calls scanner).value.2.isClosed =
      (scanner.isClosed || (Scanner.calls calls scanner).value.1.any ScannerReply.ends) := by
  induction calls generalizing scanner with
  | nil => exact (Bool.or_false _).symm
  | cons call rest ih =>
      simp only [Scanner.calls, Noted.value_bind, Noted.value_pure, List.any_cons]
      rw [ih, isClosed_call, Bool.or_assoc]

end Scanner

end MergeScan
