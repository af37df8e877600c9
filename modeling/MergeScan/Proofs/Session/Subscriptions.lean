import MergeScan.Proofs.Matcher.Asks
import MergeScan.Proofs.Scanner.Preserved
import MergeScan.Session.Desk

/-! # Who stays subscribed

Only the end of a scan ends a subscription. A scanner that is read is told about changes
under its number afterwards as well, or it has ended.
-/

namespace MergeScan

/-- Whether something is done without a subscription being ended. -/
def Noted.Quiet {α : Type} (noted : Noted α) : Prop :=
  endedSubscriptions noted.notes = []

namespace Noted

variable {α β : Type}

@[simp] theorem quiet_pure (value : α) : (pure value : Noted α).Quiet := rfl

@[simp] theorem quiet_bind (first : Noted α) (next : α → Noted β) :
    (first >>= next).Quiet ↔ first.Quiet ∧ (next first.value).Quiet := by
  simp [Quiet, endedSubscriptions]

theorem Quiet.bind {first : Noted α} {next : α → Noted β} (hfirst : first.Quiet)
    (hnext : ∀ value, (next value).Quiet) : (first >>= next).Quiet :=
  (quiet_bind first next).mpr ⟨hfirst, hnext _⟩

@[simp] theorem quiet_map (change : α → β) (noted : Noted α) :
    (change <$> noted).Quiet ↔ noted.Quiet := by
  simp [Quiet]

@[simp] theorem quiet_raise (event : Event) : (raise event).Quiet := rfl

@[simp] theorem quiet_use {σ : Type} [Source σ] (call : SourceCall) (source : σ)
    (operation : σ → Except SourceError α × σ) : (use call source operation).Quiet := rfl

@[simp] theorem quiet_noteAll_opened {σ : Type} [Source σ] (sources : List σ) :
    (noteAll (sources.map fun source => .opened (Source.origin source))).Quiet := by
  simp [Quiet, noteAll, endedSubscriptions]

/-- To ask a filter ends no subscription. -/
theorem Asks.quiet {noted : Noted α} (hasks : noted.Asks) : noted.Quiet := by
  rw [Quiet, endedSubscriptions, List.filterMap_eq_nil_iff]
  intro note hnote
  obtain ⟨call, rfl⟩ := hasks note hnote
  rfl

end Noted

theorem count_endedSubscriptions (notes : List Note) (number : Nat) :
    (endedSubscriptions notes).count number = notes.countP (· = .unsubscribed number) := by
  rw [endedSubscriptions, List.count, List.countP_filterMap]
  refine List.countP_congr fun note _ => ?_
  cases note <;> simp

/-! ## Sources and merges -/

/-- A way to position a source that ends no subscription. -/
def Positioning.Quiet {σ : Type} (positioning : Positioning σ) : Prop :=
  ∀ source key, (positioning source key).Quiet

namespace Positioning

variable {σ : Type} [Source σ]

theorem seek_quiet : Quiet (seek : Positioning σ) := fun _ _ => rfl

theorem reseek_quiet : Quiet (reseek : Positioning σ) := fun _ _ => rfl

theorem exactly_quiet (forward : Bool) : Quiet (exactly forward : Positioning σ) := by
  intro source key
  unfold exactly
  split
  · rfl
  · split <;> rfl

end Positioning

section

variable {σ : Type} [Source σ] {positioning : Positioning σ} {key : Cell}

@[simp] theorem closeAll_quiet (sources : List σ) : (closeAll sources).Quiet := by
  induction sources with
  | nil => rfl
  | cons source rest ih => simp [closeAll, ih]

omit [Source σ] in
theorem placeEach_quiet (hpositioning : positioning.Quiet) (sources : List σ) :
    (placeEach positioning key sources).Quiet := by
  induction sources with
  | nil => rfl
  | cons source rest ih =>
      refine Noted.Quiet.bind (hpositioning source key) ?_
      rintro ⟨_ | _, source⟩ <;> simp [ih]

theorem placeAll_quiet (hpositioning : positioning.Quiet) (sources : List σ) :
    (placeAll positioning key sources).Quiet := by
  refine Noted.Quiet.bind (placeEach_quiet hpositioning sources) ?_
  rintro ⟨_ | _, sources⟩ <;> simp

@[simp] theorem askFor_quiet (supply : Supply σ) (request : SourceRequest) :
    (askFor supply request).Quiet := by
  refine Noted.Quiet.bind rfl fun _ => ?_
  split <;> simp

end

namespace Merge

variable {σ : Type} [Source σ] {positioning : Positioning σ}

@[simp] theorem release_quiet (merge : Merge σ) (source : σ) : (merge.release source).Quiet := by
  refine Noted.Quiet.bind rfl ?_
  rintro ⟨_ | _, closed⟩ <;> simp

@[simp] theorem takeIn_quiet (merge : Merge σ) (source : σ) : (merge.takeIn source).Quiet := by
  unfold takeIn
  split <;> simp

@[simp] theorem takeInAll_quiet (merge : Merge σ) (sources : List σ) :
    (merge.takeInAll sources).Quiet := by
  induction sources generalizing merge with
  | nil => rfl
  | cons source rest ih => simp [takeInAll, ih]

@[simp] theorem ofSources_quiet (order : CellOrder) (sources : List σ) :
    (ofSources order sources).Quiet := by
  simp [ofSources]

@[simp] theorem settle_quiet (merge : Merge σ) (source : σ) : (merge.settle source).Quiet := by
  unfold settle
  split
  · simp
  · dsimp only
    split
    · split <;> simp
    · simp

@[simp] theorem advance_quiet (merge : Merge σ) : merge.advance.Quiet := by
  unfold advance
  split
  · simp
  · refine Noted.Quiet.bind rfl ?_
    rintro ⟨_ | _, source⟩ <;> simp

theorem skipTo_quiet (hpositioning : positioning.Quiet) (key : Cell) (turns : Nat)
    (merge : Merge σ) : (skipTo positioning key turns merge).Quiet := by
  induction turns generalizing merge with
  | zero => rfl
  | succ turns ih =>
      unfold skipTo
      split
      · rfl
      · dsimp only
        split
        · rfl
        · refine Noted.Quiet.bind (hpositioning _ key) ?_
          rintro ⟨_ | _, source⟩ <;> simp [ih]

theorem moveForward_quiet (hpositioning : positioning.Quiet) (merge : Merge σ) (key : Cell) :
    (merge.moveForward positioning key).Quiet := by
  unfold moveForward
  split
  · simp
  · exact skipTo_quiet hpositioning _ _ _

@[simp] theorem releaseWaiting_quiet (turns : Nat) (merge : Merge σ) :
    (releaseWaiting turns merge).Quiet := by
  induction turns generalizing merge with
  | zero => rfl
  | succ turns ih =>
      unfold releaseWaiting
      split <;> simp [ih]

@[simp] theorem close_quiet (merge : Merge σ) : merge.close.Quiet := by
  have hcurrent : merge.releaseCurrent.Quiet := by
    unfold releaseCurrent
    split <;> simp
  simp [close, hcurrent]

end Merge

/-! ## Matchers and passes -/

namespace Matcher

variable {φ : Type} [CellFilter φ]

@[simp] theorem enterRow_quiet (matcher : Matcher φ) (row : Bytes) :
    (matcher.enterRow row).Quiet :=
  (matcher.enterRow_asks row).quiet

@[simp] theorem decide_quiet (matcher : Matcher φ) (cell : Cell) : (matcher.decide cell).Quiet :=
  (matcher.decide_asks cell).quiet

@[simp] theorem reshape_quiet (matcher : Matcher φ) (cell : Cell) :
    (matcher.reshape cell).Quiet :=
  (matcher.reshape_asks cell).quiet

@[simp] theorem completeRow_quiet (matcher : Matcher φ) (cells : List Cell) :
    (matcher.completeRow cells).Quiet :=
  (matcher.completeRow_asks cells).quiet

end Matcher

namespace ReadState

variable {σ φ : Type} [Source σ] [CellFilter φ]

omit [CellFilter φ] in
@[simp] theorem moveTo_quiet (state : ReadState σ φ) (key : Cell) : (state.moveTo key).Quiet := by
  unfold moveTo
  split
  · exact .bind (Merge.moveForward_quiet (Positioning.exactly_quiet true) _ _) fun _ => rfl
  · exact .bind (Merge.moveForward_quiet Positioning.reseek_quiet _ _) fun _ => rfl

@[simp] theorem turn_quiet (state : ReadState σ φ) (previous : Option Cell) (cell : Cell) :
    (state.turn previous cell).Quiet := by
  have hrow : ∀ (state : ReadState σ φ) emitted, (state.leaveRow cell emitted).Quiet := by
    intro state emitted
    unfold leaveRow
    split <;> simp
  have hfollow : ∀ (state : ReadState σ φ) decision, (state.follow cell decision).Quiet := by
    intro state decision
    unfold follow
    split <;> simp [leaveCell, leaveColumn, takeTop, hrow]
    split <;> simp
  unfold turn
  split
  · simp
  · refine Noted.Quiet.bind (state.matcher.decide_quiet cell) ?_
    rintro ⟨_ | decision, matcher⟩
    · rfl
    · exact hfollow _ _

@[simp] theorem turns_quiet (previous : Option Cell) (limit : Option Nat) (fuel : Nat)
    (state : ReadState σ φ) : (turns previous limit fuel state).Quiet := by
  induction fuel generalizing previous limit state with
  | zero => rfl
  | succ fuel ih =>
      unfold turns
      split
      · rfl
      · refine Noted.Quiet.bind (turn_quiet _ _ _) ?_
        rintro ⟨_ | _ | _, state⟩
        · rfl
        · dsimp only
          split <;> simp [ih]
        · rfl

end ReadState

/-! ## Scanners -/

namespace Scanner

variable {σ φ : Type} [Source σ] [CellFilter φ] {scanner : Scanner σ φ}

/-- Whether a scan has ended, and with it the subscription. -/
def Ended (scanner : Scanner σ φ) : Prop :=
  scanner.phase = .closed ∧ scanner.subscription = none

/-- What is done to a scanner ends no subscription, unless it ends the scan. -/
def Holds {α : Type} (scanner : Scanner σ φ) (outcome : Noted (α × Scanner σ φ)) : Prop :=
  outcome.Quiet ∧ outcome.value.2.subscription = scanner.subscription ∨ outcome.value.2.Ended

omit [CellFilter φ] in
theorem release_ended (scanner : Scanner σ φ) : scanner.release.value.Ended := by
  have hclosed : scanner.closeSources.value.phase = .closed := by
    unfold closeSources
    split <;> rfl
  unfold release
  rw [Noted.value_bind, Noted.value_bind]
  split <;> exact ⟨hclosed, rfl⟩

omit [Source σ] in
theorem enterRow_quiet (scanner : Scanner σ φ) (row : Bytes) :
    (scanner.enterRow row).Quiet ∧
      (scanner.enterRow row).value.subscription = scanner.subscription := by
  unfold enterRow
  split
  · exact ⟨rfl, rfl⟩
  · exact ⟨.bind (scanner.matcher.enterRow_quiet row) fun _ => rfl, rfl⟩

theorem resync_holds (scanner : Scanner σ φ) (supply : Option (Supply σ)) :
    (scanner.resync supply).Quiet ∧
      (scanner.resync supply).value.2.subscription = scanner.subscription := by
  have hrebuild : ∀ key, (scanner.rebuild supply key).Quiet := by
    intro key
    unfold rebuild
    split
    · rfl
    · refine Noted.Quiet.bind (askFor_quiet _ _) ?_
      rintro (_ | sources)
      · rfl
      · cases key with
        | none => simp
        | some key =>
            refine Noted.Quiet.bind (placeAll_quiet Positioning.seek_quiet sources) ?_
            rintro (_ | sources) <;> simp
  unfold resync
  split
  next key hphase =>
    rw [Noted.value_bind]
    constructor
    · refine Noted.Quiet.bind (hrebuild _) ?_
      rintro (_ | merge)
      · rfl
      · exact .bind (scanner.enterRow_quiet _).1 fun _ => .bind rfl fun _ => rfl
    · split
      · rfl
      · exact (scanner.enterRow_quiet _).2
  next => exact ⟨rfl, rfl⟩

omit [Source σ] [CellFilter φ] in
theorem Holds.bind {α β : Type} {first : Noted α} {next : α → Noted (β × Scanner σ φ)}
    (hfirst : first.Quiet) (hnext : scanner.Holds (next first.value)) :
    scanner.Holds (first >>= next) :=
  hnext.imp_left fun ⟨hquiet, hsame⟩ => ⟨(Noted.quiet_bind first next).mpr ⟨hfirst, hquiet⟩, hsame⟩

omit [Source σ] [CellFilter φ] in
theorem Holds.pure {α : Type} {reached : Scanner σ φ} (answer : α)
    (hsame : reached.subscription = scanner.subscription) :
    scanner.Holds (Pure.pure (answer, reached)) :=
  .inl ⟨rfl, hsame⟩

omit [CellFilter φ] in
theorem Holds.release {α : Type} (reached : Scanner σ φ) (answer : α) :
    scanner.Holds (reached.release >>= fun released => Pure.pure (answer, released)) :=
  .inr (release_ended reached)

omit [CellFilter φ] in
theorem handOut_holds {reached : Scanner σ φ}
    (hsame : reached.subscription = scanner.subscription) (cells : List Cell) (ended : Bool) :
    scanner.Holds (reached.handOut cells ended) := by
  unfold handOut
  split
  · exact .release reached _
  · exact .pure _ hsame

theorem read_holds (scanner : Scanner σ φ) (merge : Merge σ) (first : Cell) (limit : Option Nat) :
    scanner.Holds (scanner.read merge first limit) := by
  obtain ⟨hquiet, hsame⟩ := scanner.enterRow_quiet first.row
  unfold read
  refine .bind hquiet ?_
  generalize (scanner.enterRow first.row).value = entered at hsame ⊢
  refine .bind (ReadState.turns_quiet _ _ _ _) ?_
  generalize (ReadState.pass ⟨merge, entered.matcher⟩ limit).value = passed
  obtain ⟨_ | ⟨cells, ending⟩, state⟩ := passed
  · exact .pure _ hsame
  · let reached (matcher : Matcher φ) : Scanner σ φ :=
      { entered with phase := .active state.merge, matcher }
    have hreached (matcher : Matcher φ) : (reached matcher).subscription = scanner.subscription :=
      hsame
    dsimp only
    split
    · exact .bind (Matcher.completeRow_quiet _ _) (handOut_holds (hreached _) _ _)
    · exact .bind rfl (handOut_holds (hreached _) _ _)

theorem fill_holds (scanner : Scanner σ φ) (supply : Option (Supply σ)) (limit : Option Nat) :
    scanner.Holds (scanner.fill supply limit) := by
  obtain ⟨hquiet, hsame⟩ := scanner.resync_holds supply
  unfold fill
  refine .bind hquiet ?_
  generalize (scanner.resync supply).value = resynced at hsame ⊢
  obtain ⟨_ | _, reached⟩ := resynced
  · exact .pure _ hsame
  · dsimp only
    split
    · split
      · have hread := reached.read_holds
        unfold Holds at hread
        rw [hsame] at hread
        exact hread _ _ _
      · exact .release reached _
    · exact .pure _ hsame

/-- A read keeps the subscription of a scanner, or ends the scan. -/
theorem next_holds (scanner : Scanner σ φ) (supply : Option (Supply σ)) (limit : ReadLimit) :
    scanner.Holds (scanner.next supply limit) := by
  unfold next
  split
  · exact .pure _ rfl
  · have hfill := scanner.fill_holds supply (scanner.limitOf limit)
    rcases hfill with ⟨hquiet, hsame⟩ | hended
    · refine .bind hquiet ?_
      generalize (scanner.fill supply (scanner.limitOf limit)).value = filled at hsame ⊢
      obtain ⟨_ | _, reached⟩ := filled
      · exact .inr (release_ended reached)
      · exact .pure _ hsame
    · right
      rw [Noted.value_bind]
      unfold concluding
      split
      next heq =>
        rw [heq] at hended
        exact hended
      next reached _ => exact release_ended reached

/-- A scanner that has ended does nothing any more, and only refuses a limit. -/
theorem next_of_ended (hphase : scanner.phase = .closed) (supply : Option (Supply σ))
    (limit : ReadLimit) :
    scanner.next supply limit = pure ((scanner.matcher.refuses (scanner.limitOf limit)).elim
      (.ok ⟨[], false⟩) .error, scanner) := by
  have hresync : scanner.resync supply = pure (.ok (), scanner) := by rw [resync, hphase]
  unfold next
  cases scanner.matcher.refuses (scanner.limitOf limit) with
  | some failure => rfl
  | none =>
      rw [fill, hresync, pure_bind]
      simp only [hphase]
      rfl

omit [CellFilter φ] in
/-- A scanner that learns of a change stays subscribed. -/
theorem sourcesChanged_holds (scanner : Scanner σ φ) :
    scanner.sourcesChanged.Quiet ∧
      scanner.sourcesChanged.value.subscription = scanner.subscription := by
  unfold sourcesChanged
  split
  · split
    · exact ⟨rfl, rfl⟩
    · exact ⟨.bind (Merge.close_quiet _) fun _ => .bind rfl fun _ => rfl, rfl⟩
  · exact ⟨rfl, rfl⟩

theorem open_quiet (family : Family) (supply : Supply σ) (subscription : Nat) (scan : Scan φ) :
    (Scanner.open family supply subscription scan).Quiet := by
  have hplaced : ∀ sources : List σ, (placeAll (opening (Matcher.ofScan family scan))
      (Matcher.ofScan family scan).startKey sources).Quiet := by
    intro sources
    apply placeAll_quiet
    unfold opening
    split
    · exact Positioning.exactly_quiet false
    · exact Positioning.seek_quiet
  unfold Scanner.open
  split
  · exact Noted.quiet_pure _
  · refine Noted.Quiet.bind (askFor_quiet supply scan.request) ?_
    rintro (_ | sources)
    · exact Noted.quiet_pure _
    · refine Noted.Quiet.bind (hplaced sources) ?_
      rintro (_ | placed)
      · exact Noted.quiet_pure _
      · exact .bind (Merge.ofSources_quiet _ placed) fun _ => .bind rfl fun _ => rfl

/-- A scan that was opened is told about changes. -/
theorem subscription_of_open {family : Family} {supply : Supply σ} {subscription : Nat}
    {scan : Scan φ} (hopen : (Scanner.open family supply subscription scan).value = .ok scanner) :
    scanner.subscription = some subscription := by
  unfold Scanner.open at hopen
  split at hopen
  · cases hopen
  · simp only [Noted.value_bind] at hopen
    split at hopen
    · cases hopen
    · simp only [Noted.value_bind] at hopen
      split at hopen
      · cases hopen
      · cases hopen
        rfl

end Scanner

end MergeScan
