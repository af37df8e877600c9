import MergeScan.Proofs.Matcher.Asks
import MergeScan.Proofs.Merge.Twins
import MergeScan.Proofs.Scanner.Life

/-! # Scanners in step

Two scanners of one scan over different sources are twins if their merges are. Whatever is asked
of both of them, they reply the same and stay twins, and their journals go on alike: a turn
decides about the same cell in both, and a failure or an end comes to both at the same time.
-/

namespace MergeScan

variable {σ τ φ : Type} [Source σ] [Source τ] [CellFilter φ] {similar : Note → Note → Prop}
variable {related : σ → τ → Prop}

/-- What only asks a filter is its own twin. -/
theorem Source.Twins.asks {α : Type} (hsources : Source.Twins similar related) {noted : Noted α}
    (hasks : noted.Asks) : noted.Twins similar Eq noted := by
  refine ⟨rfl, List.forall₂_same.mpr fun note hnote => ?_⟩
  obtain ⟨call, rfl⟩ := hasks note hnote
  exact hsources.aside _ nofun

theorem Source.Twins.noteAll (hsources : Source.Twins similar related) {notes : List Note}
    (hnotes : ∀ note ∈ notes, ∀ origin call failure, note ≠ .called origin call failure) :
    (Noted.noteAll notes).Twins similar (fun _ _ => True) (Noted.noteAll notes) :=
  ⟨trivial, List.forall₂_same.mpr fun note hnote => hsources.aside note (hnotes note hnote)⟩

/-! ## Taking sources -/

/-- Providers that answer a request with related sources, or fail alike. -/
def Supply.Twins (related : σ → τ → Prop) (request : SourceRequest) (left : Supply σ)
    (right : Supply τ) : Prop :=
  Agree (List.Forall₂ related) (left request) (right request)

section Supply

variable {positioning : Positioning σ} {other : Positioning τ} {sources : List σ} {others : List τ}

theorem closeAll_twins (hsources : Source.Twins similar related)
    (hrelated : List.Forall₂ related sources others) :
    (closeAll sources).Twins similar Eq (closeAll others) := by
  induction hrelated with
  | nil => exact .pure rfl
  | cons hfirst _ ih =>
      refine (hsources.close _ _ hfirst).bind ?_
      rintro ⟨result, closed⟩ ⟨_, gone⟩ ⟨rfl, -, -⟩
      refine ih.bind ?_
      rintro failures _ rfl
      exact .pure rfl

omit [Source σ] [Source τ] in
theorem placeEach_twins (hpositioning : Positioning.Twins similar related positioning other)
    (key : Cell) (hrelated : List.Forall₂ related sources others) :
    (placeEach positioning key sources).Twins similar
      (fun left right => left.1 = right.1 ∧ List.Forall₂ related left.2 right.2)
      (placeEach other key others) := by
  induction hrelated with
  | nil => exact .pure ⟨rfl, .nil⟩
  | cons hfirst hrest ih =>
      refine (hpositioning _ _ key hfirst).bind ?_
      rintro ⟨result, moved⟩ ⟨answer, gone⟩ ⟨hagree, hmoved⟩
      cases hagree with
      | ok =>
          refine ih.bind ?_
          rintro ⟨failure, placed⟩ ⟨_, given⟩ ⟨rfl, hplaced⟩
          exact .pure ⟨rfl, .cons hmoved hplaced⟩
      | error failure => exact .pure ⟨rfl, .cons hmoved hrest⟩

theorem placeAll_twins (hsources : Source.Twins similar related)
    (hpositioning : Positioning.Twins similar related positioning other) (key : Cell)
    (hrelated : List.Forall₂ related sources others) :
    (placeAll positioning key sources).Twins similar (Agree (List.Forall₂ related))
      (placeAll other key others) := by
  refine (placeEach_twins hpositioning key hrelated).bind ?_
  rintro ⟨failure, placed⟩ ⟨_, given⟩ ⟨rfl, hplaced⟩
  cases failure with
  | none => exact .pure (.ok hplaced)
  | some failure =>
      refine (closeAll_twins hsources hplaced).bind ?_
      rintro failures _ rfl
      exact .pure (.error _)

theorem askFor_twins (hsources : Source.Twins similar related) {left : Supply σ} {right : Supply τ}
    {request : SourceRequest} (hsupply : Supply.Twins related request left right) :
    (askFor left request).Twins similar (Agree (List.Forall₂ related)) (askFor right request) := by
  refine (Noted.Twins.note (hsources.aside (.requested request) nofun)).bind fun _ _ _ => ?_
  unfold Supply.Twins at hsupply
  revert hsupply
  generalize left request = answer, right request = reply
  rintro (@⟨given, taken, hrelated⟩ | failure)
  · have hopened : given.map (fun source => Note.opened (Source.origin source)) =
        taken.map fun source => .opened (Source.origin source) := by
      induction hrelated with
      | nil => rfl
      | cons hfirst _ ih => rw [List.map_cons, List.map_cons, ih, hsources.origin _ _ hfirst]
    dsimp only
    rw [hopened]
    refine (hsources.noteAll fun note hnote => ?_).bind fun _ _ _ => .pure (.ok hrelated)
    obtain ⟨source, -, rfl⟩ := List.mem_map.mp hnote
    nofun
  · exact .pure (.error _)

end Supply

/-! ## Passes -/

/-- States with the same matcher before merges that are twins. -/
structure ReadState.Twins (related : σ → τ → Prop) (left : ReadState σ φ) (right : ReadState τ φ) :
    Prop where
  merge : Merge.Twins related left.merge right.merge
  matcher : left.matcher = right.matcher

namespace ReadState

/-- Outcomes of what is done to two states. -/
def Stepped {ε α : Type} (related : σ → τ → Prop) (left : Except ε α × ReadState σ φ)
    (right : Except ε α × ReadState τ φ) : Prop :=
  left.1 = right.1 ∧ Twins related left.2 right.2

variable {left : ReadState σ φ} {right : ReadState τ φ} {cell key : Cell}

omit [CellFilter φ] in
theorem Twins.takeTop (htwins : Twins related left right)
    (hsources : Source.Twins similar related) :
    left.takeTop.Twins similar (Stepped related) right.takeTop :=
  (htwins.merge.advance hsources).bind fun _ _ hstepped =>
    .pure ⟨hstepped.1, hstepped.2, htwins.matcher⟩

omit [Source σ] [Source τ] [CellFilter φ] in
/-- The merges of two twins are moved alike. -/
theorem Twins.moved (htwins : Twins related left right)
    {first : Noted (Except SourceError Bool × Merge σ)}
    {second : Noted (Except SourceError Bool × Merge τ)}
    (hmoved : first.Twins similar (Merge.Stepped related) second) :
    Noted.Twins similar (Stepped related)
      (first >>= fun outcome => pure (outcome.1, { left with merge := outcome.2 }))
      (second >>= fun outcome => pure (outcome.1, { right with merge := outcome.2 })) :=
  hmoved.bind fun _ _ hstepped => .pure ⟨hstepped.1, hstepped.2, htwins.matcher⟩

omit [CellFilter φ] in
theorem Twins.moveTo (htwins : Twins related left right)
    (hsources : Source.Twins similar related) (key : Cell) :
    (left.moveTo key).Twins similar (Stepped related) (right.moveTo key) := by
  have hexactly := htwins.moved (htwins.merge.moveForward hsources (hsources.exactly true) key)
  have hplainly := htwins.moved (htwins.merge.moveForward hsources hsources.reseek key)
  simp only [ReadState.moveTo, htwins.matcher] at hexactly hplainly ⊢
  split
  · exact hexactly
  · exact hplainly

omit [Source σ] [Source τ] [CellFilter φ] in
theorem Stepped.after {α : Type} {first : Except SourceError α × ReadState σ φ}
    {second : Except SourceError α × ReadState τ φ} (hstepped : Stepped related first second)
    (emitted : Option Cell) :
    Stepped related (ReadState.after emitted first) (ReadState.after emitted second) := by
  obtain ⟨result, state⟩ := first
  obtain ⟨_, other⟩ := second
  obtain ⟨rfl, hstate⟩ := hstepped
  cases result with
  | ok answer => exact ⟨rfl, hstate⟩
  | error failure => exact ⟨rfl, hstate⟩

omit [CellFilter φ] in
theorem Twins.leaveCell (htwins : Twins related left right)
    (hsources : Source.Twins similar related) (emitted : Option Cell) :
    (left.leaveCell emitted).Twins similar (Stepped related) (right.leaveCell emitted) :=
  (htwins.takeTop hsources).map fun _ _ hstepped => hstepped.after emitted

omit [CellFilter φ] in
theorem Twins.goTo (htwins : Twins related left right) (hsources : Source.Twins similar related)
    (key : Cell) (emitted : Option Cell) :
    (ReadState.after emitted <$> left.moveTo key).Twins similar (Stepped related)
      (ReadState.after emitted <$> right.moveTo key) :=
  (htwins.moveTo hsources key).map fun _ _ hstepped => hstepped.after emitted

omit [CellFilter φ] in
theorem Twins.leaveRow (htwins : Twins related left right)
    (hsources : Source.Twins similar related) (cell : Cell) (emitted : Option Cell) :
    (left.leaveRow cell emitted).Twins similar (Stepped related) (right.leaveRow cell emitted) := by
  have hgoes (key : Cell) := htwins.goTo hsources key emitted
  unfold ReadState.leaveRow
  rw [htwins.matcher]
  split
  · exact hgoes _
  · exact .pure ⟨rfl, htwins⟩

omit [CellFilter φ] in
theorem Twins.leaveColumn (htwins : Twins related left right)
    (hsources : Source.Twins similar related) (cell : Cell) (emitted : Option Cell) :
    (left.leaveColumn cell emitted).Twins similar (Stepped related)
      (right.leaveColumn cell emitted) := by
  unfold ReadState.leaveColumn
  rw [htwins.matcher]
  exact htwins.goTo hsources _ emitted

/-- A cell is handed out as the filter reshapes it, and what follows is done to both. -/
theorem Twins.handOut (htwins : Twins related left right)
    (hsources : Source.Twins similar related)
    {next : Option Cell → Noted (Except ScanError Turn × ReadState σ φ)}
    {other : Option Cell → Noted (Except ScanError Turn × ReadState τ φ)}
    (hnext : ∀ emitted, (next emitted).Twins similar (Stepped related) (other emitted)) :
    (left.matcher.reshape cell >>= fun emitted => next (some emitted)).Twins similar
      (Stepped related) (right.matcher.reshape cell >>= fun emitted => other (some emitted)) := by
  rw [htwins.matcher]
  refine (hsources.asks (right.matcher.reshape_asks cell)).bind ?_
  rintro emitted _ rfl
  exact hnext (some emitted)

theorem Twins.follow (htwins : Twins related left right)
    (hsources : Source.Twins similar related) (cell : Cell) (decision : Decision) :
    (left.follow cell decision).Twins similar (Stepped related) (right.follow cell decision) := by
  cases decision with
  | emit => exact htwins.handOut hsources fun emitted => htwins.leaveCell hsources emitted
  | emitThenNextColumn =>
      exact htwins.handOut hsources fun emitted => htwins.leaveColumn hsources cell emitted
  | emitThenNextRow =>
      exact htwins.handOut hsources fun emitted => htwins.leaveRow hsources cell emitted
  | skip => exact htwins.leaveCell hsources none
  | nextColumn => exact htwins.leaveColumn hsources cell none
  | nextRow => exact htwins.leaveRow hsources cell none
  | seekTo key =>
      simp only [ReadState.follow, htwins.merge.order]
      split
      · exact htwins.goTo hsources key none
      · exact htwins.leaveCell hsources none
  | rowDone => exact .pure ⟨rfl, htwins⟩
  | scanDone => exact .pure ⟨rfl, htwins⟩

theorem Twins.turn (htwins : Twins related left right) (hsources : Source.Twins similar related)
    (previous : Option Cell) (cell : Cell) :
    (left.turn previous cell).Twins similar (Stepped related) (right.turn previous cell) := by
  unfold ReadState.turn
  rw [htwins.merge.order]
  split
  · exact (hsources.raise _).bind fun _ _ _ => .pure ⟨rfl, htwins⟩
  · rw [htwins.matcher]
    refine (hsources.asks (right.matcher.decide_asks cell)).bind ?_
    rintro ⟨result, matcher⟩ _ rfl
    have hdecided : Twins related { left with matcher } { right with matcher } :=
      ⟨htwins.merge, rfl⟩
    cases result with
    | error failure => exact .pure ⟨rfl, hdecided⟩
    | ok decision => exact hdecided.follow hsources cell decision

omit [Source σ] [Source τ] [CellFilter φ] in
theorem Stepped.prepend {first : Except ScanError (List Cell × PassEnd) × ReadState σ φ}
    {second : Except ScanError (List Cell × PassEnd) × ReadState τ φ}
    (hstepped : Stepped related first second) (emitted : Option Cell) :
    Stepped related (ReadState.prepend emitted first) (ReadState.prepend emitted second) := by
  refine ⟨?_, hstepped.2⟩
  rw [ReadState.prepend, ReadState.prepend, hstepped.1]

theorem Twins.turns (htwins : Twins related left right) (hsources : Source.Twins similar related)
    (previous : Option Cell) (limit : Option Nat) (fuel : Nat) :
    (turns previous limit fuel left).Twins similar (Stepped related)
      (turns previous limit fuel right) := by
  induction fuel generalizing left right previous limit with
  | zero => exact .pure ⟨rfl, htwins⟩
  | succ fuel ih =>
      unfold ReadState.turns
      rw [htwins.merge.peek_eq]
      split
      · exact .pure ⟨rfl, htwins⟩
      next cell _ =>
        refine (htwins.turn hsources previous cell).bind ?_
        rintro ⟨result, state⟩ ⟨_, other⟩ ⟨rfl, hstate⟩
        match result with
        | .error failure => exact .pure ⟨rfl, hstate⟩
        | .ok (.stop emitted ending) => exact .pure ⟨rfl, hstate⟩
        | .ok (.goOn emitted) =>
            dsimp only
            split
            · exact .pure ⟨rfl, hstate⟩
            · exact (ih hstate _ _).map fun _ _ hstepped => hstepped.prepend emitted

theorem Twins.pass (htwins : Twins related left right) (hsources : Source.Twins similar related)
    (limit : Option Nat) :
    (left.pass limit).Twins similar (Stepped related) (right.pass limit) := by
  unfold ReadState.pass
  rw [htwins.merge.cellCount_eq hsources]
  exact htwins.turns hsources none limit _

end ReadState

/-! ## Scanners -/

/-- The same phase of two scanners. -/
inductive Phase.Twins (related : σ → τ → Prop) : Phase σ → Phase τ → Prop
  | active {left : Merge σ} {right : Merge τ} :
      Merge.Twins related left right → Twins related (.active left) (.active right)
  | resync (resumeAt : Cell) : Twins related (.resync resumeAt) (.resync resumeAt)
  | closed : Twins related .closed .closed

/-- Scanners that differ in nothing but the sources of their merges, and ask for sources by the
same request. -/
structure Scanner.Twins (related : σ → τ → Prop) (request : SourceRequest) (left : Scanner σ φ)
    (right : Scanner τ φ) : Prop where
  phase : Phase.Twins related left.phase right.phase
  matcher : left.matcher = right.matcher
  asks : left.request = request
  otherAsks : right.request = request
  order : left.order = right.order
  batch : left.batch = right.batch
  subscription : left.subscription = right.subscription
  suppressed : left.suppressed = right.suppressed

/-- The same call on scanners whose providers hand out related sources. -/
inductive ScannerCall.Twins (related : σ → τ → Prop) (request : SourceRequest) :
    ScannerCall σ → ScannerCall τ → Prop
  | next {left : Option (Supply σ)} {right : Option (Supply τ)} (limit : ReadLimit) :
      Option.Rel (Supply.Twins related request) left right →
        Twins related request (.next left limit) (.next right limit)
  | seek {left : Option (Supply σ)} {right : Option (Supply τ)} (key : Cell) :
      Option.Rel (Supply.Twins related request) left right →
        Twins related request (.seek left key) (.seek right key)
  | reseek {left : Option (Supply σ)} {right : Option (Supply τ)} (key : Cell) :
      Option.Rel (Supply.Twins related request) left right →
        Twins related request (.reseek left key) (.reseek right key)
  | sourcesChanged : Twins related request .sourcesChanged .sourcesChanged
  | close : Twins related request .close .close

namespace Scanner

/-- Outcomes of what is asked of two scanners. -/
def Stepped {α : Type} (related : σ → τ → Prop) (request : SourceRequest) (left : α × Scanner σ φ)
    (right : α × Scanner τ φ) : Prop :=
  left.1 = right.1 ∧ Twins related request left.2 right.2

variable {request : SourceRequest} {left : Scanner σ φ} {right : Scanner τ φ}
    {supply : Option (Supply σ)}
variable {other : Option (Supply τ)}

omit [CellFilter φ] in
theorem opening_twins (hsources : Source.Twins similar related) (matcher : Matcher φ) :
    Positioning.Twins similar related (opening matcher) (opening matcher) := by
  unfold opening
  split
  · exact hsources.exactly false
  · exact hsources.seek

omit [Source σ] [Source τ] [CellFilter φ] in
theorem Twins.isClosed_eq (htwins : Twins related request left right) :
    left.isClosed = right.isClosed := by
  have hphase := htwins.phase
  unfold isClosed
  revert hphase
  generalize left.phase = phase, right.phase = another
  rintro (_ | _ | _) <;> rfl

omit [CellFilter φ] in
theorem Twins.closeSources (htwins : Twins related request left right)
    (hsources : Source.Twins similar related) :
    left.closeSources.Twins similar (Twins related request) right.closeSources := by
  have hphase := htwins.phase
  have hclosed : Twins related request { left with phase := .closed }
      { right with phase := .closed } :=
    { htwins with phase := .closed }
  unfold Scanner.closeSources
  revert hphase
  generalize left.phase = phase, right.phase = another
  rintro (hmerge | _ | _)
  · refine (hmerge.close hsources).bind ?_
    rintro ⟨failures, _⟩ ⟨_, _⟩ ⟨rfl, -⟩
    exact .pure { hclosed with suppressed := congrArg (· ++ failures) htwins.suppressed }
  · exact .pure hclosed
  · exact .pure hclosed

omit [CellFilter φ] in
theorem Twins.release (htwins : Twins related request left right)
    (hsources : Source.Twins similar related) :
    left.release.Twins similar (Twins related request) right.release := by
  refine (htwins.closeSources hsources).bind fun first second hclosed => ?_
  have hunsubscribed :
      first.unsubscribe.Twins similar (Twins related request) second.unsubscribe := by
    unfold unsubscribe
    rw [hclosed.subscription]
    refine (hsources.noteAll fun note hnote => ?_).bind fun _ _ _ =>
      .pure { hclosed with subscription := rfl }
    obtain ⟨number, -, rfl⟩ := List.mem_map.mp hnote
    nofun
  refine hunsubscribed.bind fun released gone hreleased => ?_
  rw [htwins.isClosed_eq, hreleased.suppressed]
  split
  · exact .pure hreleased
  · exact (hsources.raise _).bind fun _ _ _ => .pure hreleased

omit [CellFilter φ] in
theorem Twins.concluding {α : Type} {first : Except ScanError α × Scanner σ φ}
    {second : Except ScanError α × Scanner τ φ} (hstepped : Stepped related request first second)
    (hsources : Source.Twins similar related) :
    (concluding first).Twins similar (Stepped related request) (concluding second) := by
  obtain ⟨result, reached⟩ := first
  obtain ⟨_, gone⟩ := second
  obtain ⟨rfl, hreached⟩ := hstepped
  cases result with
  | ok answer => exact .pure ⟨rfl, hreached⟩
  | error failure =>
      have haborted : (reached.abort failure).Twins similar (Stepped related request)
          (gone.abort failure) := by
        refine (hreached.release hsources).bind fun released ended hreleased => ?_
        rw [hreleased.suppressed]
        exact (hsources.raise _).bind fun _ _ _ => .pure ⟨rfl, { hreleased with suppressed := rfl }⟩
      refine haborted.bind ?_
      rintro ⟨cause, ended⟩ ⟨_, closed⟩ ⟨rfl, hended⟩
      exact .pure ⟨rfl, hended⟩

omit [CellFilter φ] in
theorem Twins.rebuild (htwins : Twins related request left right)
    (hsources : Source.Twins similar related)
    (hsupply : Option.Rel (Supply.Twins related request) supply other)
    (resumeAt : Option Cell) :
    (left.rebuild supply resumeAt).Twins similar (Agree (Merge.Twins related))
      (right.rebuild other resumeAt) := by
  cases hsupply with
  | none => exact .pure (.error _)
  | some hsupply =>
      unfold Scanner.rebuild
      rw [htwins.asks, htwins.otherAsks, htwins.order]
      refine (askFor_twins hsources hsupply).bind ?_
      rintro _ _ (@⟨sources, others, hgiven⟩ | failure)
      · have hmerged {placed : List σ} {given : List τ}
            (hplaced : List.Forall₂ related placed given) :
            (Except.ok <$> Merge.ofSources right.order placed).Twins similar
              (Agree (Merge.Twins related) (ε := ScanError))
              (Except.ok <$> Merge.ofSources right.order given) :=
          (Merge.ofSources_twins hsources _ hplaced).map fun _ _ hmerge => .ok hmerge
        cases resumeAt with
        | some key =>
            refine (placeAll_twins hsources hsources.seek key hgiven).bind ?_
            rintro _ _ (hplaced | failure)
            · exact hmerged hplaced
            · exact .pure (.error _)
        | none => exact hmerged hgiven
      · exact .pure (.error _)

theorem Twins.enterRow (htwins : Twins related request left right)
    (hsources : Source.Twins similar related) (row : Bytes) :
    (left.enterRow row).Twins similar (Twins related request) (right.enterRow row) := by
  unfold Scanner.enterRow
  rw [htwins.matcher]
  split
  · exact .pure htwins
  · refine (hsources.asks (right.matcher.enterRow_asks row)).bind ?_
    rintro matcher _ rfl
    exact .pure { htwins with matcher := rfl }

theorem Twins.resync (htwins : Twins related request left right)
    (hsources : Source.Twins similar related)
    (hsupply : Option.Rel (Supply.Twins related request) supply other) :
    (left.resync supply).Twins similar (Stepped related request) (right.resync other) := by
  have hphase := htwins.phase
  have hrebuilt (key : Cell) := htwins.rebuild hsources hsupply (some key)
  unfold Scanner.resync
  revert hphase
  generalize left.phase = phase, right.phase = another
  rintro (_ | key | _)
  · exact .pure ⟨rfl, htwins⟩
  · refine (hrebuilt key).bind ?_
    rintro _ _ (@⟨merge, rebuilt, hmerge⟩ | failure)
    · dsimp only
      rw [hmerge.peek_eq, hmerge.size_eq, htwins.matcher]
      refine (htwins.enterRow hsources _).bind fun entered gone hentered => ?_
      exact (hsources.raise _).bind fun _ _ _ =>
        .pure ⟨rfl, { hentered with phase := .active hmerge }⟩
    · exact .pure ⟨rfl, { htwins with phase := .closed }⟩
  · exact .pure ⟨rfl, htwins⟩

omit [CellFilter φ] in
theorem Twins.refreshSources (htwins : Twins related request left right)
    (hsources : Source.Twins similar related)
    (hsupply : Option.Rel (Supply.Twins related request) supply other) :
    (left.refreshSources supply).Twins similar (Stepped related request)
      (right.refreshSources other) := by
  have hphase := htwins.phase
  have hrebuilt := htwins.rebuild hsources hsupply none
  unfold Scanner.refreshSources
  revert hphase
  generalize left.phase = phase, right.phase = another
  rintro (_ | key | _)
  · exact .pure ⟨rfl, htwins⟩
  · refine hrebuilt.bind ?_
    rintro _ _ (hmerge | failure)
    · exact .pure ⟨rfl, { htwins with phase := .active hmerge }⟩
    · exact .pure ⟨rfl, htwins⟩
  · exact .pure ⟨rfl, htwins⟩

omit [CellFilter φ] in
theorem Twins.handOut (htwins : Twins related request left right)
    (hsources : Source.Twins similar related) (cells : List Cell) (ended : Bool) :
    (left.handOut cells ended).Twins similar (Stepped related request)
      (right.handOut cells ended) := by
  unfold Scanner.handOut
  split
  · exact (htwins.release hsources).bind fun _ _ hreleased => .pure ⟨rfl, hreleased⟩
  · exact .pure ⟨rfl, htwins⟩

theorem Twins.read (htwins : Twins related request left right)
    (hsources : Source.Twins similar related)
    {merge : Merge σ} {another : Merge τ} (hmerge : Merge.Twins related merge another)
    (first : Cell) (limit : Option Nat) :
    (left.read merge first limit).Twins similar (Stepped related request)
      (right.read another first limit) := by
  refine (htwins.enterRow hsources first.row).bind fun entered gone hentered => ?_
  have hstates : ReadState.Twins related ⟨merge, entered.matcher⟩ ⟨another, gone.matcher⟩ :=
    ⟨hmerge, hentered.matcher⟩
  refine (hstates.pass hsources limit).bind ?_
  rintro ⟨result, state⟩ ⟨_, reached⟩ ⟨rfl, hstate⟩
  have hread : Twins related request
      { entered with phase := .active state.merge, matcher := state.matcher }
      { gone with phase := .active reached.merge, matcher := reached.matcher } :=
    { hentered with phase := .active hstate.merge, matcher := hstate.matcher }
  match result with
  | .error failure => exact .pure ⟨rfl, hread⟩
  | .ok (cells, ending) =>
      have hcompleted (matcher : Matcher φ) :
          Twins related request { entered with phase := .active state.merge, matcher }
            { gone with phase := .active reached.merge, matcher } := { hread with matcher := rfl }
      dsimp only
      rw [hstate.matcher]
      split
      · refine (hsources.asks (reached.matcher.completeRow_asks cells)).bind ?_
        rintro ⟨cells, matcher⟩ _ rfl
        exact (hcompleted matcher).handOut hsources cells _
      · exact (hcompleted reached.matcher).handOut hsources cells _

theorem Twins.fill (htwins : Twins related request left right)
    (hsources : Source.Twins similar related)
    (hsupply : Option.Rel (Supply.Twins related request) supply other) (limit : Option Nat) :
    (left.fill supply limit).Twins similar (Stepped related request) (right.fill other limit) := by
  refine (htwins.resync hsources hsupply).bind ?_
  rintro ⟨result, reached⟩ ⟨_, gone⟩ ⟨rfl, hreached⟩
  cases result with
  | error failure => exact .pure ⟨rfl, hreached⟩
  | ok =>
      have hphase := hreached.phase
      dsimp only
      revert hphase
      generalize reached.phase = phase, gone.phase = another
      rintro (@⟨merge, opposite, hmerge⟩ | _ | _)
      · dsimp only
        rw [hmerge.peek_eq]
        split
        · exact hreached.read hsources hmerge _ limit
        · exact (hreached.release hsources).bind fun _ _ hreleased => .pure ⟨rfl, hreleased⟩
      · exact .pure ⟨rfl, hreached⟩
      · exact .pure ⟨rfl, hreached⟩

theorem Twins.next (htwins : Twins related request left right)
    (hsources : Source.Twins similar related)
    (hsupply : Option.Rel (Supply.Twins related request) supply other) (limit : ReadLimit) :
    (left.next supply limit).Twins similar (Stepped related request) (right.next other limit) := by
  have hlimit : left.limitOf limit = right.limitOf limit := by
    cases limit with
    | ofScan => exact htwins.batch
    | own limit => rfl
  unfold Scanner.next
  rw [hlimit, htwins.matcher]
  split
  · exact .pure ⟨rfl, htwins⟩
  · exact (htwins.fill hsources hsupply _).bind fun _ _ hstepped =>
      Twins.concluding hstepped hsources

omit [Source σ] [Source τ] [CellFilter φ] in
theorem Twins.ofMerge (htwins : Twins related request left right)
    {first : Except SourceError Bool × Merge σ} {second : Except SourceError Bool × Merge τ}
    (hstepped : Merge.Stepped related first second) :
    Stepped related request (left.ofMerge first) (right.ofMerge second) :=
  ⟨congrArg (Except.mapError ScanError.ofSource) hstepped.1,
    { htwins with phase := .active hstepped.2 }⟩

omit [CellFilter φ] in
theorem Twins.seek (htwins : Twins related request left right)
    (hsources : Source.Twins similar related)
    (hsupply : Option.Rel (Supply.Twins related request) supply other) (key : Cell) :
    (left.seek supply key).Twins similar (Stepped related request) (right.seek other key) := by
  refine (htwins.refreshSources hsources hsupply).bind ?_
  rintro ⟨result, reached⟩ ⟨_, gone⟩ ⟨rfl, hreached⟩
  cases result with
  | error failure => exact Twins.concluding ⟨rfl, hreached⟩ hsources
  | ok =>
      have hphase := hreached.phase
      dsimp only
      revert hphase
      generalize reached.phase = phase, gone.phase = another
      rintro (hmerge | _ | _)
      · exact (hmerge.seek hsources key).bind fun _ _ hstepped =>
          Twins.concluding (hreached.ofMerge hstepped) hsources
      · exact .pure ⟨rfl, hreached⟩
      · exact .pure ⟨rfl, hreached⟩

theorem Twins.reseek (htwins : Twins related request left right)
    (hsources : Source.Twins similar related)
    (hsupply : Option.Rel (Supply.Twins related request) supply other) (key : Cell) :
    (left.reseek supply key).Twins similar (Stepped related request) (right.reseek other key) := by
  refine (htwins.resync hsources hsupply).bind ?_
  rintro ⟨result, reached⟩ ⟨_, gone⟩ ⟨rfl, hreached⟩
  cases result with
  | error failure => exact Twins.concluding ⟨rfl, hreached⟩ hsources
  | ok =>
      have hphase := hreached.phase
      dsimp only
      revert hphase
      generalize reached.phase = phase, gone.phase = another
      rintro (@⟨merge, opposite, hmerge⟩ | _ | _)
      · have hconcluded {first : Noted (Except SourceError Bool × Merge σ)}
            {second : Noted (Except SourceError Bool × Merge τ)}
            (hmoved : first.Twins similar (Merge.Stepped related) second) :
            (first >>= fun outcome => Scanner.concluding (reached.ofMerge outcome)).Twins similar
              (Stepped related request)
              (second >>= fun outcome => Scanner.concluding (gone.ofMerge outcome)) :=
          hmoved.bind fun _ _ hstepped => Twins.concluding (hreached.ofMerge hstepped) hsources
        dsimp only
        rw [hreached.matcher]
        split
        · exact hconcluded (hmerge.moveForward hsources (hsources.exactly true) key)
        · exact hconcluded (hmerge.moveForward hsources hsources.reseek key)
      · exact .pure ⟨rfl, hreached⟩
      · exact .pure ⟨rfl, hreached⟩

omit [CellFilter φ] in
theorem Twins.sourcesChanged (htwins : Twins related request left right)
    (hsources : Source.Twins similar related) :
    left.sourcesChanged.Twins similar (Twins related request) right.sourcesChanged := by
  have hphase := htwins.phase
  unfold Scanner.sourcesChanged
  revert hphase
  generalize left.phase = phase, right.phase = another
  rintro (@⟨merge, opposite, hmerge⟩ | _ | _)
  · dsimp only
    rw [hmerge.peek_eq]
    split
    · exact .pure htwins
    · refine (hmerge.close hsources).bind ?_
      rintro ⟨failures, _⟩ ⟨_, _⟩ ⟨rfl, -⟩
      refine (hsources.raise _).bind fun _ _ _ => .pure ?_
      exact { htwins with
        phase := .resync _, suppressed := congrArg (· ++ failures) htwins.suppressed }
  · exact .pure htwins
  · exact .pure htwins

omit [CellFilter φ] in
theorem Twins.close (htwins : Twins related request left right)
    (hsources : Source.Twins similar related) :
    left.close.Twins similar (Stepped related request) right.close :=
  (htwins.release hsources).bind fun _ _ hreleased =>
    .pure ⟨hreleased.suppressed, { hreleased with suppressed := rfl }⟩

/-- Whatever is asked of two twins, they reply the same. -/
theorem Twins.call (htwins : Twins related request left right)
    (hsources : Source.Twins similar related)
    {call : ScannerCall σ} {another : ScannerCall τ}
    (hcall : ScannerCall.Twins related request call another) :
    (left.call call).Twins similar (Stepped related request) (right.call another) := by
  cases hcall with
  | next limit hsupply =>
      refine (htwins.next hsources hsupply limit).bind ?_
      rintro ⟨result, reached⟩ ⟨_, gone⟩ ⟨rfl, hreached⟩
      exact .pure ⟨rfl, hreached⟩
  | seek key hsupply =>
      refine (htwins.seek hsources hsupply key).bind ?_
      rintro ⟨result, reached⟩ ⟨_, gone⟩ ⟨rfl, hreached⟩
      exact .pure ⟨rfl, hreached⟩
  | reseek key hsupply =>
      refine (htwins.reseek hsources hsupply key).bind ?_
      rintro ⟨result, reached⟩ ⟨_, gone⟩ ⟨rfl, hreached⟩
      exact .pure ⟨rfl, hreached⟩
  | sourcesChanged =>
      exact (htwins.sourcesChanged hsources).bind fun _ _ htold => .pure ⟨rfl, htold⟩
  | close =>
      refine (htwins.close hsources).bind ?_
      rintro ⟨failures, reached⟩ ⟨_, gone⟩ ⟨rfl, hreached⟩
      exact .pure ⟨rfl, hreached⟩

theorem Twins.calls (htwins : Twins related request left right)
    (hsources : Source.Twins similar related)
    {asked : List (ScannerCall σ)} {others : List (ScannerCall τ)}
    (hcalls : List.Forall₂ (ScannerCall.Twins related request) asked others) :
    (left.calls asked).Twins similar (Stepped related request) (right.calls others) := by
  induction hcalls generalizing left right with
  | nil => exact .pure ⟨rfl, htwins⟩
  | cons hcall _ ih =>
      refine (htwins.call hsources hcall).bind ?_
      rintro ⟨reply, reached⟩ ⟨_, gone⟩ ⟨rfl, hreached⟩
      refine (ih hreached).bind ?_
      rintro ⟨replies, final⟩ ⟨_, last⟩ ⟨rfl, hfinal⟩
      exact .pure ⟨rfl, hfinal⟩

theorem open_twins (hsources : Source.Twins similar related) (family : Family)
    {first : Supply σ} {second : Supply τ} (subscription : Nat) (scan : Scan φ)
    (hsupply : Supply.Twins related scan.request first second) :
    (Scanner.open family first subscription scan).Twins similar
      (Agree (Twins related scan.request)) (Scanner.open family second subscription scan) := by
  unfold Scanner.open
  split
  · exact .pure (.error _)
  · refine (askFor_twins hsources hsupply).bind ?_
    rintro _ _ (hgiven | failure)
    · refine (placeAll_twins hsources (opening_twins hsources _) _ hgiven).bind ?_
      rintro _ _ (hplaced | failure)
      · refine (Merge.ofSources_twins hsources _ hplaced).bind fun merge another hmerge => ?_
        rw [hmerge.size_eq]
        exact (hsources.raise _).bind fun _ _ _ =>
          .pure (.ok ⟨.active hmerge, rfl, rfl, rfl, rfl, rfl, rfl, rfl⟩)
      · exact .pure (.error _)
    · exact .pure (.error _)

omit [CellFilter φ] in
theorem Twins.drop (htwins : Twins related request left right)
    (hsources : Source.Twins similar related) :
    left.drop.Twins similar (fun _ _ => True) right.drop := by
  refine (htwins.release hsources).bind fun released gone hreleased => ?_
  rw [hreleased.suppressed]
  split
  · exact .pure trivial
  · exact hsources.raise _

end Scanner

/-- What is seen of a scanner from outside: how opening it failed, or its replies. -/
def Fate.seen : Fate σ φ → Except ScanError (List ScannerReply)
  | failed failure => .error failure
  | kept replies _ | dropped replies => .ok replies

/-- Two scanners over providers of related sources are seen to do the same all their life. -/
theorem Beginning.live_twins (hsources : Source.Twins similar related) (family : Family)
    {first : Supply σ} {second : Supply τ} (subscription : Nat) (scan : Scan φ)
    (hsupply : Supply.Twins related scan.request first second) {calls : List (ScannerCall σ)}
    {others : List (ScannerCall τ)}
    (hcalls : List.Forall₂ (ScannerCall.Twins related scan.request) calls others)
    (dropped : Bool) :
    ((opened family first subscription scan).live calls dropped).Twins similar
      (fun left right => left.seen = right.seen)
      ((opened family second subscription scan).live others dropped) := by
  refine (Scanner.open_twins hsources family subscription scan hsupply).bind ?_
  rintro _ _ (hscanner | failure)
  · refine (hscanner.calls hsources hcalls).bind ?_
    rintro ⟨replies, reached⟩ ⟨_, gone⟩ ⟨rfl, hreached⟩
    dsimp only
    split
    · exact (hreached.drop hsources).bind fun _ _ _ => .pure rfl
    · exact .pure rfl
  · exact .pure rfl

end MergeScan
