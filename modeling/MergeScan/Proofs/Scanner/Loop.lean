import MergeScan.Proofs.Scanner.Gathered

/-! # The loop of a pass

The turns of a pass over sources in order, with any filter at all. A filter may send the scan to
any key, and may do so again and again. A turn follows it only to a key after the cell on top,
and so do its own decisions lead on only to such keys. So a turn that does not end the pass
leaves fewer cells than there were, and the pass ends by itself.
-/

namespace MergeScan

open CellOrder

namespace Matcher

variable {φ : Type} [CellFilter φ] {matcher next : Matcher φ} {cell : Cell}

/-- Of a cell that shows that the row is complete, nothing is remembered. -/
theorem Sifted.bare_of_rowDone (hsifted : Sifted matcher cell .rowDone next) :
    next.bare = matcher.bare := by
  generalize hdecision : Decision.rowDone = decision at hsifted
  cases hsifted with
  | stopped => rfl
  | passed filter decision unfiltered hheard hjudged =>
      subst hdecision
      rw [bare_withFilter, (hjudged.of_done (.inl rfl)).1]
      rfl
  | skipped => cases hdecision
  | column =>
      rcases (matcher.afterMarkers cell).columns.giveUp_decision cell.qualifier with heq | heq <;>
        simp [giveUpColumn, heq] at hdecision
  | row => cases hdecision
  | sought => cases hdecision

end Matcher

/-- What follows an operation depends on its value only. -/
theorem Noted.bind_congr {α β : Type} {first : Noted α} {next other : α → Noted β}
    (hsame : next first.value = other first.value) : first >>= next = first >>= other :=
  Noted.ext (by rw [value_bind, value_bind, hsame]) (by rw [notes_bind, notes_bind, hsame])

namespace ReadState

section

variable {σ φ : Type} [Source σ] [CellFilter φ]

/-- The states in which the loop of a pass stands before a turn, with the cell of the turn before
and the number of cells that are still wanted. -/
inductive Comes (begun : ReadState σ φ) (limit : Option Nat) :
    (previous : Option Cell) → (room : Option Nat) → ReadState σ φ → Prop
  | begins : Comes begun limit none limit begun
  | goesOn {previous : Option Cell} {room : Option Nat} {state next : ReadState σ φ} {cell : Cell}
      {emitted : Option Cell} : Comes begun limit previous room state →
      state.merge.peek = some cell →
      (state.turn previous cell).value = (.ok (.goOn emitted), next) →
      ¬(emitted.isSome ∧ remainingLimit room emitted = some 0) →
      Comes begun limit (some cell) (remainingLimit room emitted) next

/-- What a turn does about the cell on top: it ends the pass, or takes the cell, or moves the
sources to a key after it. -/
inductive Acts (state : ReadState σ φ) (cell : Cell)
    (outcome : Except ScanError Turn × ReadState σ φ) : Prop
  | ends (emitted : Option Cell) (ending : PassEnd) (matcher : Matcher φ) :
      outcome = (.ok (.stop emitted ending), { state with matcher }) → Acts state cell outcome
  | takes (emitted : Option Cell) (matcher : Matcher φ) :
      outcome = (leaveCell { state with matcher } emitted).value → Acts state cell outcome
  | moves (emitted : Option Cell) (matcher : Matcher φ) (key : Cell) :
      Cell.compareKeys cell key = .lt →
      outcome = (after emitted <$> moveTo { state with matcher } key).value →
      Acts state cell outcome

variable {state next : ReadState σ φ} {cell : Cell} {failure : ScanError}

omit [Source σ] [CellFilter φ] in
theorem of_after_error {α : Type} {emitted : Option Cell}
    {moved : Except SourceError α × ReadState σ φ}
    (hafter : after emitted moved = (.error failure, next)) :
    ∃ source, failure = .ofSource source := by
  unfold after at hafter
  split at hafter
  · cases hafter
  · cases hafter
    exact ⟨_, rfl⟩

omit [CellFilter φ] in
/-- A turn that acts on the cell on top fails only if a source does. -/
theorem Acts.of_error (hacts : Acts state cell (.error failure, next)) :
    ∃ source, failure = .ofSource source := by
  cases hacts with
  | ends _ _ _ houtcome => cases houtcome
  | takes _ _ houtcome => exact of_after_error houtcome.symm
  | moves _ _ _ _ houtcome => exact of_after_error houtcome.symm

end

variable {σ φ : Type} [Source σ] [LawfulSource σ keys] [CellFilter φ] {sure : Prop}
variable {family : Bytes} {state next : ReadState σ φ}
variable {matcher : Matcher φ} {cell : Cell} {rest : List Cell} {emitted : Option Cell}

/-- A turn over sources in order acts on the cell on top. -/
theorem Holds.acts (hready : matcher.bare.Ready family (cell :: rest))
    (hholds : Holds sure state matcher (cell :: rest)) {previous : Option Cell}
    (hprevious : ∀ last, previous = some last → (Cell.compareKeys last cell).isLE = true) :
    Acts state cell (state.turn previous cell).value := by
  obtain ⟨hdecide, hsifted⟩ := hready.sifted
  have hreal := hready.isReal
  have horder : state.merge.order = keys := hholds.sound.sameOrder
  have hrow (emitted : Option Cell) :
      Acts state cell (ReadState.leaveRow { state with matcher := (matcher.judge cell).2 } cell
        emitted).value := by
    unfold ReadState.leaveRow
    split
    · exact .moves _ _ _ (Matcher.lt_nextRowKey hreal.1) rfl
    · exact .ends _ _ _ rfl
  have hcolumn (hleaves : (matcher.judge cell).1 = .nextColumn ∨
      (matcher.judge cell).1 = .emitThenNextColumn) :=
    Matcher.lt_nextColumnKey hreal.1 fun _ => hsifted.lt_next hready.plain.columns hleaves
  rw [hholds.turn_eq hprevious hdecide]
  cases hdecision : (matcher.judge cell).1 with
  | emit => exact .takes _ _ rfl
  | emitThenNextColumn => exact .moves _ _ _ (hcolumn (.inr hdecision)) rfl
  | emitThenNextRow => exact hrow _
  | skip => exact .takes _ _ rfl
  | nextColumn => exact .moves _ _ _ (hcolumn (.inl hdecision)) rfl
  | nextRow => exact hrow _
  | seekTo key =>
      simp only [ReadState.follow, horder, Cell.compare_keys]
      split
      next hahead =>
        -- a hint is followed only if it leads past the cell
        exact .moves _ _ key (Std.OrientedCmp.gt_iff_lt.mp (Ordering.isGT_iff_eq_gt.mp hahead)) rfl
      next => exact .takes _ _ rfl
  | rowDone => exact .ends _ _ _ rfl
  | scanDone => exact .ends _ _ _ rfl

/-- A state before a turn over sources in order: what the matcher remembers comes before the
cells that are left, and so does the cell of the turn before. -/
structure Poised (sure : Prop) (family : Bytes) (previous : Option Cell)
    (state : ReadState σ φ) : Prop where
  sound : Merge.Sound keys state.merge
  reliable : sure → Merge.Reliable keys state.merge
  ready : state.matcher.bare.Ready family state.merge.stream
  inOrder last : previous = some last →
    ∀ cell ∈ state.merge.stream, (Cell.compareKeys last cell).isLE = true

variable {previous : Option Cell}

omit [CellFilter φ] in
theorem Poised.holds (hpoised : Poised sure family previous state) :
    Holds sure state state.matcher state.merge.stream :=
  ⟨rfl, hpoised.sound, rfl, hpoised.reliable⟩

omit [CellFilter φ] in
theorem Poised.stream_eq (hpoised : Poised sure family previous state)
    (hpeek : state.merge.peek = some cell) : ∃ rest, state.merge.stream = cell :: rest := by
  rw [hpoised.holds.peek_eq] at hpeek
  exact List.head?_eq_some_iff.mp hpeek

omit [CellFilter φ] in
theorem Poised.forget (hpoised : Poised sure family previous state) :
    Poised sure family none state :=
  ⟨hpoised.sound, hpoised.reliable, hpoised.ready, nofun⟩

/-- What becomes of a state by a turn over sources in order. -/
structure Progresses (sure : Prop) (family : Bytes) (state : ReadState σ φ) (cell : Cell)
    (outcome : Except ScanError Turn × ReadState σ φ) : Prop where
  acts : Acts state cell outcome
  succeeds : sure → outcome.1.isOk = true
  goesOn emitted next : outcome = (.ok (.goOn emitted), next) →
    Poised sure family (some cell) next ∧ next.merge.cellCount < state.merge.cellCount
  ends emitted ending next : outcome = (.ok (.stop emitted ending), next) → ending ≠ .scanDone →
    Poised sure family none next ∧ next.merge.cellCount ≤ state.merge.cellCount ∧
      state.matcher.row ≠ some cell.row

theorem Poised.turn (hpoised : Poised sure family previous state)
    (hpeek : state.merge.peek = some cell) :
    Progresses sure family state cell (state.turn previous cell).value := by
  obtain ⟨rest, hstream⟩ := hpoised.stream_eq hpeek
  have hready : state.matcher.bare.Ready family (cell :: rest) := hstream ▸ hpoised.ready
  have hholds : Holds sure state state.matcher (cell :: rest) := hstream ▸ hpoised.holds
  have hprevious : ∀ last, previous = some last → (Cell.compareKeys last cell).isLE = true :=
    fun last hlast => hpoised.inOrder last hlast cell (hstream ▸ List.mem_cons_self)
  have hgoes := hholds.turn_inspect hready hprevious
  refine ⟨hholds.acts hready hprevious, hgoes.succeeds, ?_, ?_⟩
  · intro emitted next hturn
    cases hcourse : (state.matcher.inspect cell rest).course with
    | error ending => cases (hgoes.stops _ next ending hturn hcourse).1
    | ok ahead =>
        obtain ⟨-, hnext⟩ := hgoes.goesOn _ next ahead hturn hcourse
        have hsuffix := Matcher.inspect_suffix hcourse
        have hlength := hsuffix.length_le
        have hfirst := (List.pairwise_cons.mp hready.sorted).1
        refine ⟨⟨hnext.sound, hnext.reliable, ?_, ?_⟩, ?_⟩
        · rw [hnext.stream, hnext.matcher]
          exact hready.onwards_judge hsuffix
        · rintro _ ⟨⟩ other hother
          rw [hnext.stream] at hother
          exact hfirst other (hsuffix.subset hother)
        · rw [Merge.cellCount_eq, Merge.cellCount_eq, hnext.stream, hstream, List.length_cons]
          omega
  · intro emitted ending next hturn hending
    cases hcourse : (state.matcher.inspect cell rest).course with
    | ok ahead => cases (hgoes.goesOn _ next ahead hturn hcourse).1
    | error other =>
        obtain ⟨hstop, rfl⟩ := hgoes.stops _ next other hturn hcourse
        cases hstop
        -- the scan is not over, so the pass stops because the row is done
        have hdone : (state.matcher.judge cell).1 = .rowDone := by
          simp only [Matcher.inspect] at hcourse
          split at hcourse
          · cases hcourse
          · exact (Matcher.goOn_error hcourse).elim And.right fun hover => absurd hover hending
        have hsifted := hready.sifted.2
        rw [hdone] at hsifted
        have hbare := hsifted.bare_of_rowDone
        refine ⟨⟨hpoised.sound, hpoised.reliable, ?_, ?_⟩, Nat.le_refl _, fun hrow => ?_⟩
        · exact hbare.symm ▸ hpoised.ready
        · rintro _ ⟨⟩
        · exact hsifted.ne_rowDone hrow hready.plain.order rfl

/-- The loop of a pass stands before sources in order at each turn. -/
theorem Poised.comes {begun : ReadState σ φ} (hbegun : Poised sure family none begun)
    {limit room : Option Nat} (hcomes : Comes begun limit previous room state) :
    Poised sure family previous state := by
  induction hcomes with
  | begins => exact hbegun
  | goesOn _ hpeek hturn _ ih => exact ((ih.turn hpeek).goesOn _ _ hturn).1

/-- More turns than there are cells are as good as any other number of turns that is more than
there are cells. -/
theorem Poised.turns_eq {first second : Nat} {limit : Option Nat}
    (hpoised : Poised sure family previous state) (hfirst : state.merge.cellCount < first)
    (hsecond : state.merge.cellCount < second) :
    turns previous limit first state = turns previous limit second state := by
  induction first generalizing second state previous limit with
  | zero => omega
  | succ first ih =>
      cases second with
      | zero => omega
      | succ second =>
          unfold turns
          cases hpeek : state.merge.peek with
          | none => rfl
          | some cell =>
              have hturned := hpoised.turn hpeek
              simp only
              cases hturn : (state.turn previous cell).value with
              | mk result after =>
                  rw [hturn] at hturned
                  refine Noted.bind_congr ?_
                  simp only [hturn]
                  match result with
                  | .error failure => rfl
                  | .ok (.stop emitted ending) => rfl
                  | .ok (.goOn emitted) =>
                      obtain ⟨hnext, hless⟩ := hturned.goesOn emitted after rfl
                      have hrest : turns (some cell) (remainingLimit limit emitted) first after =
                          turns (some cell) (remainingLimit limit emitted) second after :=
                        ih hnext (by omega) (by omega)
                      simp only [hrest]

/-- How the turns of a pass over sources in order end. Unless the scan is over with them, it can
go on, and has come nearer to its end if they began in the row that is being read. -/
structure Ends (sure : Prop) (family : Bytes) (state : ReadState σ φ)
    (outcome : Except ScanError (List Cell × PassEnd) × ReadState σ φ) : Prop where
  fails failure next : outcome = (.error failure, next) →
    ¬sure ∧ ∃ source, failure = .ofSource source
  leaves cells ending next : outcome = (.ok (cells, ending), next) → ending ≠ .scanDone →
    Poised sure family none next ∧ next.merge.cellCount ≤ state.merge.cellCount ∧
      ∀ cell, state.merge.peek = some cell → state.matcher.row = some cell.row →
        next.merge.cellCount < state.merge.cellCount

omit [CellFilter φ] in
theorem Ends.of_error (hfails : ¬sure) {failure : ScanError}
    (hfailure : ∃ source, failure = .ofSource source) :
    Ends sure family state (.error failure, next) where
  fails _ _ houtcome := by
    cases houtcome
    exact ⟨hfails, hfailure⟩
  leaves _ _ _ houtcome := by cases houtcome

omit [CellFilter φ] in
theorem Ends.of_ok {cells : List Cell} {ending : PassEnd}
    (hleaves : ending ≠ .scanDone →
      Poised sure family none next ∧ next.merge.cellCount ≤ state.merge.cellCount ∧
        ∀ cell, state.merge.peek = some cell → state.matcher.row = some cell.row →
          next.merge.cellCount < state.merge.cellCount) :
    Ends sure family state (.ok (cells, ending), next) where
  fails _ _ houtcome := by cases houtcome
  leaves _ _ _ houtcome := by
    cases houtcome
    exact hleaves

omit [CellFilter φ] in
/-- Turns that follow one that went on have left fewer cells than it began with. -/
theorem Ends.prepend {begun : ReadState σ φ} {emitted : Option Cell}
    {outcome : Except ScanError (List Cell × PassEnd) × ReadState σ φ}
    (hends : Ends sure family state outcome)
    (hless : state.merge.cellCount < begun.merge.cellCount) :
    Ends sure family begun (ReadState.prepend emitted outcome) := by
  obtain ⟨failure | ⟨cells, ending⟩, final⟩ := outcome
  · obtain ⟨hfails, hfailure⟩ := hends.fails failure final rfl
    exact .of_error hfails hfailure
  · refine .of_ok fun hending => ?_
    obtain ⟨hfinal, hle, -⟩ := hends.leaves cells ending final rfl hending
    have hfewer := Nat.lt_of_le_of_lt hle hless
    exact ⟨hfinal, Nat.le_of_lt hfewer, fun _ _ _ => hfewer⟩

theorem Poised.turns {fuel : Nat} {limit : Option Nat}
    (hpoised : Poised sure family previous state) (hfuel : state.merge.cellCount < fuel) :
    Ends sure family state (turns previous limit fuel state).value := by
  induction fuel generalizing state previous limit with
  | zero => omega
  | succ fuel ih =>
      cases hpeek : state.merge.peek with
      | none =>
          simp only [ReadState.turns, hpeek, Noted.value_pure]
          refine .of_ok fun _ => ⟨hpoised.forget, Nat.le_refl _, fun _ hcell => ?_⟩
          cases hpeek.symm.trans hcell
      | some cell =>
          have hturned := hpoised.turn hpeek
          simp only [ReadState.turns, hpeek, Noted.value_bind]
          generalize (state.turn previous cell).value = outcome at hturned
          obtain ⟨failure | turned, after⟩ := outcome
          · exact .of_error (fun hsure => Bool.false_ne_true (hturned.succeeds hsure))
              hturned.acts.of_error
          cases turned with
          | stop emitted ending =>
              refine .of_ok fun hending => ?_
              obtain ⟨hnext, hle, hother⟩ := hturned.ends emitted ending after rfl hending
              refine ⟨hnext, hle, fun other hsame hrow => absurd hrow ?_⟩
              cases hpeek.symm.trans hsame
              exact hother
          | goOn emitted =>
              obtain ⟨hnext, hless⟩ := hturned.goesOn emitted after rfl
              simp only
              split
              next => exact .of_ok fun _ => ⟨hnext.forget, Nat.le_of_lt hless, fun _ _ _ => hless⟩
              next =>
                have hends := @ih after (some cell) (remainingLimit limit emitted) hnext (by omega)
                rw [Noted.value_map]
                exact hends.prepend hless

theorem Poised.pass {limit : Option Nat} (hpoised : Poised sure family none state) :
    Ends sure family state (state.pass limit).value :=
  hpoised.turns (by omega)

end ReadState

end MergeScan
