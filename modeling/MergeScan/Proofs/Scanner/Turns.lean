import MergeScan.Proofs.Cell.Rows
import MergeScan.Proofs.Matcher.Steps
import MergeScan.Proofs.Merge.Left
import MergeScan.Proofs.Scanner.Reading

/-! # Turns without a filter

What one turn does, whatever cells the sources hold and whether or not they are in order:
the cell on top does not come before the last one, it is decided on, and the sources go
on as decided. A turn after which the pass goes on leaves fewer cells than there were, so
a pass comes to an end.
-/

namespace MergeScan

/-- The cell that a turn hands out, if there is one. -/
def Turn.emitted : Turn → Option Cell
  | .goOn emitted | .stop emitted _ => emitted

namespace ReadState

variable {σ φ : Type} [Source σ] [CellFilter φ]

/-- How a turn goes on after a decision about the cell on top, and what it leaves of the
sources. -/
inductive Course (order : CellOrder) (merge : Merge σ) (next : ReadState σ φ) (cell : Cell) :
    Decision → Turn → Prop
  /-- The cell is taken. -/
  | cell (decision : Decision) : decision = .emit ∨ decision = .skip →
      next.merge.parts.Perm (Part.stocked merge.advanced) →
      Course order merge next cell decision (.goOn (decision.emitted cell))
  | column (decision : Decision) : decision = .nextColumn ∨ decision = .emitThenNextColumn →
      next.merge.parts.Perm (Part.stocked (merge.parts.map
        (Part.skipTo order (next.matcher.nextColumnKey cell)))) →
      Course order merge next cell decision (.goOn (decision.emitted cell))
  | row (decision : Decision) : decision = .nextRow ∨ decision = .emitThenNextRow →
      next.merge.parts.Perm (Part.stocked (merge.parts.map
        (Part.skipTo order (next.matcher.nextRowKey cell)))) →
      Course order merge next cell decision (.goOn (decision.emitted cell))
  | rowDone : next.merge = merge → Course order merge next cell .rowDone (.stop none .more)
  | scanDone (decision : Decision) :
      Course order merge next cell decision (.stop (decision.emitted cell) .scanDone)

variable {order : CellOrder} [LawfulSource σ order] {admits : Nat → List Cell → Prop}

/-- A state that reads sources with admitted cells without a filter. -/
structure Unfiltered (order : CellOrder) [LawfulSource σ order] (admits : Nat → List Cell → Prop)
    (state : ReadState σ φ) : Prop where
  led : Merge.Led order admits state.merge
  filter : state.matcher.filter = none
  columns : state.matcher.columns.Ascending

variable {state next : ReadState σ φ} {cell key : Cell} {decision : Decision} {outcome : Turn}
variable {emitted : Option Cell}

omit [CellFilter φ] [Source σ] [LawfulSource σ order] in
theorem of_after_ok {α : Type} {moved : Except SourceError α × ReadState σ φ}
    (hafter : after emitted moved = (.ok outcome, next)) :
    moved.1.isOk = true ∧ moved.2 = next ∧ outcome = .goOn emitted := by
  unfold after at hafter
  split at hafter
  · cases hafter
    exact ⟨rfl, rfl, rfl⟩
  · cases hafter

omit [CellFilter φ] in
/-- To move to a key moves the sources and nothing else. -/
theorem moveTo_shifts [Std.TransCmp order.compare] (hled : Merge.Led order admits state.merge)
    (key : Cell) : (state.moveTo key).value.2.matcher = state.matcher ∧
      Merge.Shifts order admits (Part.skipTo order key) state.merge
        ((state.moveTo key).value.1, (state.moveTo key).value.2.merge) := by
  unfold ReadState.moveTo
  split
  · exact ⟨rfl, hled.moveForward (Positioning.exactly_lawfulForward.forward admits) key⟩
  · exact ⟨rfl, hled.moveForward (Positioning.reseek_lawfulForward.forward admits) key⟩

variable [Std.TransCmp order.compare]

omit [CellFilter φ] in
/-- Where a movement to a key is followed by a turn that goes on, all sources were moved. -/
theorem Unfiltered.moveTo (hstate : Unfiltered order admits state)
    (hmoved : (after emitted <$> state.moveTo key).value = (.ok outcome, next)) :
    (next.matcher = state.matcher ∧ Unfiltered order admits next) ∧ outcome = .goOn emitted ∧
      next.merge.parts.Perm (Part.stocked (state.merge.parts.map (Part.skipTo order key))) := by
  rw [Noted.value_map] at hmoved
  obtain ⟨hok, rfl, rfl⟩ := of_after_ok hmoved
  obtain ⟨hmatcher, hshifts⟩ := moveTo_shifts hstate.led key
  refine ⟨⟨hmatcher, hshifts.led, ?_, ?_⟩, rfl, hshifts.complete hok⟩
  · rw [hmatcher]
    exact hstate.filter
  · rw [hmatcher]
    exact hstate.columns

omit [CellFilter φ] in
/-- Where a row is left by a turn that does not fail, there are rows after it, and all sources
were moved, or the scan is over. -/
theorem Unfiltered.leaveRow (hstate : Unfiltered order admits state)
    (hleft : (state.leaveRow cell emitted).value = (.ok outcome, next)) :
    (next.matcher = state.matcher ∧ Unfiltered order admits next) ∧
      (outcome = .goOn emitted ∧ next.merge.parts.Perm (Part.stocked (state.merge.parts.map
        (Part.skipTo order (next.matcher.nextRowKey cell)))) ∨
      outcome = .stop emitted .scanDone) := by
  unfold ReadState.leaveRow at hleft
  split at hleft
  · obtain ⟨hnext, hgoOn, hparts⟩ := hstate.moveTo hleft
    rw [← hnext.1] at hparts
    exact ⟨hnext, .inl ⟨hgoOn, hparts⟩⟩
  · cases hleft
    exact ⟨⟨rfl, hstate⟩, .inr rfl⟩

omit [CellFilter φ] in
/-- Where the cell on top is left by a turn that does not fail, the sources have advanced. -/
theorem Unfiltered.leaveCell (hstate : Unfiltered order admits state)
    (htake : (state.leaveCell emitted).value = (.ok outcome, next)) :
    (next.matcher = state.matcher ∧ Unfiltered order admits next) ∧ outcome = .goOn emitted ∧
      next.merge.parts.Perm (Part.stocked state.merge.advanced) := by
  obtain ⟨hok, rfl, rfl⟩ := of_after_ok htake
  have hadvances := hstate.led.advance
  obtain ⟨answer, hanswer⟩ : ∃ answer, state.merge.advance.value.1 = .ok answer := by
    cases hresult : state.merge.advance.value.1 with
    | error failure =>
        simp only [takeTop, Noted.value_bind, hresult] at hok
        cases hok
    | ok answer => exact ⟨answer, rfl⟩
  exact ⟨⟨rfl, hadvances.led, hstate.filter, hstate.columns⟩, rfl,
    (hadvances.taken answer hanswer).2⟩

/-- What is done about the cell on top once it is decided on. -/
theorem Unfiltered.follow (hstate : Unfiltered order admits state)
    (hseek : ∀ key, decision ≠ .seekTo key)
    (hfollow : (state.follow cell decision).value = (.ok outcome, next)) :
    (next.matcher = state.matcher ∧ Unfiltered order admits next) ∧
      Course order state.merge next cell decision outcome := by
  have hreshape := Matcher.reshape_unfiltered hstate.filter cell
  cases decision with
  | emit | skip =>
      rw [follow_cell (by simp), hreshape] at hfollow
      obtain ⟨hnext, rfl, hparts⟩ := hstate.leaveCell hfollow
      exact ⟨hnext, .cell _ (by simp) hparts⟩
  | nextColumn | emitThenNextColumn =>
      rw [follow_column (by simp), hreshape] at hfollow
      obtain ⟨hnext, rfl, hparts⟩ := hstate.moveTo hfollow
      rw [← hnext.1] at hparts
      exact ⟨hnext, .column _ (by simp) hparts⟩
  | nextRow | emitThenNextRow =>
      rw [follow_row (by simp), hreshape] at hfollow
      obtain ⟨hnext, ⟨rfl, hparts⟩ | rfl⟩ := hstate.leaveRow hfollow
      · exact ⟨hnext, .row _ (by simp) hparts⟩
      · exact ⟨hnext, .scanDone _⟩
  | seekTo key => exact absurd rfl (hseek key)
  | rowDone =>
      cases hfollow
      exact ⟨⟨rfl, hstate⟩, .rowDone rfl⟩
  | scanDone =>
      cases hfollow
      exact ⟨⟨rfl, hstate⟩, .scanDone _⟩

/-- What a turn does that does not fail. -/
structure Turned (order : CellOrder) [LawfulSource σ order] (admits : Nat → List Cell → Prop)
    (state : ReadState σ φ) (previous : Option Cell) (cell : Cell) (outcome : Turn)
    (next : ReadState σ φ) : Prop where
  inOrder last : previous = some last → (order.compare last cell).isLE = true
  unfiltered : Unfiltered order admits next
  decided : ∃ decision, Matcher.Judged state.matcher cell decision next.matcher ∧
    Course order state.merge next cell decision outcome

theorem Unfiltered.turn (hstate : Unfiltered order admits state) {previous : Option Cell}
    (hturn : (state.turn previous cell).value = (.ok outcome, next)) :
    Turned order admits state previous cell outcome next := by
  unfold ReadState.turn at hturn
  split at hturn
  next => cases hturn
  next hprevious =>
    rw [hstate.led.sameOrder, Option.filter_eq_none_iff] at hprevious
    simp only [Noted.value_bind] at hturn
    cases hdecide : (state.matcher.decide cell).value with
    | mk result matcher =>
        rw [hdecide] at hturn
        cases result with
        | error failure => cases hturn
        | ok decision =>
            have hjudged := Matcher.judged_of_decide hstate.filter hdecide
            have hdecided : Unfiltered order admits { state with matcher } :=
              ⟨hstate.led, (Matcher.filter_of_reset hjudged.reset_eq).trans hstate.filter,
                hjudged.columns_ascending hstate.columns⟩
            obtain ⟨⟨hmatcher, hnext⟩, hcourse⟩ := hdecided.follow hjudged.ne_seekTo hturn
            refine ⟨fun last hlast => ?_, hnext, decision, ?_, hcourse⟩
            · have hnot := hprevious last hlast
              cases hcompare : order.compare last cell <;> simp_all
            · rw [hmatcher]
              exact hjudged

omit [Std.TransCmp order.compare] in
/-- A turn after which the pass goes on leaves fewer cells. -/
theorem Turned.cellCount_lt [CellOrder.RowWise order] {previous : Option Cell}
    (hstate : Unfiltered order admits state)
    (hturned : Turned order admits state previous cell (.goOn emitted) next)
    (hpeek : state.merge.peek = some cell) (hkind : cell.kind ≠ .minimum) :
    next.merge.cellCount < state.merge.cellCount := by
  obtain ⟨decision, hjudged, hcourse⟩ := hturned.decided
  cases hcourse with
  | cell _ hstays hparts =>
      rw [Merge.cellCount_of_parts hparts]
      exact hstate.led.length_advanced_lt hpeek
  | column _ hleaves hparts =>
      rw [Merge.cellCount_of_parts hparts]
      apply hstate.led.length_skipTo_lt hpeek
      rw [CellOrder.compare_of_row_eq (Matcher.row_nextColumnKey next.matcher cell).symm]
      exact Matcher.lt_nextColumnKey hkind fun _ => hjudged.lt_next hstate.columns hleaves
  | row _ hleaves hparts =>
      rw [Merge.cellCount_of_parts hparts]
      apply hstate.led.length_skipTo_lt hpeek
      have hrow : cell.row = (next.matcher.nextRowKey cell).row := rfl
      rw [CellOrder.compare_of_row_eq hrow]
      exact Matcher.lt_nextRowKey hkind

/-! ## A whole pass -/

/-- The turns of a pass that does not fail: the cells that they hand out one after the other,
how the pass ends, and where. -/
inductive Turns (order : CellOrder) [LawfulSource σ order] (admits : Nat → List Cell → Prop) :
    (previous : Option Cell) → (limit : Option Nat) → ReadState σ φ →
      List Cell → PassEnd → ReadState σ φ → Prop
  | exhausted {previous : Option Cell} {limit : Option Nat} {state : ReadState σ φ} :
      state.merge.peek = none → Turns order admits previous limit state [] .exhausted state
  | stopped {previous : Option Cell} {limit : Option Nat} {state next : ReadState σ φ}
      {cell : Cell} {emitted : Option Cell} {ending : PassEnd} :
      state.merge.peek = some cell →
      Turned order admits state previous cell (.stop emitted ending) next →
      Turns order admits previous limit state emitted.toList ending next
  /-- Enough cells were handed out. -/
  | filled {previous : Option Cell} {limit : Option Nat} {state next : ReadState σ φ}
      {cell emitted : Cell} : state.merge.peek = some cell →
      Turned order admits state previous cell (.goOn (some emitted)) next →
      remainingLimit limit (some emitted) = some 0 →
      Turns order admits previous limit state [emitted] .more next
  | goOn {previous : Option Cell} {limit : Option Nat} {state next final : ReadState σ φ}
      {cell : Cell} {emitted : Option Cell} {cells : List Cell} {ending : PassEnd} :
      state.merge.peek = some cell →
      Turned order admits state previous cell (.goOn emitted) next →
      Turns order admits (some cell) (remainingLimit limit emitted) next cells ending final →
      Turns order admits previous limit state (emitted.toList ++ cells) ending final

variable [CellOrder.RowWise order]
variable (hkinds : ∀ rank cells, admits rank cells → ∀ cell ∈ cells, cell.kind ≠ .minimum)
include hkinds

omit [Std.TransCmp order.compare] in
/-- With turns enough for the cells that there are, a pass comes to an end. -/
theorem Unfiltered.turns {fuel : Nat} {previous : Option Cell} {limit : Option Nat}
    {cells : List Cell} {ending : PassEnd}
    (hstate : Unfiltered order admits state) (hfuel : state.merge.cellCount < fuel)
    (hturns : (turns previous limit fuel state).value = (.ok (cells, ending), next)) :
    Turns order admits previous limit state cells ending next := by
  induction fuel generalizing state previous limit cells with
  | zero => omega
  | succ fuel ih =>
      unfold ReadState.turns at hturns
      cases hpeek : state.merge.peek with
      | none =>
          simp only [hpeek] at hturns
          cases hturns
          exact .exhausted hpeek
      | some cell =>
          simp only [hpeek, Noted.value_bind] at hturns
          cases hturn : (state.turn previous cell).value with
          | mk result after =>
              rw [hturn] at hturns
              cases result with
              | error failure => cases hturns
              | ok outcome =>
                  have hturned := hstate.turn hturn
                  cases outcome with
                  | stop emitted ending =>
                      cases hturns
                      exact .stopped hpeek hturned
                  | goOn emitted =>
                      simp only at hturns
                      split at hturns
                      -- the cell of this turn is the last one that the limit allows
                      next hfull =>
                        rw [Bool.and_eq_true, Option.isSome_iff_exists] at hfull
                        obtain ⟨⟨last, rfl⟩, hlimit⟩ := hfull
                        cases hturns
                        exact .filled hpeek hturned (of_decide_eq_true hlimit)
                      next =>
                        -- the turn left the cell on top, so the turns left suffice for the rest
                        obtain ⟨rank, cells, hadmits, hcell⟩ :=
                          hstate.led.admitted_of_has (hstate.led.has_peek hpeek)
                        have hkind := hkinds rank cells hadmits cell hcell
                        have hfewer := hturned.cellCount_lt hstate hpeek hkind
                        rw [Noted.value_map] at hturns
                        cases hrest : (ReadState.turns (some cell) (remainingLimit limit emitted)
                            fuel after).value with
                        | mk result final =>
                            rw [hrest] at hturns
                            cases result with
                            | error failure => cases hturns
                            | ok found =>
                                cases hturns
                                exact .goOn hpeek hturned
                                  (ih hturned.unfiltered (by omega) hrest)

omit [Std.TransCmp order.compare] in
theorem Unfiltered.pass {limit : Option Nat} {cells : List Cell} {ending : PassEnd}
    (hstate : Unfiltered order admits state)
    (hpass : (state.pass limit).value = (.ok (cells, ending), next)) :
    Turns order admits none limit state cells ending next :=
  hstate.turns hkinds (by omega) hpass

end ReadState

end MergeScan
