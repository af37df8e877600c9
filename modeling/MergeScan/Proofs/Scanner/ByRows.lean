import MergeScan.Proofs.Scanner.RowOutput

/-! # Row by row

A scan of all rows reads one row after the other, in the order that the family has for them. What
it does in a row is what a scan in the usual order does that has the cells of this row only: the
decisions depend on the matcher and on the cells of the row, and each movement of the sources stays
in the row or ends at the first of the rows after it.
-/

namespace MergeScan

open CellOrder

namespace ReadState

variable {σ φ : Type} [Source σ] {order : CellOrder} [LawfulSource σ order]
variable {state : ReadState σ φ} {cell key : Cell} {cells rest here later : List Cell}
variable {emitted : Option Cell}

/-- An outcome of a turn that goes on with a list. -/
def GoesOn (order : CellOrder) [LawfulSource σ order] (state : ReadState σ φ)
    (emitted : Option Cell) (cells : List Cell)
    (outcome : Except ScanError Turn × ReadState σ φ) : Prop :=
  ∃ merge, outcome = (.ok (.goOn emitted), { state with merge }) ∧ merge.Offers order cells

theorem goesOn_of_moved {α : Type} (hoffers : state.merge.Offers order cells)
    {next : List Cell} {outcome : Except SourceError α × Merge σ}
    (hmoved : Merge.Moved order state.merge next outcome) (emitted : Option Cell) :
    GoesOn order state emitted next
      (after emitted (outcome.1, { state with merge := outcome.2 })) := by
  obtain ⟨hok, hnext⟩ := hoffers.moved hmoved
  obtain ⟨_ | answer, merge⟩ := outcome
  · cases hok
  · exact ⟨merge, rfl, hnext⟩

variable [RowWise order]

theorem leaveCell_goesOn (hoffers : state.merge.Offers order (cell :: rest))
    (emitted : Option Cell) :
    GoesOn order state emitted rest (state.leaveCell emitted).value := by
  have hmoved := hoffers.sound.advance_moved
  rw [hoffers.stream, List.tail_cons] at hmoved
  exact goesOn_of_moved hoffers hmoved emitted

theorem moveTo_goesOn (hoffers : state.merge.Offers order cells) (key : Cell)
    (emitted : Option Cell) :
    GoesOn order state emitted (order.skipTo key cells)
      (after emitted <$> state.moveTo key).value := by
  have hsound := hoffers.sound
  simp only [ReadState.moveTo, Noted.value_map]
  rw [← hoffers.stream]
  split
  · exact goesOn_of_moved hoffers (hsound.seekExactly_moved key) emitted
  · exact goesOn_of_moved hoffers (hsound.reseek_moved key) emitted

/-- To move to a key of a row leaves what lies behind it in the row, and all later rows. -/
theorem moveTo_inRow (hoffers : state.merge.Offers order (cell :: rest ++ later))
    (hlt : Cell.compareKeys cell key = .lt) (hhere : ∀ other ∈ cell :: rest, other.row = key.row)
    (hlater : ∀ other ∈ later, order.compareRows key.row other.row = .lt)
    (emitted : Option Cell) :
    GoesOn order state emitted (keys.skipTo key rest ++ later)
      (after emitted <$> state.moveTo key).value := by
  have hmoved := moveTo_goesOn hoffers key emitted
  rwa [skipTo_append_later hhere hlater, skipTo_cons_of_lt hlt] at hmoved

section

variable (hoffers : state.merge.Offers order (cell :: rest ++ later))
variable (hhere : ∀ other ∈ cell :: rest, other.row = cell.row)
variable (hlater : ∀ other ∈ later, order.compareRows cell.row other.row = .lt)
include hoffers hhere hlater

theorem leaveColumn_inRow (hlt : Cell.compareKeys cell (state.matcher.nextColumnKey cell) = .lt)
    (emitted : Option Cell) :
    GoesOn order state emitted (keys.skipTo (state.matcher.nextColumnKey cell) rest ++ later)
      (state.leaveColumn cell emitted).value := by
  -- the synthetic key lies in the row of the cell
  have hkey := Matcher.row_nextColumnKey state.matcher cell
  exact moveTo_inRow hoffers hlt (hkey ▸ hhere) (hkey ▸ hlater) emitted

theorem leaveRow_inRow (hreal : cell.IsReal) (hextends : state.matcher.extendsPast cell = true)
    (emitted : Option Cell) :
    GoesOn order state emitted (keys.skipTo (state.matcher.nextRowKey cell) rest ++ later)
      (state.leaveRow cell emitted).value := by
  rw [ReadState.leaveRow, if_pos hextends]
  exact moveTo_inRow hoffers (Matcher.lt_nextRowKey hreal.1) hhere hlater emitted

/-- A decision that goes on in the row leaves what it leaves of the row, and all later rows. -/
theorem follow_inRow [CellFilter φ] (hreal : cell.IsReal) {decision : Decision}
    {ahead : List Cell} (hgoOn : state.matcher.goOn cell rest decision = .ok ahead)
    (hcolumn : decision = .nextColumn ∨ decision = .emitThenNextColumn →
      Cell.compareKeys cell (state.matcher.nextColumnKey cell) = .lt)
    (hseeks : ∀ target, decision ≠ .seekTo target) :
    GoesOn order state (decision.emitted (state.matcher.reshape cell).value) (ahead ++ later)
      (state.follow cell decision).value := by
  cases Matcher.onwards_of_goOn hgoOn with
  | next _ hstays =>
      rw [follow_cell hstays]
      exact leaveCell_goesOn hoffers _
  | seekTo target => exact absurd rfl (hseeks target)
  | column _ hleaves =>
      rw [follow_column hleaves]
      exact leaveColumn_inRow hoffers hhere hlater (hcolumn hleaves) _
  | row _ hleaves hextends =>
      rw [follow_row hleaves]
      exact leaveRow_inRow hoffers hhere hlater hreal hextends _

end

variable [CellFilter φ] {matcher : Matcher φ} {family row : Bytes}

/-- A state in the middle of a row, where `here` is left of the row, and `later` of the rows
after it. -/
structure Amid (order : CellOrder) [LawfulSource σ order] (family row : Bytes)
    (state : ReadState σ φ) (matcher : Matcher φ) (here later : List Cell) : Prop where
  within : matcher.Within family row here
  matcher : state.matcher = matcher.inOrder order
  offers : state.merge.Offers order (here ++ later)
  later cell : cell ∈ later → order.compareRows row cell.row = .lt

/-- What is decided on a cell of the row is done in the row. -/
theorem Amid.follow (hamid : Amid order family row state matcher (cell :: rest) later)
    {ahead : List Cell} (hcourse : (matcher.look cell rest).course = .ok ahead) :
    let next : ReadState σ φ := ⟨state.merge, (matcher.judge cell).2.inOrder order⟩
    GoesOn order next (matcher.look cell rest).emitted (ahead ++ later)
      (next.follow cell (matcher.judge cell).1).value := by
  intro next
  have hready := hamid.within.toReady
  have hjudged := hready.judged.2
  have hfilter : next.matcher.filter = none := (hjudged.plain hready.plain).filter
  have hrow : cell.row = row := hamid.within.ofRow cell List.mem_cons_self
  have hhere : ∀ other ∈ cell :: rest, other.row = cell.row := fun other hother =>
    (hamid.within.ofRow other hother).trans hrow.symm
  have hlater : ∀ other ∈ later, order.compareRows cell.row other.row = .lt := fun other hother =>
    hrow ▸ hamid.later other hother
  have hoffers : next.merge.Offers order (cell :: rest ++ later) := hamid.offers
  have hgoOn : next.matcher.goOn cell rest (matcher.judge cell).1 = .ok ahead := hcourse
  have hfollow := follow_inRow hoffers hhere hlater hready.isReal hgoOn
    (hjudged.lt_nextColumnKey hready.plain hready.isReal) hjudged.ne_seekTo
  rwa [Matcher.reshape_unfiltered hfilter] at hfollow

/-- In a row, a turn is a look at what is left of it. -/
theorem Amid.turn (hamid : Amid order family row state matcher (cell :: rest) later)
    {previous : Option Cell}
    (hprevious : ∀ last, previous = some last → (order.compare last cell).isLE = true) :
    ∃ ahead next, (matcher.look cell rest).course = .ok ahead ∧
      (state.turn previous cell).value = (.ok (.goOn (matcher.look cell rest).emitted), next) ∧
      Amid order family row next (matcher.look cell rest).next ahead later := by
  have hready := hamid.within.toReady
  obtain ⟨ahead, hcourse⟩ := hamid.within.course
  have hfits := hready.fits cell List.mem_cons_self hamid.within.row_eq
  have hdecide : (state.matcher.decide cell).value =
      (.ok (matcher.judge cell).1, (matcher.judge cell).2.inOrder order) := by
    rw [hamid.matcher, Matcher.decide_inOrder hready.plain hfits hamid.within.row_eq,
      hready.judged.1]
  obtain ⟨merge, hturn, hoffers⟩ := hamid.follow hcourse
  refine ⟨ahead, ⟨merge, (matcher.judge cell).2.inOrder order⟩, hcourse, ?_,
    hamid.within.look hcourse, rfl, hoffers, hamid.later⟩
  rw [turn_eq hamid.offers.sound.sameOrder hprevious hdecide]
  exact hturn

omit [RowWise order] in
/-- At the first cell after the row, the row is complete. -/
theorem Amid.turn_later (hamid : Amid order family row state matcher [] (cell :: rest))
    {previous : Option Cell}
    (hprevious : ∀ last, previous = some last → (order.compare last cell).isLE = true) :
    (state.turn previous cell).value = (.ok (.stop none .more), state) := by
  have hfilter : matcher.filter = none := hamid.within.plain.filter
  have hdone : (matcher.inOrder order).decideRow cell = some .rowDone := by
    have hlt := hamid.later cell List.mem_cons_self
    have hcontains := RowRange.contains_all cell.row
    simp only [RowRange.contains, Bool.and_eq_true, Bool.not_eq_true'] at hcontains
    simp [Matcher.decideRow, Matcher.isStopped, Matcher.compareRow, Matcher.inOrder, hfilter,
      hamid.within.rows, hamid.within.current, hlt, hcontains]
  have hdecide : (state.matcher.decide cell).value = (.ok .rowDone, state.matcher) := by
    rw [hamid.matcher, Matcher.decide, hdone]
    rfl
  rw [turn_eq hamid.offers.sound.sameOrder hprevious hdecide]
  rfl

/-- How a pass over a row ends. -/
structure Amid.Ends (order : CellOrder) [LawfulSource σ order] (family row : Bytes)
    (passed : Passed φ) (later : List Cell) (ending : PassEnd) (next : ReadState σ φ) : Prop where
  amid : Amid order family row next passed.matcher passed.ahead later
  notDone : ending ≠ .scanDone
  exhausted : ending = .exhausted → passed.ahead = [] ∧ later = []

omit [RowWise order] [CellFilter φ] in
theorem Amid.ends_more {passed : Passed φ}
    (hamid : Amid order family row state passed.matcher passed.ahead later) :
    Ends order family row passed later .more state :=
  ⟨hamid, nofun, nofun⟩

omit [RowWise order] [CellFilter φ] in
theorem Amid.ends_exhausted {passed : Passed φ} (hahead : passed.ahead = [])
    (hamid : Amid order family row state passed.matcher passed.ahead []) :
    Ends order family row passed [] .exhausted state :=
  ⟨hamid, nofun, fun _ => ⟨hahead, rfl⟩⟩

/-- The turns of a pass are the pass over what is left of the row. -/
theorem Amid.turns {fuel : Nat} {limit : Option Nat} {previous : Option Cell}
    (hamid : Amid order family row state matcher here later)
    (hprevious : ∀ last, previous = some last →
      ∀ cell ∈ here ++ later, (order.compare last cell).isLE = true)
    (hfuel : here.length < fuel) :
    ∃ ending next, (turns previous limit fuel state).value =
        (.ok ((matcher.passOver limit here).cells, ending), next) ∧
      Ends order family row (matcher.passOver limit here) later ending next := by
  induction fuel generalizing state matcher limit previous here with
  | zero => omega
  | succ fuel ih =>
      -- nothing is left of the row: the pass ends without a look at the next one
      have hpeek := hamid.offers.peek_eq
      cases here with
      | nil =>
          rw [Matcher.passOver_nil]
          cases later with
          | nil =>
              simp only [ReadState.turns, hpeek, List.nil_append, List.head?_nil]
              exact ⟨.exhausted, state, rfl, hamid.ends_exhausted rfl⟩
          | cons cell rest =>
              have hturn := hamid.turn_later fun last hlast =>
                hprevious last hlast cell List.mem_cons_self
              simp only [ReadState.turns, hpeek, List.nil_append, List.head?_cons,
                Noted.value_bind, hturn]
              exact ⟨.more, state, rfl, hamid.ends_more⟩
      | cons cell rest =>
          obtain ⟨ahead, after, hcourse, hturn, hafter⟩ := hamid.turn fun last hlast =>
            hprevious last hlast cell List.mem_cons_self
          simp only [ReadState.turns, hpeek, List.cons_append, List.head?_cons, Noted.value_bind,
            hturn]
          rw [Matcher.passOver_cons_ok hcourse]
          simp only
          split
          · exact ⟨.more, after, rfl, hafter.ends_more⟩
          · have hsuffix : ahead <:+ rest := Matcher.goOn_suffix hcourse
            have hlength := hsuffix.length_le
            have hfirst := (List.pairwise_cons.mp hamid.offers.sorted).1
            rw [List.length_cons] at hfuel
            obtain ⟨ending, last, hlast, hends⟩ := @ih after _ _
              (remainingLimit limit (matcher.look cell rest).emitted) (some cell) hafter
              (by
                rintro _ ⟨⟩ other hother
                refine hfirst other ?_
                rcases List.mem_append.mp hother with hmem | hmem
                · exact List.mem_append_left _ (hsuffix.subset hmem)
                · exact List.mem_append_right _ hmem)
              (by omega)
            refine ⟨ending, last, ?_, hends.amid, hends.notDone, hends.exhausted⟩
            simp only [Noted.value_map, hlast]
            rfl

/-- A pass over a merge is the pass over what is left of the row. -/
theorem Amid.pass (hamid : Amid order family row state matcher here later)
    (limit : Option Nat) :
    ∃ ending next, (state.pass limit).value =
        (.ok ((matcher.passOver limit here).cells, ending), next) ∧
      Ends order family row (matcher.passOver limit here) later ending next := by
  refine hamid.turns nofun ?_
  rw [Merge.cellCount_eq, hamid.offers.stream, List.length_append]
  omega

end ReadState

end MergeScan
