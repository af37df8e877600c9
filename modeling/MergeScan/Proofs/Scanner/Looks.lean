import MergeScan.Proofs.Matcher.Steps
import MergeScan.Proofs.Merge.Moves
import MergeScan.Scanner.Pass

/-! # Looks at a list

A merge is a sorted list. So what a turn does can be said without sources: it looks at the
first cell of a list, and goes on with what a decision leaves of the rest. Where a source
fails, so does the turn.
-/

namespace MergeScan

open CellOrder

/-- What one look at the first cell of a list hands out, and what it leaves of the cells
after it, or how it ends the pass. -/
structure Look (φ : Type) where
  emitted : Option Cell
  next : Matcher φ
  course : Except PassEnd (List Cell)

namespace Matcher

variable {φ : Type} [CellFilter φ]

/-- The decision on a cell, which ends the scan where there is a failure. -/
def judge (matcher : Matcher φ) (cell : Cell) : Decision × Matcher φ :=
  match (matcher.decide cell).value with
  | (.ok decision, next) => (decision, next)
  | (.error _, next) => (.scanDone, next)

omit [CellFilter φ] in
/-- What a decision on a cell leaves of the cells after it, or how it ends the pass. -/
def goOn (matcher : Matcher φ) (cell : Cell) (rest : List Cell) :
    Decision → Except PassEnd (List Cell)
  | .emit | .skip | .seekTo _ => .ok rest
  | .emitThenNextColumn | .nextColumn => .ok (keys.skipTo (matcher.nextColumnKey cell) rest)
  | .emitThenNextRow | .nextRow =>
    if matcher.extendsPast cell then .ok (keys.skipTo (matcher.nextRowKey cell) rest)
    else .error .scanDone
  | .rowDone => .error .more
  | .scanDone => .error .scanDone

/-- Where a decision goes on, or how it ends the pass. -/
inductive Onwards (matcher : Matcher φ) (cell : Cell) (rest : List Cell) :
    Decision → Except PassEnd (List Cell) → Prop
  | next (decision : Decision) : decision = .emit ∨ decision = .skip →
      Onwards matcher cell rest decision (.ok rest)
  | seekTo (key : Cell) : Onwards matcher cell rest (.seekTo key) (.ok rest)
  | column (decision : Decision) : decision = .nextColumn ∨ decision = .emitThenNextColumn →
      Onwards matcher cell rest decision (.ok (keys.skipTo (matcher.nextColumnKey cell) rest))
  | row (decision : Decision) : decision = .nextRow ∨ decision = .emitThenNextRow →
      matcher.extendsPast cell = true →
      Onwards matcher cell rest decision (.ok (keys.skipTo (matcher.nextRowKey cell) rest))
  /-- There are no rows of the scan after the row that is left. -/
  | lastRow (decision : Decision) : decision = .nextRow ∨ decision = .emitThenNextRow →
      matcher.extendsPast cell = false →
      Onwards matcher cell rest decision (.error .scanDone)
  | rowDone : Onwards matcher cell rest .rowDone (.error .more)
  | scanDone : Onwards matcher cell rest .scanDone (.error .scanDone)

section

variable {matcher : Matcher φ} {cell : Cell} {rest ahead : List Cell} {decision : Decision}

omit [CellFilter φ]

theorem onwards_of_goOn {course : Except PassEnd (List Cell)}
    (hgoOn : matcher.goOn cell rest decision = course) :
    Onwards matcher cell rest decision course := by
  subst hgoOn
  cases decision with
  | emit | skip => exact .next _ (by simp)
  | seekTo key => exact .seekTo key
  | nextColumn | emitThenNextColumn => exact .column _ (by simp)
  | nextRow | emitThenNextRow =>
      simp only [goOn]
      split
      next hextends => exact .row _ (by simp) hextends
      next hextends => exact .lastRow _ (by simp) (Bool.eq_false_iff.mpr hextends)
  | rowDone => exact .rowDone
  | scanDone => exact .scanDone

theorem goOn_suffix (hgoOn : matcher.goOn cell rest decision = .ok ahead) : ahead <:+ rest := by
  cases onwards_of_goOn hgoOn with
  | next | seekTo => exact List.suffix_refl _
  | column | row => exact List.dropWhile_suffix _

theorem goOn_error {ending : PassEnd}
    (hgoOn : matcher.goOn cell rest decision = .error ending) :
    ending = .more ∧ decision = .rowDone ∨ ending = .scanDone := by
  cases onwards_of_goOn hgoOn with
  | rowDone => exact .inl ⟨rfl, rfl⟩
  | lastRow | scanDone => exact .inr rfl

end

/-- A decision goes on with all cells after the one it is about, with those from a key behind
it on, or with none, whatever these cells are. -/
theorem Judged.goOn_cases {matcher next : Matcher φ} {cell : Cell} {decision : Decision}
    (hjudged : Judged matcher cell decision next) (hplain : Plain matcher) (hreal : cell.IsReal) :
    ((decision = .emit ∨ decision = .skip) ∧ ∀ rest, next.goOn cell rest decision = .ok rest) ∨
      (∃ key, Cell.compareKeys cell key = .lt ∧
        ∀ rest, next.goOn cell rest decision = .ok (keys.skipTo key rest)) ∨
      ∃ ending, ∀ rest, next.goOn cell rest decision = .error ending := by
  have hrow : (∃ key, Cell.compareKeys cell key = .lt ∧ ∀ rest, (if next.extendsPast cell then
        .ok (keys.skipTo (next.nextRowKey cell) rest) else .error PassEnd.scanDone) =
          Except.ok (keys.skipTo key rest)) ∨
      ∃ ending, ∀ rest, (if next.extendsPast cell then
        .ok (keys.skipTo (next.nextRowKey cell) rest) else .error PassEnd.scanDone) =
          Except.error ending := by
    cases next.extendsPast cell with
    | true => exact .inl ⟨_, lt_nextRowKey hreal.1, fun _ => rfl⟩
    | false => exact .inr ⟨_, fun _ => rfl⟩
  have hcolumn := hjudged.lt_nextColumnKey hplain hreal
  cases decision with
  | emit => exact .inl ⟨.inl rfl, fun _ => rfl⟩
  | skip => exact .inl ⟨.inr rfl, fun _ => rfl⟩
  | seekTo key => exact absurd rfl (hjudged.ne_seekTo key)
  | nextColumn => exact .inr (.inl ⟨_, hcolumn (.inl rfl), fun _ => rfl⟩)
  | emitThenNextColumn => exact .inr (.inl ⟨_, hcolumn (.inr rfl), fun _ => rfl⟩)
  | nextRow => exact .inr hrow
  | emitThenNextRow => exact .inr hrow
  | rowDone => exact .inr (.inr ⟨_, fun _ => rfl⟩)
  | scanDone => exact .inr (.inr ⟨_, fun _ => rfl⟩)

/-- Only a filter changes a cell that is handed out. -/
theorem reshape_unfiltered {matcher : Matcher φ} (hfilter : matcher.filter = none) (cell : Cell) :
    (matcher.reshape cell).value = cell := by
  simp only [reshape, hfilter, Noted.value_pure]

end Matcher

namespace ReadState

variable {σ φ : Type} [Source σ] [LawfulSource σ keys]

/-- A state that holds a list to read with a matcher. If `sure` holds, no source will fail. -/
structure Holds (sure : Prop) (state : ReadState σ φ) (matcher : Matcher φ) (ahead : List Cell) :
    Prop where
  matcher : state.matcher = matcher
  sound : Merge.Sound keys state.merge
  stream : state.merge.stream = ahead
  reliable : sure → Merge.Reliable keys state.merge

/-- What becomes of a state by a look: it goes on as the look says, or it fails. It does not fail
if `sure` holds. -/
structure Goes (sure : Prop) (state : ReadState σ φ) (look : Look φ)
    (outcome : Except ScanError Turn × ReadState σ φ) : Prop where
  succeeds : sure → outcome.1.isOk = true
  goesOn turn next ahead : outcome = (.ok turn, next) → look.course = .ok ahead →
    turn = .goOn look.emitted ∧ Holds sure next look.next ahead
  stops turn next ending : outcome = (.ok turn, next) → look.course = .error ending →
    turn = .stop look.emitted ending ∧ next = state

variable {sure : Prop} {state : ReadState σ φ} {matcher : Matcher φ} {cell key : Cell}
variable {rest ahead : List Cell} {emitted : Option Cell}

theorem Holds.peek_eq (hholds : Holds sure state matcher ahead) :
    state.merge.peek = ahead.head? := by
  rw [hholds.sound.peek_eq, hholds.stream]

/-- A look that ends the pass asks nothing of the sources. -/
theorem goes_stop (look : Look φ) {ending : PassEnd} (hcourse : look.course = .error ending) :
    Goes sure state look (.ok (.stop look.emitted ending), state) where
  succeeds _ := rfl
  goesOn _ _ _ _ hahead := nomatch hcourse.symm.trans hahead
  stops _ _ other heq hother := by
    cases heq
    cases hcourse.symm.trans hother
    exact ⟨rfl, rfl⟩

theorem Holds.moved {α : Type} (hholds : Holds sure state matcher ahead) {next : List Cell}
    {outcome : Except SourceError α × Merge σ}
    (hmoved : Merge.Moved keys state.merge next outcome) :
    Goes sure state ⟨emitted, matcher, .ok next⟩
      (after emitted (outcome.1, { state with merge := outcome.2 })) := by
  have hreliable (hsure : sure) := hmoved.reliable (hholds.reliable hsure)
  unfold after
  split
  next answer reached hresult =>
    obtain ⟨hanswer, rfl⟩ := Prod.mk.inj hresult
    have hstream := hmoved.stream (by rw [hanswer]; rfl)
    refine ⟨fun _ => rfl, ?_, fun _ _ _ _ hcourse => nomatch hcourse⟩
    intro turn next ahead houtcome hcourse
    cases houtcome
    cases hcourse
    exact ⟨rfl, hholds.matcher, hmoved.sound, hstream, fun hsure => (hreliable hsure).2⟩
  next failure reached hresult =>
    obtain ⟨hfailure, rfl⟩ := Prod.mk.inj hresult
    refine ⟨fun hsure => ?_, fun _ _ _ houtcome => ?_, fun _ _ _ houtcome => ?_⟩
    · rw [hfailure] at hreliable
      exact nomatch (hreliable hsure).1
    · cases houtcome
    · cases houtcome

theorem Holds.moveTo (hholds : Holds sure state matcher (cell :: rest))
    (hlt : Cell.compareKeys cell key = .lt) :
    Goes sure state ⟨emitted, matcher, .ok (keys.skipTo key rest)⟩
      (after emitted <$> state.moveTo key).value := by
  rw [← skipTo_cons_of_lt hlt, ← hholds.stream]
  simp only [ReadState.moveTo, Noted.value_map]
  split
  · exact hholds.moved (hholds.sound.seekExactly_moved key)
  · exact hholds.moved (hholds.sound.reseek_moved key)

theorem Holds.leaveCell (hholds : Holds sure state matcher (cell :: rest)) :
    Goes sure state ⟨emitted, matcher, .ok rest⟩ (state.leaveCell emitted).value := by
  have hmoved := hholds.sound.advance_moved
  rw [hholds.stream, List.tail_cons] at hmoved
  exact hholds.moved hmoved

theorem Holds.leaveColumn (hholds : Holds sure state matcher (cell :: rest))
    (hlt : Cell.compareKeys cell (matcher.nextColumnKey cell) = .lt) :
    Goes sure state ⟨emitted, matcher, .ok (keys.skipTo (matcher.nextColumnKey cell) rest)⟩
      (state.leaveColumn cell emitted).value := by
  rw [ReadState.leaveColumn, hholds.matcher]
  exact hholds.moveTo hlt

theorem Holds.leaveRow (hholds : Holds sure state matcher (cell :: rest)) (hreal : cell.IsReal) :
    Goes sure state
      ⟨emitted, matcher, if matcher.extendsPast cell then
        .ok (keys.skipTo (matcher.nextRowKey cell) rest) else .error .scanDone⟩
      (state.leaveRow cell emitted).value := by
  rw [ReadState.leaveRow, hholds.matcher]
  split
  · exact hholds.moveTo (Matcher.lt_nextRowKey hreal.1)
  · exact goes_stop _ rfl

section

variable [CellFilter φ] {decision : Decision}

omit [LawfulSource σ keys]

/-- A decision that hands the cell out leaves it as one that does not. -/
theorem follow_cell (hstays : decision = .emit ∨ decision = .skip) :
    (state.follow cell decision).value =
      (state.leaveCell (decision.emitted (state.matcher.reshape cell).value)).value := by
  rcases hstays with rfl | rfl <;> rfl

theorem follow_column (hleaves : decision = .nextColumn ∨ decision = .emitThenNextColumn) :
    (state.follow cell decision).value =
      (state.leaveColumn cell (decision.emitted (state.matcher.reshape cell).value)).value := by
  rcases hleaves with rfl | rfl <;> rfl

theorem follow_row (hleaves : decision = .nextRow ∨ decision = .emitThenNextRow) :
    (state.follow cell decision).value =
      (state.leaveRow cell (decision.emitted (state.matcher.reshape cell).value)).value := by
  rcases hleaves with rfl | rfl <;> rfl

end

/-- To follow a decision is to go on with what it leaves of the list, unless a filter leads on. -/
theorem Holds.follow [CellFilter φ] (hholds : Holds sure state matcher (cell :: rest))
    (hreal : cell.IsReal) {decision : Decision}
    (hcolumn : decision = .nextColumn ∨ decision = .emitThenNextColumn →
      Cell.compareKeys cell (matcher.nextColumnKey cell) = .lt)
    (hseeks : ∀ target, decision ≠ .seekTo target) :
    Goes sure state
      ⟨decision.emitted (matcher.reshape cell).value, matcher, matcher.goOn cell rest decision⟩
      (state.follow cell decision).value := by
  cases decision with
  | emit | skip =>
      rw [follow_cell (by simp), hholds.matcher]
      exact hholds.leaveCell
  | nextColumn | emitThenNextColumn =>
      rw [follow_column (by simp), hholds.matcher]
      exact hholds.leaveColumn (hcolumn (by simp))
  | nextRow | emitThenNextRow =>
      rw [follow_row (by simp), hholds.matcher]
      exact hholds.leaveRow hreal
  | seekTo target => exact absurd rfl (hseeks target)
  | rowDone | scanDone => exact goes_stop _ rfl

section

variable [CellFilter φ] {order : CellOrder} (horder : state.merge.order = order)
variable {previous : Option Cell} {next : Matcher φ}
variable (hprevious : ∀ last, previous = some last → (order.compare last cell).isLE = true)
include horder hprevious

omit [LawfulSource σ keys] [Source σ] [CellFilter φ] in
/-- A cell that does not come before the last one shows no source to be out of order. -/
theorem not_isGT_of_isLE :
    (previous.filter fun last => (state.merge.order.compare last cell).isGT) = none := by
  rw [horder, Option.filter_eq_none_iff]
  intro last hlast
  have hle := hprevious last hlast
  rwa [Ordering.isGT_iff_eq_gt, Ordering.ne_gt_iff_isLE]

omit [LawfulSource σ keys] in
/-- A turn is to follow the decision on the cell on top, if this does not come before the last
one. -/
theorem turn_eq {decision : Decision}
    (hdecide : (state.matcher.decide cell).value = (.ok decision, next)) :
    (state.turn previous cell).value =
      (ReadState.follow { state with matcher := next } cell decision).value := by
  rw [ReadState.turn, not_isGT_of_isLE horder hprevious]
  simp only [Noted.value_bind, hdecide]

omit [LawfulSource σ keys] in
/-- Where there is no decision on that cell, the turn fails. -/
theorem turn_of_error {failure : ScanError}
    (hdecide : (state.matcher.decide cell).value = (.error failure, next)) :
    (state.turn previous cell).value = (.error failure, { state with matcher := next }) := by
  rw [ReadState.turn, not_isGT_of_isLE horder hprevious]
  simp only [Noted.value_bind, hdecide, Noted.value_pure]

end

theorem Holds.turn_eq [CellFilter φ] (hholds : Holds sure state matcher (cell :: rest))
    {previous : Option Cell}
    (hprevious : ∀ last, previous = some last → (Cell.compareKeys last cell).isLE = true)
    {decision : Decision} {next : Matcher φ}
    (hdecide : (matcher.decide cell).value = (.ok decision, next)) :
    (state.turn previous cell).value =
      (ReadState.follow { state with matcher := next } cell decision).value :=
  ReadState.turn_eq hholds.sound.sameOrder hprevious (hholds.matcher.symm ▸ hdecide)

end ReadState

end MergeScan
