import MergeScan.Matcher.Basic
import MergeScan.Merge.Basic

/-! # Reading a row

One pass reads from the top of a merge what belongs to a row: it asks the
matcher about each cell, hands out the cells to emit, and moves the merge on as
decided. It ends with the row, with the scan, with the merge, or when enough
cells were handed out.
-/

namespace MergeScan

/-- How a pass ended. -/
inductive PassEnd
  /-- The row is complete or enough cells were handed out. -/
  | more
  /-- Nothing further can be part of the scan. -/
  | scanDone
  /-- No source has a cell left. -/
  | exhausted
deriving DecidableEq

/-- What reading changes. -/
structure ReadState (σ φ : Type) where
  merge : Merge σ
  matcher : Matcher φ

/-- One turn of a pass: it goes on, perhaps after it handed out a cell, or the
pass is over, perhaps after a last cell. -/
inductive Turn
  | goOn (emitted : Option Cell)
  | stop (emitted : Option Cell) (ending : PassEnd)

namespace ReadState

variable {σ φ : Type} [Source σ] [CellFilter φ]

/-- Move the merge forward to a key, in the way that suits the scan. -/
def moveTo (state : ReadState σ φ) (key : Cell) :
    Noted (Except SourceError Bool × ReadState σ φ) := do
  let (result, merge) ←
    if state.matcher.exactColumn then state.merge.seekExactly key true
    else state.merge.reseek key
  pure (result, { state with merge })

/-- Take the cell on top. -/
def takeTop (state : ReadState σ φ) :
    Noted (Except SourceError (Option Cell) × ReadState σ φ) := do
  let (result, merge) ← state.merge.advance
  pure (result, { state with merge })

/-- Go on after a movement of the merge. -/
def after {α : Type} (emitted : Option Cell)
    (moved : Except SourceError α × ReadState σ φ) :
    Except ScanError Turn × ReadState σ φ :=
  match moved with
  | (.ok _, state) => (.ok (.goOn emitted), state)
  | (.error failure, state) => (.error (.ofSource failure), state)

/-- Leave the row of a cell, or end the scan if no later row can be part of it. -/
def leaveRow (state : ReadState σ φ) (cell : Cell) (emitted : Option Cell) :
    Noted (Except ScanError Turn × ReadState σ φ) :=
  if state.matcher.extendsPast cell then
    after emitted <$> state.moveTo (state.matcher.nextRowKey cell)
  else pure (.ok (.stop emitted .scanDone), state)

/-- Leave the column of a cell. -/
def leaveColumn (state : ReadState σ φ) (cell : Cell) (emitted : Option Cell) :
    Noted (Except ScanError Turn × ReadState σ φ) :=
  after emitted <$> state.moveTo (state.matcher.nextColumnKey cell)

/-- Pass on to the next cell. -/
def leaveCell (state : ReadState σ φ) (emitted : Option Cell) :
    Noted (Except ScanError Turn × ReadState σ φ) :=
  after emitted <$> state.takeTop

/-- Do what was decided about the cell on top. A key that lies at or before
that cell would lead back to it, and is taken for an order to skip it. -/
def follow (state : ReadState σ φ) (cell : Cell) :
    Decision → Noted (Except ScanError Turn × ReadState σ φ)
  | .emit => do
    let emitted ← state.matcher.reshape cell
    state.leaveCell (some emitted)
  | .emitThenNextColumn => do
    let emitted ← state.matcher.reshape cell
    state.leaveColumn cell (some emitted)
  | .emitThenNextRow => do
    let emitted ← state.matcher.reshape cell
    state.leaveRow cell (some emitted)
  | .skip => state.leaveCell none
  | .nextColumn => state.leaveColumn cell none
  | .nextRow => state.leaveRow cell none
  | .seekTo key =>
    if (state.merge.order.compare key cell).isGT then after none <$> state.moveTo key
    else state.leaveCell none
  | .rowDone => pure (.ok (.stop none .more), state)
  | .scanDone => pure (.ok (.stop none .scanDone), state)

/-- Look at the cell on top and act on it. A cell that is smaller than the one
before it shows that a source is not in order. -/
def turn (state : ReadState σ φ) (previous : Option Cell) (cell : Cell) :
    Noted (Except ScanError Turn × ReadState σ φ) :=
  match previous.filter fun previous => (state.merge.order.compare previous cell).isGT with
  | some previous => do
    Noted.raise (.orderingViolation previous cell)
    pure (.error (.outOfOrder previous cell), state)
  | none => do
    let (decision, matcher) ← state.matcher.decide cell
    match decision with
    | .error failure => pure (.error failure, { state with matcher })
    | .ok decision => ReadState.follow { state with matcher } cell decision

/-- The cells of a pass, in front of those of the turns that follow. -/
def prepend (emitted : Option Cell)
    (rest : Except ScanError (List Cell × PassEnd) × ReadState σ φ) :
    Except ScanError (List Cell × PassEnd) × ReadState σ φ :=
  (rest.1.map fun (cells, ending) => (emitted.toList ++ cells, ending), rest.2)

/-- The cells still wanted after one more was perhaps handed out. -/
def remainingLimit (limit : Option Nat) (emitted : Option Cell) : Option Nat :=
  limit.map fun limit => limit - emitted.toList.length

/-- Turn after turn until the pass ends. The limit, if there is one, is looked
at after each cell that is handed out, so a pass hands out at least one cell if
there is one. -/
def turns (previous : Option Cell) (limit : Option Nat) :
    (fuel : Nat) → ReadState σ φ →
      Noted (Except ScanError (List Cell × PassEnd) × ReadState σ φ)
  | 0, state => pure (.ok ([], .exhausted), state)
  | fuel + 1, state =>
    match state.merge.peek with
    | none => pure (.ok ([], .exhausted), state)
    | some cell => do
      let (result, state) ← state.turn previous cell
      match result with
      | .error failure => pure (.error failure, state)
      | .ok (.stop emitted ending) => pure (.ok (emitted.toList, ending), state)
      | .ok (.goOn emitted) =>
        let limit := remainingLimit limit emitted
        if emitted.isSome && limit = some 0 then pure (.ok (emitted.toList, .more), state)
        else prepend emitted <$> turns (some cell) limit fuel state

/-- Read a pass. Every turn but the last leaves a cell behind, or comes before
one that does, which bounds their number. -/
def pass (state : ReadState σ φ) (limit : Option Nat) :
    Noted (Except ScanError (List Cell × PassEnd) × ReadState σ φ) :=
  turns none limit (2 * state.merge.cellCount + 1) state

end ReadState

end MergeScan
