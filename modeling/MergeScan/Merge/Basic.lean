import MergeScan.Cell.Order
import MergeScan.Merge.Queue
import MergeScan.Source.Positioning

/-! # Merging sources

A merge presents several sources in ascending order as one. It holds the source
with the smallest cell apart from the others, so that a source that is read for
a while need not be compared with them at every step. Of equal cells, the one
from the newest source comes first. A source that has no cell left is closed at
once; how that failed is remembered until the merge is closed.
-/

namespace MergeScan

/-- A source in a merge, with the cell under its cursor. -/
structure MergeEntry (σ : Type) where
  top : Cell
  source : σ

/-- Several sources in ascending order as one. -/
structure Merge (σ : Type) where
  order : CellOrder
  /-- The source with the smallest cell. -/
  current : Option (MergeEntry σ)
  /-- The other sources that have cells left. -/
  waiting : PriorityQueue (MergeEntry σ)
  /-- How sources failed to close that have no cell left. -/
  failures : List SourceError

namespace MergeEntry

variable {σ : Type} [Source σ]

/-- Which of two entries comes first: the greater one. That is the one with the
smaller cell, and of equal cells the one from the newer source. -/
def rank (order : CellOrder) (left right : MergeEntry σ) : Ordering :=
  (order.compare left.top right.top).swap.then <|
    compare (Source.sequenceId left.source) (Source.sequenceId right.source)

/-- Whether an entry comes no earlier than another. -/
def le (order : CellOrder) (left right : MergeEntry σ) : Bool :=
  (rank order left right).isLE

end MergeEntry

/-- The entry with its source changed. The cell under the cursor stays. -/
def MergeEntry.mapSource {σ : Type} (change : σ → σ) (entry : MergeEntry σ) : MergeEntry σ :=
  { entry with source := change entry.source }

namespace Merge

variable {σ : Type} [Source σ]

/-- Close a source. A failure is remembered. -/
def release (merge : Merge σ) (source : σ) : Noted (Merge σ) := do
  let (result, closed) ← Noted.use .close source Source.close
  match result with
  | .ok () => pure merge
  | .error failure =>
    Noted.raise
      (.sourceCloseFailed (Source.kind closed) (Source.sequenceId closed) failure)
    pure { merge with failures := merge.failures ++ [failure] }

/-- Put an entry among the waiting ones. -/
def enqueue (merge : Merge σ) (entry : MergeEntry σ) : Merge σ :=
  { merge with waiting := merge.waiting.push (MergeEntry.le merge.order) entry }

/-- Put a source among the waiting ones by the cell under its cursor, or close
it if it has none. -/
def takeIn (merge : Merge σ) (source : σ) : Noted (Merge σ) :=
  match Source.peek source with
  | some top => pure (merge.enqueue ⟨top, source⟩)
  | none => merge.release source

/-- Make the first of the waiting entries the current one. -/
def promote (merge : Merge σ) : Merge σ :=
  match merge.waiting.pop? (MergeEntry.le merge.order) with
  | some (entry, waiting) => { merge with current := some entry, waiting }
  | none => { merge with current := none }

/-- Take in sources one after the other. -/
def takeInAll (merge : Merge σ) : List σ → Noted (Merge σ)
  | [] => pure merge
  | source :: rest => do
    let merge ← merge.takeIn source
    merge.takeInAll rest

/-- The merge of sources that are in position already. -/
def ofSources (order : CellOrder) (sources : List σ) : Noted (Merge σ) := do
  let merge ← takeInAll ⟨order, none, .empty, []⟩ sources
  pure merge.promote

/-- The smallest cell that is left. -/
def peek (merge : Merge σ) : Option Cell :=
  merge.current.map MergeEntry.top

/-- The entries of the merge: the current one, then the others in the order of
their array. -/
def entries (merge : Merge σ) : List (MergeEntry σ) :=
  merge.current.toList ++ merge.waiting.toList

/-- The number of sources that have cells left. -/
def size (merge : Merge σ) : Nat :=
  merge.waiting.size + if merge.current.isSome then 1 else 0

/-- Whether no source has a cell left. -/
def isEmpty (merge : Merge σ) : Bool :=
  merge.current.isNone

/-- The number of cells that are left in all sources. -/
def cellCount (merge : Merge σ) : Nat :=
  (merge.entries.flatMap fun entry => Source.remaining entry.source).length

/-- Put back the source that was current as far as it still has cells, and find
the one that is current now. -/
def settle (merge : Merge σ) (source : σ) : Noted (Merge σ) :=
  match Source.peek source with
  | none => do
    let merge ← merge.release source
    pure merge.promote
  | some top =>
    let entry : MergeEntry σ := ⟨top, source⟩
    match merge.waiting.peek? with
    | some first =>
      if MergeEntry.le merge.order first entry then
        pure { merge with current := some entry }
      else pure (merge.enqueue entry).promote
    | none => pure { merge with current := some entry }

/-- Take the smallest cell. A failure leaves the merge as it is. -/
def advance (merge : Merge σ) : Noted (Except SourceError (Option Cell) × Merge σ) :=
  match merge.current with
  | none => pure (.ok none, merge)
  | some entry => do
    let (result, source) ← Noted.use .advance entry.source Source.advance
    match result with
    | .error failure =>
      pure (.error failure, { merge with current := some { entry with source } })
    | .ok cell => do
      let merge ← { merge with current := none }.settle source
      pure (.ok cell, merge)

/-- Position entries on a key from anywhere, one after the other. After the
first failure the others stay where they are. -/
def seekEach (merge : Merge σ) (key : Cell) :
    List (MergeEntry σ) → Noted (Option SourceError × Merge σ)
  | [] => pure (none, merge)
  | entry :: rest => do
    let (result, source) ← Positioning.seek entry.source key
    match result with
    | .ok _ => do
      let merge ← merge.takeIn source
      merge.seekEach key rest
    | .error failure =>
      pure (some failure, (({ entry with source } :: rest).foldl enqueue merge))

/-- Position all sources on their first cell at or after a key, from anywhere.
Sources that had no cell left are closed and do not come back. -/
def seek (merge : Merge σ) (key : Cell) : Noted (Except SourceError Bool × Merge σ) := do
  let (failure, merge) ←
    { merge with current := none, waiting := .empty }.seekEach key merge.entries
  let merge := merge.promote
  match failure with
  | some failure => pure (.error failure, merge)
  | none => pure (.ok merge.current.isSome, merge)

/-- Position waiting entries on a key until the first of them is at or after
it. An entry that is in position is not positioned again, so there are at most
as many turns as entries. -/
def skipTo (positioning : Positioning σ) (key : Cell) :
    (turns : Nat) → Merge σ → Noted (Except SourceError Bool × Merge σ)
  | 0, merge => pure (.ok merge.promote.current.isSome, merge.promote)
  | turns + 1, merge =>
    match merge.waiting.pop? (MergeEntry.le merge.order) with
    | none => pure (.ok false, merge)
    | some (entry, waiting) =>
      let others := { merge with waiting }
      if (merge.order.compare key entry.top).isLE then
        let merge := (others.enqueue entry).promote
        pure (.ok merge.current.isSome, merge)
      else do
        let (result, source) ← positioning entry.source key
        match result with
        | .error failure =>
          pure (.error failure, (others.enqueue { entry with source }).promote)
        | .ok _ => do
          let merge ← others.takeIn source
          skipTo positioning key turns merge

/-- Position all sources on their first cell at or after a key, forward only.
Sources that are there already are left alone. -/
def moveForward (merge : Merge σ) (positioning : Positioning σ) (key : Cell) :
    Noted (Except SourceError Bool × Merge σ) :=
  match merge.current with
  | none => pure (.ok false, merge)
  | some entry =>
    skipTo positioning key (merge.size + 1) ({ merge with current := none }.enqueue entry)

/-- Position all sources forward by their plain operation. -/
def reseek (merge : Merge σ) (key : Cell) : Noted (Except SourceError Bool × Merge σ) :=
  merge.moveForward Positioning.reseek key

/-- Position all sources forward, by direct positioning where a source has it. -/
def seekExactly (merge : Merge σ) (key : Cell) (forward : Bool) :
    Noted (Except SourceError Bool × Merge σ) :=
  merge.moveForward (Positioning.exactly forward) key

/-- Close the current entry. -/
def releaseCurrent (merge : Merge σ) : Noted (Merge σ) :=
  match merge.current with
  | some entry => { merge with current := none }.release entry.source
  | none => pure merge

/-- Close waiting entries, the first one first. -/
def releaseWaiting : (turns : Nat) → Merge σ → Noted (Merge σ)
  | 0, merge => pure merge
  | turns + 1, merge =>
    match merge.waiting.pop? (MergeEntry.le merge.order) with
    | none => pure merge
    | some (entry, waiting) => do
      let merge ← { merge with waiting }.release entry.source
      releaseWaiting turns merge

/-- Close all sources. The answer is every failure to close one, earlier ones
included, and the merge forgets them. -/
def close (merge : Merge σ) : Noted (List SourceError × Merge σ) := do
  let merge ← merge.releaseCurrent
  let merge ← releaseWaiting merge.waiting.size merge
  pure (merge.failures, { merge with failures := [] })

/-- Take cells until none is left or a source fails. -/
def drainFor : (fuel : Nat) → Merge σ → Noted ((List Cell × Option SourceError) × Merge σ)
  | 0, merge => pure (([], none), merge)
  | fuel + 1, merge => do
    let (result, merge) ← merge.advance
    match result with
    | .error failure => pure (([], some failure), merge)
    | .ok none => pure (([], none), merge)
    | .ok (some cell) => do
      let ((cells, failure), merge) ← drainFor fuel merge
      pure ((cell :: cells, failure), merge)

/-- Take all cells that are left, or those before the first failure. -/
def drain (merge : Merge σ) : Noted ((List Cell × Option SourceError) × Merge σ) :=
  drainFor (merge.cellCount + 1) merge

/-- The merge with every source changed in the same way. -/
def mapSources (merge : Merge σ) (change : σ → σ) : Merge σ :=
  { merge with
    current := merge.current.map (MergeEntry.mapSource change)
    waiting := ⟨merge.waiting.slots.map (MergeEntry.mapSource change)⟩ }

/-- The printed form of a merge. -/
def describe (merge : Merge σ) : String :=
  Text.record "MergeHeap"
    [("top", Text.option (merge.peek.map Cell.text)),
      ("sources", Nat.repr merge.size),
      ("released_errors", Nat.repr merge.failures.length)]

end Merge

end MergeScan
