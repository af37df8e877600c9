import MergeScan.Cell.Order
import MergeScan.Scan.Request
import MergeScan.Source.Basic

/-! # Sorted runs

A run is an immutable list of cells in ascending order without two cells at
the same coordinates. It is what is left of a write buffer, or of a merge of
other runs. A reader looks up keys by bisection.
-/

namespace MergeScan

/-- The first position in a stretch of `span` positions from `low` on that is
not below, where every position below precedes every other. -/
def bisect (below : Nat → Bool) : (fuel low span : Nat) → Nat
  | 0, low, _ => low
  | fuel + 1, low, span =>
    if span = 0 then low
    else
      let half := span / 2
      if below (low + half) then bisect below fuel (low + half + 1) (span - half - 1)
      else bisect below fuel low half

/-- An immutable list of cells in ascending order. -/
structure SortedRun where
  id : RunId
  /-- The rank of the run among the sources of its family. -/
  sequenceId : Nat
  cells : Array Cell

namespace SortedRun

/-- The cells that follow `kept` in a sorted list, less those at the same
coordinates as the cell before them that is kept. -/
def dropRepeats (kept : Cell) : List Cell → List Cell
  | [] => []
  | cell :: rest =>
    match Cell.compareKeys cell kept with
    | .eq => dropRepeats kept rest
    | _ => cell :: dropRepeats cell rest

/-- A sorted list with only the first of the cells at the same coordinates. -/
def dedupe : List Cell → List Cell
  | [] => []
  | cell :: rest => cell :: dropRepeats cell rest

/-- The run of cells given in any order. Of cells at the same coordinates it
holds the one that comes first. -/
def ofCells (id : RunId) (sequenceId : Nat) (cells : List Cell) : SortedRun where
  id := id
  sequenceId := sequenceId
  cells := (dedupe (CellOrder.keys.sort cells)).toArray

/-- The cells of the run in ascending order. -/
def toList (run : SortedRun) : List Cell :=
  run.cells.toList

/-- The number of cells. -/
def size (run : SortedRun) : Nat :=
  run.cells.size

/-- Whether the run holds no cell. -/
def isEmpty (run : SortedRun) : Bool :=
  run.cells.isEmpty

/-- The first and the last row of the run. -/
def rowBounds (run : SortedRun) : Option (Bytes × Bytes) :=
  match run.cells[0]?, run.cells.back? with
  | some first, some last => some (first.row, last.row)
  | _, _ => none

/-- Widen an interval of time so that it holds a cell. -/
def widen (bounds : Timestamp × Timestamp) (cell : Cell) : Timestamp × Timestamp :=
  (if cell.timestamp < bounds.1 then cell.timestamp else bounds.1,
    if bounds.2 < cell.timestamp then cell.timestamp else bounds.2)

/-- The oldest and the newest timestamp of the run. -/
def timeBounds (run : SortedRun) : Option (Timestamp × Timestamp) :=
  if run.isEmpty then none else some (run.toList.foldl widen (.latest, .oldest))

/-- Whether a scan could find anything in the run. -/
def concerns (run : SortedRun) (request : SourceRequest) : Bool :=
  match run.rowBounds, run.timeBounds with
  | some (first, last), some (oldest, newest) =>
    request.timeRange.overlaps oldest newest && request.rows.overlaps first last
  | _, _ => false

/-- Whether the cell at a position sorts before a key. -/
def below (run : SortedRun) (key : Cell) (position : Nat) : Bool :=
  match run.cells[position]? with
  | some cell => (Cell.compareKeys cell key).isLT
  | none => false

/-- The position of the first cell at or after a key, from a position on. -/
def ceiling (run : SortedRun) (start : Nat) (key : Cell) : Nat :=
  let low := min start run.size
  bisect (run.below key) run.size low (run.size - low)

end SortedRun

/-- A cursor over a run. -/
structure RunReader where
  run : SortedRun
  position : Nat := 0
  closed : Bool := false

namespace RunReader

/-- The cell at the cursor, whether or not the reader is open. -/
def current (reader : RunReader) : Option Cell :=
  reader.run.cells[reader.position]?

/-- Move to the first cell at or after a key, from a position on. -/
def moveTo (reader : RunReader) (start : Nat) (key : Cell) : RunReader :=
  { reader with position := reader.run.ceiling start key }

instance : Source RunReader where
  remaining reader := if reader.closed then [] else reader.run.toList.drop reader.position
  peek reader := if reader.closed then none else reader.current
  advance reader :=
    if reader.closed then (.error .closed, reader)
    else
      match reader.current with
      | some cell => (.ok (some cell), { reader with position := reader.position + 1 })
      | none => (.ok none, reader)
  seek reader key :=
    if reader.closed then (.error .closed, reader)
    else
      let moved := reader.moveTo 0 key
      (.ok moved.current.isSome, moved)
  reseek reader key :=
    if reader.closed then (.error .closed, reader)
    else
      let moved := reader.moveTo reader.position key
      (.ok moved.current.isSome, moved)
  supportsExactSeek _ := true
  seekExactly reader key forward :=
    if reader.closed then (.error .closed, reader)
    else
      let moved := reader.moveTo (if forward then reader.position else 0) key
      (.ok (moved.current.any (·.sameColumn key)), moved)
  sequenceId reader := reader.run.sequenceId
  kind _ := .file
  origin reader := .run reader.run.id
  close reader :=
    if reader.closed then (.error .doubleClose, reader)
    else (.ok (), { reader with closed := true })

end RunReader

namespace SortedRun

/-- A reader at the first cell of the run. -/
def reader (run : SortedRun) : RunReader :=
  { run }

end SortedRun

end MergeScan
