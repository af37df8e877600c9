import MergeScan.Cell.Order
import MergeScan.Scan.Request
import MergeScan.Source.Basic

/-! # Write buffers

Writes are collected in a buffer that is sorted at all times. A write at the
coordinates of another one replaces it. Cursors keep working while the buffer
grows: a write reaches every cursor that is open on the buffer, and is seen if
it lies ahead of it.
-/

namespace MergeScan

/-- The cells written since the last flush. -/
structure Buffer where
  cells : List Cell := []
  /-- A bound of the timestamps written, from below. -/
  oldest : Timestamp := .latest
  /-- A bound of the timestamps written, from above. -/
  newest : Timestamp := .oldest
  /-- The bytes of all cells written, replaced ones included. -/
  payload : Nat := 0

namespace Buffer

/-- The buffer without cells. -/
def empty : Buffer := {}

/-- Insert into an ascending list, in place of a cell at the same coordinates. -/
def insertCell (cell : Cell) : List Cell → List Cell
  | [] => [cell]
  | first :: rest =>
    match Cell.compareKeys cell first with
    | .lt => cell :: first :: rest
    | .eq => cell :: rest
    | .gt => first :: insertCell cell rest

/-- Write a cell. -/
def insert (buffer : Buffer) (cell : Cell) : Buffer where
  cells := insertCell cell buffer.cells
  oldest := if cell.timestamp < buffer.oldest then cell.timestamp else buffer.oldest
  newest := if buffer.newest < cell.timestamp then cell.timestamp else buffer.newest
  payload := buffer.payload + cell.payload

/-- The number of cells. -/
def size (buffer : Buffer) : Nat :=
  buffer.cells.length

/-- Whether the buffer holds no cell. -/
def isEmpty (buffer : Buffer) : Bool :=
  buffer.cells.isEmpty

/-- Whether a scan could find anything in the buffer. An empty buffer concerns
every scan, because cells can be written to it while the scan is running. -/
def concerns (buffer : Buffer) (request : SourceRequest) : Bool :=
  buffer.isEmpty || request.timeRange.overlaps buffer.oldest buffer.newest

/-- The first cell at or after a key. -/
def ceiling (buffer : Buffer) (key : Cell) : Option Cell :=
  buffer.cells.find? fun cell => (Cell.compareKeys cell key).isGE

/-- The cells after a key. -/
def above (buffer : Buffer) (key : Cell) : List Cell :=
  buffer.cells.dropWhile fun cell => (Cell.compareKeys cell key).isLE

end Buffer

/-- A cursor over a buffer. It remembers the cell it stands at, which stays the
same when that cell is overwritten. -/
structure BufferCursor where
  buffer : Buffer
  /-- The number of buffers of the store before this one. -/
  generation : Nat
  sequenceId : Nat
  current : Option Cell
  closed : Bool := false

namespace BufferCursor

/-- Show a cursor the buffer as it is after a write. -/
def refresh (cursor : BufferCursor) (generation : Nat) (buffer : Buffer) : BufferCursor :=
  if cursor.generation = generation then { cursor with buffer } else cursor

/-- Move to the first cell at or after a key. -/
def moveTo (cursor : BufferCursor) (key : Cell) : BufferCursor :=
  { cursor with current := cursor.buffer.ceiling key }

instance : Source BufferCursor where
  remaining cursor :=
    match cursor.current with
    | some cell => cell :: cursor.buffer.above cell
    | none => []
  peek cursor := cursor.current
  advance cursor :=
    if cursor.closed then (.error .closed, cursor)
    else
      match cursor.current with
      | some cell =>
        (.ok (some cell), { cursor with current := (cursor.buffer.above cell).head? })
      | none => (.ok none, cursor)
  seek cursor key :=
    if cursor.closed then (.error .closed, cursor)
    else
      let moved := cursor.moveTo key
      (.ok moved.current.isSome, moved)
  reseek cursor key :=
    if cursor.closed then (.error .closed, cursor)
    else
      match cursor.current with
      | some cell =>
        if (Cell.compareKeys cell key).isGE then (.ok true, cursor)
        else
          let moved := cursor.moveTo key
          (.ok moved.current.isSome, moved)
      | none => (.ok false, cursor)
  sequenceId cursor := cursor.sequenceId
  kind _ := .memory
  origin cursor := .buffer cursor.generation
  close cursor :=
    if cursor.closed then (.error .doubleClose, cursor)
    else (.ok (), { cursor with closed := true, current := none })

end BufferCursor

namespace Buffer

/-- A cursor at the first cell of the buffer. -/
def cursor (buffer : Buffer) (generation sequenceId : Nat) : BufferCursor :=
  { buffer, generation, sequenceId, current := buffer.cells.head? }

end Buffer

end MergeScan
