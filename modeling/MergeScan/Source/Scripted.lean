import MergeScan.Cell.Order
import MergeScan.Source.Basic

/-! # Scripted sources

A scripted source holds its cells in the order they are given in, sorted or
not, and fails where its script says so. It shows how a merge and a scan behave
over sources that break their promises.
-/

namespace MergeScan

/-- A source to be handed out: its cells and when it fails. -/
structure SourceScript where
  sequenceId : Nat
  cells : List Cell
  /-- Whether the source has direct positioning. -/
  exact : Bool := false
  /-- Whether the source poses as a write buffer. -/
  memory : Bool := false
  /-- The number of successful advances after which advancing fails. -/
  failAdvanceAfter : Option Nat := none
  /-- The number of successful positionings after which positioning fails. -/
  failSeekAfter : Option Nat := none
  /-- Whether closing fails. The source is closed all the same. -/
  failClose : Bool := false

/-- A source that follows a script. -/
structure ScriptedSource where
  script : SourceScript
  /-- The order that keys are looked up in. -/
  order : CellOrder
  serial : Nat
  position : Nat := 0
  advances : Nat := 0
  positionings : Nat := 0
  closed : Bool := false

namespace ScriptedSource

/-- The failure of a source whose script says so. -/
def injectedFailure : SourceError := .io "injected failure"

/-- The cell at the cursor, whether or not the source is open. -/
def current (source : ScriptedSource) : Option Cell :=
  source.script.cells[source.position]?

/-- The position of the first cell that is not before a key, from a position on. -/
def ceiling (source : ScriptedSource) (start : Nat) (key : Cell) : Nat :=
  start + ((source.script.cells.drop start).takeWhile fun cell =>
    (source.order.compare cell key).isLT).length

/-- Move to the first cell that is not before a key, unless the script says
that positioning fails now. -/
def moveTo (source : ScriptedSource) (start : Nat) (key : Cell) (found : Option Cell → Bool) :
    Except SourceError Bool × ScriptedSource :=
  if source.closed then (.error .closed, source)
  else if source.script.failSeekAfter = some source.positionings then
    (.error injectedFailure, source)
  else
    let moved := { source with
      position := source.ceiling start key, positionings := source.positionings + 1 }
    (.ok (found moved.current), moved)

instance : Source ScriptedSource where
  remaining source := if source.closed then [] else source.script.cells.drop source.position
  peek source := if source.closed then none else source.current
  advance source :=
    if source.closed then (.error .closed, source)
    else if source.script.failAdvanceAfter = some source.advances then
      (.error injectedFailure, source)
    else
      let advances := source.advances + 1
      match source.current with
      | some cell =>
        (.ok (some cell), { source with position := source.position + 1, advances })
      | none => (.ok none, { source with advances })
  seek source key := source.moveTo 0 key Option.isSome
  reseek source key := source.moveTo source.position key Option.isSome
  supportsExactSeek source := source.script.exact
  seekExactly source key forward :=
    if source.script.exact then
      source.moveTo (if forward then source.position else 0) key
        fun cell => cell.any (·.sameColumn key)
    else (.error .noExactSeek, source)
  sequenceId source := source.script.sequenceId
  kind source := if source.script.memory then .memory else .file
  origin source := .scripted source.serial
  close source :=
    if source.closed then (.error .doubleClose, source)
    else
      (if source.script.failClose then .error injectedFailure else .ok (),
        { source with closed := true })

end ScriptedSource

namespace SourceScript

/-- The source of a script, at its first cell. -/
def «open» (script : SourceScript) (order : CellOrder) (serial : Nat) : ScriptedSource :=
  { script, order, serial }

end SourceScript

end MergeScan
