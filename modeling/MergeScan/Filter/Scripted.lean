import MergeScan.Filter.Basic

/-! # Scripted filters

A scripted filter answers every question from a table, so that a scan can be
led through any sequence of verdicts.
-/

namespace MergeScan

/-- One line of a script: the verdict on the cells of a qualifier, at one
timestamp or at all. -/
structure FilterRule where
  qualifier : Bytes
  timestamp : Option Timestamp
  verdict : Verdict
deriving DecidableEq

/-- The key that a scripted filter sends a scan to. -/
inductive FilterHint
  | nowhere
  | firstOnRow
  | lastOnRow
  | column (qualifier : Bytes)
  | key (target : Cell)
deriving DecidableEq

/-- A filter that follows a table. -/
structure FilterScript where
  /-- The rules, of which the first that applies decides. -/
  rules : List FilterRule
  /-- The verdict where no rule applies. -/
  otherwise : Verdict
  hint : FilterHint
  dropRows : List Bytes
  /-- The number of rows after which the scan ends. -/
  stopAfter : Option Nat
  /-- The value that replaces all others. -/
  value : Option Bytes
  /-- The number of cells that a row must have. -/
  minCells : Option Nat
  /-- The rows that the filter was asked about so far. -/
  rowsSeen : Nat := 0
deriving DecidableEq

namespace FilterRule

/-- Whether the rule is about this cell. -/
def applies (rule : FilterRule) (cell : Cell) : Bool :=
  rule.qualifier = cell.qualifier &&
    match rule.timestamp with
    | none => true
    | some timestamp => timestamp = cell.timestamp

end FilterRule

namespace FilterHint

/-- The key that a hint means at a cell. -/
def resolve (hint : FilterHint) (cell : Cell) : Option Cell :=
  match hint with
  | nowhere => none
  | firstOnRow => some (Cell.firstOnRow cell.row)
  | lastOnRow => some (Cell.lastOnRow cell.row)
  | column qualifier => some (Cell.firstOnColumn cell.row cell.family qualifier)
  | key target => some target

end FilterHint

namespace FilterScript

/-- The verdict of the first rule about a cell. -/
def verdict (script : FilterScript) (cell : Cell) : Verdict :=
  match script.rules.find? (·.applies cell) with
  | some rule => rule.verdict
  | none => script.otherwise

instance : CellFilter FilterScript where
  stopsScan script :=
    match script.stopAfter with
    | some rows => rows < script.rowsSeen
    | none => false
  judgeRow script row :=
    (script.dropRows.contains row, { script with rowsSeen := script.rowsSeen + 1 })
  judgeCell script cell := (script.verdict cell, script)
  reshape script cell :=
    match script.value with
    | some value => cell.withValue value
    | none => cell
  hint script cell := script.hint.resolve cell
  needsWholeRow script := script.minCells.isSome
  judgeWholeRow script cells :=
    match script.minCells with
    | some count => (cells.length < count, script)
    | none => (false, script)
  describe _ := Text.record "ScriptFilter" []

end FilterScript

end MergeScan
