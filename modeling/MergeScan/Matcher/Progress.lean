import MergeScan.Bytes
import MergeScan.Matcher.Decision
import MergeScan.Matcher.Versions
import MergeScan.Scan.Error

/-! # Progress through the columns of a row

Inside a row, a scan passes through the columns in ascending order. It either
wants every column, or those of an ascending list. In both cases the versions
of one column are counted at a time, and a repeated timestamp is passed over,
which hides values that a newer source has overwritten.
-/

namespace MergeScan

/-- The columns that a scan wants. -/
inductive ColumnChoice
  /-- Every column; the current one is the last that was met in the row. -/
  | every (current : Option Bytes)
  /-- The columns of an ascending list; `ahead` is the part of it that the row
  has not passed. -/
  | listed (wanted ahead : List Bytes)
deriving DecidableEq

/-- How far a scan has come in a row. -/
structure ColumnProgress where
  rule : VersionRule
  seen : VersionCount
  choice : ColumnChoice
deriving DecidableEq

namespace ColumnProgress

/-- The progress at the beginning of a row. An empty list stands for every
column. -/
def start (rule : VersionRule) (columns : List Bytes) : ColumnProgress where
  rule := rule
  seen := .start
  choice := if columns.isEmpty then .every none else .listed columns columns

/-- The progress at the beginning of another row. -/
def reset (progress : ColumnProgress) : ColumnProgress :=
  { progress with
    seen := .start
    choice :=
      match progress.choice with
      | .every _ => .every none
      | .listed wanted _ => .listed wanted wanted }

/-- Whether no column of the list is left in the row. -/
def isFinished (progress : ColumnProgress) : Bool :=
  match progress.choice with
  | .every _ => false
  | .listed _ ahead => ahead.isEmpty

/-- The next column of the list. -/
def next? (progress : ColumnProgress) : Option Bytes :=
  match progress.choice with
  | .every _ => none
  | .listed _ ahead => ahead.head?

/-- Count a version of the current column when every column is wanted. -/
def countVersion (rule : VersionRule) (seen : VersionCount) (timestamp : Timestamp) :
    Decision × VersionCount :=
  let count := seen.count + 1
  if rule.max < count || rule.min < count && rule.isExpired timestamp then
    (.nextColumn, { seen with count })
  else
    (if count = rule.max then .emitThenNextColumn else .emit,
      { count, previous := some timestamp })

/-- Decide on a value when the columns of a list are wanted. Columns of the
list that sort before the value are not in this row. -/
def checkListed (rule : VersionRule) (qualifier : Bytes) (timestamp : Timestamp) :
    VersionCount → List Bytes → Decision × VersionCount × List Bytes
  | seen, [] => (.nextRow, seen, [])
  | seen, column :: rest =>
    match compare column qualifier with
    | .lt => checkListed rule qualifier timestamp .start rest
    | .gt => (.nextColumn, { seen with previous := none }, column :: rest)
    | .eq =>
      if seen.repeats timestamp then (.skip, seen, column :: rest)
      else
        let count := seen.count + 1
        if rule.max ≤ count || rule.min ≤ count && rule.isExpired timestamp then
          (if rest.isEmpty then .emitThenNextRow else .emitThenNextColumn, .start, rest)
        else (.emit, { count, previous := some timestamp }, column :: rest)

/-- Decide on a value when every column is wanted. -/
def checkEvery (rule : VersionRule) (seen : VersionCount) (current : Option Bytes)
    (qualifier : Bytes) (timestamp : Timestamp) :
    Except ScanError (Decision × VersionCount × Option Bytes) :=
  let restart :=
    let (decision, seen) := countVersion rule .start timestamp
    (decision, seen, some qualifier)
  match current with
  | none => .ok restart
  | some column =>
    match compare column qualifier with
    | .lt => .ok restart
    | .gt => .error (.columnOrder column qualifier)
    | .eq =>
      if seen.repeats timestamp then .ok (.skip, seen, current)
      else
        let (decision, seen) := countVersion rule seen timestamp
        .ok (decision, seen, current)

/-- Decide on a value of the row. -/
def check (progress : ColumnProgress) (qualifier : Bytes) (timestamp : Timestamp) :
    Except ScanError (Decision × ColumnProgress) :=
  match progress.choice with
  | .every current => do
    let (decision, seen, current) ←
      checkEvery progress.rule progress.seen current qualifier timestamp
    return (decision, { progress with seen, choice := .every current })
  | .listed wanted ahead =>
    let (decision, seen, ahead) :=
      checkListed progress.rule qualifier timestamp progress.seen ahead
    .ok (decision, { progress with seen, choice := .listed wanted ahead })

/-- The columns of a list after a column, and the versions counted of the first
of them. -/
def leave (qualifier : Bytes) : VersionCount → List Bytes → VersionCount × List Bytes
  | seen, [] => (seen, [])
  | seen, column :: rest =>
    match compare column qualifier with
    | .lt => leave qualifier .start rest
    | .eq => (.start, rest)
    | .gt => (seen, column :: rest)

/-- Give a column up: go on at the next one, or at the next row if no wanted
column is left. -/
def giveUp (progress : ColumnProgress) (qualifier : Bytes) : Decision × ColumnProgress :=
  match progress.choice with
  | .every _ => (.nextColumn, progress)
  | .listed wanted ahead =>
    let (seen, ahead) := leave qualifier progress.seen ahead
    (if ahead.isEmpty then .nextRow else .nextColumn,
      { progress with seen, choice := .listed wanted ahead })

end ColumnProgress

end MergeScan
