import MergeScan.Text.Escape
import MergeScan.Time.Timestamp

/-! # Cells

A cell is one version of one column of one row: a value, or a marker that
deletes values. Cells that are never stored serve as seek keys; they sort just
before or just after all cells of a row or of a column.
-/

namespace MergeScan

/-- What a cell stands for. The first and the last kind occur in seek keys. -/
inductive CellKind
  | minimum
  | put
  | delete
  | deleteColumn
  | deleteFamily
  | maximum
deriving DecidableEq

namespace CellKind

/-- The rank of a kind. Among cells that agree in all else, a higher rank sorts
first, so that a marker precedes the value it deletes. -/
def code : CellKind → UInt8
  | minimum => 0
  | put => 4
  | delete => 8
  | deleteColumn => 12
  | deleteFamily => 14
  | maximum => 255

/-- Whether cells of this kind delete others. -/
def isDelete : CellKind → Bool
  | delete | deleteColumn | deleteFamily => true
  | minimum | put | maximum => false

/-- The printed form of a kind. -/
def text : CellKind → String
  | minimum => "Minimum"
  | put => "Put"
  | delete => "Delete"
  | deleteColumn => "DeleteColumn"
  | deleteFamily => "DeleteFamily"
  | maximum => "Maximum"

end CellKind

/-- One version of one column of one row. -/
structure Cell where
  row : Bytes
  family : Bytes
  qualifier : Bytes
  timestamp : Timestamp
  kind : CellKind
  value : Bytes
deriving DecidableEq

namespace Cell

/-- A value. -/
def put (row family qualifier : Bytes) (timestamp : Timestamp) (value : Bytes) : Cell :=
  ⟨row, family, qualifier, timestamp, .put, value⟩

/-- A marker that deletes one version of a column. -/
def delete (row family qualifier : Bytes) (timestamp : Timestamp) : Cell :=
  ⟨row, family, qualifier, timestamp, .delete, []⟩

/-- A marker that deletes the versions of a column up to a timestamp. -/
def deleteColumn (row family qualifier : Bytes) (timestamp : Timestamp) : Cell :=
  ⟨row, family, qualifier, timestamp, .deleteColumn, []⟩

/-- A marker that deletes all columns of a row up to a timestamp. Its empty
qualifier places it before every column. -/
def deleteFamily (row family : Bytes) (timestamp : Timestamp) : Cell :=
  ⟨row, family, [], timestamp, .deleteFamily, []⟩

/-- The seek key before all cells of a row. -/
def firstOnRow (row : Bytes) : Cell :=
  ⟨row, [], [], .latest, .maximum, []⟩

/-- The seek key after all cells of a row. -/
def lastOnRow (row : Bytes) : Cell :=
  ⟨row, [], [], .oldest, .minimum, []⟩

/-- The seek key before all versions of a column. -/
def firstOnColumn (row family qualifier : Bytes) : Cell :=
  ⟨row, family, qualifier, .latest, .maximum, []⟩

/-- The seek key after all versions of a column. -/
def lastOnColumn (row family qualifier : Bytes) : Cell :=
  ⟨row, family, qualifier, .oldest, .minimum, []⟩

/-- Whether a cell is a marker that deletes others. -/
def isDelete (cell : Cell) : Bool :=
  cell.kind.isDelete

/-- Whether two cells are of the same column of the same row. -/
def sameColumn (left right : Cell) : Bool :=
  left.row = right.row && left.family = right.family && left.qualifier = right.qualifier

/-- The cell with another value in place of its own. -/
def withValue (cell : Cell) (value : Bytes) : Cell :=
  { cell with value }

/-- The bytes that a cell's keys and value take. -/
def payload (cell : Cell) : Nat :=
  cell.row.length + cell.family.length + cell.qualifier.length + cell.value.length

/-- The printed form of a cell, which tells the length of its value only. -/
def text (cell : Cell) : String :=
  cell.row.escaped ++ "/" ++ cell.family.escaped ++ ":" ++ cell.qualifier.escaped ++ "/" ++
    cell.timestamp.text ++ "/" ++ cell.kind.text ++ "/vlen=" ++ Nat.repr cell.value.length

end Cell

end MergeScan
