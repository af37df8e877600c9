import MergeScan.Cell.Basic
import MergeScan.Scan.Error

/-! # The delete markers of a row

Markers sort before the values they delete. So it is enough to remember the
newest marker on the whole row and one marker on a column: when a value of
another column arrives, the marker on the column has done its work.
-/

namespace MergeScan

/-- A marker on a column. -/
structure ColumnMarker where
  qualifier : Bytes
  kind : CellKind
  timestamp : Timestamp
deriving DecidableEq

/-- The markers of a row that can still delete something. -/
structure RowMarkers where
  /-- The timestamp of the newest marker on the whole row. -/
  wholeRow : Option Timestamp := none
  column : Option ColumnMarker := none
deriving DecidableEq

namespace RowMarkers

/-- No markers. -/
def empty : RowMarkers := {}

/-- Whether no marker is remembered. -/
def isEmpty (markers : RowMarkers) : Bool :=
  markers.wholeRow.isNone && markers.column.isNone

/-- Whether the whole row is deleted at a timestamp. -/
def coversRow (markers : RowMarkers) (timestamp : Timestamp) : Bool :=
  match markers.wholeRow with
  | some stamp => timestamp ≤ stamp
  | none => false

/-- Whether the remembered marker on a column is wider than one of this kind. -/
def coversColumn (markers : RowMarkers) (qualifier : Bytes) (kind : CellKind) : Bool :=
  match markers.column with
  | some marker => kind.code < marker.kind.code && marker.qualifier = qualifier
  | none => false

/-- Remember a marker, unless it deletes nothing that is not deleted already. -/
def add (markers : RowMarkers) (qualifier : Bytes) (kind : CellKind)
    (timestamp : Timestamp) : RowMarkers :=
  if markers.coversRow timestamp then markers
  else if kind = .deleteFamily then { markers with wholeRow := some timestamp }
  else if markers.coversColumn qualifier kind then markers
  else { markers with column := some ⟨qualifier, kind, timestamp⟩ }

/-- Whether a value is deleted. A marker on a column that the row has passed is
forgotten; one on a column that is still ahead shows that the cells of the row
are not in order. -/
def masks (markers : RowMarkers) (qualifier : Bytes) (timestamp : Timestamp) :
    Except ScanError (Bool × RowMarkers) :=
  if markers.coversRow timestamp then .ok (true, markers)
  else
    match markers.column with
    | none => .ok (false, markers)
    | some marker =>
      match compare marker.qualifier qualifier with
      | .gt => .error (.columnOrder marker.qualifier qualifier)
      | .lt => .ok (false, { markers with column := none })
      | .eq =>
        if marker.kind = .deleteColumn || marker.timestamp = timestamp then .ok (true, markers)
        else .ok (false, { markers with column := none })

end RowMarkers

end MergeScan
