import MergeScan.Cell.Basic

/-! # The order of cells

Cells are sorted by row, family and qualifier, then the newest version first,
then by descending rank of their kind. One seek key is an exception: the key
after all cells of a row has an empty column, and still sorts last in its row.
A merge can use another order of rows; inside a row the order is always this.
-/

namespace MergeScan

namespace Cell

/-- Whether a cell is the seek key after all cells of its row, whatever its
timestamp and value. -/
def isLastOnRow (cell : Cell) : Bool :=
  cell.kind == .minimum && cell.family.isEmpty && cell.qualifier.isEmpty

/-- The order of two cells of one row. -/
def compareInRow (left right : Cell) : Ordering :=
  match left.isLastOnRow, right.isLastOnRow with
  | true, true => .eq
  | true, false => .gt
  | false, true => .lt
  | false, false =>
    (compare left.family right.family).then <|
      (compare left.qualifier right.qualifier).then <|
        (compare right.timestamp left.timestamp).then <|
          compare right.kind.code left.kind.code

/-- The order of cells by their coordinates, which are everything but the
value. -/
def compareKeys (left right : Cell) : Ordering :=
  (compare left.row right.row).then (compareInRow left right)

/-- The order of cells that also tells values apart. Cells at the same
coordinates follow their timestamps, which matter for the last key of a row
only, and then their values. -/
def compareFully (left right : Cell) : Ordering :=
  (compareKeys left right).then <|
    (compare left.timestamp right.timestamp).then <| compare left.value right.value

/-- Sort cells so that also their values are in order. -/
def sortFully (cells : List Cell) : List Cell :=
  cells.mergeSort fun left right => (compareFully left right).isLE

end Cell

/-- An order of cells together with the order of rows that goes with it. -/
structure CellOrder where
  /-- The name the order is printed with. -/
  name : String
  compareRows : Bytes → Bytes → Ordering
  compare : Cell → Cell → Ordering

namespace CellOrder

/-- The order that sorts rows by `compareRows`, and the cells of a row as usual. -/
def byRows (name : String) (compareRows : Bytes → Bytes → Ordering) : CellOrder where
  name := name
  compareRows := compareRows
  compare left right := (compareRows left.row right.row).then (Cell.compareInRow left right)

/-- The usual order: rows ascend. -/
def keys : CellOrder :=
  byRows "KeyComparator" fun left right => Ord.compare left right

/-- The order in which rows descend. -/
def reverseRows : CellOrder :=
  byRows "ReverseRow" fun left right => Ord.compare right left

/-- Sort cells into an order. Cells that the order does not tell apart stay in
the order they are given in. -/
def sort (order : CellOrder) (cells : List Cell) : List Cell :=
  cells.mergeSort fun left right => (order.compare left right).isLE

end CellOrder

end MergeScan
