import MergeScan.Proofs.Cell.Sorted

/-! # Orders of rows

The families of a store may have their rows in an order of their own. All that a scan
needs of it is that it is a total order of rows, and that the cells of a row are in
their usual order.
-/

namespace MergeScan

namespace Cell

/-- The cell as it would be in the first of all rows. -/
def unplaced (cell : Cell) : Cell :=
  { cell with row := [] }

theorem compareInRow_eq_unplaced (left right : Cell) :
    compareInRow left right = compareKeys left.unplaced right.unplaced := by
  rw [compareKeys, show compare left.unplaced.row right.unplaced.row = .eq from rfl]
  rfl

theorem compareInRow_of_row_eq {left right : Cell} (hrow : left.row = right.row) :
    compareInRow left right = compareKeys left right := by
  rw [compareKeys, hrow, Std.ReflOrd.compare_self]
  rfl

instance : Std.TransCmp compareInRow where
  eq_swap {left right} := by
    rw [compareInRow_eq_unplaced, compareInRow_eq_unplaced]
    exact Std.OrientedCmp.eq_swap
  isLE_trans {first second third} := by
    rw [compareInRow_eq_unplaced, compareInRow_eq_unplaced, compareInRow_eq_unplaced]
    exact Std.TransCmp.isLE_trans

end Cell

namespace CellOrder

/-- An order that sorts the rows in some way, and the cells of a row as usual. -/
class RowWise (order : CellOrder) : Prop where
  rows : Std.TransCmp order.compareRows
  lawful : Std.LawfulEqCmp order.compareRows
  compare_eq left right : order.compare left right =
    (order.compareRows left.row right.row).then (Cell.compareInRow left right)

attribute [instance] RowWise.rows RowWise.lawful

instance : RowWise keys where
  rows := inferInstanceAs (Std.TransCmp fun left right : Bytes => Ord.compare left right)
  lawful := inferInstanceAs (Std.LawfulEqCmp fun left right : Bytes => Ord.compare left right)
  compare_eq _ _ := rfl

instance : RowWise reverseRows where
  rows := inferInstanceAs (Std.TransCmp fun left right : Bytes => Ord.compare right left)
  lawful := inferInstanceAs (Std.LawfulEqCmp fun left right : Bytes => Ord.compare right left)
  compare_eq _ _ := rfl

variable {order : CellOrder} [RowWise order] {left right : Cell}

instance : Std.TransCmp order.compare := by
  have heq : order.compare = compareLex (fun left right => order.compareRows left.row right.row)
      Cell.compareInRow := by
    funext left right
    exact RowWise.compare_eq left right
  have hrows : Std.TransCmp fun left right : Cell => order.compareRows left.row right.row :=
    { eq_swap := Std.OrientedCmp.eq_swap
      isLE_trans := Std.TransCmp.isLE_trans }
  rw [heq]
  infer_instance

@[simp] theorem compareRows_self (order : CellOrder) [RowWise order] (row : Bytes) :
    order.compareRows row row = .eq :=
  Std.ReflCmp.compare_self

theorem ne_of_compareRows_lt {first second : Bytes} (hlt : order.compareRows first second = .lt) :
    first ≠ second := by
  rintro rfl
  rw [compareRows_self] at hlt
  cases hlt

/-- In a row, the order is the usual one. -/
theorem compare_of_row_eq (hrow : left.row = right.row) :
    order.compare left right = Cell.compareKeys left right := by
  rw [RowWise.compare_eq, hrow, compareRows_self, ← Cell.compareInRow_of_row_eq hrow]
  rfl

/-- Cells of one row lie on the same side of a cell of another one. -/
theorem compare_of_row_ne (hrow : left.row ≠ right.row) :
    order.compare left right = order.compareRows left.row right.row := by
  rw [RowWise.compare_eq]
  cases hcompare : order.compareRows left.row right.row with
  | eq => exact absurd (Std.LawfulEqCmp.eq_of_compare hcompare) hrow
  | lt => rfl
  | gt => rfl

theorem compareRows_isLE (hle : (order.compare left right).isLE = true) :
    (order.compareRows left.row right.row).isLE = true := by
  rw [RowWise.compare_eq, Ordering.isLE_then_iff_or] at hle
  rcases hle with hlt | ⟨heq, -⟩
  · rw [hlt]
    rfl
  · rw [heq]
    rfl

/-- The orders tell the same cells apart. -/
theorem compare_eq_iff : order.compare left right = .eq ↔ Cell.compareKeys left right = .eq := by
  by_cases hrow : left.row = right.row
  · rw [compare_of_row_eq hrow]
  · have hkeys : Cell.compareKeys left right = Ord.compare left.row right.row :=
      @compare_of_row_ne keys _ _ _ hrow
    rw [compare_of_row_ne hrow, hkeys]
    exact ⟨fun heq => absurd (Std.LawfulEqCmp.eq_of_compare heq) hrow,
      fun heq => absurd (Std.LawfulEqCmp.eq_of_compare heq) hrow⟩

theorem copies_eq_keys (order : CellOrder) [RowWise order] (place : Cell) (cells : List Cell) :
    order.copies place cells = keys.copies place cells :=
  List.filter_congr fun _ _ => decide_eq_decide.mpr compare_eq_iff

/-- To skip to a key of a row, before the cells of later rows, is to skip to it in the row. -/
theorem skipTo_append_later {key : Cell} {here later : List Cell}
    (hhere : ∀ cell ∈ here, cell.row = key.row)
    (hlater : ∀ cell ∈ later, order.compareRows key.row cell.row = .lt) :
    order.skipTo key (here ++ later) = keys.skipTo key here ++ later := by
  induction here with
  | nil =>
      apply skipTo_eq_self
      intro cell hcell hlt
      have hafter := hlater cell (List.mem_of_head? hcell)
      have hgt := Std.OrientedCmp.gt_of_lt hafter
      rw [compare_of_row_ne (ne_of_compareRows_lt hafter).symm, hgt] at hlt
      cases hlt
  | cons cell rest ih =>
      obtain ⟨hcell, hrest⟩ := List.forall_mem_cons.mp hhere
      have hsame : order.compare cell key = keys.compare cell key := compare_of_row_eq hcell
      rw [List.cons_append]
      by_cases hlt : keys.compare cell key = .lt
      · rw [skipTo_cons_of_lt (hsame.trans hlt), skipTo_cons_of_lt hlt, ih hrest]
      · rw [skipTo_cons_of_not_lt (hsame ▸ hlt), skipTo_cons_of_not_lt hlt, List.cons_append]

end CellOrder

end MergeScan
