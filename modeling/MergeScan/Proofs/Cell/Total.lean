import MergeScan.Proofs.Cell.Order

/-! # The order that tells values apart

The usual comparison of cells does not see values, and of the last keys of a row it
does not see timestamps either. The full comparison decides by both where the usual one
leaves cells level. So it refines the usual order, and no two cells stay level.
-/

namespace MergeScan

namespace Cell

/-- Whether a comparison puts all cells in one order, seek keys included, where cells
that it leaves level lie on the same side of every other cell. -/
structure IsWeakOrder (compare : Cell → Cell → Ordering) : Prop where
  swap left right : compare left right = (compare right left).swap
  total left right : (compare left right).isLE = true ∨ (compare right left).isLE = true
  trans {first second third} : (compare first second).isLE = true →
    (compare second third).isLE = true → (compare first third).isLE = true
  congr_left {first second} : compare first second = .eq →
    ∀ other, compare first other = compare second other
  congr_right {first second} : compare first second = .eq →
    ∀ other, compare other first = compare other second

theorem isWeakOrder_of_transCmp (compare : Cell → Cell → Ordering) [Std.TransCmp compare] :
    IsWeakOrder compare where
  swap _ _ := Std.OrientedCmp.eq_swap
  total left right := by
    have hswap : compare right left = (compare left right).swap := Std.OrientedCmp.eq_swap
    rw [hswap]
    cases compare left right <;> simp
  trans := Std.TransCmp.isLE_trans
  congr_left hsame _ := Std.TransCmp.congr_left hsame
  congr_right hsame _ := Std.TransCmp.congr_right hsame

/-- The full comparison is lexicographic, with the usual one before timestamps and values. -/
theorem compareFully_eq_compareLex : compareFully =
    compareLex compareKeys (compareLex (compareOn timestamp) (compareOn value)) :=
  rfl

instance : Std.TransCmp compareFully := by
  rw [compareFully_eq_compareLex]
  infer_instance

theorem isLastOnRow_iff {cell : Cell} : cell.isLastOnRow = true ↔
    cell.kind = .minimum ∧ cell.family = [] ∧ cell.qualifier = [] := by
  simp [isLastOnRow, and_assoc]

/-- Of two cells that are level, both or none are the last key of their row. -/
theorem isLastOnRow_congr {left right : Cell} (hsame : compareKeys left right = .eq) :
    left.isLastOnRow = right.isLastOnRow := by
  have hinside := (Ordering.then_eq_eq.mp hsame).2
  unfold compareInRow at hinside
  split at hinside
  next hleft hright => rw [hleft, hright]
  next => cases hinside
  next => cases hinside
  next hleft hright => rw [hleft, hright]

/-- Cells that are level, and agree in what the usual comparison can miss, are equal. -/
theorem eq_of_compareKeys {left right : Cell} (hsame : compareKeys left right = .eq)
    (hstamp : left.timestamp = right.timestamp) (hvalue : left.value = right.value) :
    left = right := by
  have hrow := row_eq_of_eq hsame
  have hlast := isLastOnRow_congr hsame
  have hcolumn : left.family = right.family ∧ left.qualifier = right.qualifier ∧
      left.kind = right.kind := by
    cases hright : right.isLastOnRow with
    | true =>
        -- both are last keys of the row: they have no column, whatever their timestamps
        obtain ⟨hkind, hfamily, hqualifier⟩ := isLastOnRow_iff.mp (hlast.trans hright)
        obtain ⟨hkind', hfamily', hqualifier'⟩ := isLastOnRow_iff.mp hright
        exact ⟨hfamily.trans hfamily'.symm, hqualifier.trans hqualifier'.symm,
          hkind.trans hkind'.symm⟩
    | false =>
        obtain ⟨-, hfamily, hqualifier, -, hkind⟩ :=
          (compareKeys_eq_eq_iff (hlast.trans hright) hright).mp hsame
        exact ⟨hfamily, hqualifier, hkind⟩
  obtain ⟨hfamily, hqualifier, hkind⟩ := hcolumn
  cases left
  cases right
  simp_all

instance : Std.LawfulEqCmp compareFully where
  eq_of_compare {left right} hsame := by
    simp only [compareFully, Ordering.then_eq_eq, Std.LawfulEqCmp.compare_eq_iff_eq] at hsame
    exact eq_of_compareKeys hsame.1 hsame.2.1 hsame.2.2

/-- Where the usual comparison decides, the full one decides in the same way. -/
theorem compareFully_of_ne {left right : Cell} (hne : compareKeys left right ≠ .eq) :
    compareFully left right = compareKeys left right := by
  unfold compareFully
  cases hkeys : compareKeys left right with
  | eq => exact absurd hkeys hne
  | lt => rfl
  | gt => rfl

/-- Both comparisons put all cells in order. The full one refines the usual one, and under
it a cell is level with itself only. -/
theorem orders_total :
    IsWeakOrder CellOrder.keys.compare ∧ IsWeakOrder compareFully ∧
    (∀ left right : Cell, compareFully left right = .eq ↔
      left.row = right.row ∧ left.family = right.family ∧ left.qualifier = right.qualifier ∧
        left.timestamp = right.timestamp ∧ left.kind = right.kind ∧ left.value = right.value) ∧
    ∀ left right : Cell, CellOrder.keys.compare left right ≠ .eq →
      compareFully left right = CellOrder.keys.compare left right := by
  refine ⟨isWeakOrder_of_transCmp _, isWeakOrder_of_transCmp _, fun left right => ?_,
    fun left right => compareFully_of_ne⟩
  rw [Std.LawfulEqCmp.compare_eq_iff_eq]
  cases left
  cases right
  simp

/-- Two last keys of one row that differ in their timestamps are level in the usual order,
so that it has a value of this row before both. The full order has one before the other. -/
theorem orders_total_of_lastKeys :
    let early : Cell := ⟨[114], [], [], ⟨1⟩, .minimum, []⟩
    let late : Cell := ⟨[114], [], [], ⟨2⟩, .minimum, []⟩
    let value := Cell.put [114] [] [] ⟨3⟩ [118]
    CellOrder.keys.compare value early = CellOrder.keys.compare value late ∧
      compareFully value late = .lt ∧ compareFully early late ≠ .eq := by
  intro early late value
  obtain ⟨hkeys, -, hequal, hrefines⟩ := orders_total
  refine ⟨hkeys.congr_right (by decide : CellOrder.keys.compare early late = .eq) value, ?_, ?_⟩
  · rw [hrefines value late (by decide)]
    decide
  · rw [ne_eq, hequal]
    decide

end Cell

end MergeScan
