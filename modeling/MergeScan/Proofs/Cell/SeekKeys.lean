import MergeScan.Proofs.Cell.Order

/-! # What seek keys bracket

A stored cell comes before a seek key by its row and its column alone: the key
splits the cells into those of earlier rows or columns and the rest, and no
timestamp, kind or value matters. The keys of the empty column of the empty
family are special. The first of them is the first key of its row, and the last
one is the last key of its row, so that nothing ends that column alone.
-/

namespace MergeScan

namespace Cell

/-- Where a cell is, up to its version: its row, family and qualifier, which
are compared one after the other. -/
def place (cell : Cell) : List Bytes :=
  [cell.row, cell.family, cell.qualifier]

theorem place_lt_iff (cell : Cell) (row family qualifier : Bytes) :
    cell.place < [row, family, qualifier] ↔
      cell.row < row ∨ cell.row = row ∧
        (cell.family < family ∨ cell.family = family ∧ cell.qualifier < qualifier) := by
  simp [place, List.cons_lt_cons_iff]

theorem place_le_iff (cell : Cell) (row family qualifier : Bytes) :
    cell.place ≤ [row, family, qualifier] ↔
      cell.row < row ∨ cell.row = row ∧
        (cell.family < family ∨ cell.family = family ∧ cell.qualifier ≤ qualifier) := by
  have hlast : cell.qualifier < qualifier ∨ cell.qualifier = qualifier ↔
      cell.qualifier ≤ qualifier := Std.le_iff_lt_or_eq.symm
  simp [place, List.cons_le_cons_iff, hlast]

theorem lastOnColumn_nil (row : Bytes) : lastOnColumn row [] [] = lastOnRow row :=
  rfl

/-- A stored cell is never at a seek key, so that a cell which does not come
before the key comes after it. -/
theorem IsReal.compare_ne_eq {cell key : Cell} (hreal : cell.IsReal) (hkey : ¬ key.IsReal) :
    CellOrder.keys.compare cell key ≠ .eq := by
  intro hsame
  rw [compare_keys] at hsame
  cases hlast : key.isLastOnRow with
  | false =>
      have hkind := ((compareKeys_eq_eq_iff hreal.not_lastOnRow hlast).mp hsame).2.2.2.2
      exact hkey (by rw [IsReal, ← hkind]; exact hreal)
  | true =>
      have hinside := (Ordering.then_eq_eq.mp hsame).2
      simp [compareInRow, hreal.not_lastOnRow, hlast] at hinside

/-- A stored cell comes before the keys of a row and of a column as its row and
its place say, where the empty column of the empty family has no last key of its
own: that key comes after the whole row. -/
theorem seekKeys_bracket {cell : Cell} (hreal : cell.IsReal) (row family qualifier : Bytes) :
    (CellOrder.keys.compare cell (firstOnRow row) = .lt ↔ cell.row < row) ∧
    (CellOrder.keys.compare cell (lastOnRow row) = .lt ↔ cell.row ≤ row) ∧
    (CellOrder.keys.compare cell (firstOnColumn row family qualifier) = .lt ↔
      cell.place < [row, family, qualifier]) ∧
    (¬ (family = [] ∧ qualifier = []) →
      (CellOrder.keys.compare cell (lastOnColumn row family qualifier) = .lt ↔
        cell.place ≤ [row, family, qualifier])) ∧
    (CellOrder.keys.compare cell (lastOnColumn row [] []) = .lt ↔ cell.row ≤ row) := by
  have hkind := hreal.1
  simp only [compare_keys]
  refine ⟨lt_firstOnRow_iff cell row, lt_lastOnRow_iff hkind row, ?_, ?_, ?_⟩
  · rw [lt_firstOnColumn_iff hkind, place_lt_iff]
  · intro hcolumn
    rw [lt_lastOnColumn_iff hkind (by grind), place_le_iff]
  · rw [lastOnColumn_nil]
    exact lt_lastOnRow_iff hkind row

/-- The last key of a column comes after a value of that column and before one of
the next column. -/
theorem seekKeys_bracket_column_of_put :
    let first := Cell.put [114] [102] [97] ⟨0⟩ [1]
    let second := Cell.put [114] [102] [98] .latest [1]
    CellOrder.keys.compare first (lastOnColumn [114] [102] [97]) = .lt ∧
      CellOrder.keys.compare second (lastOnColumn [114] [102] [97]) ≠ .lt := by
  intro first second
  have hfirst := (seekKeys_bracket (by decide : first.IsReal) [114] [102] [97]).2.2.2.1
  have hsecond := (seekKeys_bracket (by decide : second.IsReal) [114] [102] [97]).2.2.2.1
  rw [hfirst (by decide), ne_eq, hsecond (by decide)]
  decide

/-- A value of a row comes before the last key of the empty column of the empty
family, although its place is a later one. -/
theorem place_beyond_lastOnColumn_nil :
    ¬ ∀ (cell : Cell) (row family qualifier : Bytes), cell.IsReal →
      (CellOrder.keys.compare cell (lastOnColumn row family qualifier) = .lt ↔
        cell.place ≤ [row, family, qualifier]) := by
  intro hbracket
  have hplace := hbracket (.put [114] [102] [113] ⟨1⟩ [118]) [114] [] [] (by decide)
  exact absurd (hplace.mp (by decide)) (by decide)

end Cell

end MergeScan
