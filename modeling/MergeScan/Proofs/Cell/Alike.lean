import MergeScan.Proofs.Cell.Sorted
import MergeScan.Scan.Rows

/-! # Lists that differ in stale copies

Of the cells at one place only the first counts. Two lists are alike in a range of rows
if at each place there they have the same first cell. Whether a place has further copies
can matter as well, but neither how many nor which.
-/

namespace MergeScan

open CellOrder

namespace RowRange

variable {range : RowRange} {row later : Bytes}

theorem contains_iff : range.contains row = true ↔
    range.startsAfter row = false ∧ range.endsBefore row = false := by
  simp [contains]

theorem startsAfter_iff : range.startsAfter row = true ↔ row < range.start := by
  rw [startsAfter, Ordering.isLT_iff_eq_lt, Std.compare_eq_lt]

theorem contains_of_endsBefore (hends : range.endsBefore row = true) :
    range.contains row = false := by
  rw [contains, hends, Bool.not_true, Bool.and_false]

/-- A range that has begun and does not contain a row ends before it. -/
theorem endsBefore_of_begun (hbegun : range.startsAfter row = false)
    (hrow : range.contains row = false) : range.endsBefore row = true := by
  simpa [contains, hbegun] using hrow

/-- Rows after one that is past the end of a range are past it too. -/
theorem endsBefore_mono (hle : row ≤ later) (hends : range.endsBefore row = true) :
    range.endsBefore later = true := by
  unfold endsBefore at hends ⊢
  cases hstop : range.stop with
  | unbounded => rw [hstop] at hends; cases hends
  | included stop =>
      simp only [hstop, Ordering.isGT_iff_eq_gt, Std.compare_eq_gt] at hends ⊢
      grind
  | excluded stop =>
      simp only [hstop, Std.isGE_compare] at hends ⊢
      exact Std.le_trans hends hle

/-- Rows after one that a range does not extend past are past it. -/
theorem contains_of_extendsPast (hextends : range.extendsPast row = false) (hlt : row < later) :
    range.contains later = false := by
  apply contains_of_endsBefore
  unfold extendsPast at hextends
  unfold endsBefore
  cases hstop : range.stop with
  | unbounded => rw [hstop] at hextends; cases hextends
  | included stop =>
      simp only [hstop, Ordering.isGT_iff_eq_gt, Std.compare_eq_gt] at hextends ⊢
      rw [← Bool.not_eq_true, Ordering.isLT_iff_eq_lt, Std.compare_eq_lt, Std.not_lt] at hextends
      exact Std.lt_of_le_of_lt hextends hlt
  | excluded stop =>
      simp only [hstop, Std.isGE_compare] at hextends ⊢
      rw [← Bool.not_eq_true, Ordering.isLT_iff_eq_lt, Std.compare_eq_lt, Std.not_lt] at hextends
      exact Std.le_trans hextends (Std.le_of_lt hlt)

end RowRange

/-- Lists with the same first cell at each place in a range of rows, and with further copies
at the same places if that counts. -/
structure Alike (rows : RowRange) (counted : Prop) (left right : List Cell) : Prop where
  first place : rows.contains place.row = true →
    (keys.copies place left).head? = (keys.copies place right).head?
  repeated place : counted → rows.contains place.row = true →
    ((keys.copies place left).tail = [] ↔ (keys.copies place right).tail = [])

namespace Alike

variable {rows : RowRange} {counted : Prop} {left middle right : List Cell}

theorem refl (cells : List Cell) : Alike rows counted cells cells :=
  ⟨fun _ _ => rfl, fun _ _ _ => Iff.rfl⟩

theorem symm (halike : Alike rows counted left right) : Alike rows counted right left :=
  ⟨fun place hrow => (halike.first place hrow).symm,
    fun place hcounted hrow => (halike.repeated place hcounted hrow).symm⟩

theorem trans (hleft : Alike rows counted left middle) (hright : Alike rows counted middle right) :
    Alike rows counted left right :=
  ⟨fun place hrow => (hleft.first place hrow).trans (hright.first place hrow),
    fun place hcounted hrow =>
      (hleft.repeated place hcounted hrow).trans (hright.repeated place hcounted hrow)⟩

theorem of_copies (hcopies : ∀ place, rows.contains place.row = true →
    keys.copies place left = keys.copies place right) : Alike rows counted left right :=
  ⟨fun place hrow => by rw [hcopies place hrow],
    fun place _ hrow => by rw [hcopies place hrow]⟩

/-- What the copies behind the first one are is not seen, as long as there are any. -/
theorem of_replaced {first old new : Cell}
    (hold : keys.compare old first = .eq) (hnew : keys.compare new first = .eq)
    (front rest : List Cell) :
    Alike rows counted (front ++ first :: new :: rest) (front ++ first :: old :: rest) := by
  have hcopies (place : Cell) :
      keys.copies place (front ++ first :: new :: rest) =
        keys.copies place (front ++ first :: old :: rest) ∨
      ∃ others, keys.copies place (front ++ first :: new :: rest) =
          keys.copies place front ++ first :: new :: others ∧
        keys.copies place (front ++ first :: old :: rest) =
          keys.copies place front ++ first :: old :: others := by
    rw [copies_append, copies_append]
    by_cases hplace : keys.compare first place = .eq
    · have hplaced {copy : Cell} (hcopy : keys.compare copy first = .eq) :
          keys.compare copy place = .eq := Std.TransCmp.eq_trans hcopy hplace
      refine .inr ⟨keys.copies place rest, ?_, ?_⟩
      · rw [copies_cons_of_eq hplace, copies_cons_of_eq (hplaced hnew)]
      · rw [copies_cons_of_eq hplace, copies_cons_of_eq (hplaced hold)]
    · have hplaced {copy : Cell} (hcopy : keys.compare copy first = .eq) :
          keys.compare copy place ≠ .eq := fun heq => hplace
            (Std.TransCmp.eq_trans (Std.OrientedCmp.eq_symm hcopy) heq)
      left
      rw [copies_cons_of_ne hplace, copies_cons_of_ne hplace, copies_cons_of_ne (hplaced hnew),
        copies_cons_of_ne (hplaced hold)]
  constructor
  · intro place _
    rcases hcopies place with hsame | ⟨others, hleft, hright⟩
    · rw [hsame]
    · rw [hleft, hright]
      cases keys.copies place front <;> rfl
  · intro place _ _
    rcases hcopies place with hsame | ⟨others, hleft, hright⟩
    · rw [hsame]
    · rw [hleft, hright]
      cases keys.copies place front <;> simp

/-- What is done to the copies at every place in the same way keeps lists alike. -/
theorem congr {left' right' : List Cell} (halike : Alike rows counted left right)
    (hkept : ∀ place, keys.copies place left' = keys.copies place left ∧
        keys.copies place right' = keys.copies place right ∨
      keys.copies place left' = [] ∧ keys.copies place right' = []) :
    Alike rows counted left' right' := by
  constructor
  · intro place hrow
    rcases hkept place with ⟨hleft, hright⟩ | ⟨hleft, hright⟩
    · rw [hleft, hright, halike.first place hrow]
    · rw [hleft, hright]
  · intro place hcounted hrow
    rcases hkept place with ⟨hleft, hright⟩ | ⟨hleft, hright⟩
    · rw [hleft, hright, halike.repeated place hcounted hrow]
    · rw [hleft, hright]

theorem skipTo (halike : Alike rows counted left right) (hleft : keys.Sorted left)
    (hright : keys.Sorted right) (key : Cell) :
    Alike rows counted (keys.skipTo key left) (keys.skipTo key right) := by
  apply halike.congr
  intro place
  rw [copies_skipTo hleft, copies_skipTo hright]
  split
  · exact .inr ⟨rfl, rfl⟩
  · exact .inl ⟨rfl, rfl⟩

theorem copies_eq_nil_iff (halike : Alike rows counted left right) {place : Cell}
    (hrow : rows.contains place.row = true) :
    keys.copies place left = [] ↔ keys.copies place right = [] := by
  rw [← List.head?_eq_none_iff, ← List.head?_eq_none_iff, halike.first place hrow]

theorem exists_copy (halike : Alike rows counted left right) {cell : Cell}
    (hrow : rows.contains cell.row = true) (hcell : cell ∈ left) :
    ∃ copy ∈ right, Cell.compareKeys copy cell = .eq := by
  have hcopies : keys.copies cell left ≠ [] :=
    List.ne_nil_of_mem (mem_copies.mpr ⟨hcell, Std.ReflCmp.compare_self⟩)
  obtain ⟨copy, hcopy⟩ :=
    List.exists_mem_of_ne_nil _ (mt (halike.copies_eq_nil_iff hrow).mpr hcopies)
  exact ⟨copy, mem_copies.mp hcopy⟩

end Alike

/-- The cells behind the place of a cell. -/
def CellOrder.beyond (place : Cell) (cells : List Cell) : List Cell :=
  cells.filter fun cell => Cell.compareKeys place cell = .lt

namespace CellOrder

variable {place key : Cell} {cells : List Cell}

theorem beyond_cons_self (cell : Cell) (cells : List Cell) :
    beyond cell (cell :: cells) = beyond cell cells :=
  List.filter_cons_of_neg (by simp [Std.ReflCmp.compare_self])

theorem beyond_append {copies : List Cell}
    (hcopies : ∀ copy ∈ copies, Cell.compareKeys place copy = .eq) (cells : List Cell) :
    beyond place (copies ++ cells) = beyond place cells := by
  have hnone : copies.filter (fun cell => Cell.compareKeys place cell = .lt) = [] := by
    rw [List.filter_eq_nil_iff]
    intro copy hcopy
    simp [hcopies copy hcopy]
  rw [beyond, List.filter_append, hnone, List.nil_append, beyond]

theorem copies_beyond (key place : Cell) (cells : List Cell) :
    keys.copies place (beyond key cells) =
      if Cell.compareKeys key place = .lt then keys.copies place cells else [] := by
  have hsame : ∀ cell, Cell.compareKeys cell place = .eq →
      Cell.compareKeys key cell = Cell.compareKeys key place :=
    fun cell heq => Std.TransCmp.congr_right heq
  rw [copies, beyond, List.filter_filter]
  split
  next hlt =>
    apply List.filter_congr
    intro cell _
    by_cases heq : Cell.compareKeys cell place = .eq
    · simp [hsame cell heq, hlt]
    · simp [heq]
  next hnot =>
    rw [List.filter_eq_nil_iff]
    intro cell _ hcell
    rw [Bool.and_eq_true] at hcell
    exact hnot (hsame cell (of_decide_eq_true hcell.1) ▸ of_decide_eq_true hcell.2)

/-- From a place on, a sorted list has the copies at the place and then what is behind it. -/
theorem Sorted.copies_append_beyond (hcells : keys.Sorted cells)
    (hplace : ∀ cell ∈ cells, (Cell.compareKeys place cell).isLE = true) :
    keys.copies place cells ++ beyond place cells = cells := by
  induction cells with
  | nil => rfl
  | cons cell rest ih =>
      obtain ⟨hcell, hrest⟩ := List.pairwise_cons.mp hcells
      by_cases hsame : Cell.compareKeys cell place = .eq
      · have hnot : ¬Cell.compareKeys place cell = .lt := by
          simp [Std.OrientedCmp.eq_symm hsame]
        rw [copies_cons_of_eq hsame, beyond, List.filter_cons_of_neg (by simpa using hnot),
          List.cons_append]
        exact congrArg _ (ih hrest fun other hother => hplace other (List.mem_cons_of_mem _ hother))
      · have hlt : Cell.compareKeys place cell = .lt :=
          (Ordering.isLE_iff_eq_lt_or_eq_eq.mp (hplace cell List.mem_cons_self)).resolve_right
            fun heq => hsame (Std.OrientedCmp.eq_symm heq)
        have hbehind : ∀ other ∈ cell :: rest, Cell.compareKeys place other = .lt := by
          intro other hother
          rcases List.mem_cons.mp hother with rfl | hmem
          · exact hlt
          · exact Std.TransCmp.lt_of_lt_of_isLE hlt (hcell other hmem)
        rw [copies_eq_nil_of_lt hbehind Std.ReflCmp.compare_self, List.nil_append, beyond, List.filter_eq_self]
        exact fun other hother => decide_eq_true (hbehind other hother)

end CellOrder

namespace Alike

variable {rows : RowRange} {counted : Prop} {left right : List Cell} {cell : Cell}

theorem beyond (halike : Alike rows counted left right) (place : Cell) :
    Alike rows counted (CellOrder.beyond place left) (CellOrder.beyond place right) := by
  apply halike.congr
  intro other
  rw [copies_beyond, copies_beyond]
  split
  · exact .inl ⟨rfl, rfl⟩
  · exact .inr ⟨rfl, rfl⟩

/-- If the first cell of a list lies in the range, it comes first in every list that is alike. -/
theorem head (halike : Alike rows counted (cell :: left) right)
    (hleft : keys.Sorted (cell :: left)) (hright : keys.Sorted right)
    (hbegun : ∀ other ∈ right, rows.startsAfter other.row = false)
    (hrow : rows.contains cell.row = true) :
    ∃ rest, right = cell :: rest := by
  have hcell : (keys.copies cell right).head? = some cell := by
    rw [← halike.first cell hrow, copies_cons_of_eq Std.ReflCmp.compare_self]
    rfl
  have hmem := (mem_copies.mp (List.mem_of_head? hcell)).1
  cases right with
  | nil => cases hmem
  | cons first rest =>
      have hle : (Cell.compareKeys first cell).isLE = true := by
        rcases List.mem_cons.mp hmem with rfl | hmem
        · exact Std.ReflCmp.isLE_rfl
        · exact (List.pairwise_cons.mp hright).1 cell hmem
      -- nothing sorts before it, and the first cell of the other list does not sort behind it
      have hfirstRow : rows.contains first.row = true := by
        refine RowRange.contains_iff.mpr ⟨hbegun first List.mem_cons_self, ?_⟩
        have hends := (RowRange.contains_iff.mp hrow).2
        cases hfirst : rows.endsBefore first.row with
        | false => rfl
        | true =>
            rw [RowRange.endsBefore_mono (Cell.row_le_of_isLE hle) hfirst] at hends
            cases hends
      have hfirst : (keys.copies first (cell :: left)).head? = some first := by
        rw [halike.first first hfirstRow, copies_cons_of_eq Std.ReflCmp.compare_self]
        rfl
      have hge : (Cell.compareKeys cell first).isLE = true := by
        rcases List.mem_cons.mp (mem_copies.mp (List.mem_of_head? hfirst)).1 with rfl | hmem
        · exact Std.ReflCmp.isLE_rfl
        · exact (List.pairwise_cons.mp hleft).1 first hmem
      have hsame : Cell.compareKeys first cell = .eq := Std.OrientedCmp.isLE_antisymm hle hge
      rw [copies_cons_of_eq hsame, List.head?_cons] at hcell
      exact ⟨rest, by rw [Option.some.inj hcell]⟩

/-- If no cell of a list lies in the range, then none does of a list that is alike. -/
theorem none_contained (halike : Alike rows counted left right)
    (hnone : ∀ cell ∈ left, rows.contains cell.row = false) :
    ∀ cell ∈ right, rows.contains cell.row = false := by
  intro cell hcell
  cases hrow : rows.contains cell.row with
  | false => rfl
  | true =>
      obtain ⟨other, hmem, hsame⟩ := halike.symm.exists_copy hrow hcell
      rw [← Cell.row_eq_of_eq hsame, hnone other hmem] at hrow
      cases hrow

/-- What lies from a place on in one list does so in a list that is alike. -/
theorem le_of_mem (halike : Alike rows counted left right)
    (hbegun : ∀ other ∈ right, rows.startsAfter other.row = false) {place : Cell}
    (hrow : rows.contains place.row = true)
    (hplace : ∀ other ∈ left, (Cell.compareKeys place other).isLE = true) :
    ∀ other ∈ right, (Cell.compareKeys place other).isLE = true := by
  intro other hother
  cases hcontained : rows.contains other.row with
  | true =>
      obtain ⟨copy, hmem, hsame⟩ := halike.symm.exists_copy hcontained hother
      rw [← Std.TransCmp.congr_right hsame]
      exact hplace copy hmem
  | false =>
      have hends := RowRange.endsBefore_of_begun (hbegun other hother) hcontained
      have hnot := (RowRange.contains_iff.mp hrow).2
      have hlt : place.row < other.row := by
        apply Std.not_le.mp
        intro hle
        rw [RowRange.endsBefore_mono hle hends] at hnot
        cases hnot
      rw [Cell.lt_of_row_lt hlt]
      rfl

end Alike

end MergeScan
