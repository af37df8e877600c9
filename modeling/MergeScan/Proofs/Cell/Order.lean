import MergeScan.Cell.Order

/-! # Laws of the order of cells

The comparison of cells is a total preorder. It agrees with the lexicographic
order of row, family, qualifier, age and rank wherever the last key of a row is
not involved, and only cells at the same coordinates are equal under it.
-/

namespace MergeScan

theorem Bytes.isLE_compare_iff (left right : Bytes) :
    (compare left right).isLE = true ↔ left ≤ right := by
  induction left generalizing right with
  | nil => simp [List.isLE_compare_nil_left]
  | cons head tail ih =>
      cases right with
      | nil => simp
      | cons first rest =>
          rw [List.compare_cons_cons, Ordering.isLE_then_iff_or, List.cons_le_cons_iff, ih,
            Std.compare_eq_lt, Std.LawfulEqCmp.compare_eq_iff_eq]

instance : Std.LawfulOrderOrd Bytes where
  isLE_compare left right := Bytes.isLE_compare_iff left right
  isGE_compare left right := by
    rw [Std.OrientedCmp.isGE_eq_isLE]
    exact Bytes.isLE_compare_iff right left

namespace Timestamp

theorem lt_iff_toNat (left right : Timestamp) : left < right ↔ left.toNat < right.toNat :=
  UInt64.lt_iff_toNat_lt

theorem le_iff_toNat (left right : Timestamp) : left ≤ right ↔ left.toNat ≤ right.toNat :=
  UInt64.le_iff_toNat_le

theorem toNat_injective {left right : Timestamp} (heq : left.toNat = right.toNat) :
    left = right := by
  cases left
  cases right
  exact congrArg Timestamp.mk (UInt64.toNat_inj.mp heq)

instance : Std.IsLinearOrder Timestamp where
  le_refl _ := UInt64.le_refl _
  le_trans _ _ _ := UInt64.le_trans
  le_antisymm left right hle hge := by
    rw [le_iff_toNat] at hle hge
    exact toNat_injective (Nat.le_antisymm hle hge)
  le_total _ _ := UInt64.le_total _ _

instance : Std.LawfulOrderLT Timestamp where
  lt_iff left right := by
    rw [lt_iff_toNat, le_iff_toNat, le_iff_toNat]
    omega

instance : Std.LawfulOrderOrd Timestamp where
  isLE_compare left right := @Std.isLE_compare _ _ _ _ left.millis right.millis
  isGE_compare left right := @Std.isGE_compare _ _ _ _ left.millis right.millis

theorem oldest_le (timestamp : Timestamp) : oldest ≤ timestamp := by
  rw [le_iff_toNat]
  exact Nat.zero_le _

theorem le_latest (timestamp : Timestamp) : timestamp ≤ latest := by
  rw [le_iff_toNat]
  exact Nat.le_of_lt_succ timestamp.toNat_lt_size

end Timestamp

namespace Cell

/-- Whether a cell is one that is stored, and not only a key to seek. -/
def IsReal (cell : Cell) : Prop :=
  cell.kind ≠ .minimum ∧ cell.kind ≠ .maximum

instance (cell : Cell) : Decidable cell.IsReal :=
  inferInstanceAs (Decidable (_ ∧ _))

/-- Whether cells are stored ones of a family. -/
def StoredIn (family : Bytes) (cells : List Cell) : Prop :=
  ∀ cell ∈ cells, cell.IsReal ∧ cell.family = family

instance (family : Bytes) (cells : List Cell) : Decidable (StoredIn family cells) :=
  inferInstanceAs (Decidable (∀ _ ∈ _, _ ∧ _))

/-- The timestamp of a cell as far as its order depends on it. -/
def orderedStamp (cell : Cell) : Timestamp :=
  if cell.isLastOnRow then .oldest else cell.timestamp

theorem not_lastOnRow {cell : Cell} (hkind : cell.kind ≠ .minimum) : cell.isLastOnRow = false := by
  simp [isLastOnRow, hkind]

theorem IsReal.not_lastOnRow {cell : Cell} (hreal : cell.IsReal) : cell.isLastOnRow = false :=
  Cell.not_lastOnRow hreal.1

/-- The order of cells as a lexicographic one throughout. The last keys of a row
form a class of their own, and their timestamps do not count. -/
def lexicographic : Cell → Cell → Ordering :=
  compareLex (compareOn row) <| compareLex (compareOn isLastOnRow) <|
    compareLex (compareOn family) <| compareLex (compareOn qualifier) <|
      compareLex (fun left right => compareOn orderedStamp right left)
        fun left right => compareOn (fun cell => cell.kind.code) right left

theorem compareKeys_eq_lexicographic : compareKeys = lexicographic := by
  funext left right
  simp only [lexicographic, compareKeys, compareInRow, compareLex, compareOn, orderedStamp]
  congr 1
  cases hleft : left.isLastOnRow <;> cases hright : right.isLastOnRow
  · simp
  · simp
    rfl
  · simp
    rfl
  · simp only [isLastOnRow, Bool.and_eq_true, beq_iff_eq, List.isEmpty_iff] at hleft hright
    simp only [hleft, hright, if_true, Std.ReflOrd.compare_self, Ordering.then]

instance : Std.TransCmp compareKeys := by
  rw [compareKeys_eq_lexicographic, lexicographic]
  infer_instance

@[simp] theorem compare_keys : CellOrder.keys.compare = compareKeys := rfl

@[simp] theorem compareRows_keys : CellOrder.keys.compareRows = compare := rfl

instance : Std.TransCmp CellOrder.keys.compare :=
  inferInstanceAs (Std.TransCmp compareKeys)

theorem compareInRow_of_not_lastOnRow {left right : Cell} (hleft : left.isLastOnRow = false)
    (hright : right.isLastOnRow = false) :
    compareInRow left right =
      (compare left.family right.family).then ((compare left.qualifier right.qualifier).then
        ((compare right.timestamp left.timestamp).then
          (compare right.kind.code left.kind.code))) := by
  simp only [compareInRow, hleft, hright]

theorem compareKeys_eq_lt_iff {left right : Cell} (hleft : left.isLastOnRow = false)
    (hright : right.isLastOnRow = false) :
    compareKeys left right = .lt ↔
      left.row < right.row ∨ left.row = right.row ∧
        (left.family < right.family ∨ left.family = right.family ∧
          (left.qualifier < right.qualifier ∨ left.qualifier = right.qualifier ∧
            (right.timestamp < left.timestamp ∨ right.timestamp = left.timestamp ∧
              right.kind.code < left.kind.code))) := by
  rw [compareKeys, compareInRow_of_not_lastOnRow hleft hright]
  simp only [Ordering.then_eq_lt, Std.compare_eq_lt, Std.LawfulEqCmp.compare_eq_iff_eq]

theorem CellKind.code_injective {left right : CellKind} (heq : left.code = right.code) :
    left = right := by
  cases left <;> cases right <;> first | rfl | exact absurd heq (by decide)

theorem row_le_of_isLE {left right : Cell} (hle : (compareKeys left right).isLE = true) :
    left.row ≤ right.row := by
  rw [← Bytes.isLE_compare_iff]
  rw [compareKeys, Ordering.isLE_then_iff_or] at hle
  rcases hle with hlt | ⟨heq, -⟩
  · simp [hlt]
  · simp [heq]

theorem row_eq_of_eq {left right : Cell} (heq : compareKeys left right = .eq) :
    left.row = right.row :=
  Std.le_antisymm (row_le_of_isLE (by rw [heq]; rfl))
    (row_le_of_isLE (by rw [Std.OrientedCmp.eq_symm heq]; rfl))

theorem lt_of_row_lt {left right : Cell} (hlt : left.row < right.row) :
    compareKeys left right = .lt := by
  rw [compareKeys, Std.compare_eq_lt.mpr hlt]
  rfl

theorem qualifier_le_of_isLE {left right : Cell} (hleft : left.isLastOnRow = false)
    (hright : right.isLastOnRow = false) (hrow : left.row = right.row)
    (hfamily : left.family = right.family) (hle : (compareKeys left right).isLE = true) :
    left.qualifier ≤ right.qualifier := by
  rw [← Bytes.isLE_compare_iff]
  rw [compareKeys, compareInRow_of_not_lastOnRow hleft hright, hrow, hfamily] at hle
  simp only [Std.ReflOrd.compare_self, Ordering.then] at hle
  cases hcompare : compare left.qualifier right.qualifier with
  | gt => simp [hcompare] at hle
  | lt => rfl
  | eq => rfl

/-- Only cells at the same coordinates are equal. -/
theorem compareKeys_eq_eq_iff {left right : Cell} (hleft : left.isLastOnRow = false)
    (hright : right.isLastOnRow = false) :
    compareKeys left right = .eq ↔
      left.row = right.row ∧ left.family = right.family ∧ left.qualifier = right.qualifier ∧
        left.timestamp = right.timestamp ∧ left.kind = right.kind := by
  rw [compareKeys, compareInRow_of_not_lastOnRow hleft hright]
  simp only [Ordering.then_eq_eq, Std.LawfulEqCmp.compare_eq_iff_eq]
  constructor
  · rintro ⟨hrow, hfamily, hqualifier, hstamp, hcode⟩
    exact ⟨hrow, hfamily, hqualifier, hstamp.symm, CellKind.code_injective hcode.symm⟩
  · rintro ⟨hrow, hfamily, hqualifier, hstamp, hkind⟩
    exact ⟨hrow, hfamily, hqualifier, hstamp.symm, by rw [hkind]⟩

/-- Cells at the same coordinates differ in their values only. -/
theorem eq_withValue {cell other : Cell} (hcell : cell.IsReal) (hother : other.IsReal)
    (hsame : compareKeys other cell = .eq) : other = cell.withValue other.value := by
  obtain ⟨hrow, hfamily, hqualifier, hstamp, hkind⟩ :=
    (compareKeys_eq_eq_iff hother.not_lastOnRow hcell.not_lastOnRow).mp hsame
  cases other
  simp_all [withValue]

/-! ### Seek keys

Whether a cell comes before a seek key depends on its row and its column, unless it is itself
one of the keys that end a column or a row.
-/

theorem lt_firstOnColumn_iff {cell : Cell} (hkind : cell.kind ≠ .minimum)
    (row family qualifier : Bytes) :
    compareKeys cell (firstOnColumn row family qualifier) = .lt ↔
      cell.row < row ∨ cell.row = row ∧
        (cell.family < family ∨ cell.family = family ∧ cell.qualifier < qualifier) := by
  rw [compareKeys_eq_lt_iff (not_lastOnRow hkind) rfl]
  have hstamp : ¬ (firstOnColumn row family qualifier).timestamp < cell.timestamp := by
    have := Timestamp.le_latest cell.timestamp
    simp only [firstOnColumn]
    grind
  have hcode : ¬ (firstOnColumn row family qualifier).kind.code < cell.kind.code := by
    cases hkind : cell.kind <;> simp [firstOnColumn, CellKind.code]
  simp only [firstOnColumn] at hstamp hcode ⊢
  grind

/-- Nothing in a row comes before its first key, seek keys included. -/
theorem lt_firstOnRow_iff (cell : Cell) (row : Bytes) :
    compareKeys cell (firstOnRow row) = .lt ↔ cell.row < row := by
  refine ⟨fun hlt => ?_, fun hlt => lt_of_row_lt hlt⟩
  cases hlast : cell.isLastOnRow with
  | true =>
      have hinside : compareInRow cell (firstOnRow row) = .gt := by
        rw [compareInRow, hlast]
        rfl
      rw [compareKeys, hinside, Ordering.then_eq_lt, Std.compare_eq_lt] at hlt
      exact hlt.resolve_right nofun
  | false =>
      rw [compareKeys_eq_lt_iff hlast rfl] at hlt
      have hstamp := Timestamp.le_latest cell.timestamp
      simp only [firstOnRow, CellKind.code] at hlt
      grind [List.not_lt_nil]

theorem lt_lastOnRow_iff {cell : Cell} (hkind : cell.kind ≠ .minimum) (row : Bytes) :
    compareKeys cell (lastOnRow row) = .lt ↔ cell.row ≤ row := by
  have hlast : (lastOnRow row).isLastOnRow = true := rfl
  simp only [compareKeys, compareInRow, not_lastOnRow hkind, hlast, Ordering.then_eq_lt,
    Std.compare_eq_lt, Std.LawfulEqCmp.compare_eq_iff_eq, and_true]
  simp only [lastOnRow]
  grind

theorem lt_lastOnColumn_iff {cell : Cell} (hkind : cell.kind ≠ .minimum) {family qualifier : Bytes}
    (hcolumn : family ≠ [] ∨ qualifier ≠ []) (row : Bytes) :
    compareKeys cell (lastOnColumn row family qualifier) = .lt ↔
      cell.row < row ∨ cell.row = row ∧
        (cell.family < family ∨ cell.family = family ∧ cell.qualifier ≤ qualifier) := by
  have hlast : (lastOnColumn row family qualifier).isLastOnRow = false := by
    rcases hcolumn with hfamily | hqualifier
    · simp [isLastOnRow, lastOnColumn, hfamily]
    · simp [isLastOnRow, lastOnColumn, hqualifier]
  rw [compareKeys_eq_lt_iff (not_lastOnRow hkind) hlast]
  have hstamp := Timestamp.oldest_le cell.timestamp
  have hcode : (0 : UInt8) < cell.kind.code := by
    cases hcell : cell.kind <;> simp_all [CellKind.code]
  simp only [lastOnColumn, CellKind.code] at hstamp hcode ⊢
  grind

theorem lt_lastOnColumn_self {cell : Cell} (hkind : cell.kind ≠ .minimum) :
    compareKeys cell (lastOnColumn cell.row cell.family cell.qualifier) = .lt := by
  by_cases hcolumn : cell.family ≠ [] ∨ cell.qualifier ≠ []
  · rw [lt_lastOnColumn_iff hkind hcolumn]
    grind
  · simp only [ne_eq, not_or, Decidable.not_not] at hcolumn
    rw [hcolumn.1, hcolumn.2]
    exact (lt_lastOnRow_iff hkind cell.row).mpr (Std.le_refl _)

end Cell

end MergeScan
