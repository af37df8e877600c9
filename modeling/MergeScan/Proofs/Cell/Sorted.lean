import MergeScan.Proofs.Cell.Order

/-! # Sorted lists of cells

A stable sort is determined by its result being in order and by the cells at
each place of the order coming in the order they were given in. This fact
identifies lists that were sorted, merged or cut in different ways.
-/

namespace MergeScan.CellOrder

variable (order : CellOrder)

/-- The cells ascend, where cells at the same place may follow each other. -/
def Sorted (cells : List Cell) : Prop :=
  cells.Pairwise fun left right => (order.compare left right).isLE = true

instance (cells : List Cell) : Decidable (order.Sorted cells) :=
  inferInstanceAs (Decidable (cells.Pairwise _))

/-- The cells ascend, and no two of them are at the same place. -/
def StrictlySorted (cells : List Cell) : Prop :=
  cells.Pairwise fun left right => order.compare left right = .lt

/-- The cells from a key on. -/
def skipTo (key : Cell) (cells : List Cell) : List Cell :=
  cells.dropWhile fun cell => (order.compare cell key).isLT

/-- The cells at the place of a cell. -/
def copies (cell : Cell) (cells : List Cell) : List Cell :=
  cells.filter fun other => order.compare other cell = .eq

variable {order}

theorem StrictlySorted.sorted {cells : List Cell} (hcells : order.StrictlySorted cells) :
    order.Sorted cells :=
  hcells.imp fun hlt => by simp [hlt]

theorem skipTo_sublist (key : Cell) (cells : List Cell) : (order.skipTo key cells).Sublist cells :=
  List.dropWhile_sublist _

theorem Sorted.skipTo {cells : List Cell} (hcells : order.Sorted cells) (key : Cell) :
    order.Sorted (order.skipTo key cells) :=
  hcells.sublist (skipTo_sublist key cells)

theorem StrictlySorted.skipTo {cells : List Cell} (hcells : order.StrictlySorted cells)
    (key : Cell) : order.StrictlySorted (order.skipTo key cells) :=
  hcells.sublist (skipTo_sublist key cells)

theorem skipTo_length_le (key : Cell) (cells : List Cell) :
    (order.skipTo key cells).length ≤ cells.length :=
  (skipTo_sublist key cells).length_le

theorem skipTo_cons_of_lt {cell key : Cell} (hlt : order.compare cell key = .lt)
    (cells : List Cell) : order.skipTo key (cell :: cells) = order.skipTo key cells := by
  simp [CellOrder.skipTo, hlt]

theorem skipTo_cons_of_not_lt {cell key : Cell} (hge : order.compare cell key ≠ .lt)
    (cells : List Cell) : order.skipTo key (cell :: cells) = cell :: cells := by
  simp [CellOrder.skipTo, hge]

theorem skipTo_append_of_lt {key : Cell} {below : List Cell}
    (hbelow : ∀ cell ∈ below, order.compare cell key = .lt) (cells : List Cell) :
    order.skipTo key (below ++ cells) = order.skipTo key cells := by
  rw [CellOrder.skipTo, List.dropWhile_append_of_pos]
  · rfl
  · intro cell hcell
    simpa using hbelow cell hcell

theorem skipTo_eq_self {key : Cell} {cells : List Cell}
    (hcells : ∀ cell ∈ cells.head?, order.compare cell key ≠ .lt) :
    order.skipTo key cells = cells := by
  cases cells with
  | nil => rfl
  | cons cell rest => exact skipTo_cons_of_not_lt (hcells cell rfl) rest

/-- What a list has before a key. -/
theorem exists_below (order : CellOrder) (key : Cell) (cells : List Cell) :
    ∃ below, cells = below ++ order.skipTo key cells ∧
      ∀ cell ∈ below, order.compare cell key = .lt := by
  refine ⟨cells.takeWhile fun cell => (order.compare cell key).isLT,
    List.takeWhile_append_dropWhile.symm, fun cell hcell => ?_⟩
  exact Ordering.isLT_iff_eq_lt.mp (List.all_eq_true.mp List.all_takeWhile cell hcell)

theorem head?_skipTo {key : Cell} {cells : List Cell} :
    ∀ cell ∈ (order.skipTo key cells).head?, order.compare cell key ≠ .lt := by
  intro cell hcell hlt
  have hnot := List.head?_dropWhile_not (fun cell => (order.compare cell key).isLT) cells
  rw [CellOrder.skipTo] at hcell
  rw [hcell] at hnot
  simp [hlt] at hnot

variable [Std.TransCmp order.compare]

/-- In a sorted list, nothing after the first cell from a key on lies below it. -/
theorem skipTo_eq_filter {cells : List Cell} (hcells : order.Sorted cells) (key : Cell) :
    order.skipTo key cells = cells.filter fun cell => order.compare cell key ≠ .lt := by
  induction cells with
  | nil => rfl
  | cons cell rest ih =>
      obtain ⟨hcell, hrest⟩ := List.pairwise_cons.mp hcells
      by_cases hlt : order.compare cell key = .lt
      · rw [skipTo_cons_of_lt hlt, ih hrest, List.filter_cons_of_neg (by simp [hlt])]
      · rw [skipTo_cons_of_not_lt hlt, eq_comm, List.filter_eq_self]
        intro other hother
        rcases List.mem_cons.mp hother with rfl | hmem
        · simpa using hlt
        · rw [decide_eq_true_eq]
          intro hother
          exact hlt (Std.TransCmp.lt_of_isLE_of_lt (hcell other hmem) hother)

theorem skipTo_filter {cells : List Cell} (hcells : order.Sorted cells) (key : Cell)
    (kept : Cell → Bool) :
    order.skipTo key (cells.filter kept) = (order.skipTo key cells).filter kept := by
  rw [skipTo_eq_filter hcells, skipTo_eq_filter (hcells.sublist List.filter_sublist),
    List.filter_filter, List.filter_filter]
  exact List.filter_congr fun cell _ => Bool.and_comm _ _

theorem mem_skipTo {cells : List Cell} (hcells : order.Sorted cells) {key cell : Cell} :
    cell ∈ order.skipTo key cells ↔ cell ∈ cells ∧ order.compare cell key ≠ .lt := by
  rw [skipTo_eq_filter hcells, List.mem_filter, decide_eq_true_eq]

/-- A key that a list was cut at makes no difference to a later one. -/
theorem skipTo_skipTo {cells : List Cell} (hcells : order.Sorted cells) {first second : Cell}
    (hkeys : ∀ cell ∈ cells, order.compare cell first = .lt → order.compare cell second = .lt) :
    order.skipTo second (order.skipTo first cells) = order.skipTo second cells := by
  rw [skipTo_eq_filter (hcells.skipTo first), skipTo_eq_filter hcells, skipTo_eq_filter hcells,
    List.filter_filter]
  refine List.filter_congr fun cell hcell => ?_
  have hkeys := mt (hkeys cell hcell)
  simp only [ne_eq, ← Bool.decide_and, decide_eq_decide]
  exact and_iff_left_of_imp hkeys

theorem le_of_mem_skipTo {cells : List Cell} (hcells : order.Sorted cells) {key cell : Cell}
    (hcell : cell ∈ order.skipTo key cells) : (order.compare key cell).isLE = true := by
  have hge := ((mem_skipTo hcells).mp hcell).2
  have hswap : order.compare key cell = (order.compare cell key).swap := Std.OrientedCmp.eq_swap
  rw [hswap]
  cases hcompare : order.compare cell key <;> simp_all

/-- The end of a list has all of the list from any key behind one of its cells on. -/
theorem skipTo_of_suffix {cells rest : List Cell} (hcells : order.Sorted cells)
    (hsuffix : rest <:+ cells) {cell key : Cell} (hcell : cell ∈ rest)
    (hlt : order.compare cell key = .lt) : order.skipTo key rest = order.skipTo key cells := by
  obtain ⟨below, rfl⟩ := hsuffix
  refine (skipTo_append_of_lt (fun other hother => ?_) rest).symm
  have hle := (List.pairwise_append.mp hcells).2.2 other hother cell hcell
  exact Std.TransCmp.lt_of_isLE_of_lt hle hlt

/-- To cut a list at the first cell from a key on is to cut it at the key. -/
theorem skipTo_first {cells rest : List Cell} (hcells : order.Sorted cells) {key first : Cell}
    (hfirst : order.skipTo key cells = first :: rest) :
    order.skipTo first cells = first :: rest := by
  have hle := le_of_mem_skipTo hcells (hfirst ▸ List.mem_cons_self : first ∈ order.skipTo key cells)
  rw [← skipTo_skipTo hcells fun cell _ hlt => Std.TransCmp.lt_of_lt_of_isLE hlt hle, hfirst]
  exact skipTo_cons_of_not_lt (by simp [Std.ReflCmp.compare_self]) rest

omit [Std.TransCmp order.compare] in
theorem mem_copies {cells : List Cell} {cell other : Cell} :
    other ∈ order.copies cell cells ↔ other ∈ cells ∧ order.compare other cell = .eq := by
  rw [copies, List.mem_filter, decide_eq_true_eq]

omit [Std.TransCmp order.compare] in
theorem copies_eq_nil {cells : List Cell} {place : Cell}
    (hne : ∀ cell ∈ cells, order.compare cell place ≠ .eq) : order.copies place cells = [] :=
  List.filter_eq_nil_iff.mpr fun cell hcell heq => hne cell hcell (of_decide_eq_true heq)

/-- There are no copies of a cell behind it. -/
theorem copies_eq_nil_of_lt {cells : List Cell} {cell place : Cell}
    (hbehind : ∀ other ∈ cells, order.compare cell other = .lt)
    (hplace : order.compare cell place = .eq) : order.copies place cells = [] := by
  refine copies_eq_nil fun other hother heq => ?_
  have hlt := hbehind other hother
  rw [Std.TransCmp.congr_left hplace, Std.OrientedCmp.eq_symm heq] at hlt
  cases hlt

theorem self_mem_copies_cons (order : CellOrder) [Std.TransCmp order.compare] (cell : Cell)
    (cells : List Cell) : cell ∈ order.copies cell (cell :: cells) :=
  mem_copies.mpr ⟨List.mem_cons_self, Std.ReflCmp.compare_self⟩

omit [Std.TransCmp order.compare] in
theorem copies_append (place : Cell) (left right : List Cell) :
    order.copies place (left ++ right) = order.copies place left ++ order.copies place right :=
  List.filter_append left right

omit [Std.TransCmp order.compare] in
theorem copies_cons_of_eq {cell place : Cell} (heq : order.compare cell place = .eq)
    (cells : List Cell) : order.copies place (cell :: cells) = cell :: order.copies place cells :=
  List.filter_cons_of_pos (decide_eq_true heq)

omit [Std.TransCmp order.compare] in
theorem copies_cons_of_ne {cell place : Cell} (hne : order.compare cell place ≠ .eq)
    (cells : List Cell) : order.copies place (cell :: cells) = order.copies place cells :=
  List.filter_cons_of_neg (by simpa using hne)

omit [Std.TransCmp order.compare] in
theorem copies_flatMap {α : Type} (place : Cell) (lists : List α) (cells : α → List Cell) :
    order.copies place (lists.flatMap cells) =
      lists.flatMap fun list => order.copies place (cells list) :=
  List.filter_flatMap

theorem copies_skipTo {cells : List Cell} (hcells : order.Sorted cells) (key place : Cell) :
    order.copies place (order.skipTo key cells) =
      if order.compare place key = .lt then [] else order.copies place cells := by
  have hsame : ∀ cell, order.compare cell place = .eq →
      order.compare cell key = order.compare place key :=
    fun cell heq => Std.TransCmp.congr_left heq
  rw [skipTo_eq_filter hcells, copies, List.filter_filter]
  split
  next hlt =>
    rw [List.filter_eq_nil_iff]
    intro cell _ hcell
    simp only [Bool.and_eq_true, decide_eq_true_eq] at hcell
    exact hcell.2 (hsame cell hcell.1 ▸ hlt)
  next hge =>
    apply List.filter_congr
    intro cell _
    by_cases heq : order.compare cell place = .eq
    · simp [hsame cell heq, hge]
    · simp [heq]

/-- Sorted lists with the same cells at every place are equal. -/
theorem eq_of_copies_eq {left right : List Cell} (hleft : order.Sorted left)
    (hright : order.Sorted right) (hcopies : ∀ cell, order.copies cell left =
      order.copies cell right) : left = right := by
  induction left generalizing right with
  | nil =>
      cases right with
      | nil => rfl
      | cons first rest =>
          have hmem := self_mem_copies_cons order first rest
          rw [← hcopies first] at hmem
          cases hmem
  | cons cell tail ih =>
      have hcell := self_mem_copies_cons order cell tail
      rw [hcopies cell, mem_copies] at hcell
      cases right with
      | nil => cases hcell.1
      | cons first rest =>
          have hfirst := self_mem_copies_cons order first rest
          rw [← hcopies first, mem_copies] at hfirst
          -- each list has the first cell of the other one, so both are at one place
          have hsame : order.compare first cell = .eq := by
            obtain ⟨hbelow, _⟩ := List.pairwise_cons.mp hleft
            obtain ⟨hbelow', _⟩ := List.pairwise_cons.mp hright
            rcases List.mem_cons.mp hfirst.1 with rfl | hmem
            · exact Std.ReflCmp.compare_self
            · rcases List.mem_cons.mp hcell.1 with rfl | hmem'
              · exact Std.ReflCmp.compare_self
              · exact Std.OrientedCmp.isLE_antisymm (hbelow' _ hmem') (hbelow _ hmem)
          have hheads := hcopies cell
          simp only [copies, List.filter_cons, hsame, Std.ReflCmp.compare_self, decide_true,
            if_true, List.cons.injEq] at hheads
          obtain ⟨rfl, _⟩ := hheads
          congr 1
          refine ih (List.pairwise_cons.mp hleft).2 (List.pairwise_cons.mp hright).2 ?_
          intro other
          have hother := hcopies other
          simp only [copies, List.filter_cons] at hother ⊢
          split at hother
          · exact (List.cons.inj hother).2
          · exact hother

theorem isLE_or_isLE (left right : Cell) :
    ((order.compare left right).isLE || (order.compare right left).isLE) = true := by
  have hswap : order.compare right left = _ := Std.OrientedCmp.eq_swap
  rw [hswap]
  cases order.compare left right <;> rfl

theorem sort_sorted (cells : List Cell) : order.Sorted (order.sort cells) :=
  List.pairwise_mergeSort (fun _ _ _ => Std.TransCmp.isLE_trans) isLE_or_isLE cells

/-- Sorting keeps the order of the cells at one place. -/
theorem copies_sort (cell : Cell) (cells : List Cell) :
    order.copies cell (order.sort cells) = order.copies cell cells := by
  induction cells with
  | nil => simp [CellOrder.sort]
  | cons first rest ih =>
      obtain ⟨below, above, hsort, hrest, hbelow⟩ :=
        @List.mergeSort_cons _ (fun left right => (order.compare left right).isLE)
          (fun _ _ _ => Std.TransCmp.isLE_trans) isLE_or_isLE first rest
      rw [CellOrder.sort, hrest] at ih
      rw [CellOrder.sort, hsort]
      simp only [copies, List.filter_append, List.filter_cons] at ih ⊢
      rw [← ih]
      split
      next hsame =>
        have hnone : below.filter (fun other => order.compare other cell = .eq) = [] := by
          rw [List.filter_eq_nil_iff]
          intro other hother heq
          have hgt := hbelow other hother
          rw [Std.TransCmp.congr_left (of_decide_eq_true hsame),
            Std.OrientedCmp.eq_symm (of_decide_eq_true heq)] at hgt
          cases hgt
        rw [hnone, List.nil_append, List.nil_append]
      next => rfl

omit [Std.TransCmp order.compare] in
theorem sort_perm (cells : List Cell) : (order.sort cells).Perm cells :=
  List.mergeSort_perm _ _

omit [Std.TransCmp order.compare] in
theorem mem_sort {cells : List Cell} {cell : Cell} : cell ∈ order.sort cells ↔ cell ∈ cells :=
  (sort_perm cells).mem_iff

/-- A list is the sorted form of another one if it is sorted and has the same
cells at every place. -/
theorem sort_eq_of_copies {cells sorted : List Cell} (hsorted : order.Sorted sorted)
    (hcopies : ∀ cell, order.copies cell sorted = order.copies cell cells) :
    order.sort cells = sorted :=
  eq_of_copies_eq (sort_sorted cells) hsorted fun cell => by rw [copies_sort, hcopies]

theorem sort_of_sorted {cells : List Cell} (hcells : order.Sorted cells) :
    order.sort cells = cells :=
  sort_eq_of_copies hcells fun _ => rfl

/-- Cells of which no two are at the same place ascend strictly when they are sorted. -/
theorem sort_strictlySorted {cells : List Cell}
    (hdistinct : cells.Pairwise fun left right => order.compare left right ≠ .eq) :
    order.StrictlySorted (order.sort cells) := by
  have hsorted : (order.sort cells).Pairwise fun left right => order.compare left right ≠ .eq :=
    (sort_perm cells).symm.pairwise hdistinct fun hne heq => hne (Std.OrientedCmp.eq_symm heq)
  refine ((sort_sorted cells).and hsorted).imp ?_
  rintro left right ⟨hle, hne⟩
  exact (Ordering.isLE_iff_eq_lt_or_eq_eq.mp hle).resolve_right hne

/-- There is one way only to put cells in strict order. -/
theorem StrictlySorted.eq_of_perm {left right : List Cell} (hleft : order.StrictlySorted left)
    (hright : order.StrictlySorted right) (hperm : left.Perm right) : left = right := by
  apply List.Perm.eq_of_pairwise _ hleft hright hperm
  intro first second _ _ hlt hgt
  rw [Std.OrientedCmp.gt_of_lt hlt] at hgt
  cases hgt

/-- From the first key of a row on there are no earlier rows. -/
theorem row_le_of_mem_skipTo {cells : List Cell} (hcells : keys.Sorted cells) {row : Bytes}
    {cell : Cell} (hcell : cell ∈ keys.skipTo (Cell.firstOnRow row) cells) : row ≤ cell.row := by
  obtain ⟨-, hge⟩ := (mem_skipTo hcells).mp hcell
  exact Std.not_lt.mp (mt (Cell.lt_of_row_lt ·) hge)

/-! ## The rows after a row -/

section

variable {cells : List Cell} (hcells : keys.Sorted cells)
variable (hkinds : ∀ cell ∈ cells, cell.kind ≠ .minimum) {row : Bytes}
include hcells hkinds

/-- From the end of a row on there are the cells of later rows. -/
theorem skipTo_lastOnRow (row : Bytes) :
    keys.skipTo (Cell.lastOnRow row) cells = cells.filter fun cell => row < cell.row := by
  rw [skipTo_eq_filter hcells]
  refine List.filter_congr fun cell hcell => ?_
  rw [decide_eq_decide, ne_eq, Cell.compare_keys, Cell.lt_lastOnRow_iff (hkinds cell hcell)]
  exact Std.not_le

theorem mem_skipTo_lastOnRow {cell : Cell} :
    cell ∈ keys.skipTo (Cell.lastOnRow row) cells ↔ cell ∈ cells ∧ row < cell.row := by
  rw [skipTo_lastOnRow hcells hkinds, List.mem_filter, decide_eq_true_eq]

/-- If there are no rows before it, only the cells of the row are left out. -/
theorem skipTo_lastOnRow_of_le (hle : ∀ cell ∈ cells, row ≤ cell.row) :
    keys.skipTo (Cell.lastOnRow row) cells = cells.filter fun cell => cell.row ≠ row := by
  rw [skipTo_lastOnRow hcells hkinds]
  refine List.filter_congr fun cell hcell => ?_
  rw [decide_eq_decide]
  exact ⟨fun hlt heq => Std.lt_irrefl (heq ▸ hlt),
    fun hne => Std.lt_of_le_of_ne (hle cell hcell) (Ne.symm hne)⟩

/-- A key of a row that a list was cut at makes no difference to the rows after it. -/
theorem skipTo_lastOnRow_skipTo (key : Cell) :
    keys.skipTo (Cell.lastOnRow key.row) (keys.skipTo key cells) =
      keys.skipTo (Cell.lastOnRow key.row) cells := by
  refine skipTo_skipTo hcells fun cell hcell hlt => ?_
  rw [Cell.compare_keys, Cell.lt_lastOnRow_iff (hkinds cell hcell)]
  exact Cell.row_le_of_isLE (Ordering.isLE_of_eq_lt hlt)

end

end MergeScan.CellOrder
