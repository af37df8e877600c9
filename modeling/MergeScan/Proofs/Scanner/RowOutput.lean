import MergeScan.Proofs.Cell.Rows
import MergeScan.Proofs.Scan.Visible
import MergeScan.Proofs.Scanner.Drain
import MergeScan.Proofs.Scanner.Kept

/-! # What is handed out of a row

The rows of a family may be in an order of their own. What a matcher of a scan of all rows decides
in a row is what it decides in the usual order, where it has the cells of this row only. A pass
over the first row takes its cells off what is handed out of that row, and of the other rows it
takes nothing.
-/

namespace MergeScan

open CellOrder

/-! ## The cells of a row -/

namespace Cell

variable {order : CellOrder} [RowWise order] {cell : Cell} {cells : List Cell} {row : Bytes}

/-- Cells in order begin with those of the first row. -/
theorem exists_later (hsorted : order.Sorted cells)
    (hfirst : ∀ cell ∈ cells, (order.compareRows row cell.row).isLE = true) :
    ∃ later, cells = inRow row cells ++ later ∧
      ∀ cell ∈ later, order.compareRows row cell.row = .lt := by
  induction cells with
  | nil => exact ⟨[], rfl, nofun⟩
  | cons cell rest ih =>
      obtain ⟨hcell, hrest⟩ := List.forall_mem_cons.mp hfirst
      obtain ⟨hbehind, hsorted⟩ := List.pairwise_cons.mp hsorted
      by_cases hrow : cell.row = row
      · obtain ⟨later, hsplit, hlater⟩ := ih hsorted hrest
        refine ⟨later, ?_, hlater⟩
        rw [← hrow, inRow_cons_self, List.cons_append, hrow, ← hsplit]
      · have hlt : order.compareRows row cell.row = .lt := by
          cases hcompare : order.compareRows row cell.row with
          | lt => rfl
          | eq => exact absurd (Std.LawfulEqCmp.eq_of_compare hcompare).symm hrow
          | gt => rw [hcompare] at hcell; cases hcell
        have hlater : ∀ other ∈ cell :: rest, order.compareRows row other.row = .lt := by
          intro other hother
          rcases List.mem_cons.mp hother with rfl | hmem
          · exact hlt
          · exact Std.TransCmp.lt_of_lt_of_isLE hlt (compareRows_isLE (hbehind other hmem))
        refine ⟨cell :: rest, ?_, hlater⟩
        rw [inRow_of_forall_ne fun other hother =>
          (ne_of_compareRows_lt (hlater other hother)).symm, List.nil_append]

/-- The cells of a row are in their usual order. -/
theorem inRow_sorted (hsorted : order.Sorted cells) (row : Bytes) :
    keys.Sorted (inRow row cells) := by
  refine (hsorted.sublist List.filter_sublist).imp_of_mem
    fun {first second} hfirst hsecond hle => ?_
  have hsame := (mem_inRow.mp hfirst).2.trans (mem_inRow.mp hsecond).2.symm
  rwa [compare_of_row_eq hsame] at hle

omit [RowWise order] in
theorem copies_inRow (place : Cell) (cells : List Cell) :
    keys.copies place (inRow row cells) =
      if place.row = row then keys.copies place cells else [] := by
  rw [copies, inRow, List.filter_filter]
  split
  next hrow =>
    refine List.filter_congr fun cell _ => ?_
    by_cases hsame : compareKeys cell place = .eq
    · simp [hsame, (row_eq_of_eq hsame).trans hrow]
    · simp [hsame]
  next hrow =>
    rw [List.filter_eq_nil_iff]
    intro cell _ hcell
    simp only [Bool.and_eq_true, decide_eq_true_eq] at hcell
    exact hrow ((row_eq_of_eq hcell.1).symm.trans hcell.2)

end Cell

/-- A part with its cells sorted anew. -/
def Part.resort (order : CellOrder) (part : Part) : Part :=
  { part with cells := order.sort part.cells }

/-- Of each row, parts in an order of rows have what they have when they are sorted as usual. -/
theorem inRow_merged_resort {order : CellOrder} [RowWise order] (parts : List Part) (row : Bytes) :
    Cell.inRow row (keys.merged (parts.map (Part.resort keys))) =
      Cell.inRow row (order.merged parts) := by
  apply @eq_of_copies_eq keys _ _ _ (Cell.inRow_sorted (merged_sorted _) row)
    (Cell.inRow_sorted (merged_sorted parts) row)
  intro place
  have hpart (part : Part) : keys.copies place (part.resort keys).cells =
      order.copies place part.cells := by
    rw [copies_eq_keys order]
    exact copies_sort place part.cells
  rw [Cell.copies_inRow, Cell.copies_inRow, copies_merged, ← copies_eq_keys order, copies_merged,
    @Part.freshestFirst_map (Part.resort keys) fun _ => rfl, List.flatMap_map]
  simp only [hpart]

/-! ## In a row -/

/-- No row is the last of all. -/
theorem Bytes.lt_append_zero (row : Bytes) : row < row ++ [0] := by
  induction row with
  | nil => exact List.nil_lt_cons _ _
  | cons byte rest ih => exact List.cons_lt_cons_iff.mpr (.inr ⟨rfl, ih⟩)

namespace Matcher

variable {φ : Type} {matcher : Matcher φ}

/-- The same matcher for rows in some order. -/
def inOrder (matcher : Matcher φ) (order : CellOrder) : Matcher φ :=
  { matcher with order }

theorem inRow_inOrder (matcher : Matcher φ) (order : CellOrder) (row : Bytes) :
    (matcher.inOrder order).inRow row = (matcher.inRow row).inOrder order := by
  have hrow : (matcher.inOrder order).row = matcher.row := rfl
  unfold inRow
  rw [hrow]
  split <;> rfl

variable [CellFilter φ] {cell : Cell} {rest here : List Cell}
variable {order : CellOrder} {family row : Bytes} {limit : Option Nat}

theorem decideCell_inOrder (hplain : Plain matcher) (hfits : Fits matcher cell) :
    ((matcher.inOrder order).decideCell cell).value =
      ((matcher.decideCell cell).value.1, (matcher.decideCell cell).value.2.inOrder order) := by
  have hmasked := isMasked_eq hfits
  have hsame : (matcher.inOrder order).isMasked cell = .ok
      ((matcher.inOrder order).markers.hides cell.qualifier cell.timestamp,
        (matcher.inOrder order).afterMarkers cell) := isMasked_eq ⟨hfits.column, hfits.marker⟩
  cases hage : matcher.columns.rule.rulesOut cell.timestamp with
  | true =>
      rw [decideCell_expired hage, decideCell_expired (show
        (matcher.inOrder order).columns.rule.rulesOut cell.timestamp = true from hage)]
      rfl
  | false =>
      have hage' : (matcher.inOrder order).columns.rule.rulesOut cell.timestamp = false := hage
      cases hdelete : cell.isDelete with
      | true =>
          rw [decideCell_marker hage hdelete, decideCell_marker hage' hdelete]
          have htime : (matcher.inOrder order).timeRange = matcher.timeRange := rfl
          simp only [decideMarker, htime]
          split <;> rfl
      | false =>
          cases hhides : matcher.markers.hides cell.qualifier cell.timestamp with
          | true =>
              rw [decideCell_masked hmasked hage hdelete hhides,
                decideCell_masked hsame hage' hdelete hhides]
              rfl
          | false =>
              have htime : (matcher.inOrder order).timeRange = matcher.timeRange := rfl
              rw [decideCell_live hmasked hage hdelete hhides,
                decideCell_live hsame hage' hdelete hhides, htime]
              cases matcher.timeRange.position cell.timestamp with
              | gt => rfl
              | lt => rfl
              | eq =>
                  have hfilter : (matcher.afterMarkers cell).filter = none := hplain.filter
                  have hfilter' : ((matcher.inOrder order).afterMarkers cell).filter = none :=
                    hplain.filter
                  simp only [decideValue_unfiltered hfilter, decideValue_unfiltered hfilter']
                  have hcolumns : ((matcher.inOrder order).afterMarkers cell).columns =
                      (matcher.afterMarkers cell).columns := rfl
                  simp only [decideVersion, hcolumns]
                  split <;> rfl

/-- About a cell of the row that is being read, the order of the rows makes no difference. -/
theorem decide_inOrder [RowWise order] (hplain : Plain matcher) (hfits : Fits matcher cell)
    (hrow : matcher.row = some cell.row) :
    ((matcher.inOrder order).decide cell).value =
      ((matcher.decide cell).value.1, (matcher.decide cell).value.2.inOrder order) := by
  have hsame : (matcher.inOrder order).compareRow cell = matcher.compareRow cell := by
    have horder : matcher.order = keys := hplain.order
    simp only [compareRow, inOrder, hrow, horder, compareRows_self]
  have hdecideRow : (matcher.inOrder order).decideRow cell = matcher.decideRow cell := by
    unfold decideRow
    rw [hsame]
    rfl
  unfold Matcher.decide
  rw [hdecideRow]
  cases matcher.decideRow cell with
  | some decision => rfl
  | none => exact decideCell_inOrder hplain hfits

/-- A matcher of a scan of all rows, in one of them, with what is left of it. -/
structure Within (family row : Bytes) (matcher : Matcher φ) (here : List Cell) : Prop
    extends Ready family matcher here where
  rows : matcher.rows = .all
  current : matcher.row = some row
  ofRow cell : cell ∈ here → cell.row = row

omit [CellFilter φ] in
theorem Within.row_eq (hwithin : Within family row matcher (cell :: rest)) :
    matcher.row = some cell.row :=
  hwithin.current.trans (congrArg some (hwithin.ofRow cell List.mem_cons_self).symm)

/-- In a row, no look ends the scan. -/
theorem Within.course (hwithin : Within family row matcher (cell :: rest)) :
    ∃ ahead, (matcher.look cell rest).course = .ok ahead := by
  cases hcourse : (matcher.look cell rest).course with
  | ok ahead => exact ⟨ahead, rfl⟩
  | error ending =>
      have hjudged := hwithin.toReady.judged.2
      obtain ⟨-, hpast⟩ := hjudged.goOn_error hwithin.plain hwithin.row_eq hcourse
      have hcontains := hpast _ (Bytes.lt_append_zero cell.row)
      rw [hwithin.rows, RowRange.contains_all] at hcontains
      cases hcontains

theorem Within.look (hwithin : Within family row matcher (cell :: rest)) {ahead : List Cell}
    (hcourse : (matcher.look cell rest).course = .ok ahead) :
    Within family row (matcher.look cell rest).next ahead where
  toReady := hwithin.toReady.look hcourse
  rows := (rows_of_reset hwithin.toReady.judged.2.reset_eq).trans hwithin.rows
  current := (row_of_reset hwithin.toReady.judged.2.reset_eq).trans hwithin.current
  ofRow other hother :=
    hwithin.ofRow other (List.mem_cons_of_mem _ ((goOn_suffix hcourse).subset hother))

/-- What a pass over what is left of a row comes to. -/
structure Within.Passes (family row : Bytes) (matcher : Matcher φ) (passed : Passed φ) : Prop where
  within : Within family row passed.matcher passed.ahead
  reset : passed.matcher.reset = matcher.reset
  cells cell : cell ∈ passed.cells → cell.row = row
  ending : passed.ending ≠ .scanDone

theorem Within.passOver (hwithin : Within family row matcher here) (limit : Option Nat) :
    Passes family row matcher (matcher.passOver limit here) := by
  induction matcher, here using look_induction generalizing limit with
  | nil matcher =>
      rw [passOver_nil]
      exact ⟨hwithin, rfl, nofun, nofun⟩
  | ends matcher cell rest ending hcourse =>
      obtain ⟨ahead, hgoesOn⟩ := hwithin.course
      rw [hcourse] at hgoesOn
      cases hgoesOn
  | goOn matcher cell rest ahead hcourse ih =>
      have hnext := hwithin.look hcourse
      have hreset : (matcher.look cell rest).next.reset = matcher.reset :=
        hwithin.toReady.judged.2.reset_eq
      have hemitted : ∀ other ∈ (matcher.look cell rest).emitted.toList, other.row = row := by
        intro other hother
        have hother : (matcher.judge cell).1.emitted cell = some other :=
          Option.mem_toList.mp hother
        unfold Decision.emitted at hother
        split at hother
        · cases hother
          exact hwithin.ofRow cell List.mem_cons_self
        · cases hother
      rw [passOver_cons_ok hcourse]
      simp only
      split
      · exact ⟨hnext, hreset, hemitted, nofun⟩
      · have hrest := ih hnext (ReadState.remainingLimit limit (matcher.look cell rest).emitted)
        refine ⟨hrest.within, hrest.reset.trans hreset, fun other hother => ?_, hrest.ending⟩
        rcases List.mem_append.mp hother with hfirst | hlast
        · exact hemitted other hfirst
        · exact hrest.cells other hlast

end Matcher

/-! ## Row after row -/

namespace Matcher

variable {φ : Type} [CellFilter φ] {order : CellOrder} {matcher : Matcher φ} {first : Cell}
variable {rest ahead later : List Cell} {family row : Bytes}

/-- What a matcher hands out of one row of the cells ahead. -/
def rowOutput (matcher : Matcher φ) (ahead : List Cell) (row : Bytes) : List Cell :=
  (matcher.inRow row).output (Cell.inRow row ahead)

@[simp] theorem rowOutput_nil (matcher : Matcher φ) (row : Bytes) :
    matcher.rowOutput [] row = [] :=
  output_nil _

theorem exists_of_mem_rowOutput {cell : Cell} (hcell : cell ∈ matcher.rowOutput ahead row) :
    ∃ other ∈ ahead, other.row = row := by
  unfold rowOutput at hcell
  cases hahead : Cell.inRow row ahead with
  | nil =>
      rw [hahead, output_nil] at hcell
      cases hcell
  | cons other _ => exact ⟨other, Cell.mem_inRow.mp (hahead ▸ List.mem_cons_self)⟩

/-- A matcher of a scan of all rows, before cells whose rows are in some order. -/
structure Before (order : CellOrder) (family : Bytes) (matcher : Matcher φ)
    (ahead : List Cell) : Prop where
  plain : Plain matcher
  rows : matcher.rows = .all
  sorted : order.Sorted ahead
  stored : Cell.StoredIn family ahead
  behind cell row : cell ∈ ahead → matcher.row = some row →
    (order.compareRows row cell.row).isLE = true
  fits cell : cell ∈ ahead → matcher.row = some cell.row → Fits matcher cell

variable [RowWise order]

omit [CellFilter φ] in
/-- To enter the first row is to be within it. -/
theorem Before.within (hbefore : Before order family matcher ahead) (row : Bytes) :
    Within family row (matcher.inRow row) (Cell.inRow row ahead) where
  plain := hbefore.plain.inRow row
  sorted := Cell.inRow_sorted hbefore.sorted row
  stored cell hcell := hbefore.stored cell (Cell.mem_inRow.mp hcell).1
  behind cell current hcell hcurrent := by
    rw [row_inRow] at hcurrent
    rw [← Option.some.inj hcurrent, (Cell.mem_inRow.mp hcell).2]
    exact Std.le_refl _
  fits cell hcell hcurrent := by
    obtain ⟨hmem, hrow⟩ := Cell.mem_inRow.mp hcell
    unfold Matcher.inRow
    split
    next hsame => exact hbefore.fits cell hmem (hsame.trans (congrArg some hrow.symm))
    next => exact fits_entered matcher row cell
  entered := isSome_row_inRow matcher row
  rows := (rows_inRow matcher row).trans hbefore.rows
  current := row_inRow matcher row
  ofRow cell hcell := (Cell.mem_inRow.mp hcell).2

/-- What a pass over the first row leaves of the cells ahead, and what it takes off what is handed
out of each row. -/
structure Before.Passed (order : CellOrder) (family : Bytes) (matcher : Matcher φ)
    (ahead cells : List Cell) (next : Matcher φ) (left : List Cell) : Prop where
  before : Before order family next left
  output row : matcher.rowOutput ahead row = Cell.inRow row cells ++ next.rowOutput left row
  first cell other : cell ∈ cells → other ∈ cells ++ left →
    (order.compareRows cell.row other.row).isLE = true
  shorter : left.length < ahead.length

omit [CellFilter φ] in
/-- A later row is entered anew, whatever was read before it. -/
theorem Before.inRow_eq (hbefore : Before order family matcher (first :: rest))
    (hlater : order.compareRows first.row row = .lt) {next : Matcher φ}
    (hcurrent : next.row = some first.row)
    (hreset : next.reset = (matcher.inRow first.row).reset) :
    matcher.inRow row = next.inRow row := by
  have hrow : matcher.row ≠ some row := by
    intro hrow
    have hle := hbefore.behind first row List.mem_cons_self hrow
    rw [Std.OrientedCmp.gt_of_lt hlater] at hle
    cases hle
  have hnext : next.row ≠ some row := by
    rw [hcurrent]
    exact fun heq => ne_of_compareRows_lt hlater (Option.some.inj heq)
  have hentered : (matcher.inRow first.row).entered row = matcher.entered row := by
    unfold Matcher.inRow
    split
    · rfl
    · exact entered_entered matcher _ _
  rw [Matcher.inRow, if_neg hrow, Matcher.inRow, if_neg hnext, entered_of_reset hreset, hentered]

section

variable {limit : Option Nat} {passed : MergeScan.Passed φ}
  (hbefore : Before order family matcher (first :: rest))
  (hsplit : first :: rest = Cell.inRow first.row (first :: rest) ++ later)
  (hlater : ∀ cell ∈ later, order.compareRows first.row cell.row = .lt)
  (hpassed : (matcher.inRow first.row).passOver limit (Cell.inRow first.row (first :: rest)) =
    passed)
include hbefore hsplit hlater hpassed

/-- A pass over the first row takes its cells off what is handed out of that row, and leaves the
other rows as they were. -/
theorem Before.rowOutput_passOver (row : Bytes) :
    matcher.rowOutput (first :: rest) row =
      Cell.inRow row passed.cells ++ passed.matcher.rowOutput (passed.ahead ++ later) row := by
  have hwithin := hbefore.within first.row
  have hpasses : Within.Passes family first.row (matcher.inRow first.row) passed :=
    hpassed ▸ hwithin.passOver limit
  by_cases hrow : row = first.row
  · subst hrow
    have houtput := @Ready.output_passOver _ _ _ _ _ limit hwithin.toReady
    simp only [hpassed, if_neg hpasses.ending] at houtput
    rw [rowOutput, houtput, rowOutput, inRow_of_row hpasses.within.current,
      Cell.inRow_of_forall hpasses.cells, Cell.inRow_append,
      Cell.inRow_of_forall hpasses.within.ofRow, Cell.inRow_of_forall_ne fun cell hcell =>
        (ne_of_compareRows_lt (hlater cell hcell)).symm, List.append_nil]
  · have hother {cells : List Cell} (hcells : ∀ cell ∈ cells, cell.row = first.row) :
        Cell.inRow row cells = [] :=
      Cell.inRow_of_forall_ne fun cell hcell heq => hrow (heq.symm.trans (hcells cell hcell))
    rw [hother hpasses.cells, List.nil_append, rowOutput, hsplit, rowOutput, Cell.inRow_append,
      Cell.inRow_append, hother hwithin.ofRow, hother hpasses.within.ofRow, List.nil_append]
    apply output_congr
    intro cell hcell
    obtain ⟨hmem, rfl⟩ := Cell.mem_inRow.mp (List.mem_of_head? hcell)
    rw [inRow_inRow, inRow_inRow]
    exact hbefore.inRow_eq (hlater cell hmem) hpasses.within.current hpasses.reset

omit hlater in
/-- A pass over the first row leaves fewer cells. -/
theorem Before.passOver_shorter : (passed.ahead ++ later).length < (first :: rest).length := by
  have hwithin := hbefore.within first.row
  have hending := (hwithin.passOver limit).ending
  have hready := hwithin.toReady
  have hlength := congrArg List.length hsplit
  rw [Cell.inRow_cons_self] at hpassed hending hready hlength
  have hshorter := hready.passOver_shorter (row_inRow matcher first.row) hending
  rw [hpassed] at hshorter
  simp only [List.cons_append, List.length_cons, List.length_append] at hlength ⊢
  omega

theorem Before.passRow :
    Before.Passed order family matcher (first :: rest) passed.cells passed.matcher
      (passed.ahead ++ later) := by
  have hwithin := hbefore.within first.row
  have hpasses : Within.Passes family first.row (matcher.inRow first.row) passed :=
    hpassed ▸ hwithin.passOver limit
  have hleft : (passed.ahead ++ later).Sublist (first :: rest) := by
    rw [hsplit, ← hpassed]
    exact (passOver_suffix _ _ _).sublist.append (List.Sublist.refl later)
  have hfirst : ∀ cell ∈ passed.ahead ++ later,
      (order.compareRows first.row cell.row).isLE = true := by
    intro cell hcell
    rcases List.mem_append.mp hcell with hmem | hmem
    · rw [hpasses.within.ofRow cell hmem, compareRows_self]
      rfl
    · rw [hlater cell hmem]
      rfl
  have hcurrent {row : Bytes} (hrow : passed.matcher.row = some row) : first.row = row :=
    Option.some.inj (hpasses.within.current.symm.trans hrow)
  refine ⟨⟨hpasses.within.plain, hpasses.within.rows, hbefore.sorted.sublist hleft,
    fun cell hcell => hbefore.stored cell (hleft.subset hcell), ?_, ?_⟩,
    hbefore.rowOutput_passOver hsplit hlater hpassed, ?_,
    hbefore.passOver_shorter hsplit hpassed⟩
  · intro cell row hcell hrow
    exact hcurrent hrow ▸ hfirst cell hcell
  · intro cell hcell hrow
    rcases List.mem_append.mp hcell with hmem | hmem
    · exact hpasses.within.fits cell hmem hrow
    · exact absurd (hcurrent hrow) (ne_of_compareRows_lt (hlater cell hmem))
  · intro cell other hcell hother
    rw [hpasses.cells cell hcell]
    rcases List.mem_append.mp hother with hmem | hmem
    · rw [hpasses.cells other hmem, compareRows_self]
      rfl
    · exact hfirst other hmem

end

end Matcher

end MergeScan
