import MergeScan.Proofs.Matcher.Settles
import MergeScan.Proofs.Scanner.Abreast

/-! # What is handed out of a list

Of a list with one cell at each place, a scan hands out the cells that are kept of their
rows, and in the order of the list. So whether a cell is handed out can be told from the
row that it is in, without following the scan.
-/

namespace MergeScan

open CellOrder

/-- The cells of one row of a list. -/
def Cell.inRow (row : Bytes) (cells : List Cell) : List Cell :=
  cells.filter fun cell => cell.row = row

namespace Cell

variable {row : Bytes} {cell : Cell} {cells : List Cell} {name : Bytes}

theorem mem_inRow : cell ∈ inRow row cells ↔ cell ∈ cells ∧ cell.row = row := by
  rw [inRow, List.mem_filter, decide_eq_true_eq]

theorem inRow_cons_self (cell : Cell) (rest : List Cell) :
    inRow cell.row (cell :: rest) = cell :: inRow cell.row rest :=
  List.filter_cons_of_pos (decide_eq_true rfl)

theorem inRow_cons_of_ne (hne : cell.row ≠ row) (rest : List Cell) :
    inRow row (cell :: rest) = inRow row rest :=
  List.filter_cons_of_neg (by simpa using hne)

theorem inRow_of_forall (hcells : ∀ cell ∈ cells, cell.row = row) : inRow row cells = cells :=
  List.filter_eq_self.mpr fun cell hcell => decide_eq_true (hcells cell hcell)

theorem inRow_of_forall_ne (hcells : ∀ cell ∈ cells, cell.row ≠ row) : inRow row cells = [] :=
  List.filter_eq_nil_iff.mpr fun cell hcell heq => hcells cell hcell (of_decide_eq_true heq)

theorem inRow_append (row : Bytes) (left right : List Cell) :
    inRow row (left ++ right) = inRow row left ++ inRow row right :=
  List.filter_append left right

theorem inRow_filter (row : Bytes) (kept : Cell → Bool) (cells : List Cell) :
    inRow row (cells.filter kept) = (inRow row cells).filter kept := by
  rw [inRow, inRow, List.filter_filter, List.filter_filter]
  exact List.filter_congr fun cell _ => Bool.and_comm _ _

/-- In a row that has one cell at each place, the cells come one behind the other. -/
theorem behind_inRow (hsingle : keys.StrictlySorted cells) (hstored : StoredIn name cells)
    (row : Bytes) : (inRow row cells).Pairwise Behind := by
  refine (hsingle.sublist List.filter_sublist).imp_of_mem
    fun {first second} hfirst hsecond hlt => ?_
  obtain ⟨hfirst, hrow⟩ := mem_inRow.mp hfirst
  obtain ⟨hsecond, hsame⟩ := mem_inRow.mp hsecond
  exact behind_of_lt (hstored first hfirst) (hstored second hsecond) (hrow.trans hsame.symm) hlt

end Cell

namespace Matcher

variable {φ : Type} {matcher next : Matcher φ} {cell other : Cell} {rest ahead : List Cell}
variable {name row : Bytes} {decision : Decision}

/-- Whether a matcher hands out a cell of the ones ahead of it. -/
def handsOut (matcher : Matcher φ) (ahead : List Cell) (cell : Cell) : Bool :=
  (matcher.inRow cell.row).keeps (Cell.inRow cell.row ahead) cell

/-- At the beginning of a row, nothing was read of it. -/
theorem Steady.current_entered (hsteady : Steady matcher) (hstored : Cell.StoredIn name rest)
    (htagged : ∀ cell ∈ rest, cell.Tagged) (hordered : rest.Pairwise Cell.Behind)
    (hrow : ∀ cell ∈ rest, cell.row = row) : Current name (matcher.entered row) rest where
  here cell hcell := congrArg some (hrow cell hcell).symm
  stored := hstored
  tagged := htagged
  ordered := hordered
  steady := hsteady.congr (ColumnProgress.reset_reset _) rfl rfl
  room := ColumnProgress.hasRoom_reset hsteady.versions
  fresh _ _ := nofun
  met cell _ := RowMarkers.met_empty cell

/-! ## What a decision goes on with -/

section Course

variable [CellFilter φ]

omit [CellFilter φ] in
/-- The key of the next column lies behind what is passed. -/
theorem lt_nextColumnKey_iff (hother : other.IsReal) (hfamily : other.family = cell.family)
    (hname : cell.family ≠ []) :
    Cell.compareKeys other (next.nextColumnKey cell) = .lt ↔
      other.row < cell.row ∨ other.row = cell.row ∧ next.passes cell other = true := by
  unfold nextColumnKey passes
  cases next.columns.next? with
  | some column =>
      simp only [Cell.lt_firstOnColumn_iff hother.1, hfamily, Std.lt_irrefl, false_or, true_and,
        decide_eq_true_eq]
  | none =>
      simp only [Cell.lt_lastOnColumn_iff hother.1 (.inl hname), hfamily, Std.lt_irrefl, false_or,
        true_and, decide_eq_true_eq]

/-- A decision goes on with the cells of later rows, and with those of the row that it leaves
ahead. -/
theorem Judged.goOn_eq_filter (hjudged : Judged matcher cell decision next)
    (hsingle : keys.StrictlySorted (cell :: rest)) (hstored : Cell.StoredIn name (cell :: rest))
    (hname : name ≠ []) (hgoOn : next.goOn cell rest decision = .ok ahead) :
    ahead = rest.filter fun other => other.row ≠ cell.row || next.leaves cell decision other := by
  obtain ⟨hfirst, hrest⟩ := List.pairwise_cons.mp hsingle
  obtain ⟨-, hfamily⟩ := hstored cell List.mem_cons_self
  have hreal (other : Cell) (hother : other ∈ rest) := hstored other (List.mem_cons_of_mem _ hother)
  have hle (other : Cell) (hother : other ∈ rest) : cell.row ≤ other.row :=
    Cell.row_le_of_isLE (Ordering.isLE_of_eq_lt (hfirst other hother))
  cases onwards_of_goOn hgoOn with
  | next _ hstays =>
      have hleaves : next.leaves cell decision = fun other => (other ≠ cell : Bool) := by
        rcases hstays with rfl | rfl <;> rfl
      rw [eq_comm, List.filter_eq_self, hleaves]
      intro other hother
      have hne : other ≠ cell := by
        rintro rfl
        have hself : keys.compare other other = .eq := Std.ReflCmp.compare_self
        exact nomatch hself.symm.trans (hfirst other hother)
      simp [hne]
  | seekTo key => exact absurd rfl (hjudged.ne_seekTo key)
  | column _ hleft =>
      have hleaves : next.leaves cell decision = fun other => !next.passes cell other := by
        rcases hleft with rfl | rfl <;> rfl
      rw [skipTo_eq_filter (StrictlySorted.sorted hrest), hleaves]
      refine List.filter_congr fun other hother => ?_
      obtain ⟨hother', hsame⟩ := hreal other hother
      have hiff : Cell.compareKeys other (next.nextColumnKey cell) = .lt ↔ _ :=
        lt_nextColumnKey_iff hother' (hsame.trans hfamily.symm) (hfamily ▸ hname)
      have hnot := Std.not_lt.mpr (hle other hother)
      simp [hiff, hnot]
  | row _ hleft =>
      have hleaves : next.leaves cell decision = fun _ => false := by
        rcases hleft with rfl | rfl <;> rfl
      have hlater : keys.skipTo (next.nextRowKey cell) rest = _ :=
        skipTo_lastOnRow_of_le (StrictlySorted.sorted hrest)
          (fun other hother => (hreal other hother).1.1) hle
      rw [hlater, hleaves]
      simp only [Bool.or_false]

/-- Where a decision ends the scan, nothing of the row is left ahead, and later rows do not
belong to the scan. -/
theorem Judged.goOn_error (hjudged : Judged matcher cell decision next) (hplain : Plain matcher)
    (hrow : matcher.row = some cell.row) {ending : PassEnd}
    (hgoOn : next.goOn cell rest decision = .error ending) :
    next.leaves cell decision = (fun _ => false) ∧
      ∀ row, cell.row < row → matcher.rows.contains row = false := by
  have hrows := rows_of_reset hjudged.reset_eq
  have hpast (hextends : next.extendsPast cell = false) (row : Bytes) (hlt : cell.row < row) :
      matcher.rows.contains row = false := by
    rw [extendsPast, hrows] at hextends
    exact RowRange.contains_of_extendsPast hextends hlt
  have hsame : matcher.compareRow cell = .eq := by
    simp [compareRow, hrow, hplain.order]
  cases onwards_of_goOn hgoOn with
  | lastRow _ hleft hextends =>
      refine ⟨?_, hpast hextends⟩
      rcases hleft with rfl | rfl <;> rfl
  | rowDone =>
      -- the cell is of the current row, so this is not over
      have hdecided := (hjudged.of_done (.inl rfl)).2
      simp only [decideRow, hsame] at hdecided
      split at hdecided
      · cases hdecided
      · split at hdecided
        · cases hdecided
        · split at hdecided <;> cases hdecided
  | scanDone =>
      have hdecided := (hjudged.of_done (.inr rfl)).2
      simp only [decideRow, hsame, isStopped, hplain.filter, Bool.false_or] at hdecided
      split at hdecided
      next hends =>
        exact ⟨rfl, fun row hlt => RowRange.contains_of_endsBefore
          (RowRange.endsBefore_mono (Std.le_of_lt hlt) hends)⟩
      · split at hdecided
        · cases hdecided
        · split at hdecided <;> cases hdecided

end Course

/-! ## What is handed out -/

/-- A matcher that is prepared for the cells ahead, of which there is one at each place. -/
structure Lined (name : Bytes) (matcher : Matcher φ) (ahead : List Cell) : Prop
    extends Prepared name matcher ahead where
  named : name ≠ []
  single : keys.StrictlySorted ahead
  tagged cell : cell ∈ ahead → cell.Tagged
  steady : Steady matcher
  current row : matcher.row = some row → Current name matcher (Cell.inRow row ahead)

theorem Lined.current_inRow (hlined : Lined name matcher ahead) (row : Bytes) :
    Current name (matcher.inRow row) (Cell.inRow row ahead) := by
  by_cases hrow : matcher.row = some row
  · rw [inRow_of_row hrow]
    exact hlined.current row hrow
  · rw [Matcher.inRow, if_neg hrow]
    have hmem (cell : Cell) (hcell : cell ∈ Cell.inRow row ahead) := Cell.mem_inRow.mp hcell
    exact hlined.steady.current_entered (fun cell hcell => hlined.stored cell (hmem cell hcell).1)
      (fun cell hcell => hlined.tagged cell (hmem cell hcell).1)
      (Cell.behind_inRow hlined.single hlined.stored row) fun cell hcell => (hmem cell hcell).2

theorem Lined.inRow_first (hlined : Lined name matcher (cell :: rest)) :
    Lined name (matcher.inRow cell.row) (cell :: rest) where
  toPrepared := hlined.toPrepared.inRow_first.toPrepared
  named := hlined.named
  single := hlined.single
  tagged := hlined.tagged
  steady := (hlined.current_inRow cell.row).steady
  current row hrow := by
    rw [row_inRow] at hrow
    obtain rfl := Option.some.inj hrow
    exact hlined.current_inRow cell.row

/-- The rows of the cells ahead are the one that is read and later ones. -/
theorem Prepared.row_cases (hprepared : Prepared name matcher (cell :: rest))
    (hother : other ∈ cell :: rest) : other.row = cell.row ∨ cell.row < other.row := by
  rcases List.mem_cons.mp hother with rfl | hmem
  · exact .inl rfl
  · have hle := Cell.row_le_of_isLE ((List.pairwise_cons.mp hprepared.sorted).1 other hmem)
    grind

/-- In the row of the first cell, a matcher is ready to look at it. -/
theorem Prepared.ready_here [CellFilter φ] (hprepared : Prepared name matcher (cell :: rest))
    (hrow : matcher.row = some cell.row) : Ready name matcher (cell :: rest) :=
  ⟨hprepared, by rw [hrow]; rfl⟩

/-- To enter the row of the first cell makes no difference to how a row is entered. -/
theorem Prepared.inRow_inRow_first (hprepared : Prepared name matcher (cell :: rest))
    (hother : other ∈ cell :: rest) :
    (matcher.inRow cell.row).inRow other.row = matcher.inRow other.row := by
  rcases hprepared.row_cases hother with heq | hlt
  · rw [heq, inRow_inRow]
  · exact inRow_inRow_of_lt hlt fun current hcurrent =>
      hprepared.behind cell current List.mem_cons_self hcurrent

/-- To enter the row of the first cell makes no difference to what is handed out. -/
theorem Lined.handsOut_inRow (hlined : Lined name matcher (cell :: rest))
    (hother : other ∈ cell :: rest) :
    (matcher.inRow cell.row).handsOut (cell :: rest) other =
      matcher.handsOut (cell :: rest) other := by
  rw [handsOut, handsOut, hlined.inRow_inRow_first hother]

section Output

variable [CellFilter φ]

/-- The decision on the first cell, in its row. -/
theorem Lined.judged (hlined : Lined name matcher (cell :: rest))
    (hrow : matcher.row = some cell.row) :
    Judged matcher cell (matcher.judge cell).1 (matcher.judge cell).2 :=
  (hlined.ready_here hrow).judged.2

/-- The cells of the row of the first cell that a decision leaves ahead. -/
theorem Lined.inRow_goOn (hlined : Lined name matcher (cell :: rest))
    (hjudged : Judged matcher cell decision next)
    (hgoOn : next.goOn cell rest decision = .ok ahead) :
    Cell.inRow cell.row ahead =
      (Cell.inRow cell.row (cell :: rest)).filter (next.leaves cell decision) := by
  rw [hjudged.goOn_eq_filter hlined.single hlined.stored hlined.named hgoOn, Cell.inRow_cons_self,
    List.filter_cons_of_neg (by simp [hjudged.leaves_self hlined.plain]), Cell.inRow, Cell.inRow,
    List.filter_filter, List.filter_filter]
  refine List.filter_congr fun other _ => ?_
  by_cases hsame : other.row = cell.row <;> simp [hsame]

/-- The cells of later rows are all left ahead. -/
theorem Lined.later_goOn (hlined : Lined name matcher (cell :: rest))
    (hjudged : Judged matcher cell decision next)
    (hgoOn : next.goOn cell rest decision = .ok ahead) (hne : row ≠ cell.row) :
    Cell.inRow row ahead = Cell.inRow row (cell :: rest) := by
  rw [hjudged.goOn_eq_filter hlined.single hlined.stored hlined.named hgoOn,
    Cell.inRow_cons_of_ne (Ne.symm hne), Cell.inRow, Cell.inRow, List.filter_filter]
  refine List.filter_congr fun other _ => ?_
  by_cases hsame : other.row = row <;> simp [hsame, hne]

theorem Lined.look (hlined : Lined name matcher (cell :: rest)) (hrow : matcher.row = some cell.row)
    (hcourse : (matcher.look cell rest).course = .ok ahead) :
    Lined name (matcher.look cell rest).next ahead := by
  have hjudged := hlined.judged hrow
  have hsub : ahead.Sublist (cell :: rest) := ((goOn_suffix hcourse).sublist).cons cell
  exact {
    toPrepared := ((hlined.ready_here hrow).look hcourse).toPrepared
    named := hlined.named
    single := hlined.single.sublist hsub
    tagged other hother := hlined.tagged other (hsub.mem hother)
    steady := hlined.steady.of_reset hjudged.reset_eq
    current row hnext := by
      obtain rfl : cell.row = row :=
        Option.some.inj (hrow.symm.trans ((row_of_reset hjudged.reset_eq).symm.trans hnext))
      have hcurrent := hlined.current cell.row hrow
      rw [Cell.inRow_cons_self] at hcurrent
      rw [hlined.inRow_goOn hjudged hcourse, Cell.inRow_cons_self]
      exact hjudged.current hcurrent hlined.plain }

/-- A look hands out the first cell if it is one of those that are handed out. -/
theorem Lined.handsOut_first (hlined : Lined name matcher (cell :: rest))
    (hrow : matcher.row = some cell.row) :
    matcher.handsOut (cell :: rest) cell = (matcher.judge cell).1.emits := by
  have hcurrent := hlined.current cell.row hrow
  rw [Cell.inRow_cons_self] at hcurrent
  rw [handsOut, inRow_of_row hrow, Cell.inRow_cons_self]
  exact ((hlined.judged hrow).settles hcurrent hlined.plain).first

/-- Of the cells that a look leaves ahead, the same are handed out. -/
theorem Lined.handsOut_ahead (hlined : Lined name matcher (cell :: rest))
    (hrow : matcher.row = some cell.row)
    (hcourse : (matcher.look cell rest).course = .ok ahead) (hother : other ∈ ahead) :
    (matcher.look cell rest).next.handsOut ahead other = matcher.handsOut (cell :: rest) other := by
  have hjudged := hlined.judged hrow
  have hmem : other ∈ rest := (goOn_suffix hcourse).subset hother
  have hnext : (matcher.look cell rest).next.row = some cell.row :=
    (row_of_reset hjudged.reset_eq).trans hrow
  rcases hlined.row_cases (List.mem_cons_of_mem _ hmem) with hsame | hlt
  · have hcurrent := hlined.current cell.row hrow
    rw [Cell.inRow_cons_self] at hcurrent
    have hleft := hother
    rw [hjudged.goOn_eq_filter hlined.single hlined.stored hlined.named hcourse, List.mem_filter]
      at hleft
    have hsettles := (hjudged.settles hcurrent hlined.plain).left other
      (Cell.mem_inRow.mpr ⟨hmem, hsame⟩) (by simpa [hsame] using hleft.2)
    rw [handsOut, handsOut, hsame, inRow_of_row hrow, inRow_of_row hnext,
      hlined.inRow_goOn hjudged hcourse, Cell.inRow_cons_self]
    exact hsettles
  · have hentered : (matcher.look cell rest).next.entered other.row = matcher.entered other.row :=
      entered_of_reset hjudged.reset_eq other.row
    rw [handsOut, handsOut, hlined.later_goOn hjudged hcourse (by grind), inRow_eq_entered,
      inRow_eq_entered, hentered]
    · intro current hcurrent
      exact Option.some.inj (hrow.symm.trans hcurrent) ▸ hlt
    · intro current hcurrent
      exact Option.some.inj (hnext.symm.trans hcurrent) ▸ hlt

/-- Of the cells that a look leaves out, none is handed out. -/
theorem Lined.handsOut_dropped (hlined : Lined name matcher (cell :: rest))
    (hrow : matcher.row = some cell.row) (hother : other ∈ rest) (hsame : other.row = cell.row)
    (hdropped : (matcher.judge cell).2.leaves cell (matcher.judge cell).1 other = false) :
    matcher.handsOut (cell :: rest) other = false := by
  have hcurrent := hlined.current cell.row hrow
  rw [Cell.inRow_cons_self] at hcurrent
  rw [handsOut, hsame, inRow_of_row hrow, Cell.inRow_cons_self]
  exact ((hlined.judged hrow).settles hcurrent hlined.plain).dropped other
    (Cell.mem_inRow.mpr ⟨hother, hsame⟩) hdropped

omit [CellFilter φ] in
theorem handsOut_of_not_contained (hrow : matcher.rows.contains cell.row = false) :
    matcher.handsOut ahead cell = false :=
  keeps_of_not_contained (by rw [rows_inRow, hrow])

omit [CellFilter φ] in
theorem filter_cons_emitted {kept : Cell → Bool} (hfirst : kept cell = decision.emits)
    (rest : List Cell) :
    (cell :: rest).filter kept = (decision.emitted cell).toList ++ rest.filter kept := by
  rw [List.filter_cons, hfirst, Decision.emitted]
  cases decision.emits <;> rfl

/-- Where a look ends the scan, nothing of the other cells is handed out. -/
theorem Lined.filter_error (hlined : Lined name matcher (cell :: rest))
    (hrow : matcher.row = some cell.row) {ending : PassEnd}
    (hcourse : (matcher.look cell rest).course = .error ending) :
    rest.filter (matcher.handsOut (cell :: rest)) = [] := by
  obtain ⟨hleaves, hpast⟩ := (hlined.judged hrow).goOn_error hlined.plain hrow hcourse
  rw [List.filter_eq_nil_iff]
  intro other hother
  rw [Bool.not_eq_true]
  rcases hlined.row_cases (List.mem_cons_of_mem _ hother) with hsame | hlt
  · exact hlined.handsOut_dropped hrow hother hsame (congrFun hleaves other)
  · exact handsOut_of_not_contained (hpast other.row hlt)

/-- Where a look goes on, what is handed out of the other cells is what is handed out then. -/
theorem Lined.filter_ok (hlined : Lined name matcher (cell :: rest))
    (hrow : matcher.row = some cell.row)
    (hcourse : (matcher.look cell rest).course = .ok ahead) :
    rest.filter (matcher.handsOut (cell :: rest)) =
      ahead.filter ((matcher.look cell rest).next.handsOut ahead) := by
  have hahead :=
    (hlined.judged hrow).goOn_eq_filter hlined.single hlined.stored hlined.named hcourse
  rw [List.filter_congr fun other hother => hlined.handsOut_ahead hrow hcourse hother, hahead,
    List.filter_filter]
  refine List.filter_congr fun other hother => ?_
  cases hleft : (matcher.judge cell).2.leaves cell (matcher.judge cell).1 other with
  | true => rw [Bool.or_true, Bool.and_true]
  | false =>
      rw [Bool.or_false]
      rcases hlined.row_cases (List.mem_cons_of_mem _ hother) with hsame | hlt
      · rw [hlined.handsOut_dropped hrow hother hsame hleft, Bool.false_and]
      · have hne : other.row ≠ cell.row := by grind
        rw [decide_eq_true hne, Bool.and_true]

/-- A scan hands out the cells of the list that are kept of their rows. -/
theorem Lined.output_eq_filter (hlined : Lined name matcher ahead) :
    matcher.output ahead = ahead.filter (matcher.handsOut ahead) := by
  -- entering the row of the first cell changes neither side
  have hentered (matcher : Matcher φ) (cell : Cell) (rest : List Cell)
      (hlined : Lined name matcher (cell :: rest)) :
      (cell :: rest).filter (matcher.handsOut (cell :: rest)) =
        (cell :: rest).filter ((matcher.inRow cell.row).handsOut (cell :: rest)) :=
    List.filter_congr fun other hother => (hlined.handsOut_inRow hother).symm
  induction matcher, ahead using output_induction with
  | nil matcher => rw [output_nil, List.filter_nil]
  | ends matcher cell rest ending hcourse =>
      have hrow := row_inRow matcher cell.row
      rw [output_cons_error hcourse, hentered matcher cell rest hlined]
      have hlined := hlined.inRow_first
      rw [filter_cons_emitted (hlined.handsOut_first hrow), hlined.filter_error hrow hcourse,
        List.append_nil]
      rfl
  | goOn matcher cell rest ahead hcourse ih =>
      have hrow := row_inRow matcher cell.row
      rw [output_cons_ok hcourse, hentered matcher cell rest hlined]
      have hlined := hlined.inRow_first
      rw [filter_cons_emitted (hlined.handsOut_first hrow), hlined.filter_ok hrow hcourse,
        ih (hlined.look hrow hcourse)]
      rfl

end Output

end Matcher

end MergeScan
