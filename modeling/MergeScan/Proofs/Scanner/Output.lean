import MergeScan.Proofs.Scanner.Runs

/-! # All that a scan hands out

Whatever the limits of the single reads are, they hand out one list piece by piece: what
a matcher hands out of all cells ahead when it is never interrupted. Each read takes its
page off the front of that list.
-/

namespace MergeScan

open CellOrder

namespace Matcher

variable {φ : Type} [CellFilter φ]

/-- All that a matcher hands out of a list. It enters the rows that it comes to. -/
def output (matcher : Matcher φ) : List Cell → List Cell
  | [] => []
  | cell :: rest =>
    let look := (matcher.inRow cell.row).look cell rest
    match _hcourse : look.course with
    | .error _ => look.emitted.toList
    | .ok ahead => look.emitted.toList ++ output look.next ahead
termination_by cells => cells.length
decreasing_by
  have hle := (goOn_suffix _hcourse).length_le
  simp only [List.length_cons]
  omega

variable {matcher other : Matcher φ} {cell : Cell} {rest ahead : List Cell} {family : Bytes}

@[simp] theorem output_nil (matcher : Matcher φ) : matcher.output [] = [] := by
  rw [output]

theorem output_cons_error {ending : PassEnd}
    (hcourse : ((matcher.inRow cell.row).look cell rest).course = .error ending) :
    matcher.output (cell :: rest) =
      ((matcher.inRow cell.row).look cell rest).emitted.toList := by
  rw [output]
  split
  next => rfl
  next heq =>
    rw [hcourse] at heq
    cases heq

theorem output_cons_ok
    (hcourse : ((matcher.inRow cell.row).look cell rest).course = .ok ahead) :
    matcher.output (cell :: rest) =
      ((matcher.inRow cell.row).look cell rest).emitted.toList ++
        ((matcher.inRow cell.row).look cell rest).next.output ahead := by
  rw [output]
  split
  next heq =>
    rw [hcourse] at heq
    cases heq
  next heq =>
    rw [hcourse] at heq
    cases heq
    rfl

/-- Induction over the cells that a matcher looks at on the way through a list. -/
@[elab_as_elim]
theorem output_induction {motive : Matcher φ → List Cell → Prop}
    (nil : ∀ matcher, motive matcher [])
    (ends : ∀ matcher cell rest ending,
      ((matcher.inRow cell.row).look cell rest).course = .error ending →
        motive matcher (cell :: rest))
    (goOn : ∀ matcher cell rest ahead,
      ((matcher.inRow cell.row).look cell rest).course = .ok ahead →
        motive ((matcher.inRow cell.row).look cell rest).next ahead → motive matcher (cell :: rest))
    (matcher : Matcher φ) (ahead : List Cell) : motive matcher ahead :=
  output.induct motive nil ends goOn matcher ahead

/-- What is handed out of a list depends on the matcher as it is in the first row of it. -/
theorem output_congr (hrow : ∀ first ∈ ahead.head?,
    matcher.inRow first.row = other.inRow first.row) :
    matcher.output ahead = other.output ahead := by
  cases ahead with
  | nil => rw [output_nil, output_nil]
  | cons first rest => rw [output, output, hrow first rfl]

theorem output_inRow (matcher : Matcher φ) (cell : Cell) (rest : List Cell) :
    (matcher.inRow cell.row).output (cell :: rest) = matcher.output (cell :: rest) := by
  apply output_congr
  rintro first ⟨⟩
  exact inRow_inRow matcher cell.row

omit [CellFilter φ] in
theorem inRow_of_row {row : Bytes} (hrow : matcher.row = some row) : matcher.inRow row = matcher :=
  if_pos hrow

section

variable (hrow : matcher.row = some cell.row)
include hrow

theorem output_here_error {ending : PassEnd}
    (hcourse : (matcher.look cell rest).course = .error ending) :
    matcher.output (cell :: rest) = (matcher.look cell rest).emitted.toList := by
  rw [← inRow_of_row hrow] at hcourse
  rw [output_cons_error hcourse, inRow_of_row hrow]

theorem output_here_ok (hcourse : (matcher.look cell rest).course = .ok ahead) :
    matcher.output (cell :: rest) = (matcher.look cell rest).emitted.toList ++
      (matcher.look cell rest).next.output ahead := by
  rw [← inRow_of_row hrow] at hcourse
  rw [output_cons_ok hcourse, inRow_of_row hrow]

end

/-- Of settled cells nothing is handed out. -/
theorem output_append {passed : List Cell} (hsettled : ∀ cell ∈ passed, Settled matcher cell)
    (hreal : ∀ cell ∈ passed, cell.IsReal) (rest : List Cell) :
    matcher.output (passed ++ rest) = matcher.output rest := by
  induction passed with
  | nil => rfl
  | cons cell passed ih =>
      obtain ⟨hcell, hpassed⟩ := List.forall_mem_cons.mp hsettled
      obtain ⟨hcellReal, hpassedReal⟩ := List.forall_mem_cons.mp hreal
      have hlook := hcell.look hcellReal (passed ++ rest)
      have hstays := inRow_of_row hcell.row
      rw [List.cons_append, output_cons_ok (by rw [hstays, hlook]), hstays, hlook]
      exact ih hpassed hpassedReal

/-! ## Where a pass ends a row -/

theorem judge_of_row {decision : Decision} (hrow : matcher.decideRow cell = some decision) :
    matcher.judge cell = (decision, matcher) := by
  simp only [judge, decide, hrow, Noted.value_pure]

/-- A cell of a later row ends the row that is being read, unless it is not part of the scan.
The latter is decided in the same way after the row was entered. -/
theorem Ready.judge_later_row (hready : Ready family matcher (cell :: rest))
    (hrow : matcher.row ≠ some cell.row) :
    matcher.judge cell = (.rowDone, matcher) ∨
      ∃ decision, (decision = .scanDone ∨ decision = .nextRow) ∧
        matcher.judge cell = (decision, matcher) ∧
        (matcher.inRow cell.row).judge cell = (decision, matcher.inRow cell.row) := by
  have hentered : matcher.inRow cell.row = matcher.entered cell.row := if_neg hrow
  have hfilter : (matcher.entered cell.row).filter = none := hready.plain.filter
  have hrows : (matcher.entered cell.row).rows = matcher.rows := rfl
  by_cases hends : matcher.rows.endsBefore cell.row = true
  · refine .inr ⟨.scanDone, .inl rfl, judge_of_row ?_, judge_of_row ?_⟩
    · simp [decideRow, hends]
    · rw [hentered]
      simp [decideRow, hrows, hends]
  · by_cases hstarts : matcher.rows.startsAfter cell.row = true
    · refine .inr ⟨.nextRow, .inr rfl, judge_of_row ?_, judge_of_row ?_⟩
      · simp [decideRow, isStopped, hready.plain.filter, hends, hstarts]
      · rw [hentered]
        simp [decideRow, isStopped, hfilter, hrows, hends, hstarts]
    · obtain ⟨row, hcurrent⟩ := Option.isSome_iff_exists.mp hready.entered
      have hle := hready.behind cell row List.mem_cons_self hcurrent
      have hlater : compare row cell.row = .lt := by
        rw [Std.compare_eq_lt]
        have hne : row ≠ cell.row := fun heq => hrow (heq ▸ hcurrent)
        exact Std.lt_of_le_of_ne hle hne
      refine .inl (judge_of_row ?_)
      simp [decideRow, isStopped, compareRow, hready.plain.filter, hready.plain.order, hends,
        hstarts, hcurrent, hlater]

omit [CellFilter φ] in
/-- Cells from the end of a row on are of later rows. -/
theorem lt_row_of_mem_nextRow (hsorted : keys.Sorted rest) (hstored : Cell.StoredIn family rest)
    {later : Cell} (hlater : later ∈ keys.skipTo (matcher.nextRowKey cell) rest) :
    cell.row < later.row :=
  ((mem_skipTo_lastOnRow hsorted fun other hother => (hstored other hother).1.1).mp hlater).2

/-- What comes of a look at a cell of a later row that does not end the row being read. -/
theorem Ready.look_later_row (hready : Ready family matcher (cell :: rest))
    (hrow : matcher.row ≠ some cell.row)
    (hcourse : (matcher.look cell rest).course ≠ .error .more) :
    matcher.look cell rest = ⟨none, matcher, (matcher.look cell rest).course⟩ ∧
      (matcher.inRow cell.row).look cell rest =
        ⟨none, matcher.inRow cell.row, (matcher.look cell rest).course⟩ ∧
      ∀ ahead, (matcher.look cell rest).course = .ok ahead →
        ahead = keys.skipTo (matcher.nextRowKey cell) rest := by
  have hextends : (matcher.inRow cell.row).extendsPast cell = matcher.extendsPast cell := by
    unfold Matcher.inRow
    split <;> rfl
  rcases hready.judge_later_row hrow with hdone | ⟨decision, rfl | rfl, hjudge, hentered⟩
  · rw [Matcher.look, hdone] at hcourse
    exact absurd rfl hcourse
  · simp only [Matcher.look, hjudge, hentered, goOn]
    exact ⟨rfl, rfl, by rintro _ ⟨⟩⟩
  · simp only [Matcher.look, hjudge, hentered, goOn, hextends]
    refine ⟨rfl, rfl, fun ahead hahead => ?_⟩
    split at hahead
    · exact (Except.ok.inj hahead).symm
    · cases hahead

/-- A look takes what it hands out off the front of all that is handed out. -/
theorem Ready.output_ok (hready : Ready family matcher (cell :: rest))
    (hcourse : (matcher.look cell rest).course = .ok ahead) :
    matcher.output (cell :: rest) = (matcher.look cell rest).emitted.toList ++
      (matcher.look cell rest).next.output ahead := by
  by_cases hrow : matcher.row = some cell.row
  · exact output_here_ok hrow hcourse
  · obtain ⟨hlook, hentered, hahead⟩ := hready.look_later_row hrow (by rw [hcourse]; nofun)
    rw [hcourse] at hlook hentered
    rw [output_cons_ok (by rw [hentered]), hentered, hlook]
    congr 1
    apply output_congr
    intro first hfirst
    have hmem : first ∈ keys.skipTo (matcher.nextRowKey cell) rest :=
      hahead ahead hcourse ▸ List.mem_of_head? hfirst
    have hlater := lt_row_of_mem_nextRow (List.pairwise_cons.mp hready.sorted).2
      (fun other hother => hready.stored other (List.mem_cons_of_mem _ hother)) hmem
    exact inRow_inRow_of_lt hlater fun current hcurrent =>
      hready.behind cell current List.mem_cons_self hcurrent

/-- Where a look ends the scan, nothing more is handed out. -/
theorem Ready.output_over (hready : Ready family matcher (cell :: rest))
    (hcourse : (matcher.look cell rest).course = .error .scanDone) :
    matcher.output (cell :: rest) = (matcher.look cell rest).emitted.toList := by
  by_cases hrow : matcher.row = some cell.row
  · exact output_here_error hrow hcourse
  · obtain ⟨hlook, hentered, -⟩ := hready.look_later_row hrow (by rw [hcourse]; nofun)
    rw [hcourse] at hlook hentered
    rw [output_cons_error (by rw [hentered]), hentered, hlook]

/-- A pass takes its cells off the front of all that is handed out. -/
theorem Ready.output_passOver {limit : Option Nat} (hready : Ready family matcher ahead) :
    matcher.output ahead =
      let passed := matcher.passOver limit ahead
      passed.cells ++
        if passed.ending = .scanDone then [] else passed.matcher.output passed.ahead := by
  have hleaves : Leaves
      (fun done next further => done ++ next.output further = matcher.output ahead)
      (fun done _ => done = matcher.output ahead) [] (matcher.passOver limit ahead) := by
    apply hready.passOver _ _ rfl
    · intro done next cell rest further hready hsame hcourse
      rw [List.append_assoc, ← hready.output_ok hcourse, hsame]
    · intro done next cell rest hready hsame hcourse
      rw [← hready.output_over hcourse, hsame]
  unfold Leaves at hleaves
  simp only
  split at hleaves
  next hdone =>
    rw [if_pos hdone, List.append_nil]
    exact hleaves.symm
  next hdone =>
    rw [if_neg hdone]
    exact hleaves.symm

/-- A pass that finds nothing more has looked at everything. -/
theorem passOver_exhausted {limit : Option Nat}
    (hending : (matcher.passOver limit ahead).ending = .exhausted) :
    (matcher.passOver limit ahead).ahead = [] := by
  induction matcher, ahead using look_induction generalizing limit with
  | nil matcher => rw [passOver_nil]
  | ends matcher cell rest ending hcourse =>
      rw [passOver_cons_error hcourse] at hending
      rcases goOn_error hcourse with ⟨rfl, -⟩ | rfl <;> cases hending
  | goOn matcher cell rest ahead hcourse ih =>
      rw [passOver_cons_ok hcourse] at hending ⊢
      simp only at hending ⊢
      split
      next hfull =>
        rw [if_pos hfull] at hending
        cases hending
      next hfull =>
        rw [if_neg hfull] at hending
        exact ih hending

end Matcher

namespace Reading

variable {φ : Type} [CellFilter φ] {family : Bytes} {reading : Reading φ} {limit : Option Nat}
variable {data : List Cell}

omit [CellFilter φ] in
/-- The cells that a reading will look at, in a list as it is now. -/
def ahead (data : List Cell) (reading : Reading φ) : List Cell :=
  match reading.spot with
  | .before ahead => ahead
  | .resuming key => keys.skipTo key data
  | .closed => []

/-- All that a reading still hands out. -/
def output (data : List Cell) (reading : Reading φ) : List Cell :=
  reading.matcher.output (reading.ahead data)

@[simp] theorem output_closed (data : List Cell) (matcher : Matcher φ) :
    output data ⟨matcher, .closed⟩ = [] :=
  Matcher.output_nil matcher

theorem output_readFrom {matcher : Matcher φ} {ahead : List Cell}
    (hprepared : matcher.Prepared family ahead) :
    matcher.output ahead =
      (readFrom matcher limit ahead).1.cells ++ (readFrom matcher limit ahead).2.output data := by
  cases ahead with
  | nil => rw [Matcher.output_nil, Reading.readFrom, output_closed, List.append_nil]
  | cons first rest =>
      have hready := hprepared.inRow_first
      have houtput := @Matcher.Ready.output_passOver _ _ _ _ _ limit hready
      rw [Matcher.output_inRow] at houtput
      rw [houtput]
      simp only [Reading.readFrom, Passed.outcome]
      by_cases hdone : ((matcher.inRow first.row).passOver limit (first :: rest)).ending = .scanDone
      · rw [if_pos hdone, if_pos (by simp [Passed.isOver, hdone]), output_closed]
      · rw [if_neg hdone]
        split
        next hover =>
          have hexhausted : ((matcher.inRow first.row).passOver limit (first :: rest)).ending =
              .exhausted := by
            simp only [Passed.isOver, hdone, decide_false, Bool.false_or, Bool.and_eq_true,
              decide_eq_true_eq] at hover
            exact hover.1
          rw [Matcher.passOver_exhausted hexhausted, Matcher.output_nil, output_closed]
        next => rfl

/-- A read takes its page off the front of all that is still handed out. -/
theorem Prepared.output_read (hprepared : Prepared family reading) (hsorted : keys.Sorted data)
    (hstored : Cell.StoredIn family data) :
    reading.output data =
      (reading.read data limit).1.cells ++ (reading.read data limit).2.output data := by
  unfold Reading.Prepared known at hprepared
  unfold output ahead Reading.read
  cases hspot : reading.spot with
  | before ahead =>
      rw [hspot] at hprepared
      exact output_readFrom hprepared
  | resuming key =>
      rw [hspot] at hprepared
      have hresume := Prepared.resume hprepared hsorted hstored
      have hsame : reading.matcher.output (keys.skipTo key data) =
          (reading.matcher.inRow ((keys.skipTo key data).head?.getD key).row).output
            (keys.skipTo key data) := by
        cases keys.skipTo key data with
        | nil => rw [Matcher.output_nil, Matcher.output_nil]
        | cons first rest => exact (Matcher.output_inRow _ _ _).symm
      simp only
      rw [hsame]
      exact output_readFrom hresume
  | closed => simp only [hspot, Matcher.output_nil, List.append_nil]

/-- A read that comes to the end closes the reading. -/
theorem spot_read_of_end (hmore : (reading.read data limit).1.more = false) :
    (reading.read data limit).2.spot = .closed := by
  have hfrom : ∀ (matcher : Matcher φ) ahead, (readFrom matcher limit ahead).1.more = false →
      (readFrom matcher limit ahead).2.spot = .closed := by
    intro matcher ahead hmore
    unfold readFrom at hmore ⊢
    split at hmore
    · rfl
    · unfold Passed.outcome at hmore ⊢
      split at hmore
      next hover => rw [if_pos hover]
      next => cases hmore
  unfold read at hmore ⊢
  split at hmore
  · exact hfrom _ _ hmore
  · exact hfrom _ _ hmore
  next hspot => exact hspot

end Reading

end MergeScan
