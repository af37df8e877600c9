import MergeScan.Proofs.Cell.Alike
import MergeScan.Proofs.Scanner.Output

/-! # Copies make no difference

Two lists that are alike lead a matcher through the same decisions: at each place it
looks at the same first cell, and passes over the further copies or leaves them behind.
So it hands out the same of both. Where one place has copies and both lists have them,
even a pass that is interrupted there is interrupted at the same point.
-/

namespace MergeScan

open CellOrder

namespace Matcher

variable {φ : Type} [CellFilter φ]

/-- Two lists ahead that make no difference to a matcher: they are alike, or so from a
place on that the matcher has settled. -/
inductive Abreast (counted : Prop) (matcher : Matcher φ) (left right : List Cell) : Prop
  | level : Alike matcher.rows counted left right → Abreast counted matcher left right
  | past (place : Cell) : place.IsReal → Settled matcher place →
      (∀ cell ∈ left, (Cell.compareKeys place cell).isLE = true) →
      (∀ cell ∈ right, (Cell.compareKeys place cell).isLE = true) →
      (counted → (keys.copies place left = [] ↔ keys.copies place right = [])) →
      Alike matcher.rows counted (beyond place left) (beyond place right) →
      Abreast counted matcher left right

variable {counted : Prop} {matcher : Matcher φ} {cell : Cell} {left right ahead : List Cell}
variable {family : Bytes} {limit : Option Nat}

/-- The place of a settled cell lies in the range of the scan. -/
theorem Settled.contains {place : Cell} (hsettled : Settled matcher place)
    (hplain : Plain matcher) (hreal : place.IsReal) : matcher.rows.contains place.row = true := by
  have hskips := hsettled.skips place hreal Std.ReflCmp.compare_self
  cases hrow : matcher.decideRow place with
  | none =>
      have hrange := ((decideRow_eq_none_iff hplain).mp hrow).1
      exact RowRange.contains_iff.mpr ⟨hrange.2, hrange.1⟩
  | some decision =>
      simp only [Matcher.decide, hrow, Noted.value_pure, Prod.mk.injEq, Except.ok.injEq,
        and_true] at hskips
      have := decideRow_mem hrow
      simp [hskips] at this

/-- The cells ahead of a matcher that has come to the range of the scan, or past it. -/
structure Arrived (family : Bytes) (matcher : Matcher φ) (ahead : List Cell) : Prop
    extends Prepared family matcher ahead where
  begun cell : cell ∈ ahead → matcher.rows.startsAfter cell.row = false

/-- Of the cells ahead, a matcher hands out values only. -/
structure Begun (family : Bytes) (matcher : Matcher φ) (ahead : List Cell) : Prop
    extends Arrived family matcher ahead where
  values : matcher.retainDeletes = false

omit [CellFilter φ] in
theorem Arrived.sublist (harrived : Arrived family matcher ahead) {further : List Cell}
    (hfurther : further.Sublist ahead) : Arrived family matcher further where
  toPrepared := harrived.toPrepared.sublist hfurther
  begun cell hcell := harrived.begun cell (hfurther.subset hcell)

omit [CellFilter φ] in
theorem Begun.sublist (hbegun : Begun family matcher ahead) {further : List Cell}
    (hfurther : further.Sublist ahead) : Begun family matcher further :=
  ⟨hbegun.toArrived.sublist hfurther, hbegun.values⟩

omit [CellFilter φ] in
theorem Prepared.le_first (hprepared : Prepared family matcher (cell :: left)) :
    ∀ later ∈ cell :: left, (Cell.compareKeys cell later).isLE = true := by
  intro later hlater
  rcases List.mem_cons.mp hlater with rfl | hmem
  · exact Std.ReflCmp.isLE_rfl
  · exact (List.pairwise_cons.mp hprepared.sorted).1 later hmem

omit [CellFilter φ] in
theorem Arrived.inRow_first (harrived : Arrived family matcher (cell :: left)) :
    Arrived family (matcher.inRow cell.row) (cell :: left) where
  toPrepared := harrived.toPrepared.inRow_first.toPrepared
  begun := by
    rw [rows_inRow]
    exact harrived.begun

omit [CellFilter φ] in
theorem Begun.inRow_first (hbegun : Begun family matcher (cell :: left)) :
    Begun family (matcher.inRow cell.row) (cell :: left) :=
  ⟨hbegun.toArrived.inRow_first, (retainDeletes_inRow matcher cell.row).trans hbegun.values⟩

theorem Arrived.look (harrived : Arrived family matcher (cell :: left))
    (hrow : matcher.row.isSome = true) (hcourse : (matcher.look cell left).course = .ok ahead) :
    Arrived family (matcher.look cell left).next ahead := by
  have hready : Ready family matcher (cell :: left) := ⟨harrived.toPrepared, hrow⟩
  have hrows : (matcher.look cell left).next.rows = matcher.rows :=
    rows_of_reset hready.judged.2.reset_eq
  refine ⟨(hready.look hcourse).toPrepared, fun other hother => ?_⟩
  rw [hrows]
  exact harrived.begun other (List.mem_cons_of_mem _ ((goOn_suffix hcourse).subset hother))

theorem Begun.look (hbegun : Begun family matcher (cell :: left)) (hrow : matcher.row.isSome = true)
    (hcourse : (matcher.look cell left).course = .ok ahead) :
    Begun family (matcher.look cell left).next ahead := by
  have hready : Ready family matcher (cell :: left) := ⟨hbegun.toPrepared, hrow⟩
  exact ⟨hbegun.toArrived.look hrow hcourse,
    (retainDeletes_of_reset hready.judged.2.reset_eq).trans hbegun.values⟩

/-- Alike lists that begin with the same cell are left abreast by a look at it. -/
theorem Ready.look_alike (hleft : Ready family matcher (cell :: left))
    (hright : Ready family matcher (cell :: right)) (hvalues : matcher.retainDeletes = false)
    (halike : Alike matcher.rows counted (cell :: left) (cell :: right))
    (hrow : matcher.rows.contains cell.row = true) :
    match (matcher.look cell left).course with
    | .error ending => (matcher.look cell right).course = .error ending
    | .ok ahead => ∃ other, (matcher.look cell right).course = .ok other ∧
        Abreast counted (matcher.look cell left).next ahead other := by
  have hjudged := hleft.judged.2
  have hrows := rows_of_reset hjudged.reset_eq
  simp only [Matcher.look]
  rcases hjudged.goOn_cases hleft.plain hleft.isReal with
    ⟨hstays, hgoOn⟩ | ⟨key, hlt, hgoOn⟩ | ⟨ending, hgoOn⟩
  -- both go on behind the cell, each with its own copies of it
  · rw [hgoOn left]
    refine ⟨right, hgoOn right, ?_⟩
    have hbeyond := halike.beyond cell
    rw [beyond_cons_self, beyond_cons_self] at hbeyond
    refine .past cell hleft.isReal (hleft.settled hvalues hstays)
      (List.pairwise_cons.mp hleft.sorted).1 (List.pairwise_cons.mp hright.sorted).1 ?_
      (hrows ▸ hbeyond)
    intro hcounted
    have hrepeated := halike.repeated cell hcounted hrow
    rwa [copies_cons_of_eq Std.ReflCmp.compare_self,
      copies_cons_of_eq Std.ReflCmp.compare_self] at hrepeated
  -- both go on from the same key on
  · rw [hgoOn left]
    refine ⟨_, hgoOn right, ?_⟩
    have hskipped := halike.skipTo hleft.sorted hright.sorted key
    rw [skipTo_cons_of_lt hlt, skipTo_cons_of_lt hlt] at hskipped
    exact .level (hrows ▸ hskipped)
  · rw [hgoOn left]
    exact hgoOn right

/-! ## Cells outside the range -/

omit [CellFilter φ] in
/-- Cells after one that lies past the range lie past it as well. -/
theorem Arrived.none_contained (harrived : Arrived family matcher (cell :: left))
    (hrow : matcher.rows.contains cell.row = false) :
    ∀ other ∈ cell :: left, matcher.rows.contains other.row = false := by
  have hends := RowRange.endsBefore_of_begun (harrived.begun cell List.mem_cons_self) hrow
  intro other hother
  have hle := Cell.row_le_of_isLE (harrived.le_first other hother)
  exact RowRange.contains_of_endsBefore (RowRange.endsBefore_mono hle hends)

/-- A look at a cell past the range ends the scan. -/
theorem Arrived.look_past (harrived : Arrived family matcher (cell :: left))
    (hrow : matcher.rows.contains cell.row = false) :
    matcher.look cell left = ⟨none, matcher, .error .scanDone⟩ := by
  have hends := RowRange.endsBefore_of_begun (harrived.begun cell List.mem_cons_self) hrow
  have hdecided : matcher.decideRow cell = some .scanDone := by
    simp [decideRow, hends]
  rw [Matcher.look, judge_of_row hdecided]
  rfl

/-- Of cells past the range nothing is handed out. -/
theorem Arrived.output_past (harrived : Arrived family matcher ahead)
    (hnone : ∀ cell ∈ ahead, matcher.rows.contains cell.row = false) :
    matcher.output ahead = [] := by
  cases ahead with
  | nil => exact output_nil matcher
  | cons cell rest =>
      have hlook := harrived.inRow_first.look_past
        (by rw [rows_inRow]; exact hnone cell List.mem_cons_self)
      rw [output_cons_error (by rw [hlook]), hlook]
      rfl

/-! ## Settled cells -/

/-- A list from a settled place on begins with settled cells. -/
theorem Begun.settled_copies (hbegun : Begun family matcher ahead) {place : Cell}
    (hplace : place.IsReal) (hsettled : Settled matcher place) :
    (∀ cell ∈ keys.copies place ahead, Settled matcher cell) ∧
      ∀ cell ∈ keys.copies place ahead, cell.IsReal := by
  have hreal : ∀ cell ∈ keys.copies place ahead, cell.IsReal :=
    fun cell hcell => (hbegun.stored cell (mem_copies.mp hcell).1).1
  exact ⟨fun cell hcell => hsettled.congr (hreal cell hcell) hplace (mem_copies.mp hcell).2, hreal⟩

/-- What is settled is handed out no more. -/
theorem Begun.output_beyond (hbegun : Begun family matcher ahead) {place : Cell}
    (hplace : place.IsReal) (hsettled : Settled matcher place)
    (hbehind : ∀ cell ∈ ahead, (Cell.compareKeys place cell).isLE = true) :
    matcher.output (beyond place ahead) = matcher.output ahead := by
  obtain ⟨hcopies, hreal⟩ := hbegun.settled_copies hplace hsettled
  rw [← output_append hcopies hreal, hbegun.sorted.copies_append_beyond hbehind]

/-- Settled cells are passed over. -/
theorem passOver_append {passed : List Cell} (hsettled : ∀ cell ∈ passed, Settled matcher cell)
    (hreal : ∀ cell ∈ passed, cell.IsReal) (rest : List Cell) :
    matcher.passOver limit (passed ++ rest) = matcher.passOver limit rest := by
  induction passed with
  | nil => rfl
  | cons cell passed ih =>
      obtain ⟨hcell, hpassed⟩ := List.forall_mem_cons.mp hsettled
      obtain ⟨hcellReal, hpassedReal⟩ := List.forall_mem_cons.mp hreal
      have hlook := hcell.look hcellReal (passed ++ rest)
      have hlimit : ReadState.remainingLimit limit none = limit := by
        cases limit <;> rfl
      rw [List.cons_append, passOver_cons_ok (by rw [hlook]), hlook]
      simp only [hlimit, Option.isSome_none, Bool.false_and, Bool.false_eq_true, if_false]
      exact ih hpassed hpassedReal

theorem Begun.passOver_beyond (hbegun : Begun family matcher ahead) {place : Cell}
    (hplace : place.IsReal) (hsettled : Settled matcher place)
    (hbehind : ∀ cell ∈ ahead, (Cell.compareKeys place cell).isLE = true) :
    matcher.passOver limit (beyond place ahead) = matcher.passOver limit ahead := by
  obtain ⟨hcopies, hreal⟩ := hbegun.settled_copies hplace hsettled
  rw [← passOver_append hcopies hreal, hbegun.sorted.copies_append_beyond hbehind]

/-- A part of the cells ahead that makes no difference to a matcher. -/
structure Suffices (matcher : Matcher φ) (ahead part : List Cell) : Prop where
  sublist : part.Sublist ahead
  output : matcher.output part = matcher.output ahead
  passOver limit : matcher.passOver limit part = matcher.passOver limit ahead

theorem suffices_self (matcher : Matcher φ) (ahead : List Cell) : Suffices matcher ahead ahead :=
  ⟨List.Sublist.refl ahead, rfl, fun _ => rfl⟩

theorem Begun.suffices_beyond (hbegun : Begun family matcher ahead) {place : Cell}
    (hplace : place.IsReal) (hsettled : Settled matcher place)
    (hbehind : ∀ cell ∈ ahead, (Cell.compareKeys place cell).isLE = true) :
    Suffices matcher ahead (beyond place ahead) :=
  ⟨List.filter_sublist, hbegun.output_beyond hplace hsettled hbehind,
    fun _ => hbegun.passOver_beyond hplace hsettled hbehind⟩

/-- Where one side has copies of a settled cell left, both go on behind its place. -/
theorem Abreast.exists_alike (habreast : Abreast counted matcher left right)
    (hleft : Begun family matcher left) (hright : Begun family matcher right) :
    ∃ first second, Suffices matcher left first ∧ Suffices matcher right second ∧
      Alike matcher.rows counted first second := by
  cases habreast with
  | level halike => exact ⟨left, right, suffices_self _ _, suffices_self _ _, halike⟩
  | past place hplace hsettled hbehind hbehind' hcopies halike =>
      exact ⟨_, _, hleft.suffices_beyond hplace hsettled hbehind,
        hright.suffices_beyond hplace hsettled hbehind', halike⟩

/-! ## Alike lists -/

omit [CellFilter φ] in
/-- Of alike lists, both have cells of the range ahead, and then the same one first, or neither
has. -/
theorem Begun.alike_cases (hleft : Begun family matcher left) (hright : Begun family matcher right)
    (halike : Alike matcher.rows counted left right) :
    ((∀ cell ∈ left, matcher.rows.contains cell.row = false) ∧
        ∀ cell ∈ right, matcher.rows.contains cell.row = false) ∨
      ∃ cell rest others, left = cell :: rest ∧ right = cell :: others ∧
        matcher.rows.contains cell.row = true := by
  cases left with
  | nil => exact .inl ⟨nofun, halike.none_contained nofun⟩
  | cons cell rest =>
      cases hrow : matcher.rows.contains cell.row with
      | false =>
          have hnone := hleft.none_contained hrow
          exact .inl ⟨hnone, halike.none_contained hnone⟩
      | true =>
          obtain ⟨others, rfl⟩ := halike.head hleft.sorted hright.sorted hright.begun hrow
          exact .inr ⟨cell, rest, others, rfl, rfl, hrow⟩

/-- A look at the first cell of alike lists leaves parts of them that are alike, and of which the
same is handed out as of what is left. -/
theorem Begun.look_alike {others : List Cell} (hleft : Begun family matcher (cell :: left))
    (hright : Begun family matcher (cell :: others)) (hentered : matcher.row.isSome = true)
    (halike : Alike matcher.rows counted (cell :: left) (cell :: others))
    (hrow : matcher.rows.contains cell.row = true)
    (hcourse : (matcher.look cell left).course = .ok ahead) :
    ∃ other, (matcher.look cell others).course = .ok other ∧
      Abreast counted (matcher.look cell left).next ahead other ∧
      ∃ first second, Suffices (matcher.look cell left).next ahead first ∧
        Suffices (matcher.look cell left).next other second ∧ first.length ≤ left.length ∧
        Begun family (matcher.look cell left).next first ∧
        Begun family (matcher.look cell left).next second ∧
        Alike (matcher.look cell left).next.rows counted first second := by
  have hready : Ready family matcher (cell :: left) := ⟨hleft.toPrepared, hentered⟩
  have hlook := hready.look_alike ⟨hright.toPrepared, hentered⟩ hleft.values halike hrow
  rw [hcourse] at hlook
  obtain ⟨other, hother, habreast⟩ := hlook
  have hnext := hleft.look hentered hcourse
  have hnext' : Begun family (matcher.look cell left).next other := hright.look hentered hother
  obtain ⟨first, second, hfirst, hsecond, halike⟩ := habreast.exists_alike hnext hnext'
  exact ⟨other, hother, habreast, first, second, hfirst, hsecond,
    Nat.le_trans hfirst.sublist.length_le (goOn_suffix hcourse).length_le,
    hnext.sublist hfirst.sublist, hnext'.sublist hsecond.sublist, halike⟩

/-- The same is handed out of lists that are alike. -/
theorem Begun.output_alike (hleft : Begun family matcher left) (hright : Begun family matcher right)
    (halike : Alike matcher.rows counted left right) :
    matcher.output left = matcher.output right := by
  induction hlength : left.length using Nat.strongRecOn generalizing matcher left right with
  | ind length ih =>
      rcases hleft.alike_cases hright halike with
        ⟨hnone, hnone'⟩ | ⟨cell, rest, others, rfl, rfl, hrow⟩
      · rw [hleft.output_past hnone, hright.output_past hnone']
      have hentered := isSome_row_inRow matcher cell.row
      rw [← rows_inRow matcher cell.row] at halike hrow
      cases hcourse : ((matcher.inRow cell.row).look cell rest).course with
      | error ending =>
          have hlook := hleft.toPrepared.inRow_first.look_alike hright.toPrepared.inRow_first
            hleft.inRow_first.values halike hrow
          rw [hcourse] at hlook
          rw [output_cons_error hcourse, output_cons_error hlook]
          rfl
      | ok ahead =>
          obtain ⟨other, hother, -, first, second, hfirst, hsecond, hle, hnext, hnext', halike⟩ :=
            hleft.inRow_first.look_alike hright.inRow_first hentered halike hrow hcourse
          rw [output_cons_ok hcourse, output_cons_ok hother]
          refine congrArg _ (hfirst.output.symm.trans (.trans ?_ hsecond.output))
          exact ih _ (hlength ▸ Nat.lt_succ_of_le hle) hnext hnext' halike rfl

/-! ## Where a pass is interrupted -/

/-- Passes that hand out the same cells, and end abreast or have found the end. -/
def PassAbreast (counted : Prop) (first second : Passed φ) : Prop :=
  second.cells = first.cells ∧
    (first.ending = .more ∧ second.ending = .more ∧ second.matcher = first.matcher ∧
        Abreast counted first.matcher first.ahead second.ahead ∨
      first.ending ≠ .more ∧ second.ending ≠ .more)

theorem PassAbreast.prepend {first second : Passed φ} (habreast : PassAbreast counted first second)
    (cells : List Cell) : PassAbreast counted (first.prepend cells) (second.prepend cells) :=
  ⟨congrArg (cells ++ ·) habreast.1, habreast.2⟩

theorem Arrived.passOver_past (harrived : Arrived family matcher ahead) (limit : Option Nat)
    (hnone : ∀ cell ∈ ahead, matcher.rows.contains cell.row = false) :
    (matcher.passOver limit ahead).cells = [] ∧ (matcher.passOver limit ahead).ending ≠ .more := by
  cases ahead with
  | nil => simp
  | cons cell rest =>
      have hlook := harrived.look_past (hnone cell List.mem_cons_self)
      rw [passOver_cons_error (by rw [hlook]), hlook]
      exact ⟨rfl, nofun⟩

/-- Passes over alike lists are abreast. -/
theorem Begun.passOver_alike (hleft : Begun family matcher left)
    (hright : Begun family matcher right) (hentered : matcher.row.isSome = true)
    (halike : Alike matcher.rows counted left right) :
    PassAbreast counted (matcher.passOver limit left) (matcher.passOver limit right) := by
  induction hlength : left.length using Nat.strongRecOn
    generalizing matcher left right limit with
  | ind length ih =>
      rcases hleft.alike_cases hright halike with
        ⟨hnone, hnone'⟩ | ⟨cell, rest, others, rfl, rfl, hrow⟩
      · obtain ⟨hcells, hending⟩ := hleft.toArrived.passOver_past limit hnone
        obtain ⟨hcells', hending'⟩ := hright.toArrived.passOver_past limit hnone'
        exact ⟨hcells'.trans hcells.symm, .inr ⟨hending, hending'⟩⟩
      have hready : Ready family matcher (cell :: rest) := ⟨hleft.toPrepared, hentered⟩
      cases hcourse : (matcher.look cell rest).course with
      | error ending =>
          have hlook := hready.look_alike ⟨hright.toPrepared, hentered⟩ hleft.values halike hrow
          rw [hcourse] at hlook
          rw [passOver_cons_error hcourse, passOver_cons_error hlook]
          refine ⟨rfl, ?_⟩
          rcases goOn_error hcourse with ⟨rfl, -⟩ | rfl
          · refine .inl ⟨rfl, rfl, rfl, ?_⟩
            simp only [(hready.look_more hcourse).2]
            exact .level halike
          · exact .inr ⟨nofun, nofun⟩
      | ok ahead =>
          obtain ⟨other, hother, habreast, first, second, hfirst, hsecond, hle, hnext, hnext',
            halike⟩ := hleft.look_alike hright hentered halike hrow hcourse
          have hrowNext : (matcher.look cell rest).next.row.isSome = true :=
            (congrArg _ (row_of_reset hready.judged.2.reset_eq)).trans hentered
          -- a look hands out the same whatever comes after the cell
          have hemitted :
              (matcher.look cell others).emitted = (matcher.look cell rest).emitted := rfl
          have hsame : (matcher.look cell others).next = (matcher.look cell rest).next := rfl
          rw [passOver_cons_ok hcourse, passOver_cons_ok hother]
          simp only [hemitted, hsame]
          split
          · exact ⟨rfl, .inl ⟨rfl, rfl, rfl, habreast⟩⟩
          · refine PassAbreast.prepend ?_ _
            rw [← hfirst.passOver, ← hsecond.passOver]
            exact ih _ (hlength ▸ Nat.lt_succ_of_le hle) hnext hnext' hrowNext halike rfl

end Matcher

end MergeScan
