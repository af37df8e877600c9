import MergeScan.Proofs.Matcher.Sifted
import MergeScan.Proofs.Scanner.Reading

/-! # What a scan with a filter hands out

A scan of a list, with or without a filter, hands out one list of cells, whatever the pieces
are that it is read in. Each pass hands out a piece of it and leaves the rest. Where a pass
stops at a limit and where it stops for the next row, the matcher is the same once the next
row is entered: a row that is being read is not entered again, and of a cell of another row
nothing is looked at before its row is entered, but for whether the scan is over.
-/

namespace MergeScan

open CellOrder

namespace Matcher

variable {φ : Type} [CellFilter φ]

/-- The matcher in a row. Unless it is there already, it enters the row and tells the filter. -/
def atRow (matcher : Matcher φ) (row : Bytes) : Matcher φ :=
  if matcher.row = some row then matcher else (matcher.enterRow row).value

/-- Look at the first cell of a list, with a filter that may reshape the cell or lead on to
another one. -/
def inspect (matcher : Matcher φ) (cell : Cell) (rest : List Cell) : Look φ :=
  let decision := (matcher.judge cell).1
  let next := (matcher.judge cell).2
  ⟨decision.emitted (next.reshape cell).value, next,
    match decision with
    | .seekTo key => .ok (if (Cell.compareKeys key cell).isGT then keys.skipTo key rest else rest)
    | decision => next.goOn cell rest decision⟩

theorem inspect_suffix {matcher : Matcher φ} {cell : Cell} {rest ahead : List Cell}
    (hcourse : (matcher.inspect cell rest).course = .ok ahead) : ahead <:+ rest := by
  simp only [inspect] at hcourse
  split at hcourse
  · cases hcourse
    split
    · exact List.dropWhile_suffix _
    · exact List.suffix_refl _
  · exact goOn_suffix hcourse

/-- All that a scan of a list hands out. -/
def gather (matcher : Matcher φ) : List Cell → List Cell
  | [] => []
  | cell :: rest =>
    let look := (matcher.atRow cell.row).inspect cell rest
    match _hcourse : look.course with
    | .error _ => look.emitted.toList
    | .ok ahead => look.emitted.toList ++ look.next.gather ahead
termination_by cells => cells.length
decreasing_by
  have hle := (inspect_suffix _hcourse).length_le
  simp only [List.length_cons]
  omega

/-- Induction over the cells that a scan of a list looks at. -/
@[elab_as_elim]
theorem gather_induction {motive : Matcher φ → List Cell → Prop}
    (nil : ∀ matcher, motive matcher [])
    (ends : ∀ matcher cell rest ending,
      ((matcher.atRow cell.row).inspect cell rest).course = .error ending →
        motive matcher (cell :: rest))
    (goOn : ∀ matcher cell rest ahead,
      ((matcher.atRow cell.row).inspect cell rest).course = .ok ahead →
        motive ((matcher.atRow cell.row).inspect cell rest).next ahead →
          motive matcher (cell :: rest))
    (matcher : Matcher φ) (ahead : List Cell) : motive matcher ahead :=
  gather.induct motive nil ends goOn matcher ahead

variable {matcher : Matcher φ} {cell : Cell} {rest ahead : List Cell}

@[simp] theorem gather_nil (matcher : Matcher φ) : matcher.gather [] = [] := by
  rw [gather]

section

variable {entered : Matcher φ} (hentered : matcher.atRow cell.row = entered)
include hentered

theorem gather_cons_error {ending : PassEnd}
    (hcourse : (entered.inspect cell rest).course = .error ending) :
    matcher.gather (cell :: rest) = (entered.inspect cell rest).emitted.toList := by
  subst hentered
  rw [gather]
  split
  next => rfl
  next heq =>
    rw [hcourse] at heq
    cases heq

theorem gather_cons_ok (hcourse : (entered.inspect cell rest).course = .ok ahead) :
    matcher.gather (cell :: rest) = (entered.inspect cell rest).emitted.toList ++
      (entered.inspect cell rest).next.gather ahead := by
  subst hentered
  rw [gather]
  split
  next heq =>
    rw [hcourse] at heq
    cases heq
  next heq =>
    rw [hcourse] at heq
    cases heq
    rfl

end

theorem row_atRow (matcher : Matcher φ) (row : Bytes) : (matcher.atRow row).row = some row := by
  unfold atRow
  split
  next hsame => exact hsame
  next =>
    unfold enterRow
    split <;> rfl

theorem atRow_atRow (matcher : Matcher φ) (row : Bytes) :
    (matcher.atRow row).atRow row = matcher.atRow row :=
  if_pos (row_atRow matcher row)

/-- What a scan hands out of a list that begins in some row does not depend on whether the row
was entered. -/
theorem gather_atRow (matcher : Matcher φ) (cell : Cell) (rest : List Cell) :
    (matcher.atRow cell.row).gather (cell :: rest) = matcher.gather (cell :: rest) := by
  have hagain := atRow_atRow matcher cell.row
  cases hcourse : ((matcher.atRow cell.row).inspect cell rest).course with
  | error ending => rw [gather_cons_error rfl hcourse, gather_cons_error hagain hcourse]
  | ok ahead => rw [gather_cons_ok rfl hcourse, gather_cons_ok hagain hcourse]

/-- A matcher, perhaps with a steady filter, and the cells that are ahead of it, which the rows of
the scan have reached. -/
structure Primed (family : Bytes) (matcher : Matcher φ) (ahead : List Cell) : Prop where
  prepared : Prepared family matcher.bare ahead
  started cell : cell ∈ ahead → matcher.rows.startsAfter cell.row = false
  steady : ∀ state ∈ matcher.filter, CellFilter.Steady state

variable {family : Bytes}

/-- To enter a row changes the state of the filter, and whether the row is passed over. -/
theorem atRow_bare (matcher : Matcher φ) (row : Bytes) :
    ∃ rowOver, (matcher.atRow row).bare = { matcher.bare.inRow row with rowOver } := by
  unfold atRow inRow
  have hrow : matcher.bare.row = matcher.row := rfl
  rw [hrow]
  split
  next => exact ⟨_, rfl⟩
  next =>
    unfold enterRow
    split
    next hnone => exact ⟨_, rfl⟩
    next => exact ⟨_, rfl⟩

theorem atRow_comesTo (matcher : Matcher φ) (row : Bytes) :
    CellFilter.ComesTo matcher.filter (matcher.atRow row).filter := by
  unfold atRow
  split
  next => exact .refl _
  next =>
    unfold enterRow
    split
    next => exact .refl matcher.filter
    next filter hfilter =>
      rw [hfilter]
      exact CellFilter.Reaches.start.reset.judgeRow row

theorem rows_atRow (matcher : Matcher φ) (row : Bytes) :
    (matcher.atRow row).rows = matcher.rows := by
  unfold atRow
  split
  next => rfl
  next =>
    unfold enterRow
    split <;> rfl

/-- To enter the row of the first cell is to get ready, whatever the filter does about it. -/
theorem Prepared.atRow_first (hprepared : Prepared family matcher.bare (cell :: rest)) :
    Ready family (matcher.atRow cell.row).bare (cell :: rest) := by
  obtain ⟨rowOver, hbare⟩ := atRow_bare matcher cell.row
  have hready := hprepared.inRow_first
  rw [hbare]
  refine ⟨⟨⟨hready.plain.filter, hready.plain.order, hready.plain.columns⟩, hready.sorted,
    hready.stored, hready.behind, fun other hother hrow => ?_⟩, hready.entered⟩
  have hfits := hready.fits other hother hrow
  exact ⟨hfits.column, hfits.marker⟩

theorem Primed.atRow (hprimed : Primed family matcher (cell :: rest)) :
    Primed family (matcher.atRow cell.row) (cell :: rest) := by
  refine ⟨hprimed.prepared.atRow_first.toPrepared, ?_,
    (atRow_comesTo matcher cell.row).steady hprimed.steady⟩
  rw [rows_atRow]
  exact hprimed.started

/-- A matcher that would be ready without its filter decides on the next cell, on one of the
grounds. -/
theorem Ready.sifted (hready : Ready family matcher.bare (cell :: rest)) :
    (matcher.decide cell).value = (.ok (matcher.judge cell).1, (matcher.judge cell).2) ∧
      Sifted matcher cell (matcher.judge cell).1 (matcher.judge cell).2 := by
  obtain ⟨decision, next, hdecide, hsifted⟩ := @exists_sifted _ _ matcher cell fun hrow =>
    have hfits := hready.fits cell List.mem_cons_self
      (row_eq_of_decideRow hready.plain hrow hready.entered)
    ⟨hfits.column, hfits.marker⟩
  have hjudge : matcher.judge cell = (decision, next) := by rw [judge, hdecide]
  rw [hjudge]
  exact ⟨hdecide, hsifted⟩

/-- A decision leaves a matcher that would be ready without its filter for what comes after. -/
theorem Ready.onwards_judge (hready : Ready family matcher.bare (cell :: rest))
    (hahead : ahead <:+ rest) : Ready family (matcher.judge cell).2.bare ahead := by
  obtain ⟨-, hsifted⟩ := hready.sifted
  have hreset := hsifted.reset_eq
  have hrow := row_of_reset hreset
  have hplain : (matcher.judge cell).2.bare.Plain :=
    ⟨rfl, (order_of_reset hreset).trans hready.plain.order,
      hsifted.columns_ascending hready.plain.columns⟩
  refine ⟨hready.onwards hplain hrow (fun hsame => ?_) (fun hother => ?_) hahead,
    (congrArg _ hrow).trans hready.entered⟩
  · have hfits := hready.fits cell List.mem_cons_self hsame
    have hnext := hsifted.fits ⟨hfits.column, hfits.marker⟩
    exact ⟨hnext.column, hnext.marker⟩
  · exact hsifted.bare_eq hready.plain hready.entered hother

theorem Primed.ready (hprimed : Primed family matcher (cell :: rest))
    (hrow : matcher.row = some cell.row) : Ready family matcher.bare (cell :: rest) where
  toPrepared := hprimed.prepared
  entered := (congrArg Option.isSome hrow :)

theorem Primed.inspect (hprimed : Primed family matcher (cell :: rest))
    (hrow : matcher.row = some cell.row)
    (hcourse : (matcher.inspect cell rest).course = .ok ahead) :
    Primed family (matcher.inspect cell rest).next ahead ∧
      (matcher.inspect cell rest).next.row = some cell.row ∧
      CellFilter.ComesTo matcher.filter (matcher.inspect cell rest).next.filter := by
  have hready := hprimed.ready hrow
  obtain ⟨-, hsifted⟩ := hready.sifted
  have hreset := hsifted.reset_eq
  have hnextRow : (matcher.judge cell).2.row = matcher.row := (row_of_reset hreset :)
  have hrows : (matcher.judge cell).2.rows = matcher.rows := (rows_of_reset hreset :)
  have hsuffix := inspect_suffix hcourse
  refine ⟨⟨(hready.onwards_judge hsuffix).toPrepared, ?_, ?_⟩, hnextRow.trans hrow,
    hsifted.comesTo⟩
  · intro other hother
    have hstarted := hprimed.started other (List.mem_cons_of_mem _ (hsuffix.subset hother))
    exact hrows.symm ▸ hstarted
  · exact hsifted.comesTo.steady hprimed.steady

/-- A cell of the row that is being read ends a pass only if it ends the scan. -/
theorem Ready.inspect_error (hready : Ready family matcher.bare (cell :: rest))
    (hrow : matcher.row = some cell.row) {ending : PassEnd}
    (hcourse : (matcher.inspect cell rest).course = .error ending) : ending = .scanDone := by
  have hdecision := hready.sifted.2.ne_rowDone hrow hready.plain.order
  simp only [Matcher.inspect] at hcourse
  split at hcourse
  · cases hcourse
  · rcases goOn_error hcourse with ⟨-, hdone⟩ | hover
    · exact absurd hdone hdecision
    · exact hover

theorem shapes_reshape (matcher : Matcher φ) (cell : Cell) :
    CellFilter.Shapes matcher.filter cell (matcher.reshape cell).value := by
  unfold reshape
  cases matcher.filter with
  | none => rfl
  | some filter => exact ⟨filter, .start, rfl⟩

/-- A cell that is decided on as without the filter, and not reshaped, is handed out as without
it. -/
theorem Ready.inspect_same (hready : Ready family matcher.bare (cell :: rest)) {filter : Option φ}
    (hjudge : matcher.judge cell =
      ((matcher.bare.judge cell).1, (matcher.bare.judge cell).2.withFilter filter))
    (hshapes : ∀ shaped, CellFilter.Shapes filter cell shaped → shaped = cell) :
    matcher.inspect cell rest =
      ⟨(matcher.bare.judge cell).1.emitted cell, (matcher.bare.judge cell).2.withFilter filter,
        (matcher.bare.look cell rest).course⟩ := by
  have hshaped :=
    hshapes _ (shapes_reshape ((matcher.bare.judge cell).2.withFilter filter) cell)
  have hseeks := hready.judged.2.ne_seekTo
  rw [Matcher.inspect, hjudge, hshaped]
  simp only [Matcher.look]
  generalize (matcher.bare.judge cell).1 = decision at hseeks
  cases decision with
  | seekTo key => exact absurd rfl (hseeks key)
  | _ => rfl

/-- Nothing is handed out but the cell, as it is or as the filter makes it. -/
theorem Primed.shapes (hprimed : Primed family matcher (cell :: rest))
    (hrow : matcher.row = some cell.row) {shaped : Cell}
    (hshaped : shaped ∈ (matcher.inspect cell rest).emitted) :
    CellFilter.Shapes matcher.filter cell shaped := by
  have hcomes := (hprimed.ready hrow).sifted.2.comesTo
  have hshaped : ((matcher.judge cell).1.emitted ((matcher.judge cell).2.reshape cell).value) =
    some shaped := hshaped
  unfold Decision.emitted at hshaped
  split at hshaped
  next =>
    cases hshaped
    exact hcomes.shapes (shapes_reshape _ cell)
  next => cases hshaped

/-- A steady filter that has ended the scan has still ended it in a later state. -/
theorem isStopped_of_comesTo {next : Matcher φ}
    (hsteady : ∀ state ∈ matcher.filter, CellFilter.Steady state)
    (hcomes : CellFilter.ComesTo matcher.filter next.filter)
    (hstopped : matcher.isStopped = true) : next.isStopped = true := by
  unfold isStopped at hstopped ⊢
  cases hfilter : matcher.filter with
  | none =>
      rw [hfilter] at hstopped
      cases hstopped
  | some filter =>
      rw [hfilter] at hstopped hcomes
      cases hnext : next.filter with
      | none =>
          rw [hnext] at hcomes
          cases hcomes
      | some later =>
          rw [hnext] at hcomes
          exact (hsteady filter hfilter).stopped filter later .start hcomes hstopped

/-- A cell of another row than the one that is being read shows that the row is complete, or that
the scan is over. -/
theorem Primed.decideRow_past (hprimed : Primed family matcher (cell :: rest)) {row : Bytes}
    (hrow : matcher.row = some row) (hpast : row ≠ cell.row) :
    matcher.decideRow cell = some .rowDone ∨
      matcher.decideRow cell = some .scanDone ∧ matcher.gather (cell :: rest) = [] := by
  have hle : row ≤ cell.row := hprimed.prepared.behind cell row List.mem_cons_self hrow
  have hlt : matcher.compareRow cell = .lt := by
    have horder : matcher.order = keys := hprimed.prepared.plain.order
    rw [compareRow, hrow, horder]
    exact Std.compare_eq_lt.mpr (Std.lt_of_le_of_ne hle hpast)
  unfold decideRow
  rw [hlt, hprimed.started cell List.mem_cons_self]
  split
  next hover =>
    -- entering the row does not change that the scan is over
    have hover : ((matcher.atRow cell.row).isStopped ||
        (matcher.atRow cell.row).rows.endsBefore cell.row) = true := by
      rw [Bool.or_eq_true] at hover ⊢
      refine hover.imp ?_ fun hends => ?_
      · exact isStopped_of_comesTo hprimed.steady (atRow_comesTo matcher cell.row)
      · rw [rows_atRow]
        exact hends
    have hdone : ((matcher.atRow cell.row).decide cell).value =
        (.ok .scanDone, matcher.atRow cell.row) := by
      rw [Matcher.decide, decideRow, if_pos hover]
      rfl
    have hjudge : (matcher.atRow cell.row).judge cell = (.scanDone, matcher.atRow cell.row) := by
      rw [judge, hdone]
    have hinspect : (matcher.atRow cell.row).inspect cell rest =
        ⟨none, matcher.atRow cell.row, .error .scanDone⟩ := by
      rw [Matcher.inspect, hjudge]
      rfl
    refine .inr ⟨rfl, ?_⟩
    rw [gather_cons_error rfl (congrArg Look.course hinspect), hinspect]
    rfl
  next => exact .inl rfl

end Matcher

namespace ReadState

variable {σ φ : Type} [Source σ] [LawfulSource σ keys] [CellFilter φ] {sure : Prop}
variable {state next : ReadState σ φ} {matcher : Matcher φ} {cell : Cell}
variable {rest ahead later cells : List Cell} {family : Bytes} {ending : PassEnd}

/-- The program does with the cell on top what is found by inspecting the list. -/
theorem Holds.follow_inspect (hready : matcher.bare.Ready family (cell :: rest))
    (hholds : Holds sure state (matcher.judge cell).2 (cell :: rest)) :
    Goes sure state (matcher.inspect cell rest)
      (state.follow cell (matcher.judge cell).1).value := by
  have hcolumn (hleaves : (matcher.judge cell).1 = .nextColumn ∨
      (matcher.judge cell).1 = .emitThenNextColumn) :=
    Matcher.lt_nextColumnKey hready.isReal.1 fun _ =>
      hready.sifted.2.lt_next hready.plain.columns hleaves
  simp only [Matcher.inspect]
  split
  next key hdecision =>
    have horder : state.merge.order = keys := hholds.sound.sameOrder
    simp only [hdecision, ReadState.follow, horder, Cell.compare_keys]
    split
    next hahead =>
      apply hholds.moveTo
      rw [Std.OrientedCmp.gt_iff_lt.symm, Ordering.isGT_iff_eq_gt.mp hahead]
    next => exact hholds.leaveCell
  next hseeks => exact hholds.follow hready.isReal hcolumn hseeks

theorem Holds.turn_inspect (hready : matcher.bare.Ready family (cell :: rest))
    (hholds : Holds sure state matcher (cell :: rest))
    {previous : Option Cell}
    (hprevious : ∀ last, previous = some last → (Cell.compareKeys last cell).isLE = true) :
    Goes sure { state with matcher := (matcher.judge cell).2 } (matcher.inspect cell rest)
      (state.turn previous cell).value := by
  rw [hholds.turn_eq hprevious hready.sifted.1]
  have hnext : Holds sure { state with matcher := (matcher.judge cell).2 } (matcher.judge cell).2
      (cell :: rest) := ⟨rfl, hholds.sound, hholds.stream, hholds.reliable⟩
  exact hnext.follow_inspect hready

/-- At a cell of another row a pass ends, and nothing has changed. -/
theorem Holds.turn_past (hprimed : state.matcher.Primed family (cell :: rest)) {row : Bytes}
    (hrow : state.matcher.row = some row) (hpast : row ≠ cell.row)
    (hholds : Holds sure state state.matcher (cell :: rest)) {previous : Option Cell}
    (hprevious : ∀ last, previous = some last → (Cell.compareKeys last cell).isLE = true) :
    ∃ ending, (state.turn previous cell).value = (.ok (.stop none ending), state) ∧
      (ending = .more ∨ ending = .scanDone ∧ state.matcher.gather (cell :: rest) = []) := by
  have hdecide {decision : Decision} (hdecided : state.matcher.decideRow cell = some decision) :
      (state.turn previous cell).value = (state.follow cell decision).value := by
    apply hholds.turn_eq hprevious
    rw [Matcher.decide, hdecided]
    rfl
  rcases hprimed.decideRow_past hrow hpast with hdone | ⟨hover, hgather⟩
  · exact ⟨.more, hdecide hdone, .inl rfl⟩
  · exact ⟨.scanDone, hdecide hover, .inr ⟨rfl, hgather⟩⟩

/-- A state that goes on with what a pass has left of a list. -/
structure Left (sure : Prop) (family : Bytes) (ahead : List Cell) (next : ReadState σ φ)
    (later : List Cell) : Prop where
  holds : Holds sure next next.matcher later
  primed : next.matcher.Primed family later
  suffix : later <:+ ahead

/-- What a pass over a list hands out of what a scan of the list does, and what it leaves. -/
structure Handed (sure : Prop) (family : Bytes) (matcher : Matcher φ) (ahead cells : List Cell)
    (ending : PassEnd) (next : ReadState σ φ) (later : List Cell) : Prop where
  gathered : matcher.gather ahead =
    cells ++ if ending = .scanDone then [] else next.matcher.gather later
  comesTo : CellFilter.ComesTo matcher.filter next.matcher.filter
  left : ending ≠ .scanDone → Left sure family ahead next later
  exhausted : ending = .exhausted → later = []
  ofRow shaped : shaped ∈ cells →
    ∃ cell ∈ ahead, matcher.row = some cell.row ∧ CellFilter.Shapes matcher.filter cell shaped

omit [Source σ] [LawfulSource σ keys] in
theorem emitted_ofRow (hprimed : matcher.Primed family (cell :: rest))
    (hrow : matcher.row = some cell.row) {shaped : Cell}
    (hshaped : shaped ∈ (matcher.inspect cell rest).emitted.toList) :
    ∃ other ∈ cell :: rest, matcher.row = some other.row ∧
      CellFilter.Shapes matcher.filter other shaped :=
  ⟨cell, List.mem_cons_self, hrow, hprimed.shapes hrow (Option.mem_toList.mp hshaped)⟩

/-- A pass that hands out nothing leaves all of the list, unless the scan has nothing to hand out
of it. -/
theorem Handed.nothing (hprimed : matcher.Primed family ahead)
    (hholds : Holds sure next matcher ahead) (hexhausted : ending = .exhausted → ahead = [])
    (hover : ending = .scanDone → matcher.gather ahead = []) :
    Handed sure family matcher ahead [] ending next ahead := by
  obtain rfl := hholds.matcher
  refine ⟨?_, .refl _, fun _ => ⟨hholds, hprimed, List.suffix_refl _⟩, hexhausted, nofun⟩
  split
  next hending => exact hover hending
  next => rfl

/-- What is handed out after a look is handed out behind what the look hands out. -/
theorem Handed.prepend (hprimed : matcher.Primed family (cell :: rest))
    (hrow : matcher.row = some cell.row)
    (hcourse : (matcher.inspect cell rest).course = .ok ahead)
    (hhanded : Handed sure family (matcher.inspect cell rest).next ahead cells ending next later) :
    Handed sure family matcher (cell :: rest)
      ((matcher.inspect cell rest).emitted.toList ++ cells) ending next later := by
  obtain ⟨-, hnextRow, hcomes⟩ := hprimed.inspect hrow hcourse
  have hsuffix := (Matcher.inspect_suffix hcourse).trans (List.suffix_cons cell rest)
  refine ⟨?_, hcomes.trans hhanded.comesTo, fun hending => ?_, hhanded.exhausted, ?_⟩
  · rw [Matcher.gather_cons_ok (if_pos hrow) hcourse, hhanded.gathered, List.append_assoc]
  · obtain ⟨hholds, hleft, hrest⟩ := hhanded.left hending
    exact ⟨hholds, hleft, hrest.trans hsuffix⟩
  · intro shaped hshaped
    rcases List.mem_append.mp hshaped with hemitted | hmem
    · exact emitted_ofRow hprimed hrow hemitted
    · obtain ⟨other, hother, hotherRow, hshapes⟩ := hhanded.ofRow shaped hmem
      exact ⟨other, hsuffix.subset hother, hrow.trans (hnextRow.symm.trans hotherRow),
        hcomes.shapes hshapes⟩

omit [LawfulSource σ keys] [Source σ] [CellFilter φ] in
/-- One cell is not more than a limit. -/
theorem length_toList_le (emitted : Option Cell) {count : Nat} (hlimit : some count ≠ some 0) :
    emitted.toList.length ≤ count := by
  have hcount : count ≠ 0 := fun hzero => hlimit (hzero ▸ rfl)
  cases emitted with
  | none => exact Nat.zero_le _
  | some cell => exact Nat.one_le_iff_ne_zero.mpr hcount

/-- A pass that goes on is still short of its limit. -/
theorem remainingLimit_ne_zero {limit : Option Nat} (hlimit : limit ≠ some 0)
    {emitted : Option Cell}
    (hroom : ¬(emitted.isSome && decide (remainingLimit limit emitted = some 0)) = true) :
    remainingLimit limit emitted ≠ some 0 := by
  cases emitted with
  | none =>
      cases limit with
      | none => exact nofun
      | some count => exact hlimit
  | some cell =>
      intro hzero
      rw [hzero] at hroom
      exact hroom rfl

/-- What the turns of a pass over a list come to. Where they do not fail, they hand out a piece of
what a scan does, no longer than the limit, and leave less than there was if they begin in
the row that is being read. -/
structure HandsOut (sure : Prop) (family : Bytes) (matcher : Matcher φ) (ahead : List Cell)
    (limit : Option Nat) (outcome : Except ScanError (List Cell × PassEnd) × ReadState σ φ) :
    Prop where
  succeeds : sure → outcome.1.isOk = true
  hands cells ending next : outcome = (.ok (cells, ending), next) →
    ∃ later, Handed sure family matcher ahead cells ending next later ∧
      (∀ count, limit = some count → cells.length ≤ count) ∧
      ∀ first rest, ahead = first :: rest → matcher.row = some first.row →
        ending ≠ .scanDone → later <:+ rest

variable {fuel : Nat} {limit : Option Nat} {previous : Option Cell}

theorem HandsOut.of_error (hfails : ¬sure) {failure : ScanError} :
    HandsOut sure family matcher ahead limit (.error failure, next) where
  succeeds hsure := absurd hsure hfails
  hands _ _ _ houtcome := by cases houtcome

/-- The turns of a pass end at a cell of another row. -/
theorem Holds.turns_past (hprimed : state.matcher.Primed family (cell :: rest)) {row : Bytes}
    (hrow : state.matcher.row = some row) (hpast : row ≠ cell.row)
    (hholds : Holds sure state state.matcher (cell :: rest))
    (hprevious : ∀ last, previous = some last → (Cell.compareKeys last cell).isLE = true) :
    HandsOut sure family state.matcher (cell :: rest) limit
      (turns previous limit (fuel + 1) state).value := by
  obtain ⟨ending, hturn, hending⟩ := hholds.turn_past hprimed hrow hpast hprevious
  have hhanded : Handed sure family state.matcher (cell :: rest) [] ending state
      (cell :: rest) := by
    rcases hending with rfl | ⟨rfl, hgather⟩
    · exact .nothing hprimed hholds (by simp) (by simp)
    · exact .nothing hprimed hholds (by simp) fun _ => hgather
  have hpeek : state.merge.peek = some cell := hholds.peek_eq
  simp only [turns, hpeek, Noted.value_bind, hturn]
  refine ⟨fun _ => rfl, ?_⟩
  rintro _ _ _ ⟨⟩
  refine ⟨_, hhanded, fun _ _ => Nat.zero_le _, ?_⟩
  rintro _ _ ⟨⟩ hsame
  exact absurd (Option.some.inj (hrow.symm.trans hsame)) hpast

/-- What a pass hands out that inspects a cell and goes on in some way with what is left. -/
theorem HandsOut.prepend (hprimed : matcher.Primed family (cell :: rest))
    (hrow : matcher.row = some cell.row) (hlimit : limit ≠ some 0)
    (hcourse : (matcher.inspect cell rest).course = .ok ahead)
    {outcome : Except ScanError (List Cell × PassEnd) × ReadState σ φ}
    (hhands : HandsOut sure family (matcher.inspect cell rest).next ahead
      (remainingLimit limit (matcher.inspect cell rest).emitted) outcome) :
    HandsOut sure family matcher (cell :: rest) limit
      (ReadState.prepend (matcher.inspect cell rest).emitted outcome) := by
  obtain ⟨result, final⟩ := outcome
  cases result with
  | error failure => exact .of_error fun hsure => Bool.false_ne_true (hhands.succeeds hsure)
  | ok found =>
      obtain ⟨cells, ending⟩ := found
      refine ⟨fun _ => rfl, ?_⟩
      rintro _ _ _ ⟨⟩
      obtain ⟨later, hhanded, hmost, -⟩ := hhands.hands cells ending final rfl
      refine ⟨later, hhanded.prepend hprimed hrow hcourse, ?_, ?_⟩
      · rintro count rfl
        have hemitted := length_toList_le (matcher.inspect cell rest).emitted hlimit
        have hcells : cells.length ≤ count - _ := hmost _ rfl
        rw [List.length_append]
        omega
      · rintro _ _ ⟨⟩ - hending
        exact (hhanded.left hending).suffix.trans (Matcher.inspect_suffix hcourse)

/-- The first turn of a pass inspects a cell of the row that is being read, and the other ones go
on with what it leaves. -/
theorem Holds.turns_inspect (hprimed : matcher.Primed family (cell :: rest))
    (hrow : matcher.row = some cell.row) (hholds : Holds sure state matcher (cell :: rest))
    (hlimit : limit ≠ some 0)
    (hprevious : ∀ last, previous = some last → (Cell.compareKeys last cell).isLE = true)
    (hrest : ∀ {after : ReadState σ φ} {next : Matcher φ} {ahead : List Cell} {room : Option Nat},
      next.Primed family ahead → next.row = some cell.row → Holds sure after next ahead →
      room ≠ some 0 → ahead <:+ rest →
      HandsOut sure family next ahead room (turns (some cell) room fuel after).value) :
    HandsOut sure family matcher (cell :: rest) limit
      (turns previous limit (fuel + 1) state).value := by
  have hpeek : state.merge.peek = some cell := hholds.peek_eq
  have hgoes := hholds.turn_inspect (hprimed.ready hrow) hprevious
  simp only [turns, hpeek, Noted.value_bind]
  cases hturn : (state.turn previous cell).value with
  | mk result after =>
      rw [hturn] at hgoes
      cases result with
      | error failure => exact .of_error fun hsure => Bool.false_ne_true (hgoes.succeeds hsure)
      | ok turn =>
          cases hcourse : (matcher.inspect cell rest).course with
          | error ending =>
              obtain ⟨rfl, rfl⟩ := hgoes.stops turn after ending rfl hcourse
              obtain rfl := (hprimed.ready hrow).inspect_error hrow hcourse
              refine ⟨fun _ => rfl, ?_⟩
              rintro _ _ _ ⟨⟩
              refine ⟨[], ⟨?_, (hprimed.ready hrow).sifted.2.comesTo,
                fun hending => absurd rfl hending, fun _ => rfl, fun _ => emitted_ofRow hprimed hrow⟩, ?_,
                fun _ _ _ _ hending => absurd rfl hending⟩
              · rw [Matcher.gather_cons_error (if_pos hrow) hcourse, if_pos rfl, List.append_nil]
              · rintro count rfl
                exact length_toList_le _ hlimit
          | ok ahead =>
              obtain ⟨rfl, hnext⟩ := hgoes.goesOn turn after ahead rfl hcourse
              obtain ⟨hnextPrimed, hnextRow, -⟩ := hprimed.inspect hrow hcourse
              have hsuffix := Matcher.inspect_suffix hcourse
              simp only
              split
              next =>
                -- the limit is reached, and what comes next is left for the next pass
                have hnothing : Handed sure family _ ahead [] .more after ahead :=
                  .nothing hnextPrimed hnext (by simp) (by simp)
                have hhanded := hnothing.prepend hprimed hrow hcourse
                rw [List.append_nil] at hhanded
                refine ⟨fun _ => rfl, ?_⟩
                rintro _ _ _ ⟨⟩
                refine ⟨_, hhanded, ?_, ?_⟩
                · rintro count rfl
                  exact length_toList_le _ hlimit
                · rintro _ _ ⟨⟩ - -
                  exact hsuffix
              next hroom =>
                rw [Noted.value_map]
                exact (hrest hnextPrimed hnextRow hnext (remainingLimit_ne_zero hlimit hroom)
                  hsuffix).prepend hprimed hrow hlimit hcourse

theorem Holds.turns (hprimed : matcher.Primed family ahead)
    (hentered : matcher.row.isSome = true) (hholds : Holds sure state matcher ahead)
    (hlimit : limit ≠ some 0)
    (hprevious : ∀ last, previous = some last →
      ∀ cell ∈ ahead, (Cell.compareKeys last cell).isLE = true)
    (hfuel : ahead.length < fuel) :
    HandsOut sure family matcher ahead limit (turns previous limit fuel state).value := by
  induction fuel generalizing state matcher limit previous ahead with
  | zero => omega
  | succ fuel ih =>
      cases ahead with
      | nil =>
          have hpeek : state.merge.peek = none := hholds.peek_eq
          simp only [ReadState.turns, hpeek]
          refine ⟨fun _ => rfl, ?_⟩
          rintro _ _ _ ⟨⟩
          exact ⟨[], .nothing hprimed hholds (fun _ => rfl) fun _ => Matcher.gather_nil matcher,
            fun _ _ => Nat.zero_le _, by simp⟩
      | cons cell rest =>
          have hlast : ∀ last, previous = some last → (Cell.compareKeys last cell).isLE = true :=
            fun last hlast => hprevious last hlast cell List.mem_cons_self
          by_cases hrow : matcher.row = some cell.row
          · apply hholds.turns_inspect hprimed hrow hlimit hlast
            intro after next ahead room hnextPrimed hnextRow hnext hroom hsuffix
            obtain ⟨hfirst, -⟩ := List.pairwise_cons.mp hprimed.prepared.sorted
            have hlength := hsuffix.length_le
            rw [List.length_cons] at hfuel
            refine ih hnextPrimed (by rw [hnextRow]; rfl) hnext hroom ?_ (by omega)
            rintro _ ⟨⟩ other hother
            exact hfirst other (hsuffix.subset hother)
          -- the first cell of another row ends the pass
          · obtain rfl := hholds.matcher
            obtain ⟨row, hentered⟩ := Option.isSome_iff_exists.mp hentered
            have hpast : row ≠ cell.row := fun hsame => hrow (hsame ▸ hentered)
            exact hholds.turns_past hprimed hentered hpast hlast

/-- A pass that begins in the row that is being read. -/
theorem Holds.pass (hprimed : matcher.Primed family (cell :: rest))
    (hrow : matcher.row = some cell.row) (hholds : Holds sure state matcher (cell :: rest))
    (hlimit : limit ≠ some 0) :
    HandsOut sure family matcher (cell :: rest) limit (state.pass limit).value := by
  have hfuel : (cell :: rest).length < 2 * state.merge.cellCount + 1 := by
    rw [Merge.cellCount_eq, hholds.stream]
    omega
  have hentered : matcher.row.isSome = true := by
    rw [hrow]
    rfl
  have hnone (last : Cell) (hlast : none = some last) :
      ∀ other ∈ cell :: rest, (Cell.compareKeys last other).isLE = true := nomatch hlast
  exact hholds.turns hprimed hentered hlimit hnone hfuel

end ReadState

end MergeScan
