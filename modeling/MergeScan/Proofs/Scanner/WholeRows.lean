import MergeScan.Proofs.Matcher.WholeRows
import MergeScan.Proofs.Scanner.Pass

/-! # Reading a complete row

A pass without a limit reads one row: it hands out cells of the row only, and leaves all later rows
and nothing else. Over the same list, a pass with a filter on complete rows does in every turn what
a pass without the filter does. None of this needs cells of one family. Where the columns of a row
do not come in order, both passes fail in the same way.
-/

namespace MergeScan

open CellOrder

namespace Matcher

variable {φ : Type} {matcher next : Matcher φ} {cell : Cell} {row : Bytes}
variable {rest ahead : List Cell} {decision : Decision}

/-- The cells ahead where a row is read: they are stored ones in order, of this row and later ones,
and the rows of the scan have begun. -/
structure RowAhead (rows : RowRange) (row : Bytes) (ahead : List Cell) : Prop where
  sorted : keys.Sorted ahead
  real cell : cell ∈ ahead → cell.IsReal
  behind cell : cell ∈ ahead → row ≤ cell.row
  started cell : cell ∈ ahead → rows.startsAfter cell.row = false

theorem RowAhead.suffix {rows : RowRange} (hahead : RowAhead rows row (cell :: rest))
    (hsuffix : ahead <:+ rest) : RowAhead rows row ahead where
  sorted := (List.pairwise_cons.mp hahead.sorted).2.sublist hsuffix.sublist
  real other hother := hahead.real other (List.mem_cons_of_mem _ (hsuffix.subset hother))
  behind other hother := hahead.behind other (List.mem_cons_of_mem _ (hsuffix.subset hother))
  started other hother := hahead.started other (List.mem_cons_of_mem _ (hsuffix.subset hother))

/-- What is left of the cells of a store from one of them on. -/
theorem RowAhead.of_skipTo {rows : RowRange} {data : List Cell}
    (hsorted : keys.Sorted data) (hreal : ∀ cell ∈ data, cell.IsReal)
    (hdata : keys.skipTo cell data = cell :: rest)
    (hstarted : ∀ other ∈ cell :: rest, rows.startsAfter other.row = false) :
    RowAhead rows cell.row (cell :: rest) where
  sorted := hdata ▸ hsorted.skipTo cell
  real other hother := hreal other ((skipTo_sublist cell data).subset (hdata ▸ hother))
  behind other hother :=
    Cell.row_le_of_isLE (le_of_mem_skipTo hsorted (hdata ▸ hother : other ∈ keys.skipTo cell data))
  started := hstarted

variable [CellFilter φ]

/-- Of the cells of another row, none lets the pass go on. -/
theorem Judged.row_of_goOn (hjudged : Judged matcher cell decision next) (hplain : matcher.Plain)
    (hrow : matcher.row = some row) (hahead : RowAhead matcher.rows row (cell :: rest))
    (hgoOn : next.goOn cell rest decision = .ok ahead) : cell.row = row := by
  rcases hjudged.decideRow_or with hnone | ⟨hdecided, -⟩
  · have hsame := row_eq_of_decideRow hplain hnone (by rw [hrow]; rfl)
    exact Option.some.inj (hsame.symm.trans hrow)
  · have hdecision := decideRow_mem hdecided
    simp only [List.mem_cons, List.not_mem_nil, or_false] at hdecision
    rcases hdecision with rfl | rfl | rfl
    · cases hgoOn
    · have hbehind := hahead.behind cell List.mem_cons_self
      simp only [decideRow, hahead.started cell List.mem_cons_self, compareRow, hrow,
        hplain.order, Cell.compareRows_keys, Bool.false_eq_true, if_false] at hdecided
      split at hdecided
      · cases hdecided
      · split at hdecided
        · cases hdecided
        next hgt => exact absurd hbehind (Std.not_le.mpr (Std.compare_eq_gt.mp hgt))
        next heq => exact (Std.LawfulEqCmp.eq_of_compare heq).symm
    · cases hgoOn

/-- A decision that goes on leaves what there is of later rows. -/
theorem Judged.later_of_goOn (hjudged : Judged matcher cell decision next)
    (hplain : matcher.Plain) (hrow : matcher.row = some row)
    (hahead : RowAhead matcher.rows row (cell :: rest))
    (hgoOn : next.goOn cell rest decision = .ok ahead) :
    keys.skipTo (Cell.lastOnRow row) ahead = keys.skipTo (Cell.lastOnRow row) (cell :: rest) := by
  obtain rfl := hjudged.row_of_goOn hplain hrow hahead hgoOn
  have hkinds (other : Cell) (hother : other ∈ rest) :=
    (hahead.real other (List.mem_cons_of_mem _ hother)).1
  have hrest := (List.pairwise_cons.mp hahead.sorted).2
  have hfirst : keys.compare cell (Cell.lastOnRow cell.row) = .lt :=
    (Cell.lt_lastOnRow_iff (hahead.real cell List.mem_cons_self).1 _).mpr (Std.le_refl _)
  rw [skipTo_cons_of_lt hfirst]
  have hskip {key : Cell} (hkey : key.row = cell.row) :
      keys.skipTo (Cell.lastOnRow cell.row) (keys.skipTo key rest) =
        keys.skipTo (Cell.lastOnRow cell.row) rest :=
    hkey ▸ skipTo_lastOnRow_skipTo hrest hkinds key
  cases onwards_of_goOn hgoOn with
  | next | seekTo => rfl
  | column => exact hskip (row_nextColumnKey next cell)
  | row => exact hskip rfl

/-- The pass over a row ends at the first cell of a later one. -/
theorem Judged.later_of_more (hjudged : Judged matcher cell decision next)
    (hplain : matcher.Plain) (hrow : matcher.row = some row)
    (hahead : RowAhead matcher.rows row (cell :: rest))
    (hgoOn : next.goOn cell rest decision = .error .more) :
    keys.skipTo (Cell.lastOnRow row) (cell :: rest) = cell :: rest := by
  rcases goOn_error hgoOn with ⟨-, rfl⟩ | hending
  · obtain ⟨-, hdecided⟩ := hjudged.of_done (.inl rfl)
    have hlt : row < cell.row := by
      simp only [decideRow, compareRow, hrow, hplain.order] at hdecided
      split at hdecided
      · cases hdecided
      · split at hdecided
        · cases hdecided
        · split at hdecided
          next hlt => exact Std.compare_eq_lt.mp hlt
          next => cases hdecided
          next => split at hdecided <;> cases hdecided
    refine skipTo_cons_of_not_lt (fun hbefore => ?_) rest
    rw [Cell.compare_keys, Cell.lt_lastOnRow_iff (hahead.real cell List.mem_cons_self).1] at hbefore
    exact absurd hlt (Std.not_lt.mpr hbefore)
  · cases hending

/-- What is handed out is a cell of the row. -/
theorem Judged.row_of_emitted (hjudged : Judged matcher cell decision next)
    (hplain : matcher.Plain) (hrow : matcher.row = some row) {emitted : Cell}
    (hemitted : emitted ∈ (decision.emitted cell).toList) : emitted = cell ∧ cell.row = row := by
  unfold Decision.emitted at hemitted
  split at hemitted
  next hemits =>
    have hnone := hjudged.looked fun hmem => by
      simp only [List.mem_cons, List.not_mem_nil, or_false] at hmem
      rcases hmem with rfl | rfl | rfl <;> cases hemits
    have hsame := row_eq_of_decideRow hplain hnone (by rw [hrow]; rfl)
    exact ⟨List.mem_singleton.mp hemitted, Option.some.inj (hsame.symm.trans hrow)⟩
  next => cases hemitted

end Matcher

namespace ReadState

variable {σ φ : Type} [Source σ] [LawfulSource σ keys] [CellFilter φ]
variable {plain judged state : ReadState σ φ} {matcher next : Matcher φ} {filter : φ}
variable {drops : List Cell → Bool} {cell : Cell} {rest ahead : List Cell} {row : Bytes}
variable {previous : Option Cell} {decision : Decision}

/-- Where a decision on the cell on top is known, a turn follows it. -/
theorem Reads.turn_of_decide (hreads : Reads state matcher (cell :: rest)) (hreal : cell.IsReal)
    (hprevious : ∀ last, previous = some last → (Cell.compareKeys last cell).isLE = true)
    (hdecide : (matcher.decide cell).value = (.ok decision, next))
    (hcolumn : decision = .nextColumn ∨ decision = .emitThenNextColumn →
      Cell.compareKeys cell (next.nextColumnKey cell) = .lt)
    (hseeks : ∀ target, decision ≠ .seekTo target) (hreshape : (next.reshape cell).value = cell) :
    Follows { state with matcher := next }
      ⟨decision.emitted cell, next, next.goOn cell rest decision⟩
      (state.turn previous cell).value := by
  have hfollow := (Reads.of_offers hreads.offers next).holds.follow hreal hcolumn hseeks
  rw [hreshape] at hfollow
  rw [hreads.holds.turn_eq hprevious hdecide]
  exact hfollow.follows

/-- Two states that hold the same list, one without a filter and one with a filter on complete
rows. -/
structure Level (filter : φ) (plain judged : ReadState σ φ) (matcher : Matcher φ)
    (ahead : List Cell) : Prop where
  plain : Reads plain matcher ahead
  judged : Reads judged (matcher.judging filter) ahead

/-- What the pass over a row comes to, with a filter on complete rows and without: it is the same,
hands out cells of the row, and leaves the later rows unless it ends the scan. -/
structure ReadsRow (filter : φ) (matcher : Matcher φ) (row : Bytes) (ahead : List Cell)
    (plain judged : Except ScanError (List Cell × PassEnd) × ReadState σ φ) : Prop where
  result : judged.1 = plain.1
  matchers : judged.2.matcher = plain.2.matcher.judging filter
  same : plain.1.isOk = true → plain.2.matcher.Plain ∧ plain.2.matcher.reset = matcher.reset
  handed found ending : plain.1 = .ok (found, ending) →
    ∀ cell ∈ found, cell ∈ ahead ∧ cell.row = row
  left found ending : plain.1 = .ok (found, ending) → ending ≠ .scanDone →
    Level filter plain.2 judged.2 plain.2.matcher (keys.skipTo (Cell.lastOnRow row) ahead) ∧
      (ending = .exhausted → keys.skipTo (Cell.lastOnRow row) ahead = [])

/-- One turn of both: there is no decision on the cell on top, or both follow the same one. -/
theorem Level.turn (hjudges : CellFilter.JudgesRows drops filter)
    (hlevel : Level filter plain judged matcher (cell :: rest)) (hplain : matcher.Plain)
    (hreal : cell.IsReal)
    (hprevious : ∀ last, previous = some last → (Cell.compareKeys last cell).isLE = true) :
    (∃ failure next,
      (plain.turn previous cell).value = (.error failure, { plain with matcher := next }) ∧
        (judged.turn previous cell).value =
          (.error failure, { judged with matcher := next.judging filter })) ∨
      ∃ decision next, Matcher.Judged matcher cell decision next ∧
        Follows { plain with matcher := next }
          ⟨decision.emitted cell, next, next.goOn cell rest decision⟩
          (plain.turn previous cell).value ∧
        Follows { judged with matcher := next.judging filter }
          ⟨decision.emitted cell, next.judging filter, next.goOn cell rest decision⟩
          (judged.turn previous cell).value := by
  -- the filter is not asked about single cells, so both come to the same decision
  have hdecideJudged := Matcher.decide_judging hjudges hplain.filter cell
  cases hdecide : (matcher.decide cell).value with
  | mk decided next =>
      rw [hdecide] at hdecideJudged
      cases decided with
      | error failure =>
          refine .inl ⟨failure, next, ?_, ?_⟩
          · apply turn_of_error hlevel.plain.sound.sameOrder hprevious
            rw [hlevel.plain.matcher, hdecide]
          · apply turn_of_error hlevel.judged.sound.sameOrder hprevious
            rw [hlevel.judged.matcher, hdecideJudged]
            rfl
      | ok decision =>
          have hjudged := Matcher.judged_of_decide hplain.filter hdecide
          have hcolumn := hjudged.lt_nextColumnKey hplain hreal
          have hgoOn : (next.judging filter).goOn cell rest decision =
              next.goOn cell rest decision := by cases decision <;> rfl
          refine .inr ⟨decision, next, hjudged, ?_, ?_⟩
          · exact hlevel.plain.turn_of_decide hreal hprevious hdecide hcolumn hjudged.ne_seekTo
              (Matcher.reshape_unfiltered (hjudged.plain hplain).filter cell)
          · rw [← hgoOn]
            exact hlevel.judged.turn_of_decide hreal hprevious hdecideJudged hcolumn
              hjudged.ne_seekTo (Matcher.reshape_judging hjudges cell)

section

variable {rows : Except ScanError (List Cell × PassEnd) × ReadState σ φ}
variable {rowsJudged : Except ScanError (List Cell × PassEnd) × ReadState σ φ}

omit [CellFilter φ] in
theorem ReadsRow.of_error {failure : ScanError}
    (hmatchers : judged.matcher = plain.matcher.judging filter) :
    ReadsRow filter matcher row ahead (.error failure, plain) (.error failure, judged) :=
  ⟨rfl, hmatchers, nofun, nofun, nofun⟩

/-- A pass ends with a turn. -/
theorem ReadsRow.of_stop (hlevel : Level filter plain judged matcher (cell :: rest))
    (hplain : matcher.Plain) (hrow : matcher.row = some row)
    (hahead : Matcher.RowAhead matcher.rows row (cell :: rest))
    (hjudged : Matcher.Judged matcher cell decision next) {ending : PassEnd}
    (hgoOn : next.goOn cell rest decision = .error ending) :
    ReadsRow filter matcher row (cell :: rest)
      (.ok ((decision.emitted cell).toList, ending), { plain with matcher := next })
      (.ok ((decision.emitted cell).toList, ending),
        { judged with matcher := next.judging filter }) where
  result := rfl
  matchers := rfl
  same _ := ⟨hjudged.plain hplain, hjudged.reset_eq⟩
  handed found ending' hfound emitted hemitted := by
    cases hfound
    obtain ⟨rfl, hsame⟩ := hjudged.row_of_emitted hplain hrow hemitted
    exact ⟨List.mem_cons_self, hsame⟩
  left found ending' hfound hending := by
    cases hfound
    rcases Matcher.goOn_error hgoOn with ⟨rfl, -⟩ | rfl
    · rw [hjudged.later_of_more hplain hrow hahead hgoOn]
      exact ⟨⟨.of_offers hlevel.plain.offers _, .of_offers hlevel.judged.offers _⟩, nofun⟩
    · exact absurd rfl hending

/-- What a pass hands out after a turn is handed out behind what the turn hands out. -/
theorem ReadsRow.prepend (hplain : matcher.Plain) (hrow : matcher.row = some row)
    (hahead : Matcher.RowAhead matcher.rows row (cell :: rest))
    (hjudged : Matcher.Judged matcher cell decision next)
    (hgoOn : next.goOn cell rest decision = .ok ahead)
    (hreads : ReadsRow filter next row ahead rows rowsJudged) :
    ReadsRow filter matcher row (cell :: rest) (ReadState.prepend (decision.emitted cell) rows)
      (ReadState.prepend (decision.emitted cell) rowsJudged) := by
  obtain ⟨result, final⟩ := rows
  obtain ⟨resultJudged, finalJudged⟩ := rowsJudged
  obtain rfl : resultJudged = result := hreads.result
  cases resultJudged with
  | error failure => exact .of_error hreads.matchers
  | ok found =>
      obtain ⟨cells, ending⟩ := found
      obtain ⟨hfinal, hreset⟩ := hreads.same rfl
      have hlater := hjudged.later_of_goOn hplain hrow hahead hgoOn
      refine ⟨rfl, hreads.matchers, fun _ => ⟨hfinal, hreset.trans hjudged.reset_eq⟩, ?_, ?_⟩
      · rintro _ _ ⟨⟩ handed hmem
        rcases List.mem_append.mp hmem with hemitted | hcells
        · obtain ⟨rfl, hsame⟩ := hjudged.row_of_emitted hplain hrow hemitted
          exact ⟨List.mem_cons_self, hsame⟩
        · obtain ⟨hcell, hsame⟩ := hreads.handed cells ending rfl handed hcells
          exact ⟨List.mem_cons_of_mem _ ((Matcher.goOn_suffix hgoOn).subset hcell), hsame⟩
      · rintro _ _ ⟨⟩ hending
        rw [← hlater]
        exact hreads.left cells ending rfl hending

end

/-- Turn by turn, a pass with a filter on complete rows does what one without does. -/
theorem Level.turns (hjudges : CellFilter.JudgesRows drops filter) {fuel : Nat}
    (hlevel : Level filter plain judged matcher ahead) (hplain : matcher.Plain)
    (hrow : matcher.row = some row) (hahead : Matcher.RowAhead matcher.rows row ahead)
    (hprevious : ∀ last, previous = some last →
      ∀ cell ∈ ahead, (Cell.compareKeys last cell).isLE = true)
    (hfuel : ahead.length < fuel) :
    ReadsRow filter matcher row ahead (turns previous none fuel plain).value
      (turns previous none fuel judged).value := by
  induction fuel generalizing plain judged matcher previous ahead with
  | zero => omega
  | succ fuel ih =>
      have hpeek := hlevel.plain.holds.peek_eq
      have hpeekJudged := hlevel.judged.holds.peek_eq
      simp only [ReadState.turns, hpeek, hpeekJudged]
      cases ahead with
      | nil =>
          obtain rfl := hlevel.plain.matcher
          refine ⟨rfl, hlevel.judged.matcher, fun _ => ⟨hplain, rfl⟩, ?_, ?_⟩
          · rintro _ _ ⟨⟩ _ ⟨⟩
          · rintro _ _ ⟨⟩ -
            exact ⟨hlevel, fun _ => rfl⟩
      | cons cell rest =>
          have hlast : ∀ last, previous = some last → (Cell.compareKeys last cell).isLE = true :=
            fun last hlast => hprevious last hlast cell List.mem_cons_self
          simp only [List.head?_cons, Noted.value_bind]
          rcases hlevel.turn hjudges hplain (hahead.real cell List.mem_cons_self) hlast with
            ⟨failure, next, hturn, hturnJudged⟩ | ⟨decision, next, hjudged, hturn, hturnJudged⟩
          · rw [hturn, hturnJudged]
            exact .of_error rfl
          · unfold Follows at hturn hturnJudged
            cases hgoOn : next.goOn cell rest decision with
            | error ending =>
                simp only [hgoOn] at hturn hturnJudged
                rw [hturn, hturnJudged]
                exact .of_stop hlevel hplain hrow hahead hjudged hgoOn
            | ok ahead =>
                simp only [hgoOn] at hturn hturnJudged
                obtain ⟨after, hafter, hreads⟩ := hturn
                obtain ⟨afterJudged, hafterJudged, hreadsJudged⟩ := hturnJudged
                have hrows := Matcher.rows_of_reset hjudged.reset_eq
                have hsuffix := Matcher.goOn_suffix hgoOn
                have hlength := hsuffix.length_le
                have hfirst := (List.pairwise_cons.mp hahead.sorted).1
                rw [List.length_cons] at hfuel
                simp only [hafter, hafterJudged, remainingLimit, Option.map_none, reduceCtorEq,
                  decide_false, Bool.and_false, Bool.false_eq_true, if_false, Noted.value_map]
                refine .prepend hplain hrow hahead hjudged hgoOn
                  (ih ⟨hreads, hreadsJudged⟩ (hjudged.plain hplain)
                    ((Matcher.row_of_reset hjudged.reset_eq).trans hrow)
                    (hrows ▸ hahead.suffix hsuffix) ?_ (by omega))
                rintro _ ⟨⟩ other hother
                exact hfirst other (hsuffix.subset hother)

/-- A pass with a filter on complete rows does what one without does. -/
theorem Level.pass (hjudges : CellFilter.JudgesRows drops filter)
    (hlevel : Level filter plain judged matcher ahead) (hplain : matcher.Plain)
    (hrow : matcher.row = some row) (hahead : Matcher.RowAhead matcher.rows row ahead) :
    ReadsRow filter matcher row ahead (plain.pass none).value (judged.pass none).value := by
  have hcount : judged.merge.cellCount = plain.merge.cellCount := by
    rw [Merge.cellCount_eq, Merge.cellCount_eq, hlevel.plain.stream, hlevel.judged.stream]
  have hfuel : ahead.length < 2 * plain.merge.cellCount + 1 := by
    rw [Merge.cellCount_eq, hlevel.plain.stream]
    omega
  rw [ReadState.pass, ReadState.pass, hcount]
  exact hlevel.turns hjudges hplain hrow hahead nofun hfuel

end ReadState

end MergeScan
