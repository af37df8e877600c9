import MergeScan.Proofs.Matcher.Refuses
import MergeScan.Proofs.Matcher.Settles

/-! # Values that a matcher waits for

The newest of the values of a column that lie inside the time range is handed out, unless a
marker deletes it or it has expired. As long as it is ahead, nothing of its column was handed
out and no marker that deletes it is remembered. So its column is not left before it, and
nothing stands against it when the matcher comes to it.
-/

namespace MergeScan.Matcher

variable {φ : Type} [CellFilter φ] {matcher next : Matcher φ} {cell value other : Cell}
variable {decision : Decision}

/-! ## What every decision leaves of the columns behind it -/

/-- A decision takes nothing from the columns behind the cell. -/
theorem Judged.taken_of_lt (hjudged : Judged matcher cell decision next) {qualifier : Bytes}
    (hlt : cell.qualifier < qualifier) :
    next.columns.taken qualifier = matcher.columns.taken qualifier := by
  cases hjudged with
  | row decision hrow => rfl
  | expired hrow hage => exact ColumnProgress.taken_giveUp hlt
  | marker hconsiders hdelete =>
      simp only [decideMarker]
      split <;> rfl
  | masked hconsiders hvalue hhides => rfl
  | tooNew hlive hposition => rfl
  | tooOld hlive hposition => exact @ColumnProgress.taken_giveUp matcher.columns _ _ hlt
  | version decision columns hlive hposition hchecked => exact hchecked.taken_of_lt hlt

/-- A row is left because of a cell of it when no column is left of the list. -/
theorem Judged.isFinished_of_row (hjudged : Judged matcher cell decision next)
    (hlooked : matcher.decideRow cell = none)
    (hleaves : decision = .nextRow ∨ decision = .emitThenNextRow) :
    next.columns.isFinished = true := by
  have hgiveUp (base : Matcher φ) (hleaves : (base.giveUpColumn cell).1 = .nextRow ∨
      (base.giveUpColumn cell).1 = .emitThenNextRow) :
      (base.giveUpColumn cell).2.columns.isFinished = true := by
    rcases base.columns.giveUp_decision cell.qualifier with heq | heq
    · simp [giveUpColumn, heq] at hleaves
    · exact ColumnProgress.isFinished_giveUp heq
  cases hjudged with
  | row decision hrow => cases hlooked.symm.trans hrow
  | expired hrow hage => exact hgiveUp matcher hleaves
  | marker hconsiders hdelete =>
      rcases matcher.markerDecision_eq with ⟨heq, -⟩ | ⟨heq, -⟩ <;> simp [heq] at hleaves
  | masked hconsiders hvalue hhides => simp at hleaves
  | tooNew hlive hposition => simp at hleaves
  | tooOld hlive hposition => exact hgiveUp _ hleaves
  | version decision columns hlive hposition hchecked => exact hchecked.isFinished_of_row hleaves

/-- A row is over only if it was before, or if it is left. -/
theorem Judged.rowOver (hjudged : Judged matcher cell decision next)
    (hover : next.rowOver = true) : matcher.rowOver = true ∨ decision = .nextRow := by
  cases hjudged with
  | row decision hrow => exact .inl hover
  | expired hrow hage => exact .inl hover
  | marker hconsiders hdelete =>
      simp only [decideMarker] at hover
      split at hover <;> exact .inl hover
  | masked hconsiders hvalue hhides => exact .inl hover
  | tooNew hlive hposition => exact .inl hover
  | tooOld hlive hposition => exact .inl hover
  | version decision columns hlive hposition hchecked =>
      simpa [withProgress, afterMarkers] using hover

/-- A cell that does not delete a value leaves it as it is. -/
theorem Judged.not_hides (hjudged : Judged matcher cell decision next)
    (hmet : matcher.markers.Met cell) (hleads : cell.Leads value)
    (hlive : matcher.markers.hides value.qualifier value.timestamp = false)
    (hspares : cell.masks value = false) :
    next.markers.hides value.qualifier value.timestamp = false := by
  have hafter : (matcher.afterMarkers cell).markers.hides value.qualifier value.timestamp = false :=
    (hmet.hides_after hleads).trans hlive
  cases hjudged with
  | row decision hrow => exact hlive
  | expired hrow hage => exact hlive
  | marker hconsiders hdelete =>
      simp only [decideMarker]
      split
      · rw [hmet.hides_add hleads hdelete, hlive, hspares]
        rfl
      · exact hlive
  | masked hconsiders hvalue hhides => exact hafter
  | tooNew hlive hposition => exact hafter
  | tooOld hlive hposition => exact hafter
  | version decision columns hlive hposition hchecked => exact hafter

/-! ## A value that is waited for -/

/-- A matcher that will hand out a value of the row that it reads when it comes to it. -/
structure Awaits (matcher : Matcher φ) (value : Cell) : Prop where
  asked : matcher.rows.contains value.row = true
  inside : matcher.timeRange.position value.timestamp = .eq
  age : matcher.columns.rule.rulesOut value.timestamp = false
  versions : 1 ≤ matcher.columns.rule.max
  reading : matcher.rowOver = false
  untouched : matcher.columns.taken value.qualifier = 0
  fresh : matcher.columns.Fresh value.qualifier value.timestamp
  room : matcher.columns.HasRoom
  live : matcher.markers.hides value.qualifier value.timestamp = false

/-- A cell of the row of a value that does not delete it, and is no newer version of it inside the
time range. -/
structure Spares (range : TimeRange) (other value : Cell) : Prop where
  keeps : other.masks value = false
  newest : other.kind = .put → other.qualifier = value.qualifier →
    value.timestamp < other.timestamp → range.position other.timestamp ≠ .eq

/-- A cell that a matcher looks at before it comes to a value of the row. -/
structure Precedes (matcher : Matcher φ) (cell value : Cell) : Prop
    extends Spares matcher.timeRange cell value where
  looked : matcher.decideRow cell = none
  behind : cell.Behind value
  real : cell.IsReal
  valueReal : value.IsReal

omit [CellFilter φ] in
theorem Awaits.not_full (hawaits : matcher.Awaits value) :
    matcher.columns.taken value.qualifier ≠ matcher.columns.rule.max := by
  have hversions := hawaits.versions
  have huntouched := hawaits.untouched
  omega

/-- The cells of its row are looked at. -/
theorem Awaits.looked (hawaits : matcher.Awaits value) (hplain : Plain matcher)
    (hrow : matcher.row = some cell.row) (hsame : value.row = cell.row) :
    matcher.decideRow cell = none := by
  have hcontains := hawaits.asked
  rw [hsame, RowRange.contains, Bool.and_eq_true, Bool.not_eq_true', Bool.not_eq_true'] at hcontains
  have hcompare : matcher.compareRow cell = .eq := by
    rw [compareRow, hrow, hplain.order]
    exact Std.ReflCmp.compare_self
  have hunfinished : matcher.columns.isFinished = false := Bool.eq_false_iff.mpr fun hfinished =>
    hawaits.not_full (ColumnProgress.taken_of_isFinished hfinished value.qualifier)
  exact (decideRow_eq_none_iff hplain).mpr
    ⟨hcontains.symm, hcompare, hawaits.reading, hunfinished⟩

section Before

variable (hawaits : matcher.Awaits value) (hjudged : Judged matcher cell decision next)
variable (hprecedes : Precedes matcher cell value)
include hawaits hjudged hprecedes

/-- A cell before the value is passed over or a marker, or it lies in an earlier column. -/
theorem Awaits.stays_or_lt :
    ((decision = .emit ∨ decision = .skip) ∧ next.columns = matcher.columns) ∨
      cell.qualifier < value.qualifier := by
  have hlt (hne : ¬cell.qualifier = value.qualifier) : cell.qualifier < value.qualifier := by
    have := hprecedes.behind.qualifier_le
    grind
  cases hjudged with
  | row decision hrow => cases hprecedes.looked.symm.trans hrow
  | expired hrow hage =>
      refine .inr (hlt fun hsame => ?_)
      have hold := VersionRule.rulesOut_mono (hprecedes.behind.timestamp_le hsame) hage
      cases hawaits.age.symm.trans hold
  | marker hconsiders hdelete =>
      refine .inl ⟨?_, ?_⟩
      · exact matcher.markerDecision_eq.imp And.left And.left
      · simp only [decideMarker]
        split <;> rfl
  | masked hconsiders hvalue hhides => exact .inl ⟨.inr rfl, rfl⟩
  | tooNew hlive hposition => exact .inl ⟨.inr rfl, rfl⟩
  | tooOld hlive hposition =>
      refine .inr (hlt fun hsame => ?_)
      have hearly := TimeRange.position_mono (hprecedes.behind.timestamp_le hsame) hposition
      cases hawaits.inside.symm.trans hearly
  | version decision columns hlive hposition hchecked =>
      have hput := hprecedes.real.kind_eq_put hlive.value
      exact .inr (hlt fun hsame => hprecedes.newest hput hsame
        (hprecedes.behind.timestamp_lt hput hprecedes.valueReal hsame) hposition)

theorem Awaits.untouched_next : next.columns.taken value.qualifier = 0 := by
  rcases hawaits.stays_or_lt hjudged hprecedes with ⟨-, hcolumns⟩ | hlt
  · rw [hcolumns, hawaits.untouched]
  · rw [hjudged.taken_of_lt hlt, hawaits.untouched]

theorem Awaits.not_full_next :
    next.columns.taken value.qualifier ≠ next.columns.rule.max := by
  rw [hawaits.untouched_next hjudged hprecedes, rule_of_reset hjudged.reset_eq]
  have hversions := hawaits.versions
  omega

/-- So its column is still wanted, and the row is not left. -/
theorem Awaits.stays_in_row :
    decision ∉ [Decision.nextRow, .emitThenNextRow, .rowDone, .scanDone] := by
  have hwanted (hleaves : decision = .nextRow ∨ decision = .emitThenNextRow) : False :=
    hawaits.not_full_next hjudged hprecedes (ColumnProgress.taken_of_isFinished
      (hjudged.isFinished_of_row hprecedes.looked hleaves) value.qualifier)
  intro hmem
  simp only [List.mem_cons, List.not_mem_nil, or_false] at hmem
  rcases hmem with hleaves | hleaves | hdone | hdone
  · exact hwanted (.inl hleaves)
  · exact hwanted (.inr hleaves)
  · cases hprecedes.looked.symm.trans (hjudged.of_done (.inl hdone)).2
  · cases hprecedes.looked.symm.trans (hjudged.of_done (.inr hdone)).2

/-- A value that is waited for is still waited for after a decision on a cell before it. -/
theorem Awaits.judged (hmet : matcher.markers.Met cell) : next.Awaits value where
  asked := by rw [rows_of_reset hjudged.reset_eq, hawaits.asked]
  inside := by rw [timeRange_of_reset hjudged.reset_eq, hawaits.inside]
  age := by rw [rule_of_reset hjudged.reset_eq, hawaits.age]
  versions := by
    rw [rule_of_reset hjudged.reset_eq]
    exact hawaits.versions
  reading := by
    refine Bool.eq_false_iff.mpr fun hover => ?_
    rcases hjudged.rowOver hover with hbefore | hleaves
    · cases hawaits.reading.symm.trans hbefore
    · exact hawaits.stays_in_row hjudged hprecedes (by simp [hleaves])
  untouched := hawaits.untouched_next hjudged hprecedes
  fresh := hjudged.fresh hprecedes.real hprecedes.valueReal hprecedes.behind hawaits.fresh
  room := hjudged.hasRoom hawaits.room
  live := hjudged.not_hides hmet hprecedes.behind.leads hawaits.live hprecedes.keeps

/-- It is not passed over either. -/
theorem Awaits.leaves (hplain : Plain matcher) : next.leaves cell decision value = true := by
  have hcolumn (hleaves : decision = .nextColumn ∨ decision = .emitThenNextColumn) :
      next.passes cell value = false := by
    have hlt : cell.qualifier < value.qualifier := by
      rcases hawaits.stays_or_lt hjudged hprecedes with ⟨hstays, -⟩ | hlt
      · rcases hleaves with rfl | rfl <;> simp at hstays
      · exact hlt
    refine Bool.eq_false_iff.mpr fun hpasses => ?_
    unfold passes at hpasses
    split at hpasses
    next column hcolumn =>
      exact hawaits.not_full_next hjudged hprecedes (ColumnProgress.taken_of_lt_next
        (hjudged.columns_ascending hplain.columns) hcolumn (of_decide_eq_true hpasses))
    next => exact absurd hlt (Std.not_lt.mpr (of_decide_eq_true hpasses))
  have hrow := hawaits.stays_in_row hjudged hprecedes
  cases decision with
  | emit => exact decide_eq_true hprecedes.behind.ne
  | skip => exact decide_eq_true hprecedes.behind.ne
  | seekTo key => exact absurd rfl (hjudged.ne_seekTo key)
  | nextColumn => simp only [Matcher.leaves, hcolumn (.inl rfl), Bool.not_false]
  | emitThenNextColumn => simp only [Matcher.leaves, hcolumn (.inr rfl), Bool.not_false]
  | nextRow => simp at hrow
  | emitThenNextRow => simp at hrow
  | rowDone => simp at hrow
  | scanDone => simp at hrow

end Before

/-- When the matcher comes to the value, it hands it out. -/
theorem Awaits.emits (hawaits : matcher.Awaits value) (hplain : Plain matcher)
    (hrow : matcher.row = some value.row) (hput : value.kind = .put)
    (hjudged : Judged matcher value decision next) : decision.emits = true := by
  have hdelete : value.isDelete = false := by rw [Cell.isDelete, hput]; rfl
  cases hjudged with
  | row decision hdecided =>
      cases (hawaits.looked hplain hrow rfl).symm.trans hdecided
  | expired hrow hage => cases hawaits.age.symm.trans hage
  | marker hconsiders hmarker => cases hdelete.symm.trans hmarker
  | masked hconsiders hvalue hhides => cases hawaits.live.symm.trans hhides
  | tooNew hlive hposition => cases hawaits.inside.symm.trans hposition
  | tooOld hlive hposition => cases hawaits.inside.symm.trans hposition
  | version decision columns hlive hposition hchecked =>
      rw [(hchecked.emits_eq hawaits.fresh hplain.columns hawaits.room).1, ColumnProgress.grants,
        hawaits.untouched]
      have hversions : 0 < matcher.columns.rule.max := hawaits.versions
      have hage := hawaits.age
      rw [VersionRule.rulesOut, Bool.and_eq_false_iff] at hage
      rcases hage with hkept | hyoung
      · have hmin : 0 < matcher.columns.rule.min := by
          have hne : ¬matcher.columns.rule.min = 0 := of_decide_eq_false hkept
          omega
        simp [hversions, hmin]
      · simp [hversions, hyoung]

end MergeScan.Matcher
