import MergeScan.Proofs.Matcher.Steps
import MergeScan.Proofs.Scan.Reference

/-! # Markers that are remembered

Of the markers of a row only two are remembered at a time. For the values that are still
ahead they stand for all markers that were met.
-/

namespace MergeScan

/-- Whether a cell comes behind another one of its row. -/
def Cell.Behind (first second : Cell) : Prop :=
  first.qualifier < second.qualifier ∨ first.qualifier = second.qualifier ∧
    (second.timestamp < first.timestamp ∨
      second.timestamp = first.timestamp ∧ second.kind.code < first.kind.code)

namespace Cell

variable {first second : Cell}

theorem behind_of_lt {name : Bytes} (hfirst : first.IsReal ∧ first.family = name)
    (hsecond : second.IsReal ∧ second.family = name) (hrow : first.row = second.row)
    (hlt : compareKeys first second = .lt) : Behind first second := by
  have hlater := (compareKeys_eq_lt_iff hfirst.1.not_lastOnRow hsecond.1.not_lastOnRow).mp hlt
  rw [hrow, hfirst.2, hsecond.2] at hlater
  simpa [Std.lt_irrefl, Behind] using hlater

theorem Behind.qualifier_le (hbehind : Behind first second) :
    first.qualifier ≤ second.qualifier := by
  rcases hbehind with hlt | ⟨heq, -⟩
  · exact Std.le_of_lt hlt
  · exact heq ▸ Std.le_refl _

theorem Behind.timestamp_le (hbehind : Behind first second)
    (hcolumn : first.qualifier = second.qualifier) : second.timestamp ≤ first.timestamp := by
  rcases hbehind with hlt | ⟨-, hlt | ⟨heq, -⟩⟩
  · exact absurd (hcolumn ▸ hlt) Std.lt_irrefl
  · exact Std.le_of_lt hlt
  · exact heq ▸ Std.le_refl _

/-- Whether a cell comes no later in its row than another one, whatever their kinds. -/
structure Leads (first second : Cell) : Prop where
  qualifier_le : first.qualifier ≤ second.qualifier
  timestamp_le : first.qualifier = second.qualifier → second.timestamp ≤ first.timestamp

theorem Behind.leads (hbehind : Behind first second) : Leads first second :=
  ⟨hbehind.qualifier_le, hbehind.timestamp_le⟩

/-- The empty qualifier is the one of markers on a whole row, and only of those. -/
def Tagged (cell : Cell) : Prop :=
  cell.qualifier = [] ↔ cell.kind = .deleteFamily

instance (cell : Cell) : Decidable cell.Tagged :=
  inferInstanceAs (Decidable (_ ↔ _))

theorem IsReal.kind_eq_put {cell : Cell} (hreal : cell.IsReal) (hvalue : cell.isDelete = false) :
    cell.kind = .put := by
  have hkind := And.intro hreal.1 hreal.2
  unfold isDelete at hvalue
  cases heq : cell.kind <;> simp_all [CellKind.isDelete]

theorem masks_of_put {marker : Cell} (hkind : marker.kind = .put) (value : Cell) :
    marker.masks value = false := by
  rw [masks, hkind]

theorem isDelete_of_masks {marker value : Cell} (hmasks : marker.masks value = true) :
    marker.isDelete = true := by
  rw [isDelete]
  unfold masks at hmasks
  cases hkind : marker.kind <;> simp_all [CellKind.isDelete]

/-- A marker that is not one on a whole row deletes nothing of another column. -/
theorem not_masks_of_ne {marker value : Cell} (htagged : marker.Tagged)
    (hcolumn : marker.qualifier ≠ []) (hne : marker.qualifier ≠ value.qualifier) :
    marker.masks value = false := by
  have hkind := mt htagged.mpr hcolumn
  unfold masks
  cases hcase : marker.kind <;> simp_all

theorem timestamp_le_of_masks {marker value : Cell} (hmasks : marker.masks value = true) :
    value.timestamp ≤ marker.timestamp := by
  unfold masks at hmasks
  split at hmasks
  · exact of_decide_eq_true hmasks
  · exact of_decide_eq_true (Bool.and_eq_true _ _ ▸ hmasks).2
  · exact of_decide_eq_true (Bool.and_eq_true _ _ ▸ hmasks).2 ▸ Std.le_refl _
  · cases hmasks
  · cases hmasks
  · cases hmasks

/-- Markers come before the values that they delete. -/
theorem Behind.not_masks (hbehind : Behind first second) (hfirst : first.Tagged)
    (hsecond : second.Tagged) (hvalue : first.kind = .put) : second.masks first = false := by
  -- in one column what comes later is older, or of a kind with a lower code
  have hcolumn : second.qualifier = first.qualifier → first.timestamp ≤ second.timestamp →
      ¬first.kind.code ≤ second.kind.code := by
    intro hsame hle hcode
    rcases hbehind with hlt | ⟨-, hlt | ⟨-, hlt⟩⟩
    · exact Std.lt_irrefl (hsame ▸ hlt)
    · exact absurd hle (Std.not_le.mpr hlt)
    · exact absurd hcode (Std.not_le.mpr hlt)
  rw [hvalue] at hcolumn
  unfold masks
  cases hkind : second.kind with
  | deleteFamily =>
      have hempty : second.qualifier = [] := hsecond.mpr hkind
      have hle := hbehind.qualifier_le
      rw [hempty] at hle
      have hfirst := hfirst.mp (List.le_nil.mp hle)
      rw [hvalue] at hfirst
      cases hfirst
  | deleteColumn =>
      simp only [Bool.and_eq_false_iff, decide_eq_false_iff_not]
      by_cases hsame : second.qualifier = first.qualifier
      · exact .inr fun hle => hcolumn hsame hle (by rw [hkind]; decide)
      · exact .inl hsame
  | delete =>
      simp only [Bool.and_eq_false_iff, decide_eq_false_iff_not]
      by_cases hsame : second.qualifier = first.qualifier
      · exact .inr fun heq => hcolumn hsame (heq ▸ Std.le_refl _) (by rw [hkind]; decide)
      · exact .inl hsame
  | minimum => rfl
  | put => rfl
  | maximum => rfl

end Cell

/-- The cell that a marker on a column was remembered for, as far as it matters for the cells
of its row. -/
def ColumnMarker.cell (marker : ColumnMarker) : Cell :=
  ⟨[], [], marker.qualifier, marker.timestamp, marker.kind, []⟩

namespace RowMarkers

variable {markers : RowMarkers} {cell value : Cell}

/-- The marker on a column that is remembered was met before the cell, or is another copy of it. -/
structure Met (markers : RowMarkers) (cell : Cell) : Prop where
  kind marker : markers.column = some marker → marker.kind = .delete ∨ marker.kind = .deleteColumn
  leads marker : markers.column = some marker → marker.cell.Leads cell

theorem met_empty (cell : Cell) : Met .empty cell := ⟨nofun, nofun⟩

theorem Met.of_column (hmet : Met markers cell) {other : RowMarkers}
    (hcolumn : ∀ marker, other.column = some marker → markers.column = some marker) :
    Met other cell :=
  ⟨fun marker hmarker => hmet.kind marker (hcolumn marker hmarker),
    fun marker hmarker => hmet.leads marker (hcolumn marker hmarker)⟩

theorem Met.add (hmet : Met markers value) (hleads : cell.Leads value)
    (hdelete : cell.isDelete = true) :
    Met (markers.add cell.qualifier cell.kind cell.timestamp) value := by
  unfold RowMarkers.add
  split
  · exact hmet
  · split
    · exact hmet.of_column fun _ hmarker => hmarker
    next hkind =>
      split
      · exact hmet
      · refine ⟨?_, ?_⟩
        · rintro _ ⟨⟩
          unfold Cell.isDelete at hdelete
          cases hcell : cell.kind <;> simp_all [CellKind.isDelete]
        · rintro _ ⟨⟩
          exact ⟨hleads.qualifier_le, hleads.timestamp_le⟩

/-- A marker on the column of a value deletes it if it is a wide one or of the same time. -/
theorem hides_eq_true : markers.hides value.qualifier value.timestamp = true ↔
    markers.coversRow value.timestamp = true ∨ ∃ marker, markers.column = some marker ∧
      marker.qualifier = value.qualifier ∧
        (marker.kind = .deleteColumn ∨ marker.timestamp = value.timestamp) := by
  simp [hides, Option.any_eq_true]

/-- A value that is looked at changes nothing for the values behind it. -/
theorem Met.hides_after (hmet : Met markers cell) (hleads : cell.Leads value) :
    (markers.after cell.qualifier cell.timestamp).hides value.qualifier value.timestamp =
      markers.hides value.qualifier value.timestamp := by
  unfold after
  split
  · rfl
  next hnot =>
    rw [hides_eq_true, not_or] at hnot
    rw [Bool.eq_iff_iff, hides_eq_true, hides_eq_true]
    refine or_congr Iff.rfl ⟨nofun, ?_⟩
    rintro ⟨marker, hmarker, hcolumn, hwide⟩
    -- the marker is on the column of the cell, and deletes what lies behind, but not the cell
    have hbefore := hmet.leads marker hmarker
    have hsame : marker.qualifier = cell.qualifier :=
      Std.le_antisymm hbefore.qualifier_le (hcolumn ▸ hleads.qualifier_le)
    refine (hnot.2 ⟨marker, hmarker, hsame, hwide.imp_right fun hstamp => ?_⟩).elim
    have hge : marker.timestamp ≤ cell.timestamp :=
      hstamp ▸ hleads.timestamp_le (hsame.symm.trans hcolumn)
    exact Std.le_antisymm hge (hbefore.timestamp_le hsame)

theorem coversRow_mono {timestamp older : Timestamp} (holder : older ≤ timestamp)
    (hcovers : markers.coversRow timestamp = true) : markers.coversRow older = true := by
  unfold coversRow at hcovers ⊢
  split at hcovers
  · exact decide_eq_true (Std.le_trans holder (of_decide_eq_true hcovers))
  · cases hcovers

/-- A marker on the whole row that was not covered covers more than those before it. -/
theorem le_of_coversRow (hnot : ¬markers.coversRow cell.timestamp = true)
    (hcovers : markers.coversRow value.timestamp = true) : value.timestamp ≤ cell.timestamp := by
  rcases @Std.le_total _ _ _ value.timestamp cell.timestamp with hle | hle
  · exact hle
  · exact absurd (coversRow_mono hle hcovers) hnot

/-- What a marker on a column deletes of the values behind it. -/
theorem masks_iff_of_column (hleads : cell.Leads value)
    (hkind : cell.kind = .delete ∨ cell.kind = .deleteColumn) :
    cell.masks value = true ↔ cell.qualifier = value.qualifier ∧
      (cell.kind = .deleteColumn ∨ cell.timestamp = value.timestamp) := by
  rcases hkind with hkind | hkind <;> simp only [Cell.masks, hkind, Bool.and_eq_true,
    decide_eq_true_eq, reduceCtorEq, false_or, true_or, and_true]
  · exact and_congr_right fun _ => eq_comm
  · exact ⟨And.left, fun hcolumn => ⟨hcolumn, hleads.timestamp_le hcolumn⟩⟩

theorem coversColumn_iff {qualifier : Bytes} {kind : CellKind} :
    markers.coversColumn qualifier kind = true ↔ ∃ marker, markers.column = some marker ∧
      kind.code < marker.kind.code ∧ marker.qualifier = qualifier := by
  unfold coversColumn
  cases markers.column <;> simp

/-- A marker on a column is remembered instead of an earlier one that is not a wider one of this
column. What the earlier one deletes behind it, it deletes as well. -/
theorem Met.replaces (hmet : Met markers cell) (hleads : cell.Leads value)
    (hkind : cell.kind = .delete ∨ cell.kind = .deleteColumn)
    (hcolumn : ¬markers.coversColumn cell.qualifier cell.kind = true) {marker : ColumnMarker}
    (hmarker : markers.column = some marker) (hvalue : marker.qualifier = value.qualifier)
    (hwide : marker.kind = .deleteColumn ∨ marker.timestamp = value.timestamp) :
    cell.qualifier = value.qualifier ∧
      (cell.kind = .deleteColumn ∨ cell.timestamp = value.timestamp) := by
  have hbefore := hmet.leads marker hmarker
  have hsame : marker.qualifier = cell.qualifier :=
    Std.le_antisymm hbefore.qualifier_le (hvalue ▸ hleads.qualifier_le)
  refine ⟨hsame.symm.trans hvalue, ?_⟩
  rcases hwide with hwide | hstamp
  · refine .inl (hkind.resolve_left fun hnarrow => hcolumn ?_)
    exact coversColumn_iff.mpr ⟨marker, hmarker, by rw [hwide, hnarrow]; decide, hsame⟩
  · refine .inr (Std.le_antisymm ?_ (hleads.timestamp_le (hsame.symm.trans hvalue)))
    exact hstamp ▸ hbefore.timestamp_le hsame

/-- A marker on the row that is newer than all before it deletes what is no newer. -/
theorem hides_withRow (hnot : ¬markers.coversRow cell.timestamp = true) :
    RowMarkers.hides { markers with wholeRow := some cell.timestamp } value.qualifier
        value.timestamp = true ↔
      markers.hides value.qualifier value.timestamp = true ∨ value.timestamp ≤ cell.timestamp := by
  have hcovers : RowMarkers.coversRow { markers with wholeRow := some cell.timestamp }
      value.timestamp = true ↔ value.timestamp ≤ cell.timestamp := decide_eq_true_iff
  rw [hides_eq_true, hides_eq_true, hcovers]
  constructor
  · rintro (hle | hcolumn)
    · exact .inr hle
    · exact .inl (.inr hcolumn)
  · rintro ((hrow | hcolumn) | hle)
    · exact .inl (le_of_coversRow hnot hrow)
    · exact .inr hcolumn
    · exact .inl hle

/-- A marker that covers another one of its column deletes all versions there. -/
theorem Met.exists_wide (hmet : Met markers cell)
    (hkind : cell.kind = .delete ∨ cell.kind = .deleteColumn)
    (hcovers : markers.coversColumn cell.qualifier cell.kind = true) :
    ∃ marker, markers.column = some marker ∧ marker.qualifier = cell.qualifier ∧
      marker.kind = .deleteColumn := by
  obtain ⟨marker, hmarker, hcode, hsame⟩ := coversColumn_iff.mp hcovers
  refine ⟨marker, hmarker, hsame, (hmet.kind marker hmarker).resolve_left fun hnarrow => ?_⟩
  rcases hkind with hkind | hkind <;> rw [hnarrow, hkind] at hcode <;>
    exact absurd hcode (by decide)

/-- After a marker was added, exactly what it deletes is deleted as well. -/
theorem Met.hides_add (hmet : Met markers cell) (hleads : cell.Leads value)
    (hdelete : cell.isDelete = true) :
    (markers.add cell.qualifier cell.kind cell.timestamp).hides value.qualifier value.timestamp =
      (markers.hides value.qualifier value.timestamp || cell.masks value) := by
  rw [Bool.eq_iff_iff, Bool.or_eq_true]
  unfold RowMarkers.add
  split
  next hcovers =>
    -- a marker on the row that is newer makes this one superfluous
    refine ⟨.inl, ?_⟩
    rintro (hhides | hmasks)
    · exact hhides
    · exact hides_eq_true.mpr (.inl (coversRow_mono (Cell.timestamp_le_of_masks hmasks) hcovers))
  next hnot =>
    split
    next hkind =>
      have hmasks : cell.masks value = true ↔ value.timestamp ≤ cell.timestamp := by
        simp only [Cell.masks, hkind, decide_eq_true_eq]
      rw [hmasks]
      exact hides_withRow hnot
    next hkind =>
      have hkind : cell.kind = .delete ∨ cell.kind = .deleteColumn := by
        unfold Cell.isDelete at hdelete
        cases hcell : cell.kind <;> simp_all [CellKind.isDelete]
      rw [masks_iff_of_column hleads hkind]
      split
      next hcovers =>
        obtain ⟨marker, hmarker, hsame, hwide⟩ := hmet.exists_wide hkind hcovers
        refine ⟨.inl, ?_⟩
        rintro (hhides | ⟨hvalue, -⟩)
        · exact hhides
        · exact hides_eq_true.mpr (.inr ⟨marker, hmarker, hsame.trans hvalue, .inl hwide⟩)
      next hcolumn =>
        rw [hides_eq_true, hides_eq_true]
        constructor
        · rintro (hrow | ⟨_, ⟨⟩, hnew⟩)
          · exact .inl (.inl hrow)
          · exact .inr hnew
        · rintro ((hrow | ⟨marker, hmarker, hvalue, hwide⟩) | hnew)
          · exact .inl hrow
          · exact .inr ⟨_, rfl, hmet.replaces hleads hkind hcolumn hmarker hvalue hwide⟩
          · exact .inr ⟨_, rfl, hnew⟩

end RowMarkers

namespace Matcher

variable {φ : Type} [CellFilter φ] {matcher next : Matcher φ} {cell other : Cell}
variable {decision : Decision}

/-- Markers that are ahead were met no earlier than the cell. -/
theorem Judged.met (hjudged : Judged matcher cell decision next) (hleads : cell.Leads other)
    (hmet : matcher.markers.Met other) : next.markers.Met other := by
  cases hjudged with
  | row decision hrow => exact hmet
  | expired hrow hage => exact hmet
  | marker hconsiders hdelete =>
      simp only [decideMarker]
      split
      · exact hmet.add hleads hdelete
      · exact hmet
  | masked hconsiders hvalue hhides => exact hmet.of_column fun _ => RowMarkers.column_after
  | tooNew hlive hposition => exact hmet.of_column fun _ => RowMarkers.column_after
  | tooOld hlive hposition => exact hmet.of_column fun _ => RowMarkers.column_after
  | version decision columns hlive hposition hchecked =>
      exact hmet.of_column fun _ => RowMarkers.column_after

/-- What was deleted ahead stays so. -/
theorem Judged.hides (hjudged : Judged matcher cell decision next)
    (hmet : matcher.markers.Met cell) (hleads : cell.Leads other)
    (hhides : matcher.markers.hides other.qualifier other.timestamp = true) :
    next.markers.hides other.qualifier other.timestamp = true := by
  have hafter : (matcher.afterMarkers cell).markers.hides other.qualifier other.timestamp = true :=
    (hmet.hides_after hleads).trans hhides
  cases hjudged with
  | row decision hrow => exact hhides
  | expired hrow hage => exact hhides
  | marker hconsiders hdelete =>
      simp only [decideMarker]
      split
      · rw [hmet.hides_add hleads hdelete, hhides, Bool.true_or]
      · exact hhides
  | masked hconsiders hvalue hmasked => exact hafter
  | tooNew hlive hposition => exact hafter
  | tooOld hlive hposition => exact hafter
  | version decision columns hlive hposition hchecked => exact hafter

end Matcher

end MergeScan
