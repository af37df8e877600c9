import MergeScan.Proofs.Matcher.Awaits
import MergeScan.Proofs.Scanner.Picked
import MergeScan.Proofs.Scanner.Reference

/-! # Reads at a point in time

A scan hands out values of its time range only. Of each column that it wants it hands out the
newest one of them, unless a marker deletes it or it has expired. The range at one timestamp has
nothing else in it, so a scan of it hands out what was written then. The range at the timestamp
before the newest one is the exception: it has no end, and so the newest timestamp is in it too.
-/

namespace MergeScan

open CellOrder

/-- The range at a timestamp ends behind it, unless that is the newest timestamp. -/
theorem TimeRange.position_single_iff {timestamp other : Timestamp} :
    (single timestamp).position other = .eq ↔
      other = timestamp ∨ timestamp.next = .latest ∧ other = .latest := by
  have hnext : timestamp.next.toNat = min (timestamp.toNat + 1) (UInt64.size - 1) :=
    Timestamp.toNat_clamp _
  have hlatest : Timestamp.latest.toNat = UInt64.size - 1 := rfl
  have hsize := timestamp.toNat_lt_size
  have hother := other.toNat_lt_size
  have heq (left right : Timestamp) : left = right ↔ left.toNat = right.toNat :=
    ⟨congrArg _, Timestamp.toNat_injective⟩
  simp only [position, single, Timestamp.lt_iff_toNat, Timestamp.le_iff_toNat, ne_eq, heq, hnext,
    hlatest]
  split
  · exact iff_of_false (by decide) (by omega)
  · split
    · exact iff_of_false (by decide) (by omega)
    · exact iff_of_true rfl (by omega)

namespace Matcher

variable {φ : Type} [CellFilter φ] {matcher : Matcher φ} {cell value other : Cell}
variable {rest ahead : List Cell} {name : Bytes}

/-! ## What is handed out lies inside the time range -/

omit [CellFilter φ] in
theorem timeRange_inRow (matcher : Matcher φ) (row : Bytes) :
    (matcher.inRow row).timeRange = matcher.timeRange := by
  unfold Matcher.inRow
  split <;> rfl

theorem Prepared.inside_of_mem_output (hprepared : Prepared name matcher ahead)
    (hvalues : matcher.retainDeletes = false) (hcell : cell ∈ matcher.output ahead) :
    matcher.timeRange.position cell.timestamp = .eq := by
  -- what a single look hands out is in the time range
  have hfirst {matcher : Matcher φ} {first : Cell} {rest : List Cell}
      (hjudged : Judged matcher first (matcher.judge first).1 (matcher.judge first).2)
      (hvalues : matcher.retainDeletes = false)
      (hcell : cell ∈ (matcher.look first rest).emitted.toList) :
      matcher.timeRange.position cell.timestamp = .eq := by
    rw [Option.mem_toList, Matcher.look, Decision.emitted] at hcell
    split at hcell
    next hemits =>
      cases hcell
      exact (hjudged.of_emits (.inr hvalues) hemits).2.1
    next => cases hcell
  induction matcher, ahead using output_induction with
  | nil matcher =>
      rw [output_nil] at hcell
      cases hcell
  | ends matcher first rest ending hcourse =>
      rw [output_cons_error hcourse] at hcell
      rw [← timeRange_inRow matcher first.row]
      exact hfirst hprepared.inRow_first.judged.2
        ((retainDeletes_inRow matcher first.row).trans hvalues) hcell
  | goOn matcher first rest further hcourse ih =>
      have hjudged := hprepared.inRow_first.judged.2
      have hretains := (retainDeletes_inRow matcher first.row).trans hvalues
      rw [output_cons_ok hcourse, List.mem_append] at hcell
      rw [← timeRange_inRow matcher first.row]
      rcases hcell with hcell | hcell
      · exact hfirst hjudged hretains hcell
      · rw [← timeRange_of_reset hjudged.reset_eq]
        exact ih (hprepared.inRow_first.look hcourse).toPrepared
          ((retainDeletes_of_reset hjudged.reset_eq).trans hretains) hcell

/-! ## A value that is waited for is handed out -/

/-- A matcher that will hand out a value of the cells ahead, of which there is one at each
place. -/
structure Expects (name : Bytes) (matcher : Matcher φ) (ahead : List Cell) (value : Cell) : Prop
    extends Prepared name matcher ahead where
  named : name ≠ []
  single : keys.StrictlySorted ahead
  mem : value ∈ ahead
  put : value.kind = .put
  awaits : (matcher.inRow value.row).Awaits value
  met other : other ∈ ahead → other.row = value.row →
    (matcher.inRow value.row).markers.Met other
  spares other : other ∈ ahead → other.row = value.row → Spares matcher.timeRange other value

omit [CellFilter φ] in
theorem Expects.inRow_first (hexpects : Expects name matcher (cell :: rest) value) :
    Expects name (matcher.inRow cell.row) (cell :: rest) value where
  toPrepared := hexpects.toPrepared.inRow_first.toPrepared
  named := hexpects.named
  single := hexpects.single
  mem := hexpects.mem
  put := hexpects.put
  awaits := by
    rw [hexpects.inRow_inRow_first hexpects.mem]
    exact hexpects.awaits
  met := by
    rw [hexpects.inRow_inRow_first hexpects.mem]
    exact hexpects.met
  spares := by
    rw [timeRange_inRow]
    exact hexpects.spares

omit [CellFilter φ] in
theorem Expects.behind_first (hexpects : Expects name matcher (cell :: rest) value)
    (hother : other ∈ rest) (hsame : other.row = cell.row) : cell.Behind other :=
  Cell.behind_of_lt (hexpects.stored cell List.mem_cons_self)
    (hexpects.stored other (List.mem_cons_of_mem _ hother)) hsame.symm
    ((List.pairwise_cons.mp hexpects.single).1 other hother)

section Here

variable (hexpects : Expects name matcher (cell :: rest) value)
variable (hrow : matcher.row = some cell.row)
include hexpects hrow

/-- In the row of the value, the first cell comes before it. -/
theorem Expects.precedes (hvalue : value ∈ rest) (hsame : value.row = cell.row) :
    matcher.Awaits value ∧ Precedes matcher cell value := by
  have hawaits := hexpects.awaits
  rw [hsame, inRow_of_row hrow] at hawaits
  exact ⟨hawaits, {
    toSpares := hexpects.spares cell List.mem_cons_self hsame.symm
    looked := hawaits.looked hexpects.plain hrow hsame
    behind := hexpects.behind_first hvalue hsame
    real := (hexpects.stored cell List.mem_cons_self).1
    valueReal := (hexpects.stored value (List.mem_cons_of_mem _ hvalue)).1 }⟩

/-- A look at a cell before the value does not end the scan. -/
theorem Expects.goes_on (hvalue : value ∈ rest) :
    ∃ ahead, (matcher.look cell rest).course = .ok ahead := by
  have hjudged := (hexpects.ready_here hrow).judged.2
  cases hcourse : (matcher.look cell rest).course with
  | ok ahead => exact ⟨ahead, rfl⟩
  | error ending =>
      obtain ⟨hleaves, hpast⟩ := hjudged.goOn_error hexpects.plain hrow hcourse
      rcases hexpects.row_cases hexpects.mem with hsame | hlt
      · obtain ⟨hawaits, hprecedes⟩ := hexpects.precedes hrow hvalue hsame
        have hleft := hawaits.leaves hjudged hprecedes hexpects.plain
        rw [hleaves] at hleft
        cases hleft
      · have hasked := hexpects.awaits.asked
        rw [rows_inRow, hpast value.row hlt] at hasked
        cases hasked

/-- In the row of the value, a look leaves it ahead, and it is still waited for. -/
theorem Expects.look_here (hvalue : value ∈ rest) (hsame : value.row = cell.row)
    (hcourse : (matcher.look cell rest).course = .ok ahead) :
    value ∈ ahead ∧ ((matcher.look cell rest).next.inRow value.row).Awaits value ∧
      ∀ other ∈ ahead, other.row = value.row →
        ((matcher.look cell rest).next.inRow value.row).markers.Met other := by
  have hjudged := (hexpects.ready_here hrow).judged.2
  have hahead := hjudged.goOn_eq_filter hexpects.single hexpects.stored hexpects.named hcourse
  have hmet := hexpects.met
  rw [hsame, inRow_of_row hrow] at hmet
  have hnext : (matcher.look cell rest).next.row = some cell.row :=
    (row_of_reset hjudged.reset_eq).trans hrow
  rw [hsame, inRow_of_row hnext]
  obtain ⟨hawaits, hprecedes⟩ := hexpects.precedes hrow hvalue hsame
  refine ⟨?_, ?_, fun other hother hothers => ?_⟩
  · rw [hahead, List.mem_filter, hawaits.leaves hjudged hprecedes hexpects.plain, Bool.or_true]
    exact ⟨hvalue, rfl⟩
  · exact hawaits.judged hjudged hprecedes (hmet cell List.mem_cons_self rfl)
  · have hmem := (goOn_suffix hcourse).subset hother
    exact hjudged.met (hexpects.behind_first hmem hothers).leads
      (hmet other (List.mem_cons_of_mem _ hmem) hothers)

/-- A look at a cell of an earlier row leaves the rows behind as they are. -/
theorem Expects.look_later (hvalue : value ∈ rest) (hlt : cell.row < value.row)
    (hcourse : (matcher.look cell rest).course = .ok ahead) :
    value ∈ ahead ∧
      (matcher.look cell rest).next.inRow value.row = matcher.inRow value.row := by
  have hjudged := (hexpects.ready_here hrow).judged.2
  have hahead := hjudged.goOn_eq_filter hexpects.single hexpects.stored hexpects.named hcourse
  have hnext : (matcher.look cell rest).next.row = some cell.row :=
    (row_of_reset hjudged.reset_eq).trans hrow
  refine ⟨?_, ?_⟩
  · have hne : value.row ≠ cell.row := fun hsame => Std.lt_irrefl (hsame ▸ hlt)
    rw [hahead, List.mem_filter, decide_eq_true hne]
    exact ⟨hvalue, rfl⟩
  · rw [inRow_eq_entered fun current hcurrent =>
        Option.some.inj (hnext.symm.trans hcurrent) ▸ hlt,
      inRow_eq_entered fun current hcurrent => Option.some.inj (hrow.symm.trans hcurrent) ▸ hlt]
    exact entered_of_reset hjudged.reset_eq value.row

theorem Expects.look (hvalue : value ∈ rest)
    (hcourse : (matcher.look cell rest).course = .ok ahead) :
    Expects name (matcher.look cell rest).next ahead value := by
  have hready := hexpects.ready_here hrow
  have hrest (other : Cell) (hother : other ∈ ahead) : other ∈ cell :: rest :=
    List.mem_cons_of_mem _ ((goOn_suffix hcourse).subset hother)
  have hspares (other : Cell) (hother : other ∈ ahead) := hexpects.spares other (hrest other hother)
  rw [← timeRange_of_reset (hexpects.ready_here hrow).judged.2.reset_eq] at hspares
  have hsingle := hexpects.single.sublist ((goOn_suffix hcourse).sublist.cons cell)
  rcases hexpects.row_cases hexpects.mem with hsame | hlt
  · obtain ⟨hmem, hawaits, hmet⟩ := hexpects.look_here hrow hvalue hsame hcourse
    exact ⟨(hready.look hcourse).toPrepared, hexpects.named, hsingle, hmem, hexpects.put, hawaits,
      hmet, hspares⟩
  · obtain ⟨hmem, hrows⟩ := hexpects.look_later hrow hvalue hlt hcourse
    exact ⟨(hready.look hcourse).toPrepared, hexpects.named, hsingle, hmem, hexpects.put,
      hrows ▸ hexpects.awaits, hrows ▸ fun other hother => hexpects.met other (hrest other hother),
      hspares⟩

end Here

/-- A look at the value hands it out. -/
theorem Expects.emitted (hexpects : Expects name matcher (value :: rest) value)
    (hrow : matcher.row = some value.row) : (matcher.look value rest).emitted = some value := by
  have hawaits := hexpects.awaits
  rw [inRow_of_row hrow] at hawaits
  have hemits := hawaits.emits hexpects.plain hrow hexpects.put ((hexpects.ready_here hrow).judged.2)
  rw [Matcher.look, Decision.emitted, if_pos hemits]

theorem Expects.mem_output (hexpects : Expects name matcher ahead value) :
    value ∈ matcher.output ahead := by
  induction matcher, ahead using output_induction with
  | nil matcher => exact absurd hexpects.mem List.not_mem_nil
  | ends matcher cell rest ending hcourse =>
      have hrow := row_inRow matcher cell.row
      have hexpects := hexpects.inRow_first
      rcases List.mem_cons.mp hexpects.mem with rfl | hvalue
      · rw [output_cons_error hcourse, hexpects.emitted hrow]
        exact List.mem_singleton_self value
      · obtain ⟨ahead, hgoesOn⟩ := hexpects.goes_on hrow hvalue
        rw [hcourse] at hgoesOn
        cases hgoesOn
  | goOn matcher cell rest ahead hcourse ih =>
      have hrow := row_inRow matcher cell.row
      have hexpects := hexpects.inRow_first
      rw [output_cons_ok hcourse, List.mem_append]
      rcases List.mem_cons.mp hexpects.mem with rfl | hvalue
      · rw [hexpects.emitted hrow]
        exact .inl (List.mem_singleton_self value)
      · exact .inr (ih (hexpects.look hrow hvalue hcourse))

end Matcher

namespace Scan

variable {φ : Type} {family : Family} {scan : Scan φ} {cells : List Cell} {value : Cell}

/-- A value that a scan of a list asks for, of which no marker deletes it and no newer version
takes its place. -/
structure Gives (family : Family) (scan : Scan φ) (cells : List Cell) (value : Cell) : Prop where
  put : value.kind = .put
  asked : scan.rows.contains value.row = true
  wanted : scan.wants value.qualifier = true
  inside : scan.timeRange.position value.timestamp = .eq
  age : family.rulesOut value.timestamp = false
  spares other : other ∈ cells → other.row = value.row →
    Matcher.Spares scan.timeRange other value

/-- At the beginning of its row, such a value is waited for. -/
theorem Gives.awaits (hgives : scan.Gives family cells value) (hscan : scan.Unfiltered family) :
    ((Matcher.ofScan family scan).entered value.row).Awaits value where
  asked := hgives.asked
  inside := hgives.inside
  age := (Matcher.rulesOut_entered family scan value.row value.timestamp).trans hgives.age
  versions := Nat.le_min.mpr ⟨hscan.wellFormed.versions, hscan.familyWellFormed⟩
  reading := rfl
  untouched := by rw [Matcher.taken_entered, if_pos hgives.wanted]
  fresh := nofun
  room := ColumnProgress.hasRoom_reset
    (Nat.le_min.mpr ⟨hscan.wellFormed.versions, hscan.familyWellFormed⟩)
  live := rfl

theorem Gives.expects_start (hgives : scan.Gives family cells value)
    (hscan : scan.Unfiltered family) (hname : family.name ≠ [])
    (hsingle : keys.StrictlySorted cells) (hstored : Cell.StoredIn family.name cells)
    (hvalue : value ∈ cells) :
    (Matcher.ofScan family scan).Expects family.name
      (keys.skipTo (Matcher.ofScan family scan).startKey cells) value where
  toPrepared := hscan.prepared_start hsingle.sorted hstored
  named := hname
  single := hsingle.skipTo _
  mem := by
    have hasked := hgives.asked
    rw [RowRange.contains, Bool.and_eq_true, Bool.not_eq_true'] at hasked
    refine (mem_skipTo hsingle.sorted).mpr
      ⟨hvalue, mt (lt_startKey_iff (hstored value hvalue)).mp ?_⟩
    rw [hasked.1]
    exact Bool.false_ne_true
  put := hgives.put
  awaits := hgives.awaits hscan
  met other _ _ := RowMarkers.met_empty other
  spares other hother := hgives.spares other ((skipTo_sublist _ _).subset hother)

variable [CellFilter φ]

/-- Of several copies of such a value, the freshest is handed out. -/
theorem Gives.mem_output (hgives : scan.Gives family cells value) (hplain : scan.Plain family)
    (hname : family.name ≠ []) (hsorted : keys.Sorted cells)
    (hstored : Cell.StoredIn family.name cells) (hvalue : value ∈ Cell.freshest cells) :
    value ∈ (Matcher.ofScan family scan).output
      (keys.skipTo (Matcher.ofScan family scan).startKey cells) := by
  have hfreshest : Cell.freshest cells = SortedRun.dedupe cells :=
    congrArg SortedRun.dedupe (sort_of_sorted hsorted)
  have hmem (cell : Cell) (hcell : cell ∈ Cell.freshest cells) := Cell.mem_of_mem_freshest hcell
  have hfew : scan.Gives family (Cell.freshest cells) value :=
    { hgives with spares := fun other hother => hgives.spares other (hmem other hother) }
  have hexpects := hfew.expects_start hplain.unfiltered hname (Cell.freshest_strictlySorted cells)
    (fun cell hcell => hstored cell (hmem cell hcell)) hvalue
  have houtput := hplain.output_start_dedupe hsorted hstored
  rw [← hfreshest] at houtput
  exact (congrArg (value ∈ ·) houtput).mp hexpects.mem_output

variable {σ : Type} [Source σ] [LawfulSource σ keys] {supply : Supply σ}

/-- A scan of the range at one timestamp hands out what was written at this time, and the newest
timestamp too if this is the next one. Of every row and column that it wants it hands out the value
that was written then, if no marker of the row deletes it, it is not too old, and no version at the
newest timestamp takes its place. -/
theorem Plain.yields_at (hplain : scan.Plain family) (hname : family.name ≠ [])
    (hbatch : scan.batch ≠ some 0) (hsupply : supply.Orderly family.name scan.request)
    {timestamp : Timestamp} (hrange : scan.timeRange = .single timestamp) :
    ∃ total, scan.Yields family supply total ∧
      (∀ cell ∈ total, cell.timestamp = timestamp ∨
        timestamp.next = .latest ∧ cell.timestamp = .latest) ∧
      ∀ value ∈ Cell.freshest (supply.cells scan.request), value.kind = .put →
        value.timestamp = timestamp → scan.rows.contains value.row = true →
        scan.wants value.qualifier = true → family.rulesOut timestamp = false →
        (∀ marker ∈ supply.cells scan.request, marker.row = value.row →
          marker.masks value = false) →
        (timestamp.next = .latest → ∀ late ∈ supply.cells scan.request, late.kind = .put →
          late.isNewer value = false) → value ∈ total := by
  have hsorted := supply.cells_sorted scan.request
  have hstored := hsupply.stored_cells
  refine ⟨_, hplain.wellFormed.yields_gather hplain.order hplain.unfiltered.steady hbatch hsupply,
    ?_, ?_⟩ <;> rw [← hplain.unfiltered.output_eq_gather hsorted hstored]
  · intro cell hcell
    have hprepared := hplain.unfiltered.prepared_start hsorted hstored
    have hinside : scan.timeRange.position cell.timestamp = .eq :=
      hprepared.inside_of_mem_output hplain.retainDeletes hcell
    rw [hrange] at hinside
    exact TimeRange.position_single_iff.mp hinside
  · rintro value hvalue hput rfl hasked hwanted hage hspared hlatest
    refine Gives.mem_output ?_ hplain hname hsorted hstored hvalue
    refine ⟨hput, hasked, hwanted, ?_, hage, fun other hother hrow =>
      ⟨hspared other hother hrow, fun hvalue hcolumn hlt hinside => ?_⟩⟩
    · rw [hrange]
      exact TimeRange.position_single_iff.mpr (.inl rfl)
    · rw [hrange] at hinside
      rcases TimeRange.position_single_iff.mp hinside with hsame | ⟨hnext, -⟩
      · exact Std.lt_irrefl (hsame ▸ hlt)
      · have hnewer := hlatest hnext other hother hvalue
        simp [Cell.isNewer, hrow, hcolumn, hlt] at hnewer

/-- Of three versions of a column a scan of the time of the second one hands out that one. Its
other column is deleted. -/
theorem Plain.yields_at_of_script :
    let family : Family := { name := [102], maxVersions := 1, clock := .manual .oldest }
    let scan : Scan AnyFilter := { timeRange := .single ⟨2⟩ }
    let value (column : UInt8) (time : UInt64) := Cell.put [114] [102] [column] ⟨time⟩ [1]
    let script : SourceScript := { sequenceId := 1, cells := [value 99 3, value 99 2, value 99 1,
      .deleteColumn [114] [102] [100] ⟨2⟩, value 100 2] }
    let supply : Supply ScriptedSource := fun _ => .ok [script.open .keys 0]
    (scan.Plain family ∧ supply.Orderly family.name scan.request) ∧
      ∃ total, scan.Yields family supply total ∧ value 99 2 ∈ total ∧
        ∀ cell ∈ total, cell.timestamp = ⟨2⟩ := by
  intro family scan value script supply
  have hplain : scan.Plain family := ⟨⟨List.Pairwise.nil, by decide⟩, Nat.le_refl 1, rfl, rfl, rfl⟩
  have hsupply : supply.Sound family.name scan.request :=
    script.sound ⟨rfl, rfl⟩ (by decide) (by decide) _
  have hall : supply.cells scan.request = script.cells :=
    merged_singleton (by decide : keys.Sorted (Part.mk 1 script.cells).cells)
  have hsingle : keys.StrictlySorted script.cells := by
    rw [CellOrder.StrictlySorted]
    decide
  have hnext : (Timestamp.mk 2).next ≠ .latest := by decide
  obtain ⟨total, hyields, htimes, hvalues⟩ :=
    hplain.yields_at (by decide) (fun hzero => by cases hzero) hsupply.orderly rfl
  refine ⟨⟨hplain, hsupply.orderly⟩, total, hyields, ?_, fun cell hcell => ?_⟩
  · refine hvalues (value 99 2) ?_ rfl rfl (by decide) rfl rfl ?_ fun hlatest =>
      absurd hlatest hnext
    · rw [hall, Cell.freshest_of_strictlySorted hsingle]
      decide
    · rw [hall]
      decide
  · exact (htimes cell hcell).resolve_right fun hlate => hnext hlate.1

/-- The range at the timestamp before the newest one has no end. So a scan of it hands out a value
of the newest timestamp instead of the one that was written then. -/
theorem single_before_latest_reads_on :
    let family : Family := { name := [102], maxVersions := 1, clock := .manual .oldest }
    let before : Timestamp := ⟨0xfffffffffffffffe⟩
    let scan : Scan AnyFilter := { timeRange := .single before }
    let late := Cell.put [114] [102] [99] .latest [1]
    let script : SourceScript := { sequenceId := 1, cells := [late,
      .put [114] [102] [99] before [2]] }
    let supply : Supply ScriptedSource := fun _ => .ok [script.open .keys 0]
    late.timestamp ≠ before ∧
      ∃ scanner, (Scanner.open family supply 0 scan).value = .ok scanner ∧
        scanner.run [.read .ofScan, .read .ofScan] supply =
          [.ok ⟨[late], true⟩, .ok ⟨[], false⟩] := by
  intro family before scan late script supply
  refine ⟨by decide, _, rfl, ?_⟩
  simp only [family, before, scan, late, script, supply]
  cbv

end Scan

end MergeScan
