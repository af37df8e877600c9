import Mathlib
import MergeScan.Proofs.Store.Compaction
import MergeScan.Proofs.Store.Reads

/-! # Markers that outlive a compaction

A compaction that keeps markers still drops those that come up behind the last version of
their column that a family keeps, since the rest of the column is passed over then. All
other markers that have not expired are there afterwards, and go on deleting what they
deleted in the runs that were not compacted.
-/

namespace MergeScan

open CellOrder

variable {family : Family} {cells : List Cell} {marker copy : Cell}

/-- A marker is carried along that has not expired and comes before the last version of its column
that is kept. -/
theorem Family.carries_of_depth_lt (hcells : keys.StrictlySorted cells)
    (hdelete : marker.isDelete = true) (hyoung : family.hasExpired marker.timestamp = false)
    (hdepth : marker.depth cells < family.maxVersions) : family.carries cells marker = true := by
  have hage : family.rulesOut marker.timestamp = false := by
    rw [rulesOut, hyoung, Bool.and_false]
  refine carries_iff.mpr ⟨⟨hdelete, hage⟩, fun other hother hnewer hlive => ?_⟩
  -- a newer live version has fewer live versions in front of it than the marker
  have hlt : other.depth cells < marker.depth cells := by
    refine Cell.depth_lt hcells hother hlive fun third hthird hwhich hlive => ?_
    refine ⟨third, hthird, Std.ReflCmp.compare_self, ?_, hlive⟩
    rcases hwhich with rfl | hthird
    · exact hnewer
    · exact Cell.isNewer_trans hthird hnewer
  have holder : family.hasExpired other.timestamp = false :=
    Bool.eq_false_iff.mpr fun hexpired => by
      rw [hasExpired_of_le (Std.le_of_lt (Cell.isNewer_iff.mp hnewer).2) hexpired] at hyoung
      cases hyoung
  have hroom : other.depth cells + 1 < family.maxVersions := by omega
  rw [readsOn, holder, Bool.not_false, Bool.or_true, Bool.and_true, decide_eq_true_eq]
  exact hroom

namespace Store

variable {store : Store} {ids : List RunId} {newer window older : List SortedRun}
variable {request : SourceRequest}

/-- What is kept of a window has a copy of each marker that has not expired and comes before the
last version of its column that is kept. -/
theorem exists_kept_marker (hreal : ∀ cell ∈ window.flatMap SortedRun.toList, cell.IsReal)
    (hmarker : marker ∈ window.flatMap SortedRun.toList) (hdelete : marker.isDelete = true)
    (hyoung : store.family.hasExpired marker.timestamp = false)
    (hdepth : marker.depth (Cell.freshest (window.flatMap SortedRun.toList)) <
      store.family.maxVersions) :
    ∃ merged ∈ store.keptRun false window, ∃ copy ∈ merged.toList,
      Cell.compareKeys copy marker = .eq := by
  obtain ⟨copy, hcopy, hsame⟩ := Cell.exists_freshest hmarker
  have heq := Cell.eq_withValue (hreal marker hmarker)
    (hreal copy (Cell.mem_of_mem_freshest hcopy)) hsame
  have hcarries : store.family.carries (Cell.freshest (window.flatMap SortedRun.toList)) copy =
      true := by
    refine Family.carries_of_depth_lt (Cell.freshest_strictlySorted _) ?_ ?_ ?_ <;> rw [heq]
    · exact hdelete
    · exact hyoung
    · exact hdepth
  have hkept : copy ∈ store.keptCells false window := by
    rw [keptCells_eq]
    exact List.mem_filter.mpr ⟨hcopy, by rw [hcarries]; simp⟩
  rw [← toList_keptRun] at hkept
  obtain ⟨merged, hmerged, hcopy⟩ := List.mem_flatMap.mp hkept
  exact ⟨merged, Option.mem_toList.mp hmerged, copy, hcopy, hsame⟩

/-- A scan reads the cells of a run that concerns it. -/
theorem Sound.mem_supply_cells_of_run (hstore : Sound store) {run : SortedRun} {cell : Cell}
    (hrun : run ∈ store.runs) (hselection : request.selection ≠ .memoryOnly)
    (hconcerns : run.concerns request = true) (hcell : cell ∈ run.toList) :
    cell ∈ store.supply.cells request := by
  have hremaining : cell ∈ (store.sources request).flatMap Source.remaining := by
    rw [hstore.remaining_sources, if_pos hselection]
    refine List.mem_append_right _ (List.mem_flatMap.mpr ⟨run, ?_, hcell⟩)
    exact List.mem_filter.mpr ⟨hrun, hconcerns⟩
  obtain ⟨source, hsource, hcell⟩ := List.mem_flatMap.mp hremaining
  exact mem_merged.mpr ⟨_, List.mem_map_of_mem hsource, hcell⟩

/-- A scan of values hands out none that a marker deletes which it reads. -/
theorem Orderly.scansTo_unmasked (hstore : Orderly store)
    (hroom : store.nextSequence ≤ bufferSequence) {φ : Type} [CellFilter φ] {scan : Scan φ}
    (hplain : scan.Plain store.family) (hmarker : copy ∈ store.supply.cells scan.request) :
    ∃ total, store.supply.ScansTo store.family scan total ∧
      ∀ value ∈ total, copy.row = value.row → copy.masks value = false := by
  have hsupply := hstore.sound.supply_sound hstore.stored hroom scan.request
  refine ⟨_, hstore.toKept.supply_scansTo hroom hplain.unfiltered, fun value hvalue hrow => ?_⟩
  exact hplain.not_masks_of_mem hstore.usual.named (store.supply.cells_sorted scan.request)
    hsupply.stored (fun cell hcell => hstore.tagged cell (hstore.sound.mem_supply_cells hcell))
    hvalue hmarker hrow

/-- After a compaction of a window of runs that keeps markers, a marker of these runs that has
not expired is still there, unless as many newer versions of its column are live in them as the
family keeps. Then no scan that reads the run which was made hands out a value that the marker
deletes. -/
theorem minor_compaction_keeps_marker {family : Family} (hfamily : family.Usual)
    {actions : List StoreAction}
    (hcells : ∀ action ∈ actions, ∀ cell ∈ action.cells, cell.IsReal ∧ cell.Tagged)
    (hroom : actions.length < bufferSequence)
    (hwindow : Window (performAll { family } actions) ids newer window older) :
    ∃ output next, ((performAll { family } actions).compact ids false).value = .ok (output, next) ∧
      ∀ run ∈ window, ∀ marker ∈ run.toList, marker.isDelete = true →
        family.hasExpired marker.timestamp = false →
        marker.depth (Cell.freshest (window.flatMap SortedRun.toList)) < family.maxVersions →
        ∃ merged ∈ output.run,
          (∃ copy ∈ merged.toList, Cell.compareKeys copy marker = .eq) ∧
          ∀ {φ : Type} [CellFilter φ] (scan : Scan φ), scan.Plain family →
            scan.selection ≠ .memoryOnly → merged.concerns scan.request = true →
            ∃ total, next.supply.ScansTo family scan total ∧
              ∀ value ∈ total, marker.row = value.row → marker.masks value = false := by
  have hreached := (fresh_orderly hfamily).performAll hcells
  have hname : (performAll { family } actions).family = family := hreached.family
  generalize performAll { family } actions = store at hwindow hname hreached ⊢
  subst hname
  have hstore := hreached.orderly
  have hnext := hstore.withWindow hwindow false
  have hreal (cell : Cell) (hcell : cell ∈ window.flatMap SortedRun.toList) : cell.IsReal :=
    (hstore.stored cell (hwindow.mem_cells_of_input hcell)).1
  refine ⟨_, _, hstore.compact hwindow (absurd · Bool.false_ne_true),
    fun run hrun marker hmarker hdelete hyoung hdepth => ?_⟩
  have hmarker := List.mem_flatMap.mpr ⟨run, hrun, hmarker⟩
  obtain ⟨merged, hmerged, copy, hcopy, hsame⟩ :=
    exists_kept_marker hreal hmarker hdelete hyoung hdepth
  refine ⟨merged, hmerged, ⟨copy, hcopy, hsame⟩, fun scan hplain hselection hconcerns => ?_⟩
  have hrun : merged ∈ (store.withWindow newer (store.keptRun false window) older).runs :=
    List.mem_append_left _ (List.mem_append_right _ (Option.mem_toList.mpr hmerged))
  obtain ⟨total, htotal, hunmasked⟩ := hnext.scansTo_unmasked (hreached.hasRoom hroom) hplain
    (hnext.sound.mem_supply_cells_of_run hrun hselection hconcerns hcopy)
  have hmem := hnext.stored copy
    (List.mem_append_right _ (List.mem_flatMap.mpr ⟨merged, hrun, hcopy⟩))
  refine ⟨total, htotal, fun value hvalue hrow => ?_⟩
  -- the copy that was kept deletes what the marker deletes
  obtain ⟨hrows, hmasks⟩ := Cell.masks_copy hmem.1 (hreal marker hmarker) hsame value
  rw [← hmasks]
  exact hunmasked value hvalue (hrows.trans hrow)

/-- The run that is compacted has a marker behind one version of a column of which two are kept. A
scan of old times reads what is made of it and an older run with a value that the marker deletes. -/
theorem minor_compaction_keeps_marker_of_load :
    let family : Family := { name := [102], maxVersions := 2, clock := .manual .oldest }
    let value (time : UInt64) := Cell.put [114] [102] [99] ⟨time⟩ [1]
    let marker := Cell.deleteColumn [114] [102] [99] ⟨5⟩
    let actions : List StoreAction := [.bulkLoad [value 4], .bulkLoad [value 9, marker]]
    let store := performAll { family } actions
    let scan : Scan AnyFilter := { timeRange := .between ⟨0⟩ ⟨6⟩ }
    (family.Usual ∧ (∀ action ∈ actions, ∀ cell ∈ action.cells, cell.IsReal ∧ cell.Tagged) ∧
      actions.length < bufferSequence ∧
      Window store [⟨1⟩] [] (store.runs.take 1) (store.runs.drop 1) ∧
      (∃ run ∈ store.runs.take 1, marker ∈ run.toList) ∧ marker.isDelete = true ∧
      family.hasExpired marker.timestamp = false ∧
      marker.depth (Cell.freshest ((store.runs.take 1).flatMap SortedRun.toList)) <
        family.maxVersions ∧ scan.Plain family ∧ scan.selection ≠ .memoryOnly) ∧
      ∃ output next, (store.compact [⟨1⟩] false).value = .ok (output, next) ∧
        ∃ merged ∈ output.run, (∃ copy ∈ merged.toList, Cell.compareKeys copy marker = .eq) ∧
          merged.concerns scan.request = true ∧
          ∃ total, next.supply.ScansTo family scan total ∧
            ∀ value ∈ total, marker.row = value.row → marker.masks value = false := by
  intro family value marker actions store scan
  have hfamily : family.Usual := ⟨rfl, Nat.le_succ 1, List.cons_ne_nil _ _⟩
  have hcells : ∀ action ∈ actions, ∀ cell ∈ action.cells, cell.IsReal ∧ cell.Tagged := by decide
  have hids : (store.runs.take 1).map SortedRun.id = [⟨1⟩] := rfl
  have hwindow : Window store [⟨1⟩] [] (store.runs.take 1) (store.runs.drop 1) :=
    ⟨rfl, fun id => by rw [← List.mem_map, hids]⟩
  have hmarker : ∃ run ∈ store.runs.take 1, marker ∈ run.toList := by
    simp only [store, actions, value, marker, family]
    decide_cbv
  have hyoung : family.hasExpired marker.timestamp = false := rfl
  have hdepth : marker.depth (Cell.freshest ((store.runs.take 1).flatMap SortedRun.toList)) <
      family.maxVersions := by
    simp only [store, actions, value, marker, family]
    decide_cbv
  have hscan : scan.Plain family :=
    ⟨⟨List.Pairwise.nil, Nat.le_refl 1⟩, hfamily.versions, rfl, rfl, rfl⟩
  have hselection : scan.selection ≠ .memoryOnly := by rintro ⟨⟩
  have hconcerns :
      (store.keptRun false (store.runs.take 1)).all (·.concerns scan.request) = true := by
    simp only [store, actions, value, marker, family, scan]
    decide_cbv
  have hroom : actions.length < bufferSequence := by decide
  obtain ⟨run, hrun, hmem⟩ := hmarker
  obtain ⟨output, next, hcompact, hkeeps⟩ :=
    minor_compaction_keeps_marker hfamily hcells hroom hwindow
  obtain ⟨merged, hmerged, hcopy, hscans⟩ := hkeeps run hrun marker hmem rfl hyoung hdepth
  have hstore := ((fresh_orderly hfamily).performAll hcells : Reached _ _ store).orderly
  have houtput : output.run = store.keptRun false (store.runs.take 1) := by
    have heq := hcompact.symm.trans (hstore.compact hwindow (absurd · Bool.false_ne_true))
    cases heq
    rfl
  have hmergedConcerns : merged.concerns scan.request = true :=
    (Option.all_eq_true _ _).mp hconcerns merged (houtput ▸ hmerged)
  exact ⟨⟨hfamily, hcells, hroom, hwindow, ⟨run, hrun, hmem⟩, rfl, hyoung, hdepth, hscan,
      hselection⟩,
    output, next, hcompact, merged, hmerged, hcopy, hmergedConcerns,
    hscans scan hscan hselection hmergedConcerns⟩

/-- A marker behind the last version of its column that is kept is gone after the compaction, and
an old value that it deleted is handed out again. -/
theorem marker_behind_last_version_lost :
    let family : Family := { name := [102], clock := .manual .oldest }
    let old := Cell.put [114] [102] [99] ⟨5⟩ [1]
    let new := Cell.put [114] [102] [99] ⟨10⟩ [2]
    let marker := Cell.delete [114] [102] [99] ⟨5⟩
    let store := performAll { family } [.add old, .flush, .add new, .add marker, .flush]
    let scan : Scan AnyFilter := { timeRange := .between ⟨0⟩ ⟨6⟩ }
    ∃ output next, (store.compact [⟨1⟩] false).value = .ok (output, next) ∧
      (store.runs.take 1).flatMap SortedRun.toList = [new, marker] ∧
      family.hasExpired marker.timestamp = false ∧
      output.run.toList.flatMap SortedRun.toList = [new] ∧
      store.supply.ScansTo family scan [] ∧ next.supply.ScansTo family scan [old] := by
  intro family old new marker store scan
  have hfamily : family.Usual := ⟨rfl, Nat.le_refl 1, List.cons_ne_nil _ _⟩
  have hscan : scan.Unfiltered family :=
    ⟨⟨List.Pairwise.nil, Nat.le_refl 1⟩, hfamily.versions, rfl, rfl⟩
  have hstore := ((fresh_orderly hfamily).performAll (by decide) : Reached _ _ store).orderly
  have hids : (store.runs.take 1).map SortedRun.id = [⟨1⟩] := rfl
  have hwindow : Window store [⟨1⟩] [] (store.runs.take 1) (store.runs.drop 1) :=
    ⟨rfl, fun id => by rw [← List.mem_map, hids]⟩
  have hnext := hstore.withWindow hwindow false
  have hbefore := hstore.toKept.supply_scansTo (by decide) hscan
  have hafter := hnext.toKept.supply_scansTo (by decide) hscan
  have hhidden : (Reading.start family scan (store.supply.cells scan.request)).output [] = [] := by
    simp only [store, old, new, marker, family, scan]
    decide_cbv
  have hshown : (Reading.start family scan ((store.withWindow [] (store.keptRun false
      (store.runs.take 1)) (store.runs.drop 1)).supply.cells scan.request)).output [] = [old] := by
    simp only [store, old, new, marker, family, scan]
    decide_cbv
  have hinput : (store.runs.take 1).flatMap SortedRun.toList = [new, marker] := by
    simp only [store, old, new, marker, family]
    decide_cbv
  have hkept :
      (store.keptRun false (store.runs.take 1)).toList.flatMap SortedRun.toList = [new] := by
    simp only [store, old, new, marker, family]
    decide_cbv
  exact ⟨_, _, hstore.compact hwindow (absurd · Bool.false_ne_true), hinput, rfl, hkept,
    hhidden ▸ hbefore, hshown ▸ hafter⟩

end Store

end MergeScan
