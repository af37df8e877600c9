import MergeScan.Proofs.Store.Merging

/-! # The runs of a store are arranged

Every run of a store has an id of its own, the runs stand in the order of their ranks, and
both ids and ranks stay below the ones that are given away next. Writes keep it so, and so
does a compaction, whatever it makes of the cells of its window. No more than that, and the
usual order of cells, is needed for a compaction of a window to succeed.
-/

namespace MergeScan.Store

open CellOrder

/-- What holds of a store with the usual order of cells whatever happens to it, as long as the
cells that are written are real. -/
structure Arranged (store : Store) : Prop extends Kept store where
  order : store.family.order = .keys
  versions : store.family.WellFormed
  distinct : (store.runs.map SortedRun.id).Nodup
  numbered run : run ∈ store.runs → run.id.number < store.runsAdded

variable {store : Store} {ids : List RunId} {newer window older : List SortedRun} {major : Bool}
variable {run : Option SortedRun}

theorem fresh_arranged {family : Family} (horder : family.order = .keys)
    (hversions : family.WellFormed) : Arranged { family } where
  toKept := fresh_kept family
  order := horder
  versions := hversions
  distinct := List.nodup_nil
  numbered _ hrun := nomatch hrun

/-! ## Writes -/

theorem Arranged.insert (hstore : Arranged store) {cell : Cell} (hcell : cell.IsReal)
    (hfamily : cell.family = store.family.name) :
    Arranged { store with buffer := store.buffer.insert cell } :=
  ⟨hstore.toKept.insert hcell hfamily, hstore.order, hstore.versions, hstore.distinct,
    hstore.numbered⟩

/-- A run that is added gets a new id. -/
theorem Arranged.ids_addRun (hstore : Arranged store) (cells : List Cell) :
    ((store.addRun cells).2.runs.map SortedRun.id).Nodup ∧
      ∀ run ∈ (store.addRun cells).2.runs, run.id.number < (store.addRun cells).2.runsAdded := by
  refine ⟨List.nodup_cons.mpr ⟨fun hmem => ?_, hstore.distinct⟩, fun run hrun => ?_⟩
  · obtain ⟨run, hrun, heq⟩ := List.mem_map.mp hmem
    have hlt := hstore.numbered run hrun
    rw [heq] at hlt
    exact Nat.lt_irrefl _ hlt
  · rcases List.mem_cons.mp hrun with rfl | hmem
    · exact Nat.lt_succ_self _
    · exact Nat.lt_succ_of_lt (hstore.numbered run hmem)

theorem Arranged.addRun (hstore : Arranged store) {cells : List Cell}
    (hcells : Cell.StoredIn store.family.name cells) : Arranged (store.addRun cells).2 := by
  obtain ⟨hdistinct, hnumbered⟩ := hstore.ids_addRun cells
  exact ⟨hstore.toKept.addRun hcells, hstore.order, hstore.versions, hdistinct, hnumbered⟩

theorem Arranged.flush (hstore : Arranged store) : Arranged store.flush.value.2 := by
  cases hbuffer : store.buffer.isEmpty with
  | true => rwa [flush_of_empty hbuffer]
  | false =>
      obtain ⟨hdistinct, hnumbered⟩ := hstore.ids_addRun store.buffer.cells
      refine ⟨hstore.toKept.flush, ?_, ?_, ?_, ?_⟩ <;> rw [flush_of_nonempty hbuffer]
      · exact hstore.order
      · exact hstore.versions
      · exact hdistinct
      · exact hnumbered

/-! ## Windows -/

/-- A run of the store after a compaction was there before, or is the one that was made. -/
theorem Window.run_cases (hwindow : Window store ids newer window older) {other : SortedRun}
    (hother : other ∈ (store.withWindow newer run older).runs) :
    other ∈ store.runs ∨ run = some other := by
  rcases List.mem_append.mp hother with hfirst | holder
  · rcases List.mem_append.mp hfirst with hnewer | hkept
    · exact .inl (hwindow.mem_runs (List.mem_append_left _ (List.mem_append_left _ hnewer)))
    · exact .inr (Option.mem_toList.mp hkept)
  · exact .inl (hwindow.mem_runs (List.mem_append_right _ holder))

/-- The store after a compaction has no cells but the ones it had before. -/
theorem Window.mem_cells (hwindow : Window store ids newer window older)
    (hmerged : Merged store window run) {cell : Cell}
    (hcell : cell ∈ (store.withWindow newer run older).cells) : cell ∈ store.cells := by
  rcases List.mem_append.mp hcell with hbuffer | hrun
  · exact List.mem_append_left _ hbuffer
  · obtain ⟨other, hother, hcell⟩ := List.mem_flatMap.mp hrun
    rcases hwindow.run_cases hother with hold | hmade
    · exact List.mem_append_right _ (List.mem_flatMap.mpr ⟨other, hold, hcell⟩)
    · exact hwindow.mem_cells_of_input
        (List.mem_flatMap.mpr (hmerged.cells other hmade cell hcell))

/-- The run that a compaction makes gets a new id. -/
theorem Arranged.ids_withWindow (hstore : Arranged store)
    (hwindow : Window store ids newer window older) (hmerged : Merged store window run) :
    ((store.withWindow newer run older).runs.map SortedRun.id).Nodup ∧
      ∀ other ∈ (store.withWindow newer run older).runs,
        other.id.number < store.runsAdded + run.toList.length := by
  have hsub : (newer ++ older).Sublist store.runs := by
    rw [hwindow.runs]
    exact List.Sublist.append_right (List.sublist_append_left newer window) older
  have hothers : ((newer ++ older).map SortedRun.id).Nodup := hstore.distinct.sublist (hsub.map _)
  have hnew (made : SortedRun) (hmade : run = some made) : made.id.number = store.runsAdded :=
    congrArg RunId.number (hmerged.id made hmade)
  refine ⟨?_, fun other hother => ?_⟩
  · show ((newer ++ run.toList ++ older).map SortedRun.id).Nodup
    cases hmade : run with
    | none => simpa using hothers
    | some made =>
        have hperm : (newer ++ [made] ++ older).Perm (made :: (newer ++ older)) := by
          rw [List.append_assoc]
          exact List.perm_middle
        rw [Option.toList_some, (hperm.map SortedRun.id).nodup_iff, List.map_cons, List.nodup_cons]
        refine ⟨fun hmem => ?_, hothers⟩
        obtain ⟨other, hother, heq⟩ := List.mem_map.mp hmem
        -- the id that it shares would be one that was given away before
        have hlt := hstore.numbered other (hsub.mem hother)
        rw [heq, hnew made hmade] at hlt
        exact Nat.lt_irrefl _ hlt
  · rcases hwindow.run_cases hother with hold | hmade
    · exact Nat.lt_add_right _ (hstore.numbered other hold)
    · rw [hnew other hmade, hmade]
      exact Nat.lt_succ_self _

/-- A compaction leaves a store arranged. -/
theorem Arranged.withWindow (hstore : Arranged store)
    (hwindow : Window store ids newer window older) (hmerged : Merged store window run) :
    Arranged (store.withWindow newer run older) := by
  obtain ⟨hdistinct, hnumbered⟩ := hstore.ids_withWindow hwindow hmerged
  refine ⟨⟨⟨hstore.sound.buffer, fun other hother => ?_, ?_, fun other hother => ?_⟩,
    fun cell hcell => hstore.stored cell (hwindow.mem_cells hmerged hcell), hstore.bounded⟩,
    hstore.order, hstore.versions, hdistinct, hnumbered⟩
  · rcases hwindow.run_cases hother with hold | hmade
    · exact hstore.sound.runs other hold
    · exact hmerged.sorted other hmade
  · exact hmerged.ranked (hwindow.runs ▸ hstore.sound.ranked)
  · rcases hwindow.run_cases hother with hold | hmade
    · exact hstore.sound.recent other hold
    · obtain ⟨input, hmem, hrank⟩ := hmerged.rank_mem hmade
      rw [← hrank]
      exact hstore.sound.recent input (hwindow.mem_inputs hmem)

/-- A compaction of a window succeeds, and puts one run at most in its place. -/
theorem Arranged.compact (hstore : Arranged store) (hwindow : Window store ids newer window older)
    (hwhole : major = true → newer = [] ∧ older = []) :
    ∃ run, Merged store window run ∧ (store.compact ids major).value =
      .ok (⟨(window.flatMap SortedRun.toList).length, run⟩, store.withWindow newer run older) := by
  have hinputs := hwindow.mergeable hstore.sound hstore.stored
  have hmerge := mergeRuns_ok hstore.order hstore.versions hinputs
    (hwindow.selectRuns hstore.distinct hwhole)
  have hcells : ∀ cell ∈ (Reading.start store.family (store.compactionScan major)
      (gathered window)).output [], ∃ input ∈ window, cell ∈ input.toList := fun cell hcell =>
    mem_gathered.mp ((skipTo_sublist _ _).mem ((Matcher.output_sublist _ _).mem hcell))
  have hmerged := merged_mergedRun store hcells
  exact ⟨_, hmerged, hwindow.compact_of_mergeRuns hstore.sound hstore.distinct hmerge hmerged⟩

/-- A compaction fails and changes nothing, or puts one run at most in the place of a window. -/
theorem Arranged.compact_cases (hstore : Arranged store) (ids : List RunId) (major : Bool) :
    (∃ failure, store.selectRuns ids major = .error failure ∧
      store.compact ids major = pure (.error failure)) ∨
      ∃ newer window older run, Window store ids newer window older ∧
        store.selectRuns ids major = .ok window ∧ Merged store window run ∧
        (store.compact ids major).value = .ok (⟨(window.flatMap SortedRun.toList).length, run⟩,
          store.withWindow newer run older) := by
  cases hselect : store.selectRuns ids major with
  | error failure =>
      refine .inl ⟨failure, rfl, ?_⟩
      rw [Store.compact, mergeRuns, hselect]
      rfl
  | ok window =>
      obtain ⟨newer, older, hwindow, hwhole⟩ := Window.of_selectRuns hstore.distinct hselect
      obtain ⟨run, hmerged, hcompact⟩ := hstore.compact hwindow hwhole
      exact .inr ⟨newer, window, older, run, hwindow, rfl, hmerged, hcompact⟩

end MergeScan.Store
