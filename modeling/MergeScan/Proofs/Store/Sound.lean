import MergeScan.Proofs.Merge.Moves
import MergeScan.Proofs.Source.Any
import MergeScan.Proofs.Source.Distinct
import MergeScan.Store.Basic

/-! # The data of a store are in order

A store keeps its buffer and its runs strictly sorted, and its runs in the order
of their ranks. So the sources that it hands out can be merged, and what they make
together is the cells of the buffer and of the runs, the freshest first.
-/

namespace MergeScan

open CellOrder

namespace LawfulSource

theorem buffer_fresh {buffer : Buffer} (hcells : keys.StrictlySorted buffer.cells)
    (generation sequenceId : Nat) :
    Fresh keys (AnySource.buffer (buffer.cursor generation sequenceId)) buffer.cells := by
  refine ⟨⟨rfl, rfl, hcells, buffer.cells, List.suffix_refl _, rfl⟩, trivial, ?_⟩
  exact BufferCursor.remaining_eq hcells (List.suffix_refl _) rfl

theorem run_fresh {run : SortedRun} (hcells : keys.Sorted run.toList) :
    Fresh keys (AnySource.run run.reader) run.toList :=
  ⟨⟨rfl, rfl, hcells⟩, trivial, rfl⟩

end LawfulSource

theorem SortedRun.toList_ofCells (id : RunId) (sequenceId : Nat) (cells : List Cell) :
    (ofCells id sequenceId cells).toList = dedupe (keys.sort cells) := rfl

theorem SortedRun.ofCells_strictlySorted (id : RunId) (sequenceId : Nat) (cells : List Cell) :
    keys.StrictlySorted (ofCells id sequenceId cells).toList :=
  dedupe_strictlySorted (sort_sorted cells)

/-- A run keeps the first cell at each place. -/
theorem SortedRun.copies_ofCells (id : RunId) (sequenceId : Nat) (cells : List Cell)
    (place : Cell) : keys.copies place (ofCells id sequenceId cells).toList =
      (keys.copies place cells).head?.toList := by
  rw [toList_ofCells, copies_dedupe (sort_sorted cells), copies_sort]

theorem TimeRange.all_overlaps (oldest newest : Timestamp) :
    TimeRange.all.overlaps oldest newest = true := by
  simp [TimeRange.overlaps, TimeRange.all, Timestamp.oldest_le]

namespace Store

/-- The order that a store keeps its data in. -/
structure Sound (store : Store) : Prop where
  buffer : keys.StrictlySorted store.buffer.cells
  runs run : run ∈ store.runs → keys.StrictlySorted run.toList
  ranked : store.runs.Pairwise fun left right => right.sequenceId < left.sequenceId
  recent run : run ∈ store.runs → run.sequenceId < store.nextSequence

/-- The cells of a store, those of the freshest source first. -/
def cells (store : Store) : List Cell :=
  store.buffer.cells ++ store.runs.flatMap SortedRun.toList

theorem fresh_sound (family : Family) : Sound { family } :=
  ⟨List.Pairwise.nil, nofun, List.Pairwise.nil, nofun⟩

variable {store : Store}

theorem Sound.addRun (hstore : Sound store) (cells : List Cell) : Sound (store.addRun cells).2 where
  buffer := hstore.buffer
  runs run hrun := by
    rcases List.mem_cons.mp hrun with rfl | hmem
    · exact SortedRun.ofCells_strictlySorted _ _ cells
    · exact hstore.runs run hmem
  ranked := List.pairwise_cons.mpr ⟨hstore.recent, hstore.ranked⟩
  recent run hrun := by
    rcases List.mem_cons.mp hrun with rfl | hmem
    · exact Nat.lt_succ_self store.nextSequence
    · exact Nat.lt_succ_of_lt (hstore.recent run hmem)

/-- Only the order in which sources are handed out is seen in what they make together. -/
theorem merged_ranked {sources : List AnySource}
    (hranked : (sources.map Source.part).Pairwise fun left right => right.rank < left.rank) :
    keys.merged (sources.map Source.part) = keys.sort (sources.flatMap Source.remaining) := by
  rw [merged, Part.freshestFirst_eq (List.Perm.refl _) hranked, List.flatMap_map]
  rfl

/-- The sources that a scan selects, of which a store leaves some out. -/
def allSources (store : Store) (selection : SourceSelection) : List AnySource :=
  (if selection ≠ .filesOnly then
    [.buffer (store.buffer.cursor store.generation bufferSequence)] else []) ++
  if selection ≠ .memoryOnly then store.runs.map fun run => .run run.reader else []

theorem sources_sublist (store : Store) (request : SourceRequest) :
    (store.sources request).Sublist (store.allSources request.selection) := by
  apply List.Sublist.append
  · unfold bufferSource
    by_cases hselection : request.selection ≠ .filesOnly
    · rw [if_pos hselection]
      split
      · exact List.Sublist.refl _
      · exact List.nil_sublist _
    · rw [if_neg (by simp [hselection])]
      exact List.nil_sublist _
  · unfold runSources
    split
    · exact List.filter_sublist.map _
    · exact List.Sublist.refl _

theorem mem_allSources {selection : SourceSelection} {source : AnySource}
    (hsource : source ∈ store.allSources selection) :
    source = .buffer (store.buffer.cursor store.generation bufferSequence) ∨
      ∃ run ∈ store.runs, source = .run run.reader := by
  rcases List.mem_append.mp hsource with hbuffer | hrun
  · split at hbuffer
    · exact .inl (List.mem_singleton.mp hbuffer)
    · cases hbuffer
  · split at hrun
    · obtain ⟨run, hmem, rfl⟩ := List.mem_map.mp hrun
      exact .inr ⟨run, hmem, rfl⟩
    · cases hrun

/-- The buffer is handed out as a fresh source, and so is every run. -/
theorem Sound.allSources_fresh (hstore : Sound store) {selection : SourceSelection}
    {source : AnySource} (hsource : source ∈ store.allSources selection) : ∃ held,
      LawfulSource.Fresh keys source held ∧ keys.StrictlySorted held ∧
        ∀ cell ∈ held, cell ∈ store.cells := by
  rcases mem_allSources hsource with rfl | ⟨run, hrun, rfl⟩
  · exact ⟨_, LawfulSource.buffer_fresh hstore.buffer _ _, hstore.buffer,
      fun cell hcell => List.mem_append_left _ hcell⟩
  · have hstrict := hstore.runs run hrun
    exact ⟨_, LawfulSource.run_fresh hstrict.sorted, hstrict,
      fun cell hcell => List.mem_append_right _ (List.mem_flatMap.mpr ⟨run, hrun, hcell⟩)⟩

theorem Sound.sources_fresh (hstore : Sound store) {request : SourceRequest} {source : AnySource}
    (hsource : source ∈ store.sources request) : ∃ held,
      LawfulSource.Fresh keys source held ∧ keys.StrictlySorted held ∧
        ∀ cell ∈ held, cell ∈ store.cells :=
  hstore.allSources_fresh ((store.sources_sublist request).mem hsource)

/-- Sources are handed out by descending rank, as long as the ranks of the runs stay
below the one of the buffer. -/
theorem Sound.allSources_ranked (hstore : Sound store)
    (hroom : store.nextSequence ≤ bufferSequence) (selection : SourceSelection) :
    ((store.allSources selection).map Source.part).Pairwise
      fun left right => right.rank < left.rank := by
  rw [List.pairwise_map, allSources, List.pairwise_append]
  refine ⟨?_, ?_, ?_⟩
  · split
    · exact List.pairwise_singleton _ _
    · exact List.Pairwise.nil
  · split
    · exact List.pairwise_map.mpr hstore.ranked
    · exact List.Pairwise.nil
  · intro left hleft right hright
    split at hleft
    · obtain rfl := List.mem_singleton.mp hleft
      split at hright
      · obtain ⟨run, hmem, rfl⟩ := List.mem_map.mp hright
        exact Nat.lt_of_lt_of_le (hstore.recent run hmem) hroom
      · cases hright
    · cases hleft

theorem Sound.sources_ranked (hstore : Sound store) (hroom : store.nextSequence ≤ bufferSequence)
    (request : SourceRequest) :
    ((store.sources request).map Source.part).Pairwise
      fun left right => right.rank < left.rank :=
  (hstore.allSources_ranked hroom request.selection).sublist
    ((store.sources_sublist request).map _)

/-- A request for everything concerns every run that has a cell. -/
theorem concerns_all {run : SortedRun} (hcells : run.toList ≠ []) :
    run.concerns (.all .all) = true := by
  have hsize : 0 < run.cells.size := List.length_pos_iff.mpr hcells
  have hfirst : run.cells[0]? = some run.cells[0] := Array.getElem?_eq_getElem hsize
  have hlast : run.cells.back? = some run.cells[run.cells.size - 1] := by
    rw [Array.back?_eq_getElem?, Array.getElem?_eq_getElem]
  have hnonempty : run.isEmpty = false := by
    simp only [SortedRun.isEmpty, Array.isEmpty_eq_false_iff]
    exact Array.ne_empty_of_size_pos hsize
  simp only [SortedRun.concerns, SortedRun.rowBounds, hfirst, hlast, SortedRun.timeBounds,
    hnonempty, Bool.false_eq_true, if_false, Bool.and_eq_true]
  refine ⟨TimeRange.all_overlaps _ _, ?_⟩
  have hrow : (compare run.cells[run.cells.size - 1].row []).isGE = true :=
    Std.OrientedCmp.isGE_of_isLE ((Bytes.isLE_compare_iff _ _).mpr (List.nil_le _))
  simp [SourceRequest.all, RowRange.overlaps, RowRange.all, RowRange.endsBefore, hrow]

/-- What is read of the sources that are handed out. -/
theorem Sound.remaining_sources (hstore : Sound store) (request : SourceRequest) :
    (store.sources request).flatMap Source.remaining =
      (if request.selection ≠ .filesOnly && store.buffer.concerns request then
        store.buffer.cells else []) ++
      if request.selection ≠ .memoryOnly then
        (store.runs.filter (·.concerns request)).flatMap SortedRun.toList else [] := by
  have hbuffer : (store.bufferSource request).flatMap Source.remaining =
      if request.selection ≠ .filesOnly && store.buffer.concerns request then
        store.buffer.cells else [] := by
    unfold bufferSource
    split
    · exact (List.flatMap_singleton _ _).trans
        (LawfulSource.buffer_fresh hstore.buffer _ _).remaining
    · rfl
  have hreaders : ∀ run ∈ store.runs.filter (·.concerns request),
      Source.remaining (AnySource.run run.reader) = run.toList := fun run hrun =>
    (LawfulSource.run_fresh (hstore.runs run (List.mem_filter.mp hrun).1).sorted).remaining
  have hruns : (store.runSources request).flatMap Source.remaining =
      if request.selection ≠ .memoryOnly then
        (store.runs.filter (·.concerns request)).flatMap SortedRun.toList else [] := by
    unfold runSources
    split
    · rw [List.flatMap_map, List.flatMap_def, List.map_congr_left hreaders, ← List.flatMap_def]
    · rfl
  rw [sources, List.flatMap_append, hbuffer, hruns]

/-- A request for everything leaves out no source that has a cell. -/
theorem Sound.sources_all (hstore : Sound store) :
    (store.sources (.all .all)).flatMap Source.remaining = store.cells := by
  have hconcerns : store.buffer.concerns (.all .all) = true := by
    rw [Buffer.concerns, Bool.or_eq_true]
    exact .inr (TimeRange.all_overlaps _ _)
  have hruns : ∀ runs : List SortedRun,
      (runs.filter (·.concerns (.all .all))).flatMap SortedRun.toList =
        runs.flatMap SortedRun.toList := by
    intro runs
    induction runs with
    | nil => rfl
    | cons run rest ih =>
        rw [List.filter_cons, List.flatMap_cons]
        split
        · rw [List.flatMap_cons, ih]
        next hnot =>
          have hempty : run.toList = [] := by
            by_cases hcells : run.toList = []
            · exact hcells
            · exact absurd (concerns_all hcells) hnot
          rw [hempty, ih, List.nil_append]
  rw [hstore.remaining_sources, hconcerns, hruns, cells]
  rfl

end Store

end MergeScan
