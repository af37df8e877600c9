import MergeScan.Proofs.Scan.Visible
import MergeScan.Proofs.Scanner.Buffered
import MergeScan.Proofs.Scanner.Closing
import MergeScan.Proofs.Scanner.Reference
import MergeScan.Proofs.Store.Flush
import MergeScan.Proofs.Store.Window

/-! # Merging runs

A compaction reads its runs like a scan does, with no provider to take other sources from.
It reads them to the end and without a failure, and every reader can be closed. So the run
that it makes holds what the scan hands out of the list that the runs make up.
-/

namespace MergeScan

open CellOrder

/-! ## A scan of given sources -/

section

variable {σ φ : Type} [Source σ] {Held : σ → Prop}
variable [LawfulSource σ keys] [CellFilter φ] {family : Family} {scan : Scan φ}

/-- A scan of given sources reads the list that they make up. -/
theorem Scanner.ofSources_stands (hregular : scan.Regular family) (hcolumns : scan.columns = [])
    {sources : List σ} (hfresh : ∀ source ∈ sources, ∃ held, LawfulSource.Fresh keys source held ∧
      keys.Sorted held ∧ Cell.StoredIn family.name held)
    (hdistinct : Part.Distinct (sources.map Source.part)) (hclosable : Closable Held)
    (hheld : ∀ source ∈ sources, Held source) :
    ∃ scanner, (Scanner.ofSources family scan sources).value = .ok scanner ∧
      Stands scanner (Reading.start family scan (keys.merged (sources.map Source.part))) ∧
      scanner.Calm Held := by
  have hscan : { scan with columns := [] } = scan := by
    cases scan
    cases hcolumns
    rfl
  have hvalidate : scan.validate = .ok () := by
    unfold Scan.validate
    rw [hregular.filter]
    cases scan.batch <;> rfl
  let supply : Supply σ := fun _ => .ok sources
  have hsupply : supply.Sound family.name scan.request := ⟨rfl, hfresh, hdistinct⟩
  obtain ⟨placed, hplaced, hsound, hreliable, hstream⟩ :=
    hsupply.placed Positioning.seek_lawful (Matcher.ofScan family scan).startKey
  have hplaced : (placeAll Positioning.seek (Matcher.ofScan family scan).startKey sources).value =
      .ok placed := hplaced
  have hkept := placeAll_keeps hclosable hclosable.seek_keeps (Matcher.ofScan family scan).startKey
    hheld
  rw [hplaced] at hkept
  refine ⟨start (Matcher.ofScan family scan) scan keys (Merge.ofSources keys placed).value none,
    ?_, ⟨rfl, rfl, _, rfl, hsound, hreliable, hstream⟩, rfl, ?_⟩
  · simp only [Scanner.ofSources, hscan, hvalidate, Noted.value_bind, hplaced, hregular.order]
    rfl
  · rintro _ ⟨⟩
    exact Merge.ofSources_calm hclosable keys hkept

end

namespace Store

variable {store : Store} {ids : List RunId} {inputs newer window older : List SortedRun}
variable {major : Bool}

theorem compactionScan_regular (horder : store.family.order = .keys)
    (hversions : store.family.WellFormed) (major : Bool) :
    (store.compactionScan major).Regular store.family where
  wellFormed := ⟨List.Pairwise.nil, Nat.le_max_right _ _⟩
  familyWellFormed := hversions
  order := horder
  filter := rfl
  strict := .inl rfl
  every _ := rfl
  reaches _ := rfl

/-- The cells of runs as one sorted list. Of cells at the same place the ones of the run in
front come first. -/
def gathered (runs : List SortedRun) : List Cell :=
  keys.sort (runs.flatMap SortedRun.toList)

theorem gathered_sorted (runs : List SortedRun) : keys.Sorted (gathered runs) :=
  sort_sorted _

theorem mem_gathered {runs : List SortedRun} {cell : Cell} :
    cell ∈ gathered runs ↔ ∃ run ∈ runs, cell ∈ run.toList :=
  mem_sort.trans List.mem_flatMap

/-- Runs by descending rank that hold cells of the family of a store. -/
structure Mergeable (store : Store) (runs : List SortedRun) : Prop where
  sorted run : run ∈ runs → keys.Sorted run.toList
  ranked : runs.Pairwise fun left right => right.sequenceId < left.sequenceId
  stored : Cell.StoredIn store.family.name (gathered runs)

/-- The readers of runs go through the cells of the runs as one list. -/
theorem Mergeable.readers (hinputs : Mergeable store inputs) :
    let readers : List AnySource := inputs.map fun run => .run run.reader
    (readers.map Source.part).Pairwise (fun left right => right.rank < left.rank) ∧
      keys.merged (readers.map Source.part) = gathered inputs := by
  intro readers
  have hranked : (readers.map Source.part).Pairwise fun left right => right.rank < left.rank := by
    rw [List.pairwise_map, List.pairwise_map]
    exact hinputs.ranked
  have hremaining : ∀ run ∈ inputs, Source.remaining (AnySource.run run.reader) = run.toList :=
    fun run hrun => (LawfulSource.run_fresh (hinputs.sorted run hrun)).remaining
  refine ⟨hranked, ?_⟩
  rw [merged_ranked hranked, List.flatMap_map, List.flatMap_def, List.map_congr_left hremaining,
    ← List.flatMap_def, gathered]

/-- A merge of runs does not fail, and makes what a scan hands out of the cells of the runs. -/
theorem mergeCells_eq (horder : store.family.order = .keys) (hversions : store.family.WellFormed)
    (hinputs : Mergeable store inputs) (major : Bool) : (store.mergeCells inputs major).value = .ok
      ((Reading.start store.family (store.compactionScan major) (gathered inputs)).output []) := by
  let readers : List AnySource := inputs.map fun run => .run run.reader
  obtain ⟨hranked, hmerged⟩ := hinputs.readers
  have hregular := compactionScan_regular horder hversions major
  have hfresh : ∀ source ∈ readers, ∃ held, LawfulSource.Fresh keys source held ∧
      keys.Sorted held ∧ Cell.StoredIn store.family.name held := by
    intro source hsource
    obtain ⟨run, hrun, rfl⟩ := List.mem_map.mp hsource
    have hsorted := hinputs.sorted run hrun
    exact ⟨_, LawfulSource.run_fresh hsorted, hsorted,
      fun cell hcell => hinputs.stored cell (mem_gathered.mpr ⟨run, hrun, hcell⟩)⟩
  have hopen : ∀ source ∈ readers, source.IsOpen := by
    intro source hsource
    obtain ⟨run, hrun, rfl⟩ := List.mem_map.mp hsource
    rfl
  obtain ⟨scanner, hscanner, hstands, hcalm⟩ := Scanner.ofSources_stands hregular rfl hfresh
    (hranked.imp fun hlt => Ne.symm (Nat.ne_of_lt hlt)) AnySource.open_closable hopen
  rw [hmerged] at hstands
  let start := Reading.start store.family (store.compactionScan major) (gathered inputs)
  have hprepared := hregular.toUnfiltered.prepared_start (gathered_sorted inputs) hinputs.stored
  have hsettled : start.Settled := nofun
  -- a read that does not end the scan takes at least one cell, so these reads reach the end
  let count := 2 * (inputs.flatMap SortedRun.toList).length + 2
  have hcount : (start.ahead []).length < count := by
    have hlength : (gathered inputs).length = (inputs.flatMap SortedRun.toList).length :=
      (sort_perm _).length_eq
    have hle : (start.ahead []).length ≤ (gathered inputs).length := skipTo_length_le _ _
    omega
  obtain ⟨hpages, -⟩ := hstands.pages hprepared hsettled none .ofScan count
  obtain ⟨earlier, last, hreads, -, -, hcells, -⟩ := hprepared.pages_output hsettled hcount
  -- the runs stay open until then, so closing them does not fail
  have hnone : ∀ provider ∈ (none : Option (Supply AnySource)), provider.Holds AnySource.IsOpen :=
    nofun
  have hclosed := (hcalm.pages AnySource.open_closable hnone .ofScan count).1.close
    AnySource.open_closable
  rw [hreads] at hpages
  have hdrained := Scanner.drainInto_of_pages hpages []
  rw [List.nil_append, hcells] at hdrained
  simp only [mergeCells, Noted.value_bind]
  rw [hscanner]
  simp only [Noted.value_bind]
  rw [hdrained]
  simp only [Noted.value_bind]
  rw [hclosed]
  rfl

/-! ## What a compaction does -/

/-- What a compaction keeps of the cells of its runs. -/
def keptCells (store : Store) (major : Bool) (window : List SortedRun) : List Cell :=
  let cells := SortedRun.dedupe (gathered window)
  let scan := store.compactionScan major
  cells.filter fun cell =>
    scan.shows store.family cells cell || scan.carries store.family cells cell

theorem wide_compactionScan (store : Store) (major : Bool) : (store.compactionScan major).Wide :=
  ⟨rfl, rfl⟩

/-- What is kept of a window are its cells compacted. -/
theorem keptCells_eq (store : Store) (major : Bool) (window : List SortedRun) :
    store.keptCells major window =
      store.family.compacted major (window.flatMap SortedRun.toList) := by
  have hmost : min (max store.family.maxVersions 1) store.family.maxVersions =
      store.family.maxVersions := Nat.min_eq_right (Nat.le_max_left _ _)
  unfold keptCells Family.compacted
  apply List.filter_congr
  intro cell _
  rw [(store.wide_compactionScan major).shows_eq,
    (store.wide_compactionScan major).carries_eq _ (Nat.le_max_left _ _)]
  simp only [compactionScan, hmost, RowRange.contains_all, Bool.true_and, Bool.and_true]
  rfl

/-- The run that a compaction makes, unless no cell is left. -/
def keptRun (store : Store) (major : Bool) (window : List SortedRun) : Option SortedRun :=
  if (store.keptCells major window).isEmpty then none
  else some (.ofCells ⟨store.runsAdded⟩ ((window.map SortedRun.sequenceId).max?.getD 0)
    (store.keptCells major window))

theorem keptCells_strictlySorted (store : Store) (major : Bool) (window : List SortedRun) :
    keys.StrictlySorted (store.keptCells major window) :=
  (SortedRun.dedupe_strictlySorted (gathered_sorted window)).filter _

theorem toList_keptRun (store : Store) (major : Bool) (window : List SortedRun) :
    (store.keptRun major window).toList.flatMap SortedRun.toList =
      store.keptCells major window := by
  unfold keptRun
  split
  next hempty =>
    rw [List.isEmpty_iff.mp hempty]
    rfl
  next =>
    rw [Option.toList_some, List.flatMap_singleton]
    exact SortedRun.toList_ofCells_of_sorted (keptCells_strictlySorted store major window) _ _

theorem mem_keptCells {cell : Cell} (hcell : cell ∈ store.keptCells major window) :
    ∃ run ∈ window, cell ∈ run.toList :=
  mem_gathered.mp ((SortedRun.dedupe_sublist _).mem (List.mem_filter.mp hcell).1)

/-- A run, if any, that is fit to take the place of a window: a new one with the rank of the
freshest run of the window and with cells of its runs. -/
structure Merged (store : Store) (window : List SortedRun) (run : Option SortedRun) : Prop where
  id merged : run = some merged → merged.id = ⟨store.runsAdded⟩
  rank merged : run = some merged →
    (window.map SortedRun.sequenceId).max? = some merged.sequenceId
  sorted merged : run = some merged → keys.StrictlySorted merged.toList
  cells merged : run = some merged → ∀ cell ∈ merged.toList, ∃ input ∈ window, cell ∈ input.toList

variable {run : Option SortedRun}

/-- The run of merged cells, unless there are none. -/
def mergedRun (store : Store) (window : List SortedRun) (cells : List Cell) : Option SortedRun :=
  if cells.isEmpty then none
  else some (.ofCells ⟨store.runsAdded⟩ ((window.map SortedRun.sequenceId).max?.getD 0) cells)

theorem merged_mergedRun (store : Store) {cells : List Cell}
    (hcells : ∀ cell ∈ cells, ∃ input ∈ window, cell ∈ input.toList) :
    Merged store window (store.mergedRun window cells) := by
  unfold mergedRun
  split
  next => exact ⟨nofun, nofun, nofun, nofun⟩
  next hsome =>
    refine ⟨?_, ?_, ?_, ?_⟩ <;> rintro _ ⟨⟩
    · rfl
    · cases hmax : (window.map SortedRun.sequenceId).max? with
      | some rank => rfl
      | none =>
          -- without a run there would be no cell either
          rw [List.max?_eq_none_iff, List.map_eq_nil_iff] at hmax
          subst hmax
          obtain ⟨cell, hcell⟩ := List.exists_mem_of_ne_nil cells (by simpa using hsome)
          obtain ⟨input, hinput, -⟩ := hcells cell hcell
          cases hinput
    · exact SortedRun.ofCells_strictlySorted _ _ cells
    · exact fun cell hcell => hcells cell (mem_sort.mp ((SortedRun.dedupe_sublist _).mem hcell))

theorem merged_keptRun (store : Store) (major : Bool) (window : List SortedRun) :
    Merged store window (store.keptRun major window) :=
  merged_mergedRun store fun _ => mem_keptCells

theorem Merged.rank_mem (hmerged : Merged store window run) {merged : SortedRun}
    (hrun : run = some merged) : ∃ input ∈ window, input.sequenceId = merged.sequenceId :=
  List.mem_map.mp (List.max?_mem (hmerged.rank merged hrun))

/-- Runs stay in the order of their ranks if one takes the place of a window. -/
theorem Merged.ranked (hmerged : Merged store window run)
    (hranked : (newer ++ window ++ older).Pairwise fun left right =>
      right.sequenceId < left.sequenceId) :
    (newer ++ run.toList ++ older).Pairwise fun left right =>
      right.sequenceId < left.sequenceId := by
  have hkept : (run.toList.map SortedRun.sequenceId).Sublist
      (window.map SortedRun.sequenceId) := by
    cases hrun : run with
    | none => exact List.nil_sublist _
    | some merged =>
        rw [Option.toList_some, List.map_singleton, List.singleton_sublist]
        exact List.max?_mem (hmerged.rank merged hrun)
  have hpairs : ((newer ++ window ++ older).map SortedRun.sequenceId).Pairwise
      fun left right => right < left := List.pairwise_map.mpr hranked
  refine List.pairwise_map.mp (hpairs.sublist ?_)
  simp only [List.map_append]
  exact ((List.Sublist.refl _).append hkept).append (List.Sublist.refl _)

/-- The cells of a window are cells of the store. -/
theorem Window.mem_cells_of_input (hwindow : Window store ids newer window older) {cell : Cell}
    (hcell : cell ∈ window.flatMap SortedRun.toList) : cell ∈ store.cells := by
  obtain ⟨run, hrun, hcell⟩ := List.mem_flatMap.mp hcell
  exact List.mem_append_right _ (List.mem_flatMap.mpr ⟨run, hwindow.mem_inputs hrun, hcell⟩)

theorem Window.mergeable (hwindow : Window store ids newer window older) (hstore : Sound store)
    (hstored : Stored store) : Mergeable store window := by
  refine ⟨fun run hrun => (hstore.runs run (hwindow.mem_inputs hrun)).sorted, ?_, fun cell hcell =>
    hstored cell (hwindow.mem_cells_of_input (List.mem_flatMap.mpr (mem_gathered.mp hcell)))⟩
  have hranked := hstore.ranked
  rw [hwindow.runs, List.pairwise_append, List.pairwise_append] at hranked
  exact hranked.1.2.1

/-- What the merge of runs makes, copies apart, is what is kept of them. -/
theorem Mergeable.dedupe_output (hfamily : store.family.Usual) (hinputs : Mergeable store inputs)
    (htagged : ∀ cell ∈ gathered inputs, cell.Tagged) (major : Bool) :
    let output := (Reading.start store.family (store.compactionScan major)
      (gathered inputs)).output []
    keys.Sorted output ∧ SortedRun.dedupe output = store.keptCells major inputs := by
  have hregular := compactionScan_regular hfamily.order hfamily.versions major
  refine ⟨?_, hregular.dedupe_output_start hfamily.named (gathered_sorted inputs) hinputs.stored
    htagged⟩
  exact ((gathered_sorted inputs).skipTo _).sublist (Matcher.output_sublist _ _)

/-- A merge of runs succeeds, and makes a run of what a scan hands out of their cells. -/
theorem mergeRuns_ok (horder : store.family.order = .keys) (hversions : store.family.WellFormed)
    (hinputs : Mergeable store inputs) {major : Bool}
    (hselect : store.selectRuns ids major = .ok inputs) :
    (store.mergeRuns ids major).value = .ok ⟨(inputs.flatMap SortedRun.toList).length,
      store.mergedRun inputs ((Reading.start store.family (store.compactionScan major)
        (gathered inputs)).output [])⟩ := by
  rw [Store.mergeRuns, hselect]
  simp only [Noted.value_bind]
  rw [mergeCells_eq horder hversions hinputs major]
  rfl

theorem mergeRuns_eq (hfamily : store.family.Usual) (hinputs : Mergeable store inputs)
    (htagged : ∀ cell ∈ gathered inputs, cell.Tagged) {major : Bool}
    (hselect : store.selectRuns ids major = .ok inputs) :
    (store.mergeRuns ids major).value =
      .ok ⟨(inputs.flatMap SortedRun.toList).length, store.keptRun major inputs⟩ := by
  obtain ⟨hsorted, hkept⟩ := hinputs.dedupe_output hfamily htagged major
  rw [mergeRuns_ok hfamily.order hfamily.versions hinputs hselect]
  generalize (Reading.start store.family (store.compactionScan major)
    (gathered inputs)).output [] = output at hsorted hkept ⊢
  have hrun (id : RunId) (rank : Nat) :
      SortedRun.ofCells id rank output = .ofCells id rank (store.keptCells major inputs) := by
    rw [SortedRun.ofCells, SortedRun.ofCells, sort_of_sorted hsorted,
      sort_of_sorted (keptCells_strictlySorted store major inputs).sorted, hkept,
      SortedRun.dedupe_of_strictlySorted (keptCells_strictlySorted store major inputs)]
  have hempty : output.isEmpty = (store.keptCells major inputs).isEmpty := by
    rw [← hkept]
    cases output <;> rfl
  rw [mergedRun, keptRun, hempty, hrun]

/-- A compaction that has merged a window puts the merged run in its place. -/
theorem Window.compact_of_mergeRuns (hwindow : Window store ids newer window older)
    (hstore : Sound store) (hnodup : (store.runs.map SortedRun.id).Nodup)
    {output : CompactionOutput} (hmerge : (store.mergeRuns ids major).value = .ok output)
    (hmerged : Merged store window output.run) :
    (store.compact ids major).value = .ok (output, store.withWindow newer output.run older) := by
  have hreplaced := hwindow.replaceRuns hnodup (hmerged.ranked (hwindow.runs ▸ hstore.ranked))
  rw [Store.compact, Noted.value_bind, hmerge]
  simp only [Noted.value_bind]
  rw [hreplaced]
  rfl

/-- A compaction of a window succeeds, and puts what is kept of the cells of the window in
its place. -/
theorem Window.compact (hwindow : Window store ids newer window older)
    (hfamily : store.family.Usual) (hstore : Sound store) (hstored : Stored store)
    (htagged : ∀ cell ∈ store.cells, cell.Tagged)
    (hnodup : (store.runs.map SortedRun.id).Nodup) {major : Bool}
    (hwhole : major = true → newer = [] ∧ older = []) :
    (store.compact ids major).value =
      .ok (⟨(window.flatMap SortedRun.toList).length, store.keptRun major window⟩,
        store.withWindow newer (store.keptRun major window) older) := by
  have hinputs := hwindow.mergeable hstore hstored
  have htagged : ∀ cell ∈ gathered window, cell.Tagged := fun cell hcell =>
    htagged cell (hwindow.mem_cells_of_input (List.mem_flatMap.mpr (mem_gathered.mp hcell)))
  have hmerge := mergeRuns_eq hfamily hinputs htagged (hwindow.selectRuns hnodup hwhole)
  exact hwindow.compact_of_mergeRuns hstore hnodup hmerge (merged_keptRun store major window)

end Store

end MergeScan
