import MergeScan.Proofs.Scan.Visible
import MergeScan.Proofs.Scanner.Reference
import MergeScan.Proofs.Store.Flush

/-! # What a scan reads of a store

A store leaves sources out of a scan that have no cell with both a row and a time that the
scan asks for. So the scan reads the same as it would of all the sources that it selects,
except for cells that it does not ask for.
-/

namespace MergeScan

open CellOrder

namespace Store

variable {store : Store} {request : SourceRequest} {selection : SourceSelection}

/-- The store as a provider that leaves no source out. -/
def unpruned (store : Store) : Supply AnySource :=
  fun request => .ok (store.allSources request.selection)

/-- The cells of the sources that a scan selects, those of the freshest source first. -/
def selected (store : Store) (selection : SourceSelection) : List Cell :=
  (if selection ≠ .filesOnly then store.buffer.cells else []) ++
    if selection ≠ .memoryOnly then store.runs.flatMap SortedRun.toList else []

/-- The cells of the sources that a store leaves out. -/
def leftOut (store : Store) (request : SourceRequest) : List Cell :=
  (if request.selection ≠ .filesOnly && !store.buffer.concerns request then store.buffer.cells
    else []) ++
  if request.selection ≠ .memoryOnly then
    (store.runs.filter (!·.concerns request)).flatMap SortedRun.toList else []

theorem mem_cells_of_selected {cell : Cell} (hcell : cell ∈ store.selected selection) :
    cell ∈ store.cells := by
  simp only [selected, cells, List.mem_append] at hcell ⊢
  refine hcell.imp (fun hbuffer => ?_) fun hrun => ?_
  · split at hbuffer
    · exact hbuffer
    · cases hbuffer
  · split at hrun
    · exact hrun
    · cases hrun

/-- What is left out has another row or another time than the scan asks for. -/
theorem Kept.misses_of_leftOut (hstore : Kept store) {cell : Cell}
    (hcell : cell ∈ store.leftOut request) : request.misses cell = true := by
  rcases List.mem_append.mp hcell with hbuffer | hrun
  · split at hbuffer
    next hleft =>
      rw [Bool.and_eq_true, Bool.not_eq_true'] at hleft
      exact Buffer.misses_of_not_concerns hstore.bounded hleft.2 hbuffer
    next => cases hbuffer
  · split at hrun
    next =>
      obtain ⟨run, hmem, hcell⟩ := List.mem_flatMap.mp hrun
      obtain ⟨hmem, hleft⟩ := List.mem_filter.mp hmem
      rw [Bool.not_eq_true'] at hleft
      exact SortedRun.misses_of_not_concerns (hstore.sound.runs run hmem).sorted hleft hcell
    next => cases hrun

/-- Where the cells of some lists do not count, the lists may as well be left out. -/
theorem filter_flatMap_filter {α : Type} {items : List α} {cells : α → List Cell}
    {taken : α → Bool} {counts : Cell → Bool}
    (hleft : ∀ item ∈ items, taken item = false → ∀ cell ∈ cells item, counts cell = false) :
    ((items.filter taken).flatMap cells).filter counts = (items.flatMap cells).filter counts := by
  induction items with
  | nil => rfl
  | cons first rest ih =>
      obtain ⟨hfirst, hrest⟩ := List.forall_mem_cons.mp hleft
      rw [List.flatMap_cons, List.filter_append, ← ih hrest]
      cases htaken : taken first with
      | true => rw [List.filter_cons_of_pos htaken, List.flatMap_cons, List.filter_append]
      | false =>
          have hnone : (cells first).filter counts = [] := by
            rw [List.filter_eq_nil_iff]
            intro cell hcell
            rw [hfirst htaken cell hcell]
            nofun
          rw [List.filter_cons_of_neg (by rw [htaken]; nofun), hnone, List.nil_append]

/-- The sources of a store are those of a scan that leaves none out, where the cells that are
left out do not count. -/
theorem Sound.filter_sources (hstore : Sound store) {counts : Cell → Bool}
    (hleft : ∀ cell ∈ store.leftOut request, counts cell = false) :
    ((store.sources request).flatMap Source.remaining).filter counts =
      (store.selected request.selection).filter counts := by
  obtain ⟨hbuffer, hruns⟩ := List.forall_mem_append.mp hleft
  rw [hstore.remaining_sources, selected, List.filter_append, List.filter_append]
  congr 1
  · by_cases hselection : request.selection ≠ .filesOnly
    · cases hconcerns : store.buffer.concerns request with
      | true => simp [hselection]
      | false =>
          rw [if_pos (by simp [hselection, hconcerns])] at hbuffer
          simpa [hselection] using hbuffer
    · simp [hselection]
  · by_cases hselection : request.selection ≠ .memoryOnly
    · rw [if_pos hselection, if_pos hselection]
      apply filter_flatMap_filter
      intro run hrun hconcerns cell hcell
      rw [if_pos hselection] at hruns
      exact hruns cell (List.mem_flatMap.mpr
        ⟨run, List.mem_filter.mpr ⟨hrun, by rw [hconcerns]; rfl⟩, hcell⟩)
    · rw [if_neg hselection, if_neg hselection]

theorem Sound.remaining_allSources (hstore : Sound store) (selection : SourceSelection) :
    (store.allSources selection).flatMap Source.remaining = store.selected selection := by
  rw [allSources, List.flatMap_append, selected]
  congr 1
  · split
    · exact (List.flatMap_singleton _ _).trans
        (LawfulSource.buffer_fresh hstore.buffer _ _).remaining
    · rfl
  · split
    · have hreaders : ∀ run ∈ store.runs,
          Source.remaining (AnySource.run run.reader) = run.toList := fun run hrun =>
        (LawfulSource.run_fresh (hstore.runs run hrun).sorted).remaining
      rw [List.flatMap_map, List.flatMap_def, List.map_congr_left hreaders, ← List.flatMap_def]
    · rfl

/-- A provider that leaves no source out hands out fresh sources in order. -/
theorem Sound.unpruned_sound (hstore : Sound store) (hstored : Stored store)
    (hroom : store.nextSequence ≤ bufferSequence) (request : SourceRequest) :
    store.unpruned.Sound store.family.name request where
  answers := rfl
  fresh source hsource := by
    obtain ⟨held, hfresh, hstrict, hsub⟩ := hstore.allSources_fresh hsource
    exact ⟨held, hfresh, hstrict.sorted, fun cell hcell => hstored cell (hsub cell hcell)⟩
  distinct := (hstore.allSources_ranked hroom _).imp fun hlt => Ne.symm (Nat.ne_of_lt hlt)

theorem Sound.cells_unpruned (hstore : Sound store) (hroom : store.nextSequence ≤ bufferSequence)
    (request : SourceRequest) :
    store.unpruned.cells request = keys.sort (store.selected request.selection) := by
  rw [← hstore.remaining_allSources]
  exact merged_ranked (hstore.allSources_ranked hroom _)

/-- Apart from cells that do not count, a scan reads the same whether sources are left out. -/
theorem Sound.filter_cells_supply (hstore : Sound store)
    (hroom : store.nextSequence ≤ bufferSequence) {counts : Cell → Bool}
    (hleft : ∀ cell ∈ store.leftOut request, counts cell = false) :
    (store.supply.cells request).filter counts = (store.unpruned.cells request).filter counts := by
  have hsupply : store.supply.cells request =
      keys.sort ((store.sources request).flatMap Source.remaining) :=
    merged_ranked (hstore.sources_ranked hroom request)
  rw [hsupply, hstore.cells_unpruned hroom, ← sort_filter, ← sort_filter,
    hstore.filter_sources hleft]

/-- For a scan of all times, what is left out has no row of the scan. -/
theorem Kept.supply_alike (hstore : Kept store) (hroom : store.nextSequence ≤ bufferSequence)
    (request : SourceRequest) (htimes : request.timeRange = .all) :
    Alike request.rows False (store.supply.cells request) (store.unpruned.cells request) := by
  have hleft : ∀ cell ∈ store.leftOut request, request.rows.contains cell.row = false := by
    intro cell hcell
    have hmisses := hstore.misses_of_leftOut hcell
    rwa [SourceRequest.misses, htimes, TimeRange.contains_all, Bool.not_true, Bool.or_false,
      Bool.not_eq_true'] at hmisses
  have hsame := hstore.sound.filter_cells_supply hroom hleft
  apply Alike.of_copies
  intro place hrow
  have hcopies (cells : List Cell) : keys.copies place
      (cells.filter fun cell => request.rows.contains cell.row) = keys.copies place cells := by
    rw [copies, copies, List.filter_filter]
    refine List.filter_congr fun cell _ => ?_
    by_cases heq : Cell.compareKeys cell place = .eq
    · simp [heq, Cell.row_eq_of_eq heq, hrow]
    · simp [heq]
  rw [← hcopies, hsame, hcopies]

theorem Kept.supply_scansTo {φ : Type} [CellFilter φ] {scan : Scan φ} (hstore : Kept store)
    (hroom : store.nextSequence ≤ bufferSequence) (hscan : scan.Unfiltered store.family) :
    store.supply.ScansTo store.family scan
      ((Reading.start store.family scan (store.supply.cells scan.request)).output []) :=
  (hstore.sound.supply_sound hstore.stored hroom scan.request).scansTo hscan

theorem Kept.unpruned_scansTo {φ : Type} [CellFilter φ] {scan : Scan φ} (hstore : Kept store)
    (hroom : store.nextSequence ≤ bufferSequence) (hscan : scan.Unfiltered store.family) :
    store.unpruned.ScansTo store.family scan
      ((Reading.start store.family scan (store.unpruned.cells scan.request)).output []) :=
  (hstore.sound.unpruned_sound hstore.stored hroom scan.request).scansTo hscan

/-- What a scan of every column and of all times hands out of a store. -/
def shown {φ : Type} (store : Store) (scan : Scan φ) : List Cell :=
  (Cell.freshest (store.selected scan.selection)).filter fun cell =>
    scan.rows.contains cell.row &&
      store.family.shows (min scan.maxVersions store.family.maxVersions)
        (Cell.freshest (store.selected scan.selection)) cell

theorem Kept.scansTo {φ : Type} [CellFilter φ] {scan : Scan φ} (hstore : Kept store)
    (hroom : store.nextSequence ≤ bufferSequence) (hname : store.family.name ≠ [])
    (htagged : ∀ cell ∈ store.cells, cell.Tagged) (hplain : scan.Plain store.family)
    (hwide : scan.Wide) : store.supply.ScansTo store.family scan (store.shown scan) := by
  have hsupply := hstore.sound.supply_sound hstore.stored hroom scan.request
  have hunpruned := hstore.sound.unpruned_sound hstore.stored hroom scan.request
  have hregular := hplain.regular (.inl hwide.columns)
  have halike : Alike scan.rows False (store.supply.cells scan.request)
      (store.unpruned.cells scan.request) := hstore.supply_alike hroom scan.request hwide.timeRange
  have houtput : (Reading.start store.family scan (store.supply.cells scan.request)).output [] =
      store.shown scan := by
    rw [hplain.output_start_alike (store.supply.cells_sorted _) (store.unpruned.cells_sorted _)
      hsupply.stored hunpruned.stored halike,
      hregular.output_start hname hplain.retainDeletes (store.unpruned.cells_sorted _)
        hunpruned.stored, hstore.sound.cells_unpruned hroom, Scan.reference]
    · exact List.filter_congr fun cell _ => hwide.shows_eq store.family _ cell
    · intro cell hcell
      rw [hstore.sound.cells_unpruned hroom] at hcell
      exact htagged cell (mem_cells_of_selected (mem_sort.mp hcell))
  exact houtput ▸ hstore.supply_scansTo hroom hplain.unfiltered

end Store

end MergeScan
