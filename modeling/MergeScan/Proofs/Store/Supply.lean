import MergeScan.Proofs.Scanner.Sources
import MergeScan.Proofs.Store.Pruning
import MergeScan.Proofs.Store.Sound

/-! # Stores as providers

The data of a store are in order, so a scan can take its sources from a store at any
time. Data that was loaded is stored like any other. A scan that begins at a later row misses
none of the data from there on.
-/

namespace MergeScan.Store

open CellOrder

variable {store : Store}

/-- Whether the cells of a store are ones of its family. -/
def Stored (store : Store) : Prop :=
  Cell.StoredIn store.family.name store.cells

theorem fresh_stored (family : Family) : Stored { family } := nofun

/-- A run that is added holds nothing but the cells that it is made of. -/
theorem mem_cells_addRun {cells : List Cell} {cell : Cell}
    (hcell : cell ∈ (store.addRun cells).2.cells) : cell ∈ cells ∨ cell ∈ store.cells := by
  rcases List.mem_append.mp hcell with hbuffer | hrun
  · exact .inr (List.mem_append_left _ hbuffer)
  · rcases List.mem_append.mp hrun with hnew | hold
    · rw [SortedRun.toList_ofCells] at hnew
      exact .inl (mem_sort.mp ((SortedRun.dedupe_sublist _).subset hnew))
    · exact .inr (List.mem_append_right _ hold)

theorem Stored.addRun (hstored : Stored store) {cells : List Cell}
    (hcells : Cell.StoredIn store.family.name cells) : Stored (store.addRun cells).2 :=
  fun cell hcell => (mem_cells_addRun hcell).elim (hcells cell) (hstored cell)

/-- A store answers any request with fresh sources in order. -/
theorem Sound.supply_sound (hstore : Sound store) (hstored : Stored store)
    (hroom : store.nextSequence ≤ bufferSequence) (request : SourceRequest) :
    store.supply.Sound store.family.name request where
  answers := rfl
  fresh source hsource := by
    obtain ⟨held, hfresh, hstrict, hsub⟩ := hstore.sources_fresh hsource
    exact ⟨held, hfresh, hstrict.sorted, fun cell hcell => hstored cell (hsub cell hcell)⟩
  distinct := (hstore.sources_ranked hroom request).imp fun hlt => Ne.symm (Nat.ne_of_lt hlt)

/-- What a scan reads of a store are cells of the store. -/
theorem Sound.mem_supply_cells (hstore : Sound store) {request : SourceRequest} {cell : Cell}
    (hcell : cell ∈ store.supply.cells request) : cell ∈ store.cells := by
  obtain ⟨part, hpart, hcell⟩ := mem_merged.mp hcell
  obtain ⟨source, hsource, rfl⟩ := List.mem_map.mp hpart
  obtain ⟨held, hfresh, -, hsub⟩ := hstore.sources_fresh hsource
  have hcell : cell ∈ Source.remaining source := hcell
  rw [hfresh.remaining] at hcell
  exact hsub cell hcell

/-- A run with cells from a row on concerns a request if it concerns the one for these only. -/
theorem concerns_startingAt {run : SortedRun} (hsorted : keys.Sorted run.toList)
    {request : SourceRequest} {row : Bytes} (hrow : request.rows.startsAfter row = false)
    (hcells : keys.skipTo (Cell.firstOnRow row) run.toList ≠ []) :
    run.concerns (request.startingAt row) = run.concerns request := by
  obtain ⟨cell, hcell⟩ := List.exists_mem_of_ne_nil _ hcells
  have hmem := ((mem_skipTo hsorted).mp hcell).1
  have hle := row_le_of_mem_skipTo hsorted hcell
  obtain ⟨first, rest, hlist⟩ := List.exists_cons_of_ne_nil (List.ne_nil_of_mem hmem)
  rw [hlist] at hmem hsorted
  have hlast := Std.le_trans hle (hsorted.row_between hmem).2
  rw [Bool.eq_false_iff, ne_eq, RowRange.startsAfter_iff, Std.not_lt] at hrow
  have hreaches {start : Bytes} (hstart : start ≤ row) :
      (compare ((first :: rest).getLast (by simp)).row start).isGE = true := by
    rw [Std.isGE_compare]
    exact Std.le_trans hstart hlast
  have hbounds {range : RowRange} (hstart : range.start ≤ row) :
      range.overlaps first.row ((first :: rest).getLast (by simp)).row =
        !range.endsBefore first.row := by
    rw [RowRange.overlaps, hreaches hstart, Bool.true_and]
  rw [SortedRun.concerns_eq hlist, SortedRun.concerns_eq hlist, hbounds hrow,
    hbounds (Std.le_refl row : (request.startingAt row).rows.start ≤ row)]
  rfl

/-- A store has for a scan from a row on what it has for the whole scan from there on. -/
theorem Sound.agreesFrom (hstore : Sound store) {request : SourceRequest} {row : Bytes}
    (hrow : request.rows.startsAfter row = false) :
    store.supply.AgreesFrom (Cell.firstOnRow row) request (request.startingAt row) := by
  have hruns : Part.stocked (((store.runSources request).map Source.part).map
        (Part.skipTo keys (Cell.firstOnRow row))) =
      Part.stocked (((store.runSources (request.startingAt row)).map Source.part).map
        (Part.skipTo keys (Cell.firstOnRow row))) := by
    have hselection : (request.startingAt row).selection = request.selection := rfl
    unfold runSources
    rw [hselection]
    split
    · simp only [List.map_map, Part.stocked, List.filter_map, List.filter_filter]
      refine congrArg _ (List.filter_congr fun run hrun => ?_)
      have hsorted := (hstore.runs run hrun).sorted
      have hcells := (LawfulSource.run_fresh hsorted).remaining
      cases hnone : keys.skipTo (Cell.firstOnRow row) run.toList with
      | nil =>
          have hempty : ((Source.part (AnySource.run run.reader)).skipTo keys
              (Cell.firstOnRow row)).cells = [] := by
            rw [Part.skipTo, Source.part, hcells, hnone]
          simp only [Function.comp_apply, hempty, List.isEmpty_nil, Bool.not_true, Bool.false_and]
      | cons first rest =>
          rw [concerns_startingAt hsorted hrow (by rw [hnone]; exact List.cons_ne_nil _ _)]
    · rfl
  refine .of_eq ?_
  have hstock (request : SourceRequest) : store.supply.stock request =
      (store.bufferSource request).map Source.part ++
        (store.runSources request).map Source.part :=
    List.map_append
  have hbuffer : store.bufferSource (request.startingAt row) = store.bufferSource request := rfl
  rw [hstock, hstock, hbuffer, List.map_append, List.map_append, Part.stocked_append,
    Part.stocked_append, hruns]

end MergeScan.Store
