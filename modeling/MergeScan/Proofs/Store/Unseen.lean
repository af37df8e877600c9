import Mathlib
import MergeScan.Proofs.Scan.Layers
import MergeScan.Proofs.Store.Compaction
import MergeScan.Proofs.Store.Reads

/-! # Compactions that are not seen

Whoever reads every column and all times of a store without its markers does not see that
runs of it were compacted.
-/

namespace MergeScan

open CellOrder

namespace Store

variable {store : Store} {ids : List RunId} {newer window older : List SortedRun} {major : Bool}

/-- Whether every scan of all columns and times that hands out values hands out the same of two
stores. -/
def LooksLike (store next : Store) : Prop :=
  ∀ {φ : Type} [CellFilter φ] (scan : Scan φ), scan.Plain store.family → scan.Wide →
    ∃ total, store.supply.ScansTo store.family scan total ∧
      next.supply.ScansTo store.family scan total

theorem Orderly.looksLike (hstore : Orderly store) (hroom : store.nextSequence ≤ bufferSequence)
    (hwindow : Window store ids newer window older) (hshown : ∀ {φ : Type} (scan : Scan φ),
      (store.withWindow newer (store.keptRun major window) older).shown scan = store.shown scan) :
    LooksLike store (store.withWindow newer (store.keptRun major window) older) := by
  intro φ _ scan hplain hwide
  have hnext := hstore.withWindow hwindow major
  refine ⟨store.shown scan,
    hstore.toKept.scansTo hroom hstore.usual.named hstore.tagged hplain hwide, ?_⟩
  rw [← hshown scan]
  exact hnext.toKept.scansTo hroom hnext.usual.named hnext.tagged hplain hwide

/-! ## A window of the runs -/

/-- The cells of a store that a scan reads, in the layers around a window of the runs. -/
def windowLayers (hwindow : Window store ids newer window older) (hstored : Stored store)
    (htagged : ∀ cell ∈ store.cells, cell.Tagged)
    (hranged : ∀ cell ∈ store.cells, cell.kind ≠ .delete) (selection : SourceSelection) :
    Layers store.family :=
  have hmem (cell : Cell) (hcell : cell ∈ ((if selection ≠ .filesOnly then store.buffer.cells
      else []) ++ newer.flatMap SortedRun.toList) ++ window.flatMap SortedRun.toList ++
        older.flatMap SortedRun.toList) : cell ∈ store.cells := by
    rw [cells, hwindow.runs, List.flatMap_append, List.flatMap_append]
    simp only [List.append_assoc, List.mem_append] at hcell ⊢
    refine hcell.imp_left fun hbuffer => ?_
    split at hbuffer
    · exact hbuffer
    · cases hbuffer
  { newer := (if selection ≠ .filesOnly then store.buffer.cells else []) ++
      newer.flatMap SortedRun.toList
    window := window.flatMap SortedRun.toList
    older := older.flatMap SortedRun.toList
    real cell hcell := (hstored cell (hmem cell hcell)).1
    tagged cell hcell := htagged cell (hmem cell hcell)
    ranged cell hcell := hranged cell (hmem cell hcell) }

/-- Where the runs are read, what is shown of a store is what is shown of the layers, and so it is
after the window was compacted. -/
theorem Window.shown_minor {φ : Type} (hwindow : Window store ids newer window older)
    (hstored : Stored store) (htagged : ∀ cell ∈ store.cells, cell.Tagged)
    (hranged : ∀ cell ∈ store.cells, cell.kind ≠ .delete) (scan : Scan φ) :
    (store.withWindow newer (store.keptRun false window) older).shown scan = store.shown scan := by
  by_cases hselection : scan.selection = .memoryOnly
  · rw [shown, shown, selected, selected, hselection]
    rfl
  · let layers := windowLayers hwindow hstored htagged hranged scan.selection
    have hbefore : Cell.freshest (store.selected scan.selection) = layers.before := by
      rw [selected, if_pos hselection, hwindow.runs, List.flatMap_append, List.flatMap_append,
        ← List.append_assoc, ← List.append_assoc]
      rfl
    have hafter : Cell.freshest ((store.withWindow newer (store.keptRun false window)
        older).selected scan.selection) = layers.after := by
      rw [selected, if_pos hselection]
      simp only [withWindow, List.flatMap_append, toList_keptRun, keptCells_eq]
      rw [← List.append_assoc, ← List.append_assoc]
      rfl
    rw [shown, shown, hbefore, hafter]
    exact layers.filter_shows _ (Nat.min_le_right _ _)

/-- A store that is reached by a history of writes and compactions looks the same after a
compaction of a window of its runs that keeps markers, unless a marker was ever written that is
on one version. -/
theorem minor_compaction_unseen {family : Family} (hfamily : family.Usual)
    {actions : List StoreAction}
    (hcells : ∀ action ∈ actions, ∀ cell ∈ action.cells,
      (cell.IsReal ∧ cell.Tagged) ∧ cell.kind ≠ .delete)
    (hroom : actions.length < bufferSequence)
    (hwindow : Window (performAll { family } actions) ids newer window older) :
    ∃ output next, ((performAll { family } actions).compact ids false).value = .ok (output, next) ∧
      LooksLike (performAll { family } actions) next := by
  have hreached := (fresh_orderly hfamily).performAll fun action haction cell hcell =>
    (hcells action haction cell hcell).1
  generalize performAll { family } actions = store at hwindow hreached
  have hstore := hreached.orderly
  -- no action has written a marker on one version, and compactions make up no cells
  have hranged : ∀ cell ∈ store.cells, cell.kind ≠ .delete := by
    intro cell hcell
    obtain ⟨action, haction, hmem⟩ := (hreached.mem_cells cell hcell).resolve_left nofun
    exact (hcells action haction cell hmem).2
  exact ⟨_, _, hstore.compact hwindow (absurd · Bool.false_ne_true),
    hstore.looksLike (hreached.hasRoom hroom) hwindow
      (hwindow.shown_minor hstore.stored hstore.tagged hranged)⟩

/-- Of three runs the middle one is compacted. It has a version that is masked by a fresher run,
and one too many. -/
theorem minor_compaction_unseen_of_load :
    let family : Family := { name := [102], maxVersions := 2, clock := .manual .oldest }
    let value (time : UInt64) := Cell.put [114] [102] [99] ⟨time⟩ [1]
    let actions : List StoreAction :=
      [.bulkLoad [value 1], .bulkLoad [value 5, value 4, value 3, value 2],
        .bulkLoad [.deleteColumn [114] [102] [99] ⟨3⟩]]
    let store := performAll { family } actions
    (family.Usual ∧ (∀ action ∈ actions, ∀ cell ∈ action.cells,
        (cell.IsReal ∧ cell.Tagged) ∧ cell.kind ≠ .delete) ∧ actions.length < bufferSequence ∧
      Window store [⟨1⟩] (store.runs.take 1) ((store.runs.drop 1).take 1) (store.runs.drop 2)) ∧
      ∃ output next, (store.compact [⟨1⟩] false).value = .ok (output, next) ∧
        LooksLike store next := by
  intro family value actions store
  have hfamily : family.Usual := ⟨rfl, Nat.le_succ 1, List.cons_ne_nil _ _⟩
  have hcells : ∀ action ∈ actions, ∀ cell ∈ action.cells,
      (cell.IsReal ∧ cell.Tagged) ∧ cell.kind ≠ .delete := by decide
  have hids : ((store.runs.drop 1).take 1).map SortedRun.id = [⟨1⟩] := rfl
  have hwindow : Window store [⟨1⟩] (store.runs.take 1) ((store.runs.drop 1).take 1)
      (store.runs.drop 2) :=
    ⟨rfl, fun id => by rw [← List.mem_map, hids]⟩
  exact ⟨⟨hfamily, hcells, by decide, hwindow⟩,
    minor_compaction_unseen hfamily hcells (by decide) hwindow⟩

/-- Whoever reads markers sees that a marker which was there twice is there once. -/
theorem repeated_marker_shows :
    let family : Family := { name := [102], clock := .manual .oldest }
    let scan : Scan AnyFilter := { retainDeletes := true }
    let marker := Cell.deleteColumn [114] [102] [99] ⟨5⟩
    let store := performAll { family } [.add marker, .flush, .add marker, .flush]
    (scan.Unfiltered family ∧ scan.Wide) ∧
      ∃ output next, (store.compact [⟨0⟩, ⟨1⟩] false).value = .ok (output, next) ∧
        store.supply.ScansTo family scan [marker, marker] ∧
        next.supply.ScansTo family scan [marker] ∧
        ¬∃ total, store.supply.ScansTo family scan total ∧
          next.supply.ScansTo family scan total := by
  intro family scan marker store
  have hfamily : family.Usual := ⟨rfl, Nat.le_refl 1, List.cons_ne_nil _ _⟩
  have hscan : scan.Unfiltered family :=
    ⟨⟨List.Pairwise.nil, Nat.le_refl 1⟩, hfamily.versions, rfl, rfl⟩
  have hstore := ((fresh_orderly hfamily).performAll (by decide) : Reached _ _ store).orderly
  have hwindow : Window store [⟨0⟩, ⟨1⟩] [] store.runs [] := by
    have hids : store.runs.map SortedRun.id = [⟨1⟩, ⟨0⟩] := rfl
    refine ⟨(List.append_nil _).symm, fun id => ?_⟩
    rw [← List.mem_map, hids]
    simp [or_comm]
  have hnext := hstore.withWindow hwindow false
  have hbefore := hstore.toKept.supply_scansTo (by decide) hscan
  have hafter := hnext.toKept.supply_scansTo (by decide) hscan
  have htwice : (Reading.start family scan (store.supply.cells scan.request)).output [] =
      [marker, marker] := by
    simp only [store, marker, family, scan]
    decide_cbv
  have honce : (Reading.start family scan ((store.withWindow [] (store.keptRun false store.runs)
      []).supply.cells scan.request)).output [] = [marker] := by
    simp only [store, marker, family, scan]
    decide_cbv
  have hbefore := htwice ▸ hbefore
  have hafter := honce ▸ hafter
  exact ⟨⟨hscan, rfl, rfl⟩, _, _, hstore.compact hwindow (absurd · Bool.false_ne_true), hbefore,
    hafter, hbefore.unlike hafter (by decide)⟩

/-! ## All runs -/

/-- Whether ids name all runs of a store. -/
def NamesAll (store : Store) (ids : List RunId) : Prop :=
  ∀ id, id ∈ ids ↔ id ∈ store.runs.map SortedRun.id

theorem NamesAll.toWindow (hids : NamesAll store ids) : Window store ids [] store.runs [] :=
  ⟨(List.append_nil _).symm, fun id => (hids id).trans List.mem_map⟩

/-- The cells of all runs of a store after they were compacted. -/
theorem flatMap_keptRun (store : Store) :
    (store.withWindow [] (store.keptRun true store.runs) []).runs.flatMap SortedRun.toList =
      store.family.compacted true (store.runs.flatMap SortedRun.toList) := by
  simp only [withWindow, List.nil_append, List.append_nil, toList_keptRun, keptCells_eq]

/-- What is shown of the runs of a store is the same after a compaction of all of them. -/
theorem shown_major {φ : Type} (hbuffer : store.buffer.cells = []) (scan : Scan φ) :
    (store.withWindow [] (store.keptRun true store.runs) []).shown scan = store.shown scan := by
  have hnone : (if scan.selection ≠ .filesOnly then ([] : List Cell) else []) = [] := ite_self _
  by_cases hselection : scan.selection = .memoryOnly
  · rw [shown, shown, selected, selected, hselection]
    rfl
  · have hafter : (store.withWindow [] (store.keptRun true store.runs) []).selected scan.selection =
        store.family.compacted true (store.runs.flatMap SortedRun.toList) := by
      rw [selected, if_pos hselection, flatMap_keptRun]
      simp only [withWindow, hbuffer, hnone, List.nil_append]
    have hbefore : store.selected scan.selection = store.runs.flatMap SortedRun.toList := by
      rw [selected, hbuffer, hnone, if_pos hselection, List.nil_append]
    rw [shown, shown, hafter, hbefore,
      Cell.freshest_of_strictlySorted (store.family.compacted_strictlySorted _ _)]
    exact Family.filter_shows_compacted _ _ (Nat.min_le_right _ _)

/-- A store without anything in its buffer looks the same after a compaction of all of its runs.
No marker is left then, and compacting all runs once more leaves the same cells. -/
theorem major_compaction_unseen {family : Family} (hfamily : family.Usual)
    {actions : List StoreAction}
    (hcells : ∀ action ∈ actions, ∀ cell ∈ action.cells, cell.IsReal ∧ cell.Tagged)
    (hroom : actions.length < bufferSequence)
    (hbuffer : (performAll { family } actions).buffer.cells = [])
    (hids : NamesAll (performAll { family } actions) ids) :
    ∃ output next, ((performAll { family } actions).compact ids true).value = .ok (output, next) ∧
      LooksLike (performAll { family } actions) next ∧
      (∀ run ∈ next.runs, ∀ cell ∈ run.toList, cell.isDelete = false) ∧
      ∀ again, NamesAll next again → ∃ second last,
        (next.compact again true).value = .ok (second, last) ∧ last.cells = next.cells := by
  have hreached := (fresh_orderly hfamily).performAll hcells
  generalize performAll { family } actions = store at hbuffer hids hreached
  have hstore := hreached.orderly
  have hnext := hstore.withWindow hids.toWindow true
  have hruns := flatMap_keptRun store
  refine ⟨_, _, hstore.compact hids.toWindow fun _ => ⟨rfl, rfl⟩,
    hstore.looksLike (hreached.hasRoom hroom) hids.toWindow (shown_major hbuffer),
    fun run hrun cell hcell => ?_, fun again hagain => ?_⟩
  -- all that is kept are values
  · have hmem := List.mem_flatMap.mpr ⟨run, hrun, hcell⟩
    rw [hruns] at hmem
    rw [Cell.isDelete, Family.kind_of_mem_compacted hmem]
    rfl
  · refine ⟨_, _, hnext.compact hagain.toWindow fun _ => ⟨rfl, rfl⟩, ?_⟩
    have hagainRuns := flatMap_keptRun (store.withWindow [] (store.keptRun true store.runs) [])
    rw [hruns, show (store.withWindow [] (store.keptRun true store.runs) []).family = store.family
      from rfl, Family.compacted_compacted, ← hruns] at hagainRuns
    rw [cells, hagainRuns]
    rfl

/-- Two runs are compacted, one of which has markers of each kind on versions of the other. -/
theorem major_compaction_unseen_of_load :
    let family : Family := { name := [102], clock := .manual .oldest }
    let value (time : UInt64) := Cell.put [114] [102] [99] ⟨time⟩ [1]
    let actions : List StoreAction :=
      [.bulkLoad [value 4, value 3, value 2, value 1],
        .bulkLoad [.deleteFamily [114] [102] ⟨1⟩, .delete [114] [102] [99] ⟨4⟩,
          .deleteColumn [114] [102] [99] ⟨2⟩]]
    let store := performAll { family } actions
    (family.Usual ∧ (∀ action ∈ actions, ∀ cell ∈ action.cells, cell.IsReal ∧ cell.Tagged) ∧
      actions.length < bufferSequence ∧ store.buffer.cells = [] ∧ NamesAll store [⟨0⟩, ⟨1⟩]) ∧
      ∃ output next, (store.compact [⟨0⟩, ⟨1⟩] true).value = .ok (output, next) ∧
        LooksLike store next ∧
        (∀ run ∈ next.runs, ∀ cell ∈ run.toList, cell.isDelete = false) ∧
        ∀ again, NamesAll next again → ∃ second last,
          (next.compact again true).value = .ok (second, last) ∧ last.cells = next.cells := by
  intro family value actions store
  have hfamily : family.Usual := ⟨rfl, Nat.le_refl 1, List.cons_ne_nil _ _⟩
  have hcells : ∀ action ∈ actions, ∀ cell ∈ action.cells, cell.IsReal ∧ cell.Tagged := by decide
  have hids : NamesAll store [⟨0⟩, ⟨1⟩] := by
    have hruns : store.runs.map SortedRun.id = [⟨1⟩, ⟨0⟩] := rfl
    intro id
    rw [hruns]
    simp [or_comm]
  exact ⟨⟨hfamily, hcells, by decide, rfl, hids⟩,
    major_compaction_unseen hfamily hcells (by decide) rfl hids⟩

/-- Whoever reads markers sees that they are gone. -/
theorem dropped_marker_shows :
    let family : Family := { name := [102], clock := .manual .oldest }
    let scan : Scan AnyFilter := { retainDeletes := true }
    let value := Cell.put [114] [102] [99] ⟨5⟩ [1]
    let marker := Cell.deleteColumn [114] [102] [99] ⟨10⟩
    let store := performAll { family } [.add value, .flush, .add marker, .flush]
    (scan.Unfiltered family ∧ scan.Wide ∧ store.buffer.cells = []) ∧
      ∃ output next, (store.compact [⟨0⟩, ⟨1⟩] true).value = .ok (output, next) ∧
        store.supply.ScansTo family scan [marker] ∧ next.supply.ScansTo family scan [] ∧
        ¬∃ total, store.supply.ScansTo family scan total ∧
          next.supply.ScansTo family scan total := by
  intro family scan value marker store
  have hfamily : family.Usual := ⟨rfl, Nat.le_refl 1, List.cons_ne_nil _ _⟩
  have hscan : scan.Unfiltered family :=
    ⟨⟨List.Pairwise.nil, Nat.le_refl 1⟩, hfamily.versions, rfl, rfl⟩
  have hstore := ((fresh_orderly hfamily).performAll (by decide) : Reached _ _ store).orderly
  have hids : NamesAll store [⟨0⟩, ⟨1⟩] := by
    have hruns : store.runs.map SortedRun.id = [⟨1⟩, ⟨0⟩] := rfl
    intro id
    rw [hruns]
    simp [or_comm]
  have hnext := hstore.withWindow hids.toWindow true
  have hbefore := hstore.toKept.supply_scansTo (by decide) hscan
  have hafter := hnext.toKept.supply_scansTo (by decide) hscan
  have hthere : (Reading.start family scan (store.supply.cells scan.request)).output [] =
      [marker] := by
    simp only [store, value, marker, family, scan]
    decide_cbv
  have hgone : (Reading.start family scan ((store.withWindow [] (store.keptRun true store.runs)
      []).supply.cells scan.request)).output [] = [] := by
    simp only [store, value, marker, family, scan]
    decide_cbv
  have hbefore := hthere ▸ hbefore
  have hafter := hgone ▸ hafter
  exact ⟨⟨hscan, ⟨rfl, rfl⟩, rfl⟩, _, _, hstore.compact hids.toWindow fun _ => ⟨rfl, rfl⟩, hbefore,
    hafter, hbefore.unlike hafter (by decide)⟩

end Store

end MergeScan
