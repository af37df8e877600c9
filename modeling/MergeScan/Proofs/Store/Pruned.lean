import Mathlib
import MergeScan.Proofs.Scanner.Heeds
import MergeScan.Proofs.Store.Compaction
import MergeScan.Proofs.Store.Reads

/-! # Sources that are left out

A scan does not see that a store leaves sources out, unless one of them has a marker that
is newer than the times the scan asks for: such a marker may delete older values of other
sources. A scan that hands out markers does not see it if nothing of its rows is left out.
-/

namespace MergeScan

open CellOrder

namespace Store

variable {store : Store} {φ : Type} {scan : Scan φ}

/-- A scan does not heed what is left out, except for markers newer than its times. -/
theorem Kept.heeds_of_leftOut (hstore : Kept store) {cell : Cell}
    (hcell : cell ∈ store.leftOut scan.request)
    (hsways : scan.rows.contains cell.row = true → scan.retainDeletes = false ∧
      (cell.isDelete = true → scan.timeRange.reaches cell.timestamp = false)) :
    scan.heeds cell = false := by
  have hmisses : (!scan.rows.contains cell.row || !scan.timeRange.contains cell.timestamp) = true :=
    hstore.misses_of_leftOut hcell
  rw [Scan.heeds]
  cases hrow : scan.rows.contains cell.row with
  | false => rfl
  | true =>
      obtain ⟨hvalues, hmarker⟩ := hsways hrow
      have htime : scan.timeRange.contains cell.timestamp = false := by simpa [hrow] using hmisses
      cases hdelete : cell.isDelete with
      | false => rw [hvalues, htime]; rfl
      | true => rw [hvalues, htime, hmarker hdelete]; rfl

variable [CellFilter φ]

/-- A store that is reached by a history of writes and compactions is scanned alike whether it
leaves sources out or not, if no marker of the rows of the scan is left out that is newer than
its times, and nothing of its rows at all where the scan hands out markers. -/
theorem pruning_unseen {family : Family} (hfamily : family.Usual) {actions : List StoreAction}
    (hcells : ∀ action ∈ actions, ∀ cell ∈ action.cells, cell.IsReal ∧ cell.Tagged)
    (hroom : actions.length < bufferSequence) (hscan : scan.Unfiltered family)
    (hsways : ∀ cell ∈ (performAll { family } actions).leftOut scan.request,
      scan.rows.contains cell.row = true → scan.retainDeletes = false ∧
        (cell.isDelete = true → scan.timeRange.reaches cell.timestamp = false)) :
    ∃ total, (performAll { family } actions).supply.ScansTo family scan total ∧
      (performAll { family } actions).unpruned.ScansTo family scan total := by
  have hreached := (fresh_orderly hfamily).performAll hcells
  have hname : (performAll { family } actions).family = family := hreached.family
  generalize performAll { family } actions = store at hsways hname hreached ⊢
  subst hname
  have hstore := hreached.orderly
  have hroom := hreached.hasRoom hroom
  have hsupply := hstore.sound.supply_sound hstore.stored hroom scan.request
  have hunpruned := hstore.sound.unpruned_sound hstore.stored hroom scan.request
  -- the two providers have the same cells, apart from those that the scan does not heed
  have hsame := hstore.sound.filter_cells_supply hroom fun cell hcell =>
    hstore.toKept.heeds_of_leftOut hcell (hsways cell hcell)
  have hleft := hscan.output_start_heeded hfamily.named (store.supply.cells_sorted _)
    hsupply.stored fun cell hcell => hstore.tagged cell (hstore.sound.mem_supply_cells hcell)
  have hright := hscan.output_start_heeded hfamily.named (store.unpruned.cells_sorted _)
    hunpruned.stored fun cell hcell => by
      rw [hstore.sound.cells_unpruned hroom] at hcell
      exact hstore.tagged cell (mem_cells_of_selected (mem_sort.mp hcell))
  refine ⟨_, hstore.toKept.supply_scansTo hroom hscan, ?_⟩
  rw [← hleft, hsame, hright]
  exact hstore.toKept.unpruned_scansTo hroom hscan

omit [CellFilter φ] in
/-- Of three runs one is left out that is newer than the times of the scan, and one that is older.
The older one has a marker. -/
theorem pruning_unseen_of_load :
    let family : Family := { name := [102], maxVersions := 3, clock := .manual .oldest }
    let value (time : UInt64) := Cell.put [114] [102] [99] ⟨time⟩ [1]
    let marker (time : UInt64) := Cell.deleteColumn [114] [102] [99] ⟨time⟩
    let actions : List StoreAction :=
      [.bulkLoad [marker 2, value 1], .bulkLoad [value 6, value 5, marker 4, value 4],
        .bulkLoad [value 9, value 8]]
    let store := performAll { family } actions
    let scan : Scan AnyFilter := { maxVersions := 3, timeRange := .between ⟨3⟩ ⟨7⟩ }
    (family.Usual ∧ (∀ action ∈ actions, ∀ cell ∈ action.cells, cell.IsReal ∧ cell.Tagged) ∧
      actions.length < bufferSequence ∧ scan.Unfiltered family ∧
      store.leftOut scan.request = [value 9, value 8, marker 2, value 1] ∧
      ∀ cell ∈ store.leftOut scan.request, scan.rows.contains cell.row = true →
        scan.retainDeletes = false ∧
          (cell.isDelete = true → scan.timeRange.reaches cell.timestamp = false)) ∧
      ∃ total, store.supply.ScansTo family scan total ∧
        store.unpruned.ScansTo family scan total := by
  intro family value marker actions store scan
  have hfamily : family.Usual := ⟨rfl, Nat.le_add_left 1 2, List.cons_ne_nil _ _⟩
  have hcells : ∀ action ∈ actions, ∀ cell ∈ action.cells, cell.IsReal ∧ cell.Tagged := by decide
  have hscan : scan.Unfiltered family :=
    ⟨⟨List.Pairwise.nil, by decide⟩, hfamily.versions, rfl, rfl⟩
  have hleft : store.leftOut scan.request = [value 9, value 8, marker 2, value 1] := by
    simp only [store, actions, value, marker, family, scan]
    decide_cbv
  have hsways : ∀ cell ∈ store.leftOut scan.request, scan.rows.contains cell.row = true →
      scan.retainDeletes = false ∧
        (cell.isDelete = true → scan.timeRange.reaches cell.timestamp = false) := by
    rw [hleft]
    decide
  exact ⟨⟨hfamily, hcells, by decide, hscan, hleft, hsways⟩,
    pruning_unseen hfamily hcells (by decide) hscan hsways⟩

omit [CellFilter φ] in
/-- Where a marker is left out that is newer than the times of a scan, the scan hands out a value
that the marker deletes. -/
theorem newer_marker_left_out :
    let family : Family := { name := [102], clock := .manual .oldest }
    let value := Cell.put [114] [102] [99] ⟨5⟩ [1]
    let marker := Cell.deleteColumn [114] [102] [99] ⟨10⟩
    let store := performAll { family } [.add value, .flush, .add marker, .flush]
    let scan : Scan AnyFilter := { timeRange := .between ⟨0⟩ ⟨6⟩ }
    scan.Unfiltered family ∧ store.supply.ScansTo family scan [value] ∧
      store.unpruned.ScansTo family scan [] ∧
      ¬∃ total, store.supply.ScansTo family scan total ∧
        store.unpruned.ScansTo family scan total := by
  intro family value marker store scan
  have hfamily : family.Usual := ⟨rfl, Nat.le_refl 1, List.cons_ne_nil _ _⟩
  have hscan : scan.Unfiltered family :=
    ⟨⟨List.Pairwise.nil, by decide⟩, hfamily.versions, rfl, rfl⟩
  have hstore := ((fresh_orderly hfamily).performAll (by decide) : Reached _ _ store).orderly
  have hsupply := hstore.toKept.supply_scansTo (by decide) hscan
  have hunpruned := hstore.toKept.unpruned_scansTo (by decide) hscan
  have hthere : (Reading.start family scan (store.supply.cells scan.request)).output [] =
      [value] := by
    simp only [store, value, marker, family, scan]
    decide_cbv
  have hgone : (Reading.start family scan (store.unpruned.cells scan.request)).output [] = [] := by
    simp only [store, value, marker, family, scan]
    decide_cbv
  have hsupply := hthere ▸ hsupply
  have hunpruned := hgone ▸ hunpruned
  exact ⟨hscan, hsupply, hunpruned, hsupply.unlike hunpruned (by decide)⟩

end Store

end MergeScan
