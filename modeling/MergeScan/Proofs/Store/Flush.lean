import MergeScan.Proofs.Cell.Alike
import MergeScan.Proofs.Store.History
import MergeScan.Proofs.Store.Pruning
import MergeScan.Proofs.Store.Supply

/-! # A flush does not show

A flush turns the buffer into a run with the same cells. A run is left out of a scan where
the buffer would not be, but then it has no cell in the range of the scan: both are held
against the times of their cells, and the run against its rows as well.
-/

namespace MergeScan

open CellOrder

/-! ## The times of a buffer -/

namespace SortedRun

theorem widen_comm (bounds : Timestamp × Timestamp) (first second : Cell) :
    widen (widen bounds first) second = widen (widen bounds second) first := by
  simp only [widen]
  grind

theorem widen_of_eq {first second : Cell} (hsame : first.timestamp = second.timestamp)
    (bounds : Timestamp × Timestamp) : widen (widen bounds first) second = widen bounds second := by
  simp only [widen, hsame]
  grind

theorem foldl_widen (cells : List Cell) (bounds : Timestamp × Timestamp) (cell : Cell) :
    cells.foldl widen (widen bounds cell) = widen (cells.foldl widen bounds) cell := by
  induction cells generalizing bounds with
  | nil => rfl
  | cons first rest ih => rw [List.foldl_cons, widen_comm, ih, List.foldl_cons]

end SortedRun

namespace Buffer

open SortedRun (widen)

theorem foldl_insertCell {cells : List Cell} {cell : Cell} (hcell : cell.IsReal)
    (hcells : ∀ other ∈ cells, other.IsReal) (bounds : Timestamp × Timestamp) :
    (insertCell cell cells).foldl widen bounds = widen (cells.foldl widen bounds) cell := by
  induction cells generalizing bounds with
  | nil => rfl
  | cons first rest ih =>
      obtain ⟨hfirst, hrest⟩ := List.forall_mem_cons.mp hcells
      rw [insertCell]
      split
      next => rw [List.foldl_cons, SortedRun.foldl_widen]
      next hsame =>
        have hstamp := ((Cell.compareKeys_eq_eq_iff hcell.not_lastOnRow
          hfirst.not_lastOnRow).mp hsame).2.2.2.1
        rw [List.foldl_cons, List.foldl_cons, ← SortedRun.foldl_widen,
          SortedRun.widen_of_eq hstamp.symm]
      next => rw [List.foldl_cons, List.foldl_cons, ih hrest]

theorem Bounded.insert {buffer : Buffer} (hbounded : buffer.Bounded) {cell : Cell}
    (hcell : cell.IsReal) (hcells : ∀ other ∈ buffer.cells, other.IsReal) :
    (buffer.insert cell).Bounded := by
  unfold Bounded at hbounded ⊢
  rw [Buffer.insert, foldl_insertCell hcell hcells, ← hbounded]
  rfl

end Buffer

/-! ## What a scan reads of a store -/

theorem SortedRun.toList_ofCells_of_sorted {cells : List Cell} (hcells : keys.StrictlySorted cells)
    (id : RunId) (sequenceId : Nat) : (ofCells id sequenceId cells).toList = cells := by
  rw [toList_ofCells, sort_eq_of_copies hcells.sorted fun _ => rfl, dedupe_of_strictlySorted hcells]

namespace Store

variable {store : Store} {request : SourceRequest}

/-- A list that a provider of sources by descending rank makes up, place by place. -/
theorem Sound.copies_supply (hstore : Sound store) (hroom : store.nextSequence ≤ bufferSequence)
    (hselection : request.selection = .all) (place : Cell) :
    keys.copies place (store.supply.cells request) =
      keys.copies place (if store.buffer.concerns request then store.buffer.cells else []) ++
        keys.copies place ((store.runs.filter (·.concerns request)).flatMap SortedRun.toList) := by
  have hmerged := merged_ranked (hstore.sources_ranked hroom request)
  rw [hstore.remaining_sources, hselection] at hmerged
  have hcells : store.supply.cells request = _ := hmerged
  rw [hcells, copies_sort, copies_append]
  rfl

/-- The store after its buffer was turned into a run. -/
theorem flush_of_nonempty (hbuffer : store.buffer.isEmpty = false) :
    store.flush.value.2 = { (store.addRun store.buffer.cells).2 with
      buffer := .empty, generation := store.generation + 1 } := by
  rw [flush, hbuffer]
  rfl

theorem flush_of_empty (hbuffer : store.buffer.isEmpty = true) :
    store.flush.value = (none, store) := by
  rw [flush, hbuffer]
  rfl

theorem family_flush (store : Store) : store.flush.value.2.family = store.family := by
  cases hbuffer : store.buffer.isEmpty with
  | true => rw [flush_of_empty hbuffer]
  | false => rw [flush_of_nonempty hbuffer]; rfl

/-- A flush takes a sequence number if it makes a run. -/
theorem nextSequence_flush (store : Store) : store.flush.value.2.nextSequence =
    if store.buffer.isEmpty then store.nextSequence else store.nextSequence + 1 := by
  cases hbuffer : store.buffer.isEmpty with
  | true => rw [flush_of_empty hbuffer]; rfl
  | false => rw [flush_of_nonempty hbuffer]; rfl

theorem isEmpty_flush (store : Store) : store.flush.value.2.buffer.isEmpty = true := by
  cases hbuffer : store.buffer.isEmpty with
  | true => rwa [flush_of_empty hbuffer]
  | false => rw [flush_of_nonempty hbuffer]; rfl

theorem Sound.flush (hstore : Sound store) : Sound store.flush.value.2 := by
  cases hbuffer : store.buffer.isEmpty with
  | true => rwa [flush_of_empty hbuffer]
  | false =>
      have hadded := hstore.addRun store.buffer.cells
      rw [flush_of_nonempty hbuffer]
      exact ⟨List.Pairwise.nil, hadded.runs, hadded.ranked, hadded.recent⟩

/-- At the places in the range of a scan, the run that a buffer becomes has what the
buffer has. -/
theorem copies_becoming {buffer : Buffer} (hcells : keys.StrictlySorted buffer.cells)
    (hbounded : buffer.Bounded) (hbuffer : buffer.isEmpty = false) {place : Cell}
    (hrow : request.rows.contains place.row = true) (id : RunId) (sequenceId : Nat) :
    keys.copies place
        (if (SortedRun.ofCells id sequenceId buffer.cells).concerns request then buffer.cells
          else []) =
      keys.copies place (if buffer.concerns request then buffer.cells else []) := by
  obtain ⟨first, rest, hlist⟩ : ∃ first rest, buffer.cells = first :: rest :=
    List.exists_cons_of_ne_nil (by simpa [Buffer.isEmpty] using hbuffer)
  have hrun := SortedRun.toList_ofCells_of_sorted hcells id sequenceId
  rw [SortedRun.concerns_eq (hrun.trans hlist), hrun, ← hbounded, Buffer.concerns, hbuffer,
    Bool.false_or]
  cases htimes : request.timeRange.overlaps buffer.oldest buffer.newest with
  | false => rfl
  | true =>
      rw [Bool.true_and, if_pos rfl]
      cases hrows : request.rows.overlaps first.row ((first :: rest).getLast (by simp)).row with
      | true => rfl
      | false =>
          -- no cell of the buffer is in a row of the range
          have hnone : keys.copies place ([] : List Cell) = [] := rfl
          symm
          rw [if_neg Bool.false_ne_true, hnone]
          refine copies_eq_nil fun cell hcell (hsame : Cell.compareKeys cell place = .eq) => ?_
          have hsorted := hcells.sorted
          rw [hlist] at hcell hsorted
          obtain ⟨hfirst, hlast⟩ := hsorted.row_between hcell
          have houtside := RowRange.contains_of_not_overlaps hrows hfirst hlast
          rw [Cell.row_eq_of_eq hsame, hrow] at houtside
          cases houtside

/-- What a scan reads of a store is the same after a flush. -/
theorem Sound.flush_alike (hstore : Sound store) (hroom : store.nextSequence < bufferSequence)
    (hbounded : store.buffer.Bounded) (hselection : request.selection = .all) :
    Alike request.rows True (store.flush.value.2.supply.cells request)
      (store.supply.cells request) := by
  cases hbuffer : store.buffer.isEmpty with
  | true =>
      rw [flush_of_empty hbuffer]
      exact .refl _
  | false =>
      apply Alike.of_copies
      intro place hrow
      have hnext : store.flush.value.2.nextSequence ≤ bufferSequence := by
        rw [nextSequence_flush, hbuffer]
        exact hroom
      rw [hstore.flush.copies_supply hnext hselection,
        hstore.copies_supply (Nat.le_of_lt hroom) hselection,
        ← copies_becoming hstore.buffer hbounded hbuffer hrow ⟨store.runsAdded⟩ store.nextSequence,
        flush_of_nonempty hbuffer]
      have hempty : keys.copies place
          (if Buffer.empty.concerns request then Buffer.empty.cells else []) = [] := by
        split <;> rfl
      have hrun := SortedRun.toList_ofCells_of_sorted hstore.buffer ⟨store.runsAdded⟩
        store.nextSequence
      rw [hempty, List.nil_append, Store.addRun, List.filter_cons]
      split
      · rw [List.flatMap_cons, copies_append, hrun]
      · rfl

/-- What holds of a store as long as only real cells are written to it. -/
structure Kept (store : Store) : Prop where
  sound : Sound store
  stored : Stored store
  bounded : store.buffer.Bounded

theorem fresh_kept (family : Family) : Kept { family } :=
  ⟨fresh_sound family, fresh_stored family, rfl⟩

theorem Kept.of_data {other : Store} (hkept : Kept store) (hdata : other.data = store.data) :
    Kept other := by
  obtain ⟨family, buffer, _, runs, _, next, _, _⟩ := store
  obtain ⟨_, _, _, _, _, _, _, _⟩ := other
  cases hdata
  exact ⟨⟨hkept.sound.buffer, hkept.sound.runs, hkept.sound.ranked, hkept.sound.recent⟩,
    hkept.stored, hkept.bounded⟩

theorem Kept.insert (hkept : Kept store) {cell : Cell} (hcell : cell.IsReal)
    (hfamily : cell.family = store.family.name) :
    Kept { store with buffer := store.buffer.insert cell } where
  sound := ⟨Buffer.insertCell_strictlySorted hkept.sound.buffer cell, hkept.sound.runs,
    hkept.sound.ranked, hkept.sound.recent⟩
  stored other hother := by
    rcases List.mem_append.mp hother with hbuffer | hrun
    · rcases Buffer.mem_insertCell hbuffer with rfl | hmem
      · exact ⟨hcell, hfamily⟩
      · exact hkept.stored other (List.mem_append_left _ hmem)
    · exact hkept.stored other (List.mem_append_right _ hrun)
  bounded := hkept.bounded.insert hcell fun other hother =>
    (hkept.stored other (List.mem_append_left _ hother)).1

theorem Kept.addRun (hkept : Kept store) {cells : List Cell}
    (hcells : Cell.StoredIn store.family.name cells) : Kept (store.addRun cells).2 :=
  ⟨hkept.sound.addRun cells, hkept.stored.addRun hcells, hkept.bounded⟩

theorem Kept.flush (hkept : Kept store) : Kept store.flush.value.2 := by
  cases hbuffer : store.buffer.isEmpty with
  | true => rwa [flush_of_empty hbuffer]
  | false =>
      have hadded := hkept.stored.addRun fun cell hcell =>
        hkept.stored cell (List.mem_append_left _ hcell)
      refine ⟨hkept.sound.flush, ?_, ?_⟩ <;> rw [flush_of_nonempty hbuffer]
      · exact fun cell hcell => hadded cell (List.mem_append_right _ hcell)
      · rfl

/-- Writing real cells keeps a store in order. -/
theorem Kept.after (hkept : Kept store) {call : StoreCall}
    (hcells : ∀ cell ∈ call.cells, cell.IsReal) : Kept (store.after call) := by
  unfold Store.after
  split
  next => exact hkept
  next haccepted =>
    have hfamily : ∀ cell ∈ call.cells, cell.family = store.family.name := by
      simpa [StoreCall.refused?] using haccepted
    cases call with
    | add cell =>
        exact hkept.insert (hcells cell List.mem_cons_self) (hfamily cell List.mem_cons_self)
    | flush => exact hkept.flush
    | bulkLoad cells => exact hkept.addRun fun cell hcell => ⟨hcells cell hcell, hfamily cell hcell⟩

end Store

/-- A history of calls that write real cells keeps a store in order. -/
theorem StoreSession.callAll_kept {session : StoreSession} (hkept : session.store.Kept)
    {calls : List StoreCall} (hcells : ∀ call ∈ calls, ∀ cell ∈ call.cells, cell.IsReal) :
    (session.callAll calls).store.Kept := by
  induction calls generalizing session with
  | nil => exact hkept
  | cons call rest ih =>
      obtain ⟨hcall, hrest⟩ := List.forall_mem_cons.mp hcells
      exact ih ((hkept.after hcall).of_data (data_call session call)) hrest

end MergeScan
