import MergeScan.Proofs.Store.Arranged

/-! # Stores that are written to and compacted

Compactions leave a store in order like the writes do: the run that takes the place of
others holds cells of theirs, has a rank between those of its neighbours, and a new id. So
what is proved of a compaction holds at any point of a history of writes and compactions.
-/

namespace MergeScan

open CellOrder

/-- Something that changes the cells of a store, or the runs that hold them. -/
inductive StoreAction
  | add (cell : Cell)
  | flush
  | bulkLoad (cells : List Cell)
  | compact (ids : List RunId) (major : Bool)
deriving DecidableEq

/-- The cells that an action is to write. -/
def StoreAction.cells : StoreAction → List Cell
  | add cell => [cell]
  | bulkLoad cells => cells
  | flush | compact _ _ => []

namespace Store

/-- The store after an action. One that fails changes nothing. -/
def perform (store : Store) : StoreAction → Store
  | .add cell =>
    match store.add cell with
    | .ok next => next
    | .error _ => store
  | .flush => store.flush.value.2
  | .bulkLoad cells =>
    match (store.bulkLoad cells).value with
    | .ok (_, next) => next
    | .error _ => store
  | .compact ids major =>
    match (store.compact ids major).value with
    | .ok (_, next) => next
    | .error _ => store

/-- The store after actions one after the other. -/
def performAll (store : Store) (actions : List StoreAction) : Store :=
  actions.foldl perform store

/-- What holds of a store of a usual family whatever happens to it, as long as the cells
that are written are real, and the empty qualifier is the one of markers on whole rows. -/
structure Orderly (store : Store) : Prop extends Kept store where
  usual : store.family.Usual
  tagged cell : cell ∈ store.cells → cell.Tagged
  distinct : (store.runs.map SortedRun.id).Nodup
  numbered run : run ∈ store.runs → run.id.number < store.runsAdded

variable {store : Store} {ids : List RunId} {newer window older : List SortedRun} {major : Bool}

theorem fresh_orderly {family : Family} (hfamily : family.Usual) : Orderly { family } where
  toKept := fresh_kept family
  usual := hfamily
  tagged _ hcell := nomatch hcell
  distinct := List.nodup_nil
  numbered _ hrun := nomatch hrun

theorem Orderly.arranged (hstore : Orderly store) : Arranged store :=
  ⟨hstore.toKept, hstore.usual.order, hstore.usual.versions, hstore.distinct, hstore.numbered⟩

/-- A store of a usual family that is arranged is in order as long as its empty qualifiers are
those of markers on whole rows. -/
theorem Arranged.orderly (hstore : Arranged store) (husual : store.family.Usual)
    (htagged : ∀ cell ∈ store.cells, cell.Tagged) : Orderly store :=
  ⟨hstore.toKept, husual, htagged, hstore.distinct, hstore.numbered⟩

/-! ## Windows -/

/-- A compaction leaves a store in order. -/
theorem Orderly.withWindow (hstore : Orderly store)
    (hwindow : Window store ids newer window older) (major : Bool) :
    Orderly (store.withWindow newer (store.keptRun major window) older) := by
  have hmerged := merged_keptRun store major window
  exact (hstore.arranged.withWindow hwindow hmerged).orderly hstore.usual
    fun cell hcell => hstore.tagged cell (hwindow.mem_cells hmerged hcell)

theorem Orderly.compact (hstore : Orderly store) (hwindow : Window store ids newer window older)
    (hwhole : major = true → newer = [] ∧ older = []) :
    (store.compact ids major).value =
      .ok (⟨(window.flatMap SortedRun.toList).length, store.keptRun major window⟩,
        store.withWindow newer (store.keptRun major window) older) :=
  hwindow.compact hstore.usual hstore.sound hstore.stored hstore.tagged hstore.distinct hwhole

/-- A compaction fails and changes nothing, or puts what is kept of a window of the runs in
its place. -/
theorem Orderly.compact_cases (hstore : Orderly store) (ids : List RunId) (major : Bool) :
    (∃ failure, (store.compact ids major).value = .error failure) ∨
      ∃ newer window older, Window store ids newer window older ∧
        (store.compact ids major).value =
          .ok (⟨(window.flatMap SortedRun.toList).length, store.keptRun major window⟩,
            store.withWindow newer (store.keptRun major window) older) := by
  cases hselect : store.selectRuns ids major with
  | error failure =>
      refine .inl ⟨failure, ?_⟩
      rw [Store.compact, mergeRuns, hselect]
      rfl
  | ok window =>
      obtain ⟨newer, older, hwindow, hwhole⟩ := Window.of_selectRuns hstore.distinct hselect
      exact .inr ⟨newer, window, older, hwindow, hstore.compact hwindow hwhole⟩

/-! ## Histories -/

theorem add_cases (store : Store) (cell : Cell) :
    (∃ failure, store.add cell = .error failure) ∨
      cell.family = store.family.name ∧
        store.add cell = .ok { store with buffer := store.buffer.insert cell } := by
  by_cases hfamily : cell.family = store.family.name
  · right
    refine ⟨hfamily, ?_⟩
    rw [Store.add, checkFamily, if_pos hfamily]
    rfl
  · left
    refine ⟨.wrongFamily store.family.name cell.family, ?_⟩
    rw [Store.add, checkFamily, if_neg hfamily]
    rfl

theorem bulkLoad_cases (store : Store) (cells : List Cell) :
    (∃ failure, (store.bulkLoad cells).value = .error failure) ∨
      (∀ cell ∈ cells, cell.family = store.family.name) ∧
        (store.bulkLoad cells).value = .ok (store.addRun cells) := by
  have hcheck := forM_checkFamily store cells
  cases hfound : cells.find? (·.family ≠ store.family.name) with
  | some cell =>
      left
      rw [hfound] at hcheck
      exact ⟨_, by rw [Store.bulkLoad, hcheck]; rfl⟩
  | none =>
      right
      rw [hfound] at hcheck
      refine ⟨by simpa using hfound, ?_⟩
      rw [Store.bulkLoad, hcheck]
      rfl

/-- What an action that is to write cells can do to a store. -/
inductive Changes (store : Store) (written : List Cell) : Store → Prop
  | nothing : Changes store written store
  | inserted (cell : Cell) : cell ∈ written → cell.family = store.family.name →
      Changes store written { store with buffer := store.buffer.insert cell }
  | flushed : Changes store written store.flush.value.2
  | loaded : (∀ cell ∈ written, cell.family = store.family.name) →
      Changes store written (store.addRun written).2
  | merged (ids : List RunId) (newer window older : List SortedRun) (major : Bool) :
      Window store ids newer window older →
      Changes store written (store.withWindow newer (store.keptRun major window) older)

theorem Orderly.perform_changes (hstore : Orderly store) (action : StoreAction) :
    Changes store action.cells (store.perform action) := by
  cases action with
  | add cell =>
      rcases store.add_cases cell with ⟨failure, hadd⟩ | ⟨hfamily, hadd⟩ <;>
        simp only [perform, hadd]
      · exact .nothing
      · exact .inserted cell List.mem_cons_self hfamily
  | flush => exact .flushed
  | bulkLoad cells =>
      rcases store.bulkLoad_cases cells with ⟨failure, hload⟩ | ⟨hfamily, hload⟩ <;>
        simp only [perform, hload]
      · exact .nothing
      · exact .loaded hfamily
  | compact ids major =>
      rcases hstore.compact_cases ids major with
        ⟨failure, hcompact⟩ | ⟨newer, window, older, hwindow, hcompact⟩ <;>
        simp only [perform, hcompact]
      · exact .nothing
      · exact .merged ids newer window older major hwindow

theorem mem_cells_flush {cell : Cell} (hcell : cell ∈ store.flush.value.2.cells) :
    cell ∈ store.cells := by
  cases hbuffer : store.buffer.isEmpty with
  | true =>
      rw [flush_of_empty hbuffer] at hcell
      exact hcell
  | false =>
      rw [flush_of_nonempty hbuffer] at hcell
      have hadded : cell ∈ (store.addRun store.buffer.cells).2.cells :=
        List.mem_append_right _ hcell
      exact (mem_cells_addRun hadded).elim (List.mem_append_left _) id

variable {written : List Cell} {next : Store}

/-- A store that has changed holds cells that were written or that it held before. -/
theorem Changes.mem_cells (hchanges : Changes store written next) {cell : Cell}
    (hcell : cell ∈ next.cells) : cell ∈ written ∨ cell ∈ store.cells := by
  cases hchanges with
  | nothing => exact .inr hcell
  | inserted added hadded =>
      rcases List.mem_append.mp hcell with hbuffer | hrun
      · rcases Buffer.mem_insertCell hbuffer with rfl | hmem
        · exact .inl hadded
        · exact .inr (List.mem_append_left _ hmem)
      · exact .inr (List.mem_append_right _ hrun)
  | flushed => exact .inr (mem_cells_flush hcell)
  | loaded => exact mem_cells_addRun hcell
  | merged ids newer window older major hwindow =>
      exact .inr (hwindow.mem_cells (merged_keptRun store major window) hcell)

theorem Changes.family_eq (hchanges : Changes store written next) : next.family = store.family := by
  cases hchanges with
  | flushed =>
      unfold Store.flush
      split <;> rfl
  | _ => rfl

/-- At most one rank is given away. -/
theorem Changes.nextSequence_le (hchanges : Changes store written next) :
    next.nextSequence ≤ store.nextSequence + 1 := by
  cases hchanges with
  | flushed =>
      unfold Store.flush
      split
      · exact Nat.le_succ _
      · exact Nat.le_refl _
  | loaded => exact Nat.le_refl _
  | _ => exact Nat.le_succ _

/-- Real cells keep a store in order when they are written. -/
theorem Orderly.changes (hstore : Orderly store) (hchanges : Changes store written next)
    (hreal : ∀ cell ∈ written, cell.IsReal) (htagged : ∀ cell ∈ written, cell.Tagged) :
    Orderly next := by
  have hnext : Arranged next := by
    cases hchanges with
    | nothing => exact hstore.arranged
    | inserted cell hcell hfamily => exact hstore.arranged.insert (hreal cell hcell) hfamily
    | flushed => exact hstore.arranged.flush
    | loaded hfamily =>
        exact hstore.arranged.addRun fun cell hcell => ⟨hreal cell hcell, hfamily cell hcell⟩
    | merged ids newer window older major hwindow =>
        exact hstore.arranged.withWindow hwindow (merged_keptRun store major window)
  exact hnext.orderly (hchanges.family_eq ▸ hstore.usual) fun cell hcell =>
    (hchanges.mem_cells hcell).elim (htagged cell) (hstore.tagged cell)

/-- A store after a history of actions that write real cells. It is in order, and holds cells
that it held before or that were written. -/
structure Reached (store : Store) (actions : List StoreAction) (next : Store) : Prop where
  orderly : Orderly next
  family : next.family = store.family
  nextSequence : next.nextSequence ≤ store.nextSequence + actions.length
  mem_cells cell : cell ∈ next.cells →
    cell ∈ store.cells ∨ ∃ action ∈ actions, cell ∈ action.cells

/-- As long as no more ranks were given away than there are below the one of the buffer, the
buffer is the freshest source. -/
theorem Reached.hasRoom {family : Family} {actions : List StoreAction}
    (hreached : Reached { family } actions store) (hroom : actions.length < bufferSequence) :
    store.nextSequence ≤ bufferSequence := by
  have hle : store.nextSequence ≤ 1 + actions.length := hreached.nextSequence
  omega

theorem Orderly.performAll (hstore : Orderly store) {actions : List StoreAction}
    (hactions : ∀ action ∈ actions, ∀ cell ∈ action.cells, cell.IsReal ∧ cell.Tagged) :
    Reached store actions (store.performAll actions) := by
  induction actions generalizing store with
  | nil => exact ⟨hstore, rfl, Nat.le_refl _, fun _ hcell => .inl hcell⟩
  | cons action rest ih =>
      obtain ⟨haction, hrest⟩ := List.forall_mem_cons.mp hactions
      have hchanges := hstore.perform_changes action
      have hreached := ih (hstore.changes hchanges (fun cell hcell => (haction cell hcell).1)
        fun cell hcell => (haction cell hcell).2) hrest
      refine ⟨hreached.orderly, hreached.family.trans hchanges.family_eq, ?_, fun cell hcell => ?_⟩
      · have hle := hreached.nextSequence
        have := hchanges.nextSequence_le
        rw [List.length_cons]
        show ((store.perform action).performAll rest).nextSequence ≤ _
        omega
      · rcases hreached.mem_cells cell hcell with hmem | ⟨other, hother, hmem⟩
        · exact (hchanges.mem_cells hmem).symm.imp_right fun hwritten =>
            ⟨action, List.mem_cons_self, hwritten⟩
        · exact .inr ⟨other, List.mem_cons_of_mem _ hother, hmem⟩

/-- An action keeps a store arranged if it writes real cells. -/
theorem Arranged.perform (hstore : Arranged store) {action : StoreAction}
    (hreal : ∀ cell ∈ action.cells, cell.IsReal) : Arranged (store.perform action) := by
  cases action with
  | add cell =>
      rcases store.add_cases cell with ⟨failure, hadd⟩ | ⟨hfamily, hadd⟩ <;>
        simp only [Store.perform, hadd]
      · exact hstore
      · exact hstore.insert (hreal cell List.mem_cons_self) hfamily
  | flush => exact hstore.flush
  | bulkLoad cells =>
      rcases store.bulkLoad_cases cells with ⟨failure, hload⟩ | ⟨hfamily, hload⟩ <;>
        simp only [Store.perform, hload]
      · exact hstore
      · exact hstore.addRun fun cell hcell => ⟨hreal cell hcell, hfamily cell hcell⟩
  | compact ids major =>
      rcases hstore.compact_cases ids major with
        ⟨failure, -, hcompact⟩ | ⟨newer, window, older, run, hwindow, -, hmerged, hcompact⟩ <;>
        simp only [Store.perform, hcompact]
      · exact hstore
      · exact hstore.withWindow hwindow hmerged

theorem Arranged.performAll (hstore : Arranged store) {actions : List StoreAction}
    (hreal : ∀ action ∈ actions, ∀ cell ∈ action.cells, cell.IsReal) :
    Arranged (store.performAll actions) := by
  induction actions generalizing store with
  | nil => exact hstore
  | cons action rest ih =>
      obtain ⟨haction, hrest⟩ := List.forall_mem_cons.mp hreal
      exact ih (hstore.perform haction) hrest

end Store

end MergeScan
