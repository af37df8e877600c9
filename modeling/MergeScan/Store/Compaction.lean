import MergeScan.Filter.Any
import MergeScan.Scanner.Read
import MergeScan.Store.Basic

/-! # Compaction

Compaction merges runs that are neighbours in freshness into one that takes
their place. A complete compaction takes all runs and drops what delete markers
hide along with the markers. A partial one keeps the markers, because older
runs may hold cells that they hide.
-/

namespace MergeScan

/-- What a compaction is about to put in the place of its runs. -/
structure CompactionOutput where
  inputCells : Nat
  /-- The merged run, unless no cell is left. -/
  run : Option SortedRun

namespace Store

/-- The position of a run, the freshest one being at zero. -/
def position (store : Store) (id : RunId) : Except StoreError Nat :=
  match store.runs.findIdx? (·.id = id) with
  | some position => .ok position
  | none => .error (.unknownRun id)

/-- The first gap between selected positions. -/
def firstGap? (positions : List Nat) (runs : List SortedRun) : Option SortedRun :=
  match positions.min?, positions.max? with
  | some first, some last =>
    ((runs.zipIdx.drop first).take (last + 1 - first)).findSome? fun (run, position) =>
      if positions.contains position then none else some run
  | _, _ => none

/-- The runs that a compaction is to merge, the freshest first. They have to be
neighbours, and a complete compaction has to take all of them. -/
def selectRuns (store : Store) (ids : List RunId) (major : Bool) :
    Except StoreError (List SortedRun) := do
  let positions ← ids.mapM store.position
  match firstGap? positions store.runs with
  | some skipped => throw (.skippedRun skipped.id)
  | none =>
    let inputs := (store.runs.zipIdx.filter fun (_, position) => positions.contains position).map
      Prod.fst
    if major && inputs.length ≠ store.runs.length then
      throw (.partialSelection inputs.length store.runs.length)
    else return inputs

/-- The scan that a compaction reads its runs with. -/
def compactionScan (store : Store) (major : Bool) : Scan Empty :=
  { maxVersions := max store.family.maxVersions 1
    selection := .filesOnly
    cacheBlocks := false
    retainDeletes := !major }

/-- The merged cells of runs. All readers are closed afterwards. -/
def mergeCells (store : Store) (inputs : List SortedRun) (major : Bool) :
    Noted (Except StoreError (List Cell)) := do
  let sources : List AnySource := inputs.map fun run => .run run.reader
  Noted.noteAll (sources.map fun source => .opened (Source.origin source))
  let opened ← Scanner.ofSources store.family (store.compactionScan major) sources
  match opened with
  | .error failure => pure (.error (.scan failure))
  | .ok scanner => do
    let count := 2 * (inputs.flatMap SortedRun.toList).length + 2
    let (result, cells, scanner) ← Scanner.drainInto none .ofScan count [] scanner
    match result with
    | .error failure => do
      scanner.drop
      pure (.error (.scan failure))
    | .ok () => do
      let (failures, _) ← scanner.close
      if failures.isEmpty then pure (.ok cells) else pure (.error (.scan (.close failures)))

/-- Merge runs. The merged run has the rank of the freshest of them, and an id that is assumed
to be fresh; the store is not changed. -/
def mergeRuns (store : Store) (ids : List RunId) (major : Bool) :
    Noted (Except StoreError CompactionOutput) :=
  match store.selectRuns ids major with
  | .error failure => pure (.error failure)
  | .ok inputs => do
    let inputCells := (inputs.flatMap SortedRun.toList).length
    Noted.raise (.compactionStarted inputs.length inputCells major)
    let merged ← store.mergeCells inputs major
    match merged with
    | .error failure => pure (.error failure)
    | .ok cells =>
      let sequenceId := (inputs.map SortedRun.sequenceId).max?.getD 0
      let run := SortedRun.ofCells ⟨store.runsAdded⟩ sequenceId cells
      pure (.ok ⟨inputCells, if cells.isEmpty then none else some run⟩)

/-- The event that a compaction is complete. -/
def compactionFinished (ids : List RunId) (output : CompactionOutput) (major : Bool) : Event :=
  .compactionFinished ids.length output.inputCells (output.run.elim 0 SortedRun.size) major

/-- Merge runs and put the merged run in their place. -/
def compact (store : Store) (ids : List RunId) (major : Bool) :
    Noted (Except StoreError (CompactionOutput × Store)) := do
  let merged ← store.mergeRuns ids major
  match merged with
  | .error failure => pure (.error failure)
  | .ok output => do
    let replaced ← store.replaceRuns ids output.run
    pure (replaced.map fun store => (output, store))

end Store

end MergeScan
