import MergeScan.Family
import MergeScan.Scanner.Supply
import MergeScan.Source.Any
import MergeScan.Store.Error

/-! # Stores

A store holds one column family: a buffer that takes the writes, and sorted
runs, the freshest first. Scans read both through one list of sources. Where
the same cell was written several times the freshest source decides, and the
sequence ids of the sources say which one that is.
-/

namespace MergeScan

/-- The data of one column family. -/
structure Store where
  family : Family
  buffer : Buffer := .empty
  /-- The number of buffers that were flushed before this one. -/
  generation : Nat := 0
  /-- The runs, the freshest first. -/
  runs : List SortedRun := []
  /-- The number of runs that were ever added. -/
  runsAdded : Nat := 0
  /-- The sequence id of the next run. -/
  nextSequence : Nat := 1
  /-- The subscriptions to changes, in the order they were made. -/
  subscriptions : List Nat := []
  nextSubscription : Nat := 0

namespace Store

/-- The sequence id of the buffer, which holds the freshest data. -/
def bufferSequence : Nat := 0xffffffffffffffff

/-- Refuse a cell of another family. -/
def checkFamily (store : Store) (cell : Cell) : Except StoreError Unit :=
  if cell.family = store.family.name then .ok ()
  else .error (.wrongFamily store.family.name cell.family)

/-- Write a cell. -/
def add (store : Store) (cell : Cell) : Except StoreError Store := do
  store.checkFamily cell
  return { store with buffer := store.buffer.insert cell }

/-- Put a run of new cells in front of the others. That its id is fresh is assumed of ids: here
they are counted up. -/
def addRun (store : Store) (cells : List Cell) : SortedRun × Store :=
  let run := SortedRun.ofCells ⟨store.runsAdded⟩ store.nextSequence cells
  (run, { store with
    runs := run :: store.runs
    runsAdded := store.runsAdded + 1
    nextSequence := store.nextSequence + 1 })

/-- Turn the buffer into a run, unless it is empty, and begin another buffer. -/
def flush (store : Store) : Noted (Option SortedRun × Store) :=
  if store.buffer.isEmpty then pure (none, store)
  else do
    let (run, store) := store.addRun store.buffer.cells
    Noted.raise (.storeFlushed run.size run.sequenceId)
    pure (some run, { store with buffer := .empty, generation := store.generation + 1 })

/-- Add a run of cells that come from elsewhere. It counts as fresher than every
other run. -/
def bulkLoad (store : Store) (cells : List Cell) :
    Noted (Except StoreError (SortedRun × Store)) :=
  match cells.forM store.checkFamily with
  | .error failure => pure (.error failure)
  | .ok () => do
    let (run, store) := store.addRun cells
    Noted.raise (.runLoaded run.size)
    pure (.ok (run, store))

/-- The run of an id. -/
def run? (store : Store) (id : RunId) : Option SortedRun :=
  store.runs.find? (·.id = id)

/-- Runs in the order of their freshness. -/
def byFreshness (runs : List SortedRun) : List SortedRun :=
  runs.mergeSort fun left right => right.sequenceId ≤ left.sequenceId

/-- Take runs out and put one in, if there is one, in a single step. -/
def replaceRuns (store : Store) (removed : List RunId) (added : Option SortedRun) :
    Noted (Except StoreError Store) :=
  match removed.find? fun id => (store.run? id).isNone with
  | some missing => pure (.error (.unknownRun missing))
  | none => do
    let kept := store.runs.filter fun run => !removed.contains run.id
    let runs := byFreshness (kept ++ added.toList)
    Noted.raise (.runsReplaced removed.length runs.length)
    pure (.ok { store with runs, runsAdded := store.runsAdded + added.toList.length })

/-- The buffer as a source, if a scan wants it. -/
def bufferSource (store : Store) (request : SourceRequest) : List AnySource :=
  if request.selection ≠ .filesOnly && store.buffer.concerns request then
    [.buffer (store.buffer.cursor store.generation bufferSequence)]
  else []

/-- The runs as sources, as far as a scan wants them. -/
def runSources (store : Store) (request : SourceRequest) : List AnySource :=
  if request.selection ≠ .memoryOnly then
    (store.runs.filter (·.concerns request)).map fun run => .run run.reader
  else []

/-- The sources of a scan, the freshest first. Sources in which the scan cannot
find anything are left out. -/
def sources (store : Store) (request : SourceRequest) : List AnySource :=
  store.bufferSource request ++ store.runSources request

/-- The store as a provider of sources, which never fails. -/
def supply (store : Store) : Supply AnySource :=
  fun request => .ok (store.sources request)

/-- Subscribe to changes, under a number that was not given before. The numbers have no bound:
64 bits of them are used up only after 2^64 subscriptions. -/
def subscribe (store : Store) : Nat × Store :=
  (store.nextSubscription, { store with
    subscriptions := store.subscriptions ++ [store.nextSubscription]
    nextSubscription := store.nextSubscription + 1 })

/-- End a subscription, if there is one of that number. -/
def unsubscribe (store : Store) (subscription : Nat) : Store :=
  { store with subscriptions := store.subscriptions.filter (· ≠ subscription) }

/-- The printed form of a store. -/
def describe (store : Store) : String :=
  Text.partialRecord "Store"
    [("family", store.family.name.quoted), ("memstore_cells", Nat.repr store.buffer.size),
      ("runs", Nat.repr store.runs.length)]

end Store

end MergeScan
