import MergeScan.Ledger
import MergeScan.Merge.Basic
import MergeScan.Source.Any

/-! # Merges in use

A merge over sources of any kind, with the journal of what it did to them.
-/

namespace MergeScan

/-- A merge in use. -/
structure MergeSession where
  /-- The sources as they were given. -/
  sources : List AnySource
  merge : Merge AnySource
  journal : List Note

namespace MergeSession

/-- Begin a merge of sources that are in position. -/
def start (order : CellOrder) (sources : List AnySource) : MergeSession :=
  let opened := sources.map fun source => .opened (Source.origin source)
  let merge := Merge.ofSources order sources
  ⟨sources, merge.value, opened ++ merge.notes⟩

/-- Use the merge, and keep the journal. -/
def perform {α : Type} (session : MergeSession)
    (operation : Merge AnySource → Noted (α × Merge AnySource)) : α × MergeSession :=
  let outcome := operation session.merge
  (outcome.value.1,
    { session with merge := outcome.value.2, journal := session.journal ++ outcome.notes })

/-- The use of the scripted sources, in the order they were given in. -/
def uses (session : MergeSession) : List SourceUse :=
  session.sources.filterMap fun
    | .scripted source => some (sourceUse session.journal source.serial)
    | _ => none

/-- The runs that are read, in the order they were given in. -/
def runs (session : MergeSession) : List SortedRun :=
  session.sources.filterMap fun
    | .run reader => some reader.run
    | _ => none

end MergeSession

end MergeScan
