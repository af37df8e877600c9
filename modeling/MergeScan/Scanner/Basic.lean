import MergeScan.Matcher.Basic
import MergeScan.Merge.Basic
import MergeScan.Scanner.Supply

/-! # Scanners

A scanner reads a scan row by row. It takes its sources from a provider, and is
told when they have changed: then it closes them, remembers the cell it has
come to, and takes new sources at the next read. A scanner ends when it has
read everything, at the first failure, or when it is closed; from then on it
holds no source and returns nothing.
-/

namespace MergeScan

/-- The phases of a scanner. -/
inductive Phase (σ : Type)
  | active (merge : Merge σ)
  /-- The sources have changed; reading goes on at a cell. -/
  | resync (resumeAt : Cell)
  | closed

/-- A scan under way. -/
structure Scanner (σ φ : Type) where
  phase : Phase σ
  matcher : Matcher φ
  request : SourceRequest
  order : CellOrder
  batch : Option Nat
  /-- The number under which the scanner is told about changes. -/
  subscription : Option Nat
  /-- How sources failed to close, as far as that was not reported yet. -/
  suppressed : List SourceError

namespace Scanner

variable {σ φ : Type} [Source σ] [CellFilter φ]

/-- The first positioning of the sources of a scan: direct where the scan is
after one column and the source has it. -/
def opening (matcher : Matcher φ) : Positioning σ :=
  if matcher.exactColumn then Positioning.exactly false else Positioning.seek

/-- The scanner of a scan over sources that are in position. -/
def start (matcher : Matcher φ) (scan : Scan φ) (order : CellOrder) (merge : Merge σ)
    (subscription : Option Nat) : Scanner σ φ where
  phase := .active merge
  matcher := matcher
  request := scan.request
  order := order
  batch := scan.batch
  subscription := subscription
  suppressed := []

/-- Open a scan over the sources of a provider, to be told about changes under
the number `subscription`. -/
def «open» (family : Family) (supply : Supply σ) (subscription : Nat) (scan : Scan φ) :
    Noted (Except ScanError (Scanner σ φ)) := do
  match scan.validate with
  | .error failure => pure (.error failure)
  | .ok () => do
    let matcher := Matcher.ofScan family scan
    let sources ← askFor supply scan.request
    match sources with
    | .error failure => pure (.error failure)
    | .ok sources => do
      let sources ← placeAll (opening matcher) matcher.startKey sources
      match sources with
      | .error failure => pure (.error failure)
      | .ok sources => do
        let merge ← Merge.ofSources family.order sources
        Noted.raise (.scannerOpened family.name merge.size matcher.exactColumn scan.get)
        pure (.ok (start matcher scan family.order merge (some subscription)))

/-- Open a scan over given sources, to merge them into one. It reads every
column, and is not told about changes. -/
def ofSources (family : Family) (scan : Scan φ) (sources : List σ) :
    Noted (Except ScanError (Scanner σ φ)) := do
  let scan := { scan with columns := [] }
  match scan.validate with
  | .error failure => pure (.error failure)
  | .ok () => do
    let matcher := Matcher.ofScan family scan
    let sources ← placeAll Positioning.seek matcher.startKey sources
    match sources with
    | .error failure => pure (.error failure)
    | .ok sources => do
      let merge ← Merge.ofSources family.order sources
      Noted.raise (.compactionScannerOpened family.name merge.size scan.retainDeletes)
      pure (.ok (start matcher scan family.order merge none))

/-- Whether the scanner has ended. -/
def isClosed (scanner : Scanner σ φ) : Bool :=
  match scanner.phase with
  | .closed => true
  | _ => false

/-- The smallest cell that was not read, or the one to go on at after a change
of the sources. -/
def peek (scanner : Scanner σ φ) : Option Cell :=
  match scanner.phase with
  | .active merge => merge.peek
  | .resync resumeAt => some resumeAt
  | .closed => none

/-- Close the sources that the scanner holds. -/
def closeSources (scanner : Scanner σ φ) : Noted (Scanner σ φ) :=
  match scanner.phase with
  | .active merge => do
    let (failures, _) ← merge.close
    pure { scanner with phase := .closed, suppressed := scanner.suppressed ++ failures }
  | _ => pure { scanner with phase := .closed }

/-- Ask to be told about changes no longer. -/
def unsubscribe (scanner : Scanner σ φ) : Noted (Scanner σ φ) := do
  Noted.noteAll (scanner.subscription.toList.map .unsubscribed)
  pure { scanner with subscription := none }

/-- End the scan: close its sources, keep their failures, and unsubscribe. -/
def release (scanner : Scanner σ φ) : Noted (Scanner σ φ) := do
  let released ← scanner.closeSources
  let released ← released.unsubscribe
  if scanner.isClosed then pure released
  else do
    Noted.raise (.scannerClosed released.suppressed.length)
    pure released

/-- The failure that a scan ends with: a failed source takes along what went
wrong while the other sources were closed. -/
def gather (suppressed : List SourceError) : ScanError → ScanError
  | .source failure others => .source failure (others ++ suppressed)
  | failure => failure

/-- The failures that stay unreported when a scan ends with a failure. -/
def unreported (suppressed : List SourceError) : ScanError → List SourceError
  | .source .. => []
  | _ => suppressed

/-- The event that a scan ended with a failure. -/
def abortEvent : ScanError → Event
  | .source failure suppressed => .scanAborted failure.message (some suppressed.length)
  | failure => .scanAborted failure.message none

/-- End the scan after a failure. -/
def abort (scanner : Scanner σ φ) (failure : ScanError) : Noted (ScanError × Scanner σ φ) := do
  let released ← scanner.release
  let reported := gather released.suppressed failure
  Noted.raise (abortEvent reported)
  pure (reported, { released with suppressed := unreported released.suppressed failure })

/-- The result of an operation, where a failure ends the scan. -/
def concluding {α : Type} (outcome : Except ScanError α × Scanner σ φ) :
    Noted (Except ScanError α × Scanner σ φ) :=
  match outcome with
  | (.ok answer, scanner) => pure (.ok answer, scanner)
  | (.error failure, scanner) => do
    let (failure, scanner) ← scanner.abort failure
    pure (.error failure, scanner)

/-- The rank of a scanner among sources. -/
def sequenceId (_scanner : Scanner σ φ) : Nat := 0

/-- Learn that the sources have changed. A scanner that has a cell to go on at
closes its sources at once; the others have nothing to take up again. -/
def sourcesChanged (scanner : Scanner σ φ) : Noted (Scanner σ φ) :=
  match scanner.phase with
  | .active merge =>
    match merge.peek with
    | none => pure scanner
    | some top => do
      let (failures, _) ← merge.close
      Noted.raise (.resyncRequested top)
      pure { scanner with
        phase := .resync top, suppressed := scanner.suppressed ++ failures }
  | _ => pure scanner

/-- End the scan. The answer is every failure to close a source that was not
reported before. -/
def close (scanner : Scanner σ φ) : Noted (List SourceError × Scanner σ φ) := do
  let released ← scanner.release
  pure (released.suppressed, { released with suppressed := [] })

/-- Give the scanner up. Failures that nobody asked for are an event. -/
def drop (scanner : Scanner σ φ) : Noted Unit := do
  let released ← scanner.release
  if released.suppressed.isEmpty then pure ()
  else Noted.raise (.scannerDroppedWithErrors released.suppressed.length)

/-- The scanner with every source it holds changed in the same way. -/
def mapSources (scanner : Scanner σ φ) (change : σ → σ) : Scanner σ φ :=
  match scanner.phase with
  | .active merge => { scanner with phase := .active (merge.mapSources change) }
  | _ => scanner

/-- The printed form of a phase. -/
def describePhase : Phase σ → String
  | .active merge => Text.wrapped "Active" merge.describe
  | .resync resumeAt => Text.wrapped "PendingResync" resumeAt.text
  | .closed => "Closed"

/-- The printed form of a scanner. -/
def describe (scanner : Scanner σ φ) : String :=
  Text.record "StoreScanner"
    [("phase", Text.quotedText (describePhase scanner.phase)),
      ("row", Text.option (scanner.matcher.row.map Bytes.quoted)),
      ("batch", Text.option (scanner.batch.map Nat.repr))]

end Scanner

end MergeScan
