import MergeScan.Journal

/-! # Events as records

An event is published as a record of named fields. Two fields are common to
all: the component that raised it and the name of the event.
-/

namespace MergeScan

/-- The value of a field of an event. -/
inductive FieldValue
  | number (value : Nat)
  | flag (value : Bool)
  | text (value : String)
deriving DecidableEq

/-- The name of a level. -/
def Level.text : Level → String
  | debug => "debug"
  | info => "info"
  | warn => "warn"
  | error => "error"

namespace Event

/-- How much an event matters: failures before changes before details. -/
def level : Event → Level
  | scanAborted .. | orderingViolation .. => .error
  | sourceCloseFailed .. | scannerDroppedWithErrors .. => .warn
  | scannerOpened .. | storeFlushed .. | runLoaded .. | runsReplaced .. |
    compactionFinished .. => .info
  | resyncRequested .. | resyncCompleted .. | scannerClosed .. |
    compactionScannerOpened .. | observersNotified .. | compactionStarted .. => .debug

/-- The component that raises an event. -/
def component : Event → String
  | sourceCloseFailed .. => "heap"
  | scannerOpened .. | compactionScannerOpened .. | resyncRequested .. | resyncCompleted .. |
    orderingViolation .. | scanAborted .. | scannerClosed .. |
    scannerDroppedWithErrors .. => "scanner"
  | storeFlushed .. | runLoaded .. | runsReplaced .. | observersNotified .. => "store"
  | compactionStarted .. | compactionFinished .. => "compaction"

/-- The name of an event. -/
def name : Event → String
  | sourceCloseFailed .. => "source_close_failed"
  | scannerOpened .. => "scanner_opened"
  | compactionScannerOpened .. => "compaction_scanner_opened"
  | resyncRequested .. => "resync_requested"
  | resyncCompleted .. => "resync_completed"
  | orderingViolation .. => "ordering_violation"
  | scanAborted .. => "scan_aborted"
  | scannerClosed .. => "scanner_closed"
  | scannerDroppedWithErrors .. => "scanner_dropped_with_close_errors"
  | storeFlushed .. => "store_flushed"
  | runLoaded .. => "run_loaded"
  | runsReplaced .. => "runs_replaced"
  | observersNotified .. => "observers_notified"
  | compactionStarted .. => "compaction_started"
  | compactionFinished .. => "compaction_finished"

/-- The fields that an event has of its own. -/
def details : Event → List (String × FieldValue)
  | sourceCloseFailed kind sequenceId error =>
    [("source_kind", .text kind.describe), ("sequence_id", .number sequenceId),
      ("error", .text error.message)]
  | scannerOpened family sources exactColumn get =>
    [("family", .text family.quoted), ("sources", .number sources),
      ("exact_column_query", .flag exactColumn), ("get", .flag get)]
  | compactionScannerOpened family sources retainDeletes =>
    [("family", .text family.quoted), ("sources", .number sources),
      ("retain_deletes", .flag retainDeletes)]
  | resyncRequested resumeAt => [("resume_at", .text resumeAt.text)]
  | resyncCompleted sources rowReset =>
    [("sources", .number sources), ("row_reset", .flag rowReset)]
  | orderingViolation previous next =>
    [("previous", .text previous.text), ("next", .text next.text)]
  | scanAborted error none => [("error", .text error)]
  | scanAborted error (some suppressed) =>
    [("error", .text error), ("suppressed", .number suppressed)]
  | scannerClosed closeErrors => [("close_errors", .number closeErrors)]
  | scannerDroppedWithErrors errors => [("errors", .number errors)]
  | storeFlushed cells sequenceId =>
    [("cells", .number cells), ("sequence_id", .number sequenceId)]
  | runLoaded cells => [("cells", .number cells)]
  | runsReplaced removed runs => [("removed", .number removed), ("runs", .number runs)]
  | observersNotified observers => [("observers", .number observers)]
  | compactionStarted runs cells major =>
    [("runs", .number runs), ("cells", .number cells), ("major", .flag major)]
  | compactionFinished runs inputCells outputCells major =>
    [("runs", .number runs), ("input_cells", .number inputCells),
      ("output_cells", .number outputCells), ("major", .flag major)]

/-- All fields of an event. -/
def fields (event : Event) : List (String × FieldValue) :=
  ("component", .text event.component) :: ("event", .text event.name) ::
    ("level", .text event.level.text) :: event.details

end Event

end MergeScan
