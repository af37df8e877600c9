import MergeScan.Bytes
import MergeScan.Cell.Basic
import MergeScan.Cell.Order
import MergeScan.Family
import MergeScan.Filter.Any
import MergeScan.Filter.Basic
import MergeScan.Filter.Leading
import MergeScan.Filter.Scripted
import MergeScan.Filter.Value
import MergeScan.Journal
import MergeScan.Ledger
import MergeScan.Matcher.Basic
import MergeScan.Matcher.Decision
import MergeScan.Matcher.Markers
import MergeScan.Matcher.Progress
import MergeScan.Matcher.Versions
import MergeScan.Merge.Basic
import MergeScan.Merge.Queue
import MergeScan.Scan.Error
import MergeScan.Scan.Request
import MergeScan.Scan.Rows
import MergeScan.Scan.Spec
import MergeScan.Scanner.Basic
import MergeScan.Scanner.Pass
import MergeScan.Scanner.Read
import MergeScan.Scanner.Resync
import MergeScan.Scanner.Seek
import MergeScan.Scanner.Supply
import MergeScan.Session.Compaction
import MergeScan.Session.Cursors
import MergeScan.Session.Desk
import MergeScan.Session.Matching
import MergeScan.Session.Merge
import MergeScan.Session.Named
import MergeScan.Session.Provider
import MergeScan.Session.Store
import MergeScan.Source.Any
import MergeScan.Source.Basic
import MergeScan.Source.Buffer
import MergeScan.Source.Error
import MergeScan.Source.Positioning
import MergeScan.Source.Run
import MergeScan.Source.RunInfo
import MergeScan.Source.Scripted
import MergeScan.Store.Basic
import MergeScan.Store.Compaction
import MergeScan.Store.Error
import MergeScan.Text.Escape
import MergeScan.Text.Event
import MergeScan.Text.Hex
import MergeScan.Text.Record
import MergeScan.Time.Clock
import MergeScan.Time.Duration
import MergeScan.Time.Range
import MergeScan.Time.Timestamp
import MergeScan.Proofs.Cell.Alike
import MergeScan.Proofs.Matcher.Columns
import MergeScan.Proofs.Matcher.Counts
import MergeScan.Proofs.Matcher.Grants
import MergeScan.Proofs.Matcher.Masks
import MergeScan.Proofs.Merge.Moves
import MergeScan.Proofs.Scan.WellFormed
import MergeScan.Proofs.Scanner.Abreast
import MergeScan.Proofs.Scanner.Changes
import MergeScan.Proofs.Scanner.Lockstep
import MergeScan.Proofs.Scanner.Safety
import MergeScan.Proofs.Session.Scans
import MergeScan.Proofs.Cell.Freshest
import MergeScan.Proofs.Matcher.Keeps
import MergeScan.Proofs.Matcher.Settles
import MergeScan.Proofs.Scan.Layers
import MergeScan.Proofs.Scanner.Closing
import MergeScan.Proofs.Scanner.Copies
import MergeScan.Proofs.Scanner.Drain
import MergeScan.Proofs.Scanner.Heeds
import MergeScan.Proofs.Session.Unseen
import MergeScan.Proofs.Store.Compaction
import MergeScan.Proofs.Store.Markers
import MergeScan.Proofs.Store.Pruned
import MergeScan.Proofs.Store.Unseen
import MergeScan.Proofs.Merge.Calls
import MergeScan.Proofs.Scanner.Ordered
import MergeScan.Proofs.Scanner.Unmasked
import MergeScan.Proofs.Scanner.Batches
import MergeScan.Proofs.Scanner.Released
import MergeScan.Proofs.Scanner.Reported
import MergeScan.Proofs.Scanner.Repositioned
import MergeScan.Proofs.Session.Readers
import MergeScan.Proofs.Source.Cursors
import MergeScan.Proofs.Scanner.Expired
import MergeScan.Proofs.Scanner.Progress
import MergeScan.Proofs.Scanner.RowOrders
import MergeScan.Proofs.Scanner.Direct
import MergeScan.Proofs.Scanner.KeptRows
import MergeScan.Proofs.Scanner.Leading
import MergeScan.Proofs.Scanner.Picked
import MergeScan.Proofs.Cell.SeekKeys
import MergeScan.Proofs.Scanner.Forward
import MergeScan.Proofs.Store.Validated
import MergeScan.Proofs.Matcher.Awaits
import MergeScan.Proofs.Scanner.PointInTime
import MergeScan.Proofs.Cell.Total
import MergeScan.Proofs.Matcher.Answers
import MergeScan.Proofs.Store.Faithful
