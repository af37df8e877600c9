import MergeScan.Session.Desk
import MergeScan.Source.RunInfo
import MergeScan.Store.Compaction

/-! # Sessions over a store

A session is a store together with the scanners that are open on it and others
who want to be told about changes. Writes reach every open cursor on the
buffer; every change of the runs is announced once it is complete.
-/

namespace MergeScan

/-- Someone who counts the changes of a store, and the subscription to them.
Either of the two can be given up before the other. -/
structure Watcher where
  subscription : Nat
  /-- Whether the subscription has not been ended through its holder. -/
  active : Bool := true
  /-- Whether someone still holds the subscription. -/
  held : Bool := true
  /-- The changes counted, as long as someone counts. -/
  changes : Option Nat := some 0

/-- The printed form of a subscription. -/
def Watcher.describe (watcher : Watcher) : String :=
  Text.record "Subscription"
    [("id", Text.wrapped "SubscriptionId" (Nat.repr watcher.subscription)),
      ("active", Text.flag watcher.active)]

/-- A store in use. -/
structure StoreSession where
  store : Store
  /-- Every run that was ever part of the store, in the order of their ids. -/
  archive : List SortedRun := []
  desk : Desk := []
  watchers : Named Watcher := []
  journal : List Note := []

namespace StoreSession

/-- Take note of what happened: subscriptions ended. -/
def absorb (session : StoreSession) (notes : List Note) : StoreSession :=
  { session with
    store := (endedSubscriptions notes).foldl Store.unsubscribe session.store
    journal := session.journal ++ notes }

/-- Open a scan under a name. -/
def «open» (session : StoreSession) (name : String) (scan : Scan AnyFilter) :
    Except ScanError Unit × StoreSession :=
  let (subscription, subscribed) := session.store.subscribe
  let opened := Scanner.open session.store.family session.store.supply subscription scan
  let session := if opened.value.isOk then { session with store := subscribed } else session
  let placed := session.desk.place name scan opened.value
  (placed.value.1,
    { session with desk := placed.value.2 }.absorb (opened.notes ++ placed.notes))

/-- Use the scanner of a name. -/
def perform (session : StoreSession) (name : String) (command : ScannerCommand) :
    ScannerAnswer × StoreSession :=
  let outcome := session.desk.perform (some session.store.supply) name command
  (outcome.value.1, { session with desk := outcome.value.2 }.absorb outcome.notes)

/-- Read a whole scan through a scanner that is used for nothing else. -/
def scan (session : StoreSession) (scan : Scan AnyFilter) :
    Except ScanError (List (Except ScanError Page)) × StoreSession :=
  let (subscription, subscribed) := session.store.subscribe
  let opened := Scanner.open session.store.family session.store.supply subscription scan
  match opened.value with
  | .error failure => (.error failure, session.absorb opened.notes)
  | .ok scanner =>
    let read : Noted (List (Except ScanError Page)) := do
      let (pages, scanner) ←
        Scanner.pages (some session.store.supply) .ofScan Desk.drainBound scanner
      scanner.drop
      pure pages
    (.ok read.value, { session with store := subscribed }.absorb (opened.notes ++ read.notes))

/-- Whether anyone is told about changes under a number. -/
def isAlive (session : StoreSession) (subscription : Nat) : Bool :=
  session.desk.subscribes subscription ||
    session.watchers.any fun (_, watcher) =>
      watcher.subscription = subscription && watcher.changes.isSome

/-- Count a change for those who watch under a number. -/
def countChange (subscription : Nat) (watchers : Named Watcher) : Named Watcher :=
  watchers.map fun (name, watcher) =>
    (name, if watcher.subscription = subscription then
      { watcher with changes := watcher.changes.map (· + 1) } else watcher)

/-- Tell one subscriber about a change. -/
def announceTo (session : StoreSession) (subscription : Nat) : StoreSession :=
  let outcome := session.desk.announce subscription
  { session with
    desk := outcome.value
    watchers := countChange subscription session.watchers }.absorb outcome.notes

/-- Tell all subscribers about a change, in the order of their subscriptions.
Those who are gone are struck off first. -/
def announce (session : StoreSession) : StoreSession :=
  let alive := session.store.subscriptions.filter session.isAlive
  let session := { session with store := { session.store with subscriptions := alive } }
  alive.foldl announceTo (session.absorb [.raised (.observersNotified alive.length)])

/-- Show all open cursors the buffer as it is now. -/
def shareBuffer (session : StoreSession) : StoreSession :=
  let refresh := AnySource.refresh session.store.generation session.store.buffer
  { session with desk := session.desk.mapSources refresh }

/-- Write a cell. -/
def add (session : StoreSession) (cell : Cell) : Except StoreError Unit × StoreSession :=
  match session.store.add cell with
  | .error failure => (.error failure, session)
  | .ok store => (.ok (), { session with store }.shareBuffer)

/-- Go on with a store whose runs have changed, and announce that. -/
def adopt (session : StoreSession) (store : Store) (added : Option SortedRun)
    (notes : List Note) : StoreSession :=
  ({ session with store, archive := session.archive ++ added.toList }.absorb notes).announce

/-- Turn the buffer into a run, unless it is empty. -/
def flush (session : StoreSession) : Option SortedRun × StoreSession :=
  match session.store.flush with
  | ⟨(none, _), _⟩ => (none, session)
  | ⟨(some run, store), notes⟩ => (some run, session.adopt store (some run) notes)

/-- Add a run of cells that come from elsewhere. -/
def bulkLoad (session : StoreSession) (cells : List Cell) :
    Except StoreError SortedRun × StoreSession :=
  match session.store.bulkLoad cells with
  | ⟨.error failure, _⟩ => (.error failure, session)
  | ⟨.ok (run, store), notes⟩ => (.ok run, session.adopt store (some run) notes)

/-- Take runs out and put one of given cells and rank in, if there is one. -/
def replaceRuns (session : StoreSession) (removed : List RunId)
    (added : Option (Nat × List Cell)) : Except StoreError Unit × StoreSession :=
  let run := added.map fun (sequenceId, cells) =>
    SortedRun.ofCells ⟨session.store.runsAdded⟩ sequenceId cells
  match session.store.replaceRuns removed run with
  | ⟨.error failure, _⟩ => (.error failure, session)
  | ⟨.ok store, notes⟩ => (.ok (), session.adopt store run notes)

/-- Merge runs and put the merged run in their place. -/
def compact (session : StoreSession) (ids : List RunId) (major : Bool) :
    Except StoreError (Option SortedRun) × StoreSession :=
  match session.store.compact ids major with
  | ⟨.error failure, notes⟩ => (.error failure, session.absorb notes)
  | ⟨.ok (output, store), notes⟩ =>
    (.ok output.run, (session.adopt store output.run notes).absorb
      [.raised (Store.compactionFinished ids output major)])

/-- Ask the store for sources, look at them, and give them up. -/
def peekSources (session : StoreSession) (request : SourceRequest) :
    List AnySource × StoreSession :=
  let sources := session.store.sources request
  let origins := sources.map Source.origin
  (sources, session.absorb (origins.map .opened ++ origins.map .abandoned))

/-- The description of a run. -/
def info (session : StoreSession) (run : SortedRun) : RunInfo :=
  run.info session.journal

/-- The name of a run, by the order in which the runs became part of the store.
A run keeps it after it was replaced. -/
def label (session : StoreSession) (id : RunId) : String :=
  if id.number < session.archive.length then "run" ++ Nat.repr id.number else "unknown"

/-- The run of a name. Any other name stands for an id that no run has yet. -/
def idOf (session : StoreSession) (name : String) : RunId :=
  ((session.archive.map SortedRun.id).find? (session.label · = name)).getD
    ⟨session.archive.length⟩

/-- Change the clock of the family. -/
def mapClock (session : StoreSession) (change : Clock → Clock) : StoreSession :=
  let family := { session.store.family with clock := change session.store.family.clock }
  { session with store := { session.store with family } }

/-- End the subscription of a watcher, if it is active. -/
def cancelWatcher (session : StoreSession) (watcher : Watcher) : StoreSession :=
  if watcher.active then
    { session with store := session.store.unsubscribe watcher.subscription }
  else session

/-- Watch the store under a name. One who watched under that name before is
given up. -/
def watch (session : StoreSession) (name : String) : Watcher × StoreSession :=
  let (subscription, store) := session.store.subscribe
  let watcher : Watcher := { subscription }
  let session := { session with store }
  let session := (session.watchers.get? name).toList.foldl cancelWatcher session
  (watcher, { session with watchers := session.watchers.put name watcher })

/-- The watcher of a name, changed if there is one. -/
def updateWatcher (session : StoreSession) (name : String) (change : Watcher → Watcher) :
    StoreSession :=
  match session.watchers.get? name with
  | some watcher => { session with watchers := session.watchers.put name (change watcher) }
  | none => session

/-- The changes that the watcher of a name has counted. -/
def changes? (session : StoreSession) (name : String) : Option Nat :=
  (session.watchers.get? name).bind Watcher.changes

/-- Count changes no longer under a name. The answer is whether anyone did. -/
def dropObserver (session : StoreSession) (name : String) : Bool × StoreSession :=
  ((session.changes? name).isSome,
    session.updateWatcher name fun watcher => { watcher with changes := none })

/-- The watcher of a name whose subscription someone holds. -/
def holder? (session : StoreSession) (name : String) : Option Watcher :=
  (session.watchers.get? name).filter Watcher.held

/-- End the subscription of a name. The answer is the subscription afterwards. -/
def cancel (session : StoreSession) (name : String) : Option Watcher × StoreSession :=
  match session.holder? name with
  | none => (none, session)
  | some watcher =>
    let ended := { watcher with active := false }
    (some ended, (session.cancelWatcher watcher).updateWatcher name fun _ => ended)

/-- Give up the subscription of a name. The answer is whether there was one. -/
def dropSubscription (session : StoreSession) (name : String) : Bool × StoreSession :=
  match session.holder? name with
  | none => (false, session)
  | some watcher =>
    (true, (session.cancelWatcher watcher).updateWatcher name fun watcher =>
      { watcher with active := false, held := false })

/-- End a subscription by its number. The answer is how many are left. -/
def unsubscribe (session : StoreSession) (subscription : Nat) : Nat × StoreSession :=
  let store := session.store.unsubscribe subscription
  (store.subscriptions.length, { session with store })

/-- Give up all scanners. -/
def finish (session : StoreSession) : StoreSession :=
  let outcome := session.desk.dropAll
  { session with desk := outcome.value }.absorb outcome.notes

end StoreSession

end MergeScan
