import MergeScan.Session.Desk

/-! # Sessions over scripted sources

In such a session the sources of a scan are the current scripts, whatever the
scan asks for. The scripts can be exchanged while scanners are open, and the
provider can be made to fail.
-/

namespace MergeScan

/-- Scanners over a provider of scripted sources. -/
structure ProviderSession where
  family : Family
  scripts : List SourceScript
  /-- Whether requests for sources fail. -/
  failing : Bool := false
  /-- The number of sources handed out so far. -/
  issued : Nat := 0
  subscriptions : List Nat := []
  nextSubscription : Nat := 0
  desk : Desk := []
  journal : List Note := []

/-- Fresh sources of scripts, numbered from `first` on. -/
def openScripts (order : CellOrder) (first : Nat) (scripts : List SourceScript) :
    List AnySource :=
  scripts.zipIdx.map fun (script, index) => .scripted (script.open order (first + index))

namespace ProviderSession

/-- The provider as it is now. -/
def supply (session : ProviderSession) : Supply AnySource := fun _ =>
  if session.failing then .error ScriptedSource.injectedFailure
  else .ok (openScripts session.family.order session.issued session.scripts)

/-- Take note of what happened: sources were handed out and subscriptions ended. -/
def absorb (session : ProviderSession) (notes : List Note) : ProviderSession :=
  { session with
    issued := session.issued + sourcesOpened notes
    subscriptions := session.subscriptions.filter fun subscription =>
      !(endedSubscriptions notes).contains subscription
    journal := session.journal ++ notes }

/-- Open a scan under a name. -/
def «open» (session : ProviderSession) (name : String) (scan : Scan AnyFilter) :
    Except ScanError Unit × ProviderSession :=
  let subscription := session.nextSubscription
  let opened := Scanner.open session.family session.supply subscription scan
  let session :=
    if opened.value.isOk then
      { session with
        subscriptions := session.subscriptions ++ [subscription]
        nextSubscription := subscription + 1 }
    else session
  let placed := session.desk.place name scan opened.value
  (placed.value.1,
    { session with desk := placed.value.2 }.absorb (opened.notes ++ placed.notes))

/-- Use the scanner of a name. -/
def perform (session : ProviderSession) (name : String) (command : ScannerCommand) :
    ScannerAnswer × ProviderSession :=
  let outcome := session.desk.perform (some session.supply) name command
  (outcome.value.1, { session with desk := outcome.value.2 }.absorb outcome.notes)

/-- Tell subscribers about a change, one after the other. -/
def announceTo : List Nat → Desk → Noted Desk
  | [], desk => pure desk
  | subscription :: rest, desk => do
    let desk ← desk.announce subscription
    announceTo rest desk

/-- Tell all scanners about a change, in the order of their subscriptions. -/
def announce (session : ProviderSession) : ProviderSession :=
  let outcome := announceTo session.subscriptions session.desk
  { session with desk := outcome.value }.absorb outcome.notes

/-- Exchange the scripts and tell all scanners. -/
def replace (session : ProviderSession) (scripts : List SourceScript) : ProviderSession :=
  { session with scripts }.announce

/-- Let requests for sources fail from now on, or no longer. -/
def setFailing (session : ProviderSession) (failing : Bool) : ProviderSession :=
  { session with failing }

/-- Set the clock of the family. -/
def setClock (session : ProviderSession) (now : Timestamp) : ProviderSession :=
  { session with family := { session.family with clock := session.family.clock.set now } }

/-- The use of every source handed out so far. -/
def uses (session : ProviderSession) : List SourceUse :=
  (List.range session.issued).map (sourceUse session.journal)

/-- Give up all scanners. -/
def finish (session : ProviderSession) : ProviderSession :=
  let outcome := session.desk.dropAll
  { session with desk := outcome.value }.absorb outcome.notes

end ProviderSession

end MergeScan
