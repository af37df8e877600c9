import MergeScan.Filter.Any
import MergeScan.Ledger
import MergeScan.Scanner.Read
import MergeScan.Scanner.Seek
import MergeScan.Session.Named
import MergeScan.Source.Any

/-! # Scanners by name

Several scanners can be open at once, each under a name. A desk keeps them
together with what is known of their filters, and passes the news that the
sources have changed on to them.
-/

namespace MergeScan

/-- The scanners of a session. -/
abbrev DeskScanner : Type := Scanner AnySource AnyFilter

/-- What can be done with a scanner. -/
inductive ScannerCommand
  | next (limit : ReadLimit)
  /-- Read until the scan has ended, within reason. -/
  | drain (limit : ReadLimit)
  | peek
  | seek (key : Cell)
  | reseek (key : Cell)
  | seekExactly (key : Cell) (forward : Bool)
  | nextCell
  | isClosed
  | close
  | sequenceId
  | sourcesChanged
  | describe
  | filterUse
  | drop

/-- What a scanner answers. -/
inductive ScannerAnswer
  | done
  | page (result : Except ScanError Page)
  | pages (results : List (Except ScanError Page))
  | cell (result : Except ScanError (Option Cell))
  | found (result : Except ScanError (Bool × Option Cell))
  | flag (value : Bool)
  | closed (failures : List SourceError)
  | number (value : Nat)
  | text (value : String)
  | filterUse (value : Option FilterUse)
  /-- There is no scanner of that name. -/
  | missing

/-- A name of a desk: its scanner, unless that is gone, and how its filter was
used. -/
structure Slot where
  scanner : Option DeskScanner
  /-- Whether the use of the filter is of interest. -/
  scripted : Bool
  notes : List Note := []

/-- How the filter of a slot was used, if that is of interest. It outlives the
scanner. -/
def Slot.filterUse? (slot : Slot) : Option FilterUse :=
  if slot.scripted then some (filterUse slot.notes) else none

/-- The scanners of a session. -/
abbrev Desk : Type := Named Slot

namespace Desk

/-- The number of reads after which draining a scanner stops. -/
def drainBound : Nat := 500

/-- Use a scanner. -/
def use (supply : Option (Supply AnySource)) (scanner : DeskScanner) :
    ScannerCommand → Noted (ScannerAnswer × DeskScanner)
  | .next limit => do
    let (result, scanner) ← scanner.next supply limit
    pure (.page result, scanner)
  | .drain limit => do
    let (results, scanner) ← Scanner.pages supply limit drainBound scanner
    pure (.pages results, scanner)
  | .peek => pure (.cell (.ok scanner.peek), scanner)
  | .seek key => do
    let (result, scanner) ← scanner.seek supply key
    pure (.found (result.map fun found => (found, scanner.peek)), scanner)
  | .reseek key => do
    let (result, scanner) ← scanner.reseek supply key
    pure (.found (result.map fun found => (found, scanner.peek)), scanner)
  | .seekExactly key forward =>
    pure (.found ((scanner.seekExactly key forward).map (·, scanner.peek)), scanner)
  | .nextCell => pure (.cell scanner.nextCell, scanner)
  | .isClosed => pure (.flag scanner.isClosed, scanner)
  | .close => do
    let (failures, scanner) ← scanner.close
    pure (.closed failures, scanner)
  | .sequenceId => pure (.number scanner.sequenceId, scanner)
  | .sourcesChanged => do
    let scanner ← scanner.sourcesChanged
    pure (.done, scanner)
  | .describe => pure (.text scanner.describe, scanner)
  | .filterUse | .drop => pure (.done, scanner)

/-- Give up the scanner of a slot, if it has one. -/
def dropSlot (slot : Slot) : Noted Unit :=
  match slot.scanner with
  | some scanner => scanner.drop
  | none => pure ()

/-- Use the scanner of a name. How its filter was used can be asked of every name
that a scan was opened under, whatever came of it. -/
def perform (desk : Desk) (supply : Option (Supply AnySource)) (name : String)
    (command : ScannerCommand) : Noted (ScannerAnswer × Desk) :=
  match desk.get? name with
  | none => pure (.missing, desk)
  | some slot =>
    match command, slot.scanner with
    | .filterUse, _ => pure (.filterUse slot.filterUse?, desk)
    | _, none => pure (.missing, desk)
    | .drop, some scanner => do
      scanner.drop
      pure (.done, desk.put name { slot with scanner := none })
    | command, some scanner =>
      let ⟨(answer, scanner), notes⟩ := use supply scanner command
      ⟨(answer, desk.put name
        { slot with scanner := some scanner, notes := slot.notes ++ notes }), notes⟩

/-- Keep what came of opening a scan under a name. The scanner that stood there
is given up after the new one was opened. -/
def place (desk : Desk) (name : String) (scan : Scan AnyFilter)
    (opened : Except ScanError DeskScanner) : Noted (Except ScanError Unit × Desk) := do
  let slot : Slot := { scanner := opened.toOption, scripted := scan.filter.any (·.isScripted) }
  match desk.get? name with
  | some old => dropSlot old
  | none => pure ()
  pure (opened.map fun _ => (), desk.put name slot)

/-- Give up all scanners, in the order in which their names were first used. -/
def dropAll : Desk → Noted Desk
  | [] => pure []
  | (name, slot) :: rest => do
    dropSlot slot
    let rest ← dropAll rest
    pure ((name, { slot with scanner := none }) :: rest)

/-- Whether a scanner is told about changes under a number. -/
def subscribes (desk : Desk) (subscription : Nat) : Bool :=
  desk.any fun (_, slot) => slot.scanner.any (·.subscription = some subscription)

/-- Tell the scanner that has a subscription about a change. -/
def announce (subscription : Nat) : Desk → Noted Desk
  | [] => pure []
  | (name, slot) :: rest =>
    match slot.scanner with
    | some scanner =>
      if scanner.subscription = some subscription then do
        let scanner ← scanner.sourcesChanged
        pure ((name, { slot with scanner := some scanner }) :: rest)
      else do
        let rest ← announce subscription rest
        pure ((name, slot) :: rest)
    | none => do
      let rest ← announce subscription rest
      pure ((name, slot) :: rest)

/-- All scanners with every source they hold changed in the same way. -/
def mapSources (desk : Desk) (change : AnySource → AnySource) : Desk :=
  desk.map fun (name, slot) =>
    (name, { slot with scanner := slot.scanner.map (·.mapSources change) })

end Desk

/-- The subscriptions that a journal says were ended. -/
def endedSubscriptions (notes : List Note) : List Nat :=
  notes.filterMap fun
    | .unsubscribed subscription => some subscription
    | _ => none

/-- The number of sources that a journal says were handed out. -/
def sourcesOpened (notes : List Note) : Nat :=
  notes.countP fun
    | .opened _ => true
    | _ => false

end MergeScan
