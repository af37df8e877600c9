import MergeScan.Session.Provider

/-! # Sessions over given sources

A scanner that merges given sources into one, without a provider to take others
from.
-/

namespace MergeScan

/-- One scanner over given sources, at the desk under a fixed name. -/
structure CompactionSession where
  desk : Desk
  /-- The number of sources that the scanner was given. -/
  sources : Nat
  journal : List Note

namespace CompactionSession

/-- The name of the scanner. -/
def scannerName : String := "s"

/-- Open a scan over the sources of scripts. -/
def «open» (family : Family) (scan : Scan AnyFilter) (scripts : List SourceScript) :
    Except ScanError Unit × CompactionSession :=
  let opened := Scanner.ofSources family scan (openScripts family.order 0 scripts)
  let placed := Desk.place [] scannerName scan opened.value
  (placed.value.1, ⟨placed.value.2, scripts.length, opened.notes ++ placed.notes⟩)

/-- Use the scanner. -/
def perform (session : CompactionSession) (name : String) (command : ScannerCommand) :
    ScannerAnswer × CompactionSession :=
  let outcome := session.desk.perform none name command
  (outcome.value.1,
    { session with desk := outcome.value.2, journal := session.journal ++ outcome.notes })

/-- The use of every source. -/
def uses (session : CompactionSession) : List SourceUse :=
  (List.range session.sources).map (sourceUse session.journal)

/-- Give up the scanner. -/
def finish (session : CompactionSession) : CompactionSession :=
  let outcome := session.desk.dropAll
  { session with desk := outcome.value, journal := session.journal ++ outcome.notes }

end CompactionSession

end MergeScan
