import MergeScan.Scanner.Resync

/-! # Positioning a scan

A scanner can go to any cell of its sources. It does not look back at what it
has read: the row that it comes to is entered by the next read.
-/

namespace MergeScan.Scanner

variable {σ φ : Type} [Source σ] [CellFilter φ]

/-- A result of the merge as one of the scanner. -/
def ofMerge (scanner : Scanner σ φ) (outcome : Except SourceError Bool × Merge σ) :
    Except ScanError Bool × Scanner σ φ :=
  (outcome.1.mapError .ofSource, { scanner with phase := .active outcome.2 })

/-- Go to the first cell at or after a key, from anywhere. This takes the place
of the cell to go on at if the sources have changed. -/
def seek (scanner : Scanner σ φ) (supply : Option (Supply σ)) (key : Cell) :
    Noted (Except ScanError Bool × Scanner σ φ) := do
  let (result, scanner) ← scanner.refreshSources supply
  match result with
  | .error failure => concluding (.error failure, scanner)
  | .ok () =>
    match scanner.phase with
    | .active merge => do
      let outcome ← merge.seek key
      concluding (scanner.ofMerge outcome)
    | _ => pure (.ok false, scanner)

/-- Go to the first cell at or after a key, forward only. -/
def reseek (scanner : Scanner σ φ) (supply : Option (Supply σ)) (key : Cell) :
    Noted (Except ScanError Bool × Scanner σ φ) := do
  let (result, scanner) ← scanner.resync supply
  match result with
  | .error failure => concluding (.error failure, scanner)
  | .ok () =>
    match scanner.phase with
    | .active merge => do
      let outcome ←
        if scanner.matcher.exactColumn then merge.seekExactly key true else merge.reseek key
      concluding (scanner.ofMerge outcome)
    | _ => pure (.ok false, scanner)

/-- Direct positioning is not an operation of a scanner. -/
def seekExactly (_scanner : Scanner σ φ) (_key : Cell) (_forward : Bool) :
    Except ScanError Bool :=
  .error (.ofSource .noExactSeek)

end MergeScan.Scanner
