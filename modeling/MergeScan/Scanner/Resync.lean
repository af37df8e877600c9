import MergeScan.Scanner.Basic

/-! # Taking new sources

A scanner that was told about a change takes new sources at the next operation
that needs them. Reading goes on at the cell it had come to; the state of the
row is kept if the new sources begin in the same row.
-/

namespace MergeScan.Scanner

variable {σ φ : Type} [Source σ] [CellFilter φ]

/-- Take the sources that there are now, positioned on a key if one is given. -/
def rebuild (scanner : Scanner σ φ) (supply : Option (Supply σ)) (resumeAt : Option Cell) :
    Noted (Except ScanError (Merge σ)) :=
  match supply with
  | none => pure (.error (.invalidUsage .noProvider))
  | some supply => do
    let sources ← askFor supply scanner.request
    match sources with
    | .error failure => pure (.error failure)
    | .ok sources => do
      let sources ←
        match resumeAt with
        | some key => placeAll Positioning.seek key sources
        | none => pure (.ok sources)
      match sources with
      | .error failure => pure (.error failure)
      | .ok sources => Except.ok <$> Merge.ofSources scanner.order sources

/-- Enter a row, unless it is the one that is being read. -/
def enterRow (scanner : Scanner σ φ) (row : Bytes) : Noted (Scanner σ φ) :=
  if scanner.matcher.row = some row then pure scanner
  else do
    let matcher ← scanner.matcher.enterRow row
    pure { scanner with matcher }

/-- Take new sources if they have changed, and go on where reading had come to.
The row that was being read is left if the new sources begin in another one. -/
def resync (scanner : Scanner σ φ) (supply : Option (Supply σ)) :
    Noted (Except ScanError Unit × Scanner σ φ) :=
  match scanner.phase with
  | .resync resumeAt => do
    let rebuilt ← scanner.rebuild supply (some resumeAt)
    match rebuilt with
    | .error failure => pure (.error failure, { scanner with phase := .closed })
    | .ok merge => do
      let row := (merge.peek.getD resumeAt).row
      let entered ← scanner.enterRow row
      Noted.raise (.resyncCompleted merge.size (scanner.matcher.row ≠ some row))
      pure (.ok (), { entered with phase := .active merge })
  | _ => pure (.ok (), scanner)

/-- Take new sources if they have changed, without positioning them. -/
def refreshSources (scanner : Scanner σ φ) (supply : Option (Supply σ)) :
    Noted (Except ScanError Unit × Scanner σ φ) :=
  match scanner.phase with
  | .resync _ => do
    let rebuilt ← scanner.rebuild supply none
    match rebuilt with
    | .error failure => pure (.error failure, scanner)
    | .ok merge => pure (.ok (), { scanner with phase := .active merge })
  | _ => pure (.ok (), scanner)

end MergeScan.Scanner
