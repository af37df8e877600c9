import MergeScan.Scanner.Pass
import MergeScan.Scanner.Resync

/-! # Reading a scan

Each read hands out cells of one row: all that are left of it, or at most as
many as a limit says. The row is entered by its first read only, so that a row
that is split by limits is read like a whole one.
-/

namespace MergeScan

/-- How many cells a read hands out at most. -/
inductive ReadLimit
  /-- As many as the scan asks for at a time. -/
  | ofScan
  /-- A limit of one's own, or a whole row. A limit of zero is none. -/
  | own (limit : Option Nat)
deriving DecidableEq

/-- What one read handed out, and whether more may follow. -/
structure Page where
  cells : List Cell
  more : Bool
deriving DecidableEq

namespace Scanner

variable {σ φ : Type} [Source σ] [CellFilter φ]

/-- Read from a merge that begins with a cell. -/
def read (scanner : Scanner σ φ) (merge : Merge σ) (first : Cell) (limit : Option Nat) :
    Noted (Except ScanError Page × Scanner σ φ) := do
  let scanner ← scanner.enterRow first.row
  let (result, state) ← ReadState.pass ⟨merge, scanner.matcher⟩ limit
  let scanner := { scanner with phase := .active state.merge, matcher := state.matcher }
  match result with
  | .error failure => pure (.error failure, scanner)
  | .ok (cells, ending) => do
    let (cells, matcher) ←
      if limit.isNone then scanner.matcher.completeRow cells
      else pure (cells, scanner.matcher)
    let scanner := { scanner with matcher }
    if ending = .scanDone || ending = .exhausted && cells.isEmpty then do
      let scanner ← scanner.release
      pure (.ok ⟨cells, false⟩, scanner)
    else pure (.ok ⟨cells, true⟩, scanner)

/-- Read the next cells, or end the scan if there are none. -/
def fill (scanner : Scanner σ φ) (supply : Option (Supply σ)) (limit : Option Nat) :
    Noted (Except ScanError Page × Scanner σ φ) := do
  let (result, scanner) ← scanner.resync supply
  match result with
  | .error failure => pure (.error failure, scanner)
  | .ok () =>
    match scanner.phase with
    | .active merge =>
      match merge.peek with
      | some first => scanner.read merge first limit
      | none => do
        let scanner ← scanner.release
        pure (.ok ⟨[], false⟩, scanner)
    | _ => pure (.ok ⟨[], false⟩, scanner)

/-- The limit of a read, if it has one. -/
def limitOf (scanner : Scanner σ φ) : ReadLimit → Option Nat
  | .ofScan => scanner.batch
  | .own limit => limit.filter (0 < ·)

/-- Read cells of one row. A limit that the filter does not allow is refused,
and the scan goes on. -/
def next (scanner : Scanner σ φ) (supply : Option (Supply σ)) (limit : ReadLimit) :
    Noted (Except ScanError Page × Scanner σ φ) :=
  match scanner.matcher.refuses (scanner.limitOf limit) with
  | some failure => pure (.error failure, scanner)
  | none => scanner.fill supply (scanner.limitOf limit) >>= concluding

/-- Read cells of one row to the end of `out`. A read that fails leaves `out` as it was. -/
def nextInto (scanner : Scanner σ φ) (supply : Option (Supply σ)) (limit : ReadLimit)
    (out : List Cell) : Noted (Except ScanError Bool × List Cell × Scanner σ φ) := do
  let (result, scanner) ← scanner.next supply limit
  match result with
  | .ok page => pure (.ok page.more, out ++ page.cells, scanner)
  | .error failure => pure (.error failure, out, scanner)

/-- Read to the end of `out`, at most `count` times, until the scan has ended. -/
def drainInto (supply : Option (Supply σ)) (limit : ReadLimit) :
    (count : Nat) → List Cell → Scanner σ φ →
      Noted (Except ScanError Unit × List Cell × Scanner σ φ)
  | 0, out, scanner => pure (.ok (), out, scanner)
  | count + 1, out, scanner => do
    let (result, out, scanner) ← scanner.nextInto supply limit out
    match result with
    | .ok true => drainInto supply limit count out scanner
    | .ok false => pure (.ok (), out, scanner)
    | .error failure => pure (.error failure, out, scanner)

/-- Read again and again, at most `count` times, until the scan has ended. -/
def pages (supply : Option (Supply σ)) (limit : ReadLimit) :
    (count : Nat) → Scanner σ φ → Noted (List (Except ScanError Page) × Scanner σ φ)
  | 0, scanner => pure ([], scanner)
  | count + 1, scanner => do
    let (result, scanner) ← scanner.next supply limit
    match result with
    | .ok ⟨_, true⟩ => do
      let (rest, scanner) ← pages supply limit count scanner
      pure (result :: rest, scanner)
    | _ => pure ([result], scanner)

/-- Reading single cells is not an operation of a scanner. -/
def nextCell (_scanner : Scanner σ φ) : Except ScanError (Option Cell) :=
  .error (.invalidUsage .singleCell)

end Scanner

end MergeScan
