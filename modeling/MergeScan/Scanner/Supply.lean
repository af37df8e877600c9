import MergeScan.Scan.Error
import MergeScan.Source.Positioning

/-! # Taking sources

A scan takes its sources from a provider, all of them at once, and positions
them before it merges them. If one of them cannot be positioned, the scan has
to give all of them back.
-/

namespace MergeScan

/-- What a provider answers to a request for sources. -/
abbrev Supply (σ : Type) : Type :=
  SourceRequest → Except SourceError (List σ)

variable {σ : Type} [Source σ]

/-- Close sources one after the other, and collect the failures. -/
def closeAll : List σ → Noted (List SourceError)
  | [] => pure []
  | source :: rest => do
    let (result, _) ← Noted.use .close source Source.close
    let failures ← closeAll rest
    pure ((failureOf result).toList ++ failures)

/-- Position fresh sources one after the other. The answer is the sources as
they are then, with the failure at which positioning stopped. -/
def placeEach (positioning : Positioning σ) (key : Cell) :
    List σ → Noted (Option SourceError × List σ)
  | [] => pure (none, [])
  | source :: rest => do
    let (result, source) ← positioning source key
    match result with
    | .error failure => pure (some failure, source :: rest)
    | .ok _ => do
      let (failure, rest) ← placeEach positioning key rest
      pure (failure, source :: rest)

/-- Position fresh sources on a key. After a failure all of them are closed,
and how that failed is reported along with it. -/
def placeAll (positioning : Positioning σ) (key : Cell) (sources : List σ) :
    Noted (Except ScanError (List σ)) := do
  let (failure, sources) ← placeEach positioning key sources
  match failure with
  | none => pure (.ok sources)
  | some failure => do
    let suppressed ← closeAll sources
    pure (.error (.source failure suppressed))

/-- Ask a provider for sources, and note the ones it handed out. -/
def askFor (supply : Supply σ) (request : SourceRequest) : Noted (Except ScanError (List σ)) := do
  Noted.note (.requested request)
  match supply request with
  | .error failure => pure (.error (.ofSource failure))
  | .ok sources => do
    Noted.noteAll (sources.map fun source => .opened (Source.origin source))
    pure (.ok sources)

end MergeScan
