import MergeScan.Ledger
import MergeScan.Merge.Basic
import MergeScan.Session.Named

/-! # Cursors by name

Sources can be used directly, without a merge. Several of them can be open at
once, each under a name.
-/

namespace MergeScan

/-- What can be done with a cursor. -/
inductive CursorCommand
  | peek
  | about
  | advance
  | seek (key : Cell)
  | reseek (key : Cell)
  | seekExactly (key : Cell) (forward : Bool)
  | close

/-- What a cursor answers. Whatever moves it also shows where it stands then. -/
inductive CursorAnswer
  | cell (cell : Option Cell)
  | about (exact : Bool) (sequenceId : Nat) (kind : SourceKind)
  | advanced (result : Except SourceError (Option Cell)) (peek : Option Cell)
  | positioned (result : Except SourceError Bool) (peek : Option Cell)
  | closed (result : Except SourceError Unit) (peek : Option Cell)
  /-- There is no cursor of that name. -/
  | missing

/-- Cursors under names, and the journal of their use. -/
structure Cursors (σ : Type) where
  cursors : Named σ := []
  journal : List Note := []

namespace Cursors

variable {σ : Type} [Source σ]

/-- Use a cursor. -/
def use (cursor : σ) : CursorCommand → Noted (CursorAnswer × σ)
  | .peek => pure (.cell (Source.peek cursor), cursor)
  | .about =>
    pure (.about (Source.supportsExactSeek cursor) (Source.sequenceId cursor)
      (Source.kind cursor), cursor)
  | .advance => do
    let (result, cursor) ← Noted.use .advance cursor Source.advance
    pure (.advanced result (Source.peek cursor), cursor)
  | .seek key => do
    let (result, cursor) ← Noted.use .seek cursor (Source.seek · key)
    pure (.positioned result (Source.peek cursor), cursor)
  | .reseek key => do
    let (result, cursor) ← Noted.use .reseek cursor (Source.reseek · key)
    pure (.positioned result (Source.peek cursor), cursor)
  | .seekExactly key forward => do
    let (result, cursor) ←
      Noted.use .seekExactly cursor (Source.seekExactly · key forward)
    pure (.positioned result (Source.peek cursor), cursor)
  | .close => do
    let (result, cursor) ← Noted.use .close cursor Source.close
    pure (.closed result (Source.peek cursor), cursor)

/-- Use the cursor of a name. -/
def perform (cursors : Cursors σ) (name : String) (command : CursorCommand) :
    CursorAnswer × Cursors σ :=
  match cursors.cursors.get? name with
  | none => (.missing, cursors)
  | some cursor =>
    let ⟨(answer, cursor), notes⟩ := use cursor command
    (answer, {
      cursors := cursors.cursors.put name cursor, journal := cursors.journal ++ notes })

/-- The note that a cursor is given up. Closing it is no longer possible after
that, so it counts as dropped if it was still open. -/
def abandon (cursor : σ) : List Note :=
  match (Source.close cursor).1 with
  | .error .doubleClose => []
  | _ => [.abandoned (Source.origin cursor)]

/-- Give up the cursor of a name, if there is one. -/
def drop (cursors : Cursors σ) (name : String) : Cursors σ where
  cursors := cursors.cursors.erase name
  journal := cursors.journal ++ (cursors.cursors.get? name).toList.flatMap abandon

/-- Keep a fresh cursor under a name. One that stood there is given up. -/
def «open» (cursors : Cursors σ) (name : String) (cursor : σ) : Cursors σ where
  cursors := cursors.cursors.put name cursor
  journal := cursors.journal ++ [.opened (Source.origin cursor)] ++
    ((cursors.cursors.get? name).toList.flatMap abandon)

/-- All cursors changed in the same way. -/
def map (cursors : Cursors σ) (change : σ → σ) : Cursors σ :=
  { cursors with cursors := cursors.cursors.map fun (name, cursor) => (name, change cursor) }

end Cursors

end MergeScan
