import MergeScan.Filter.Any
import MergeScan.Ledger
import MergeScan.Matcher.Basic

/-! # Filters and matchers in use

A filter or a matcher that is used by itself, with the journal of the questions
that were put to the filter.
-/

namespace MergeScan

/-- A filter or a matcher in use. -/
structure Journaled (α : Type) where
  subject : α
  journal : List Note := []

namespace Journaled

variable {α β : Type}

/-- Use the subject, and keep the journal. -/
def perform (session : Journaled α) (operation : α → Noted (β × α)) : β × Journaled α :=
  let outcome := operation session.subject
  (outcome.value.1, ⟨outcome.value.2, session.journal ++ outcome.notes⟩)

end Journaled

/-- Put a question to a filter. -/
def askFilter {φ β : Type} (call : FilterCall) (question : φ → β × φ) (filter : φ) :
    Noted (β × φ) := do
  Noted.note (.consulted call)
  pure (question filter)

/-- The use of a filter, if it is a scripted one. -/
def scriptUse (filter : Option AnyFilter) (journal : List Note) : Option FilterUse :=
  if filter.any (·.isScripted) then some (filterUse journal) else none

namespace Matcher

variable {φ : Type} [CellFilter φ]

/-- Decide on a cell of any row, which is entered if it is not the current one.
The answer tells also where to go on after the column of the cell. -/
def classify (cell : Cell) (matcher : Matcher φ) :
    Noted (Except ScanError (Decision × Cell) × Matcher φ) := do
  let matcher ←
    if matcher.row = some cell.row then pure matcher else matcher.enterRow cell.row
  let (decision, matcher) ← matcher.decide cell
  pure (decision.map (·, matcher.nextColumnKey cell), matcher)

/-- Decide on cells one after the other. -/
def classifyAll : List Cell → Matcher φ →
    Noted (List (Except ScanError (Decision × Cell)) × Matcher φ)
  | [], matcher => pure ([], matcher)
  | cell :: rest, matcher => do
    let (decision, matcher) ← matcher.classify cell
    let (decisions, matcher) ← classifyAll rest matcher
    pure (decision :: decisions, matcher)

end Matcher

end MergeScan
