import MergeScan.Journal

/-! # Using sources

Whatever is done to a source is noted in a journal, with its failure if it
failed. There are three ways to position a source on a key; which one a scan
uses depends on the direction and on what the source can do.
-/

namespace MergeScan

/-- The failure in a result, if it is one. -/
def failureOf {ε α : Type} : Except ε α → Option ε
  | .error failure => some failure
  | .ok _ => none

namespace Noted

variable {σ α : Type} [Source σ]

/-- Use a source, and note how. -/
def use (call : SourceCall) (source : σ) (operation : σ → Except SourceError α × σ) :
    Noted (Except SourceError α × σ) :=
  let outcome := operation source
  ⟨outcome, [.called (Source.origin source) call (failureOf outcome.1)]⟩

@[simp] theorem value_use (call : SourceCall) (source : σ)
    (operation : σ → Except SourceError α × σ) :
    (use call source operation).value = operation source := rfl

end Noted

/-- A way to position a source on a key. -/
def Positioning (σ : Type) : Type :=
  σ → Cell → Noted (Except SourceError Bool × σ)

namespace Positioning

variable {σ : Type} [Source σ]

/-- From anywhere. -/
def seek : Positioning σ := fun source key =>
  Noted.use .seek source (Source.seek · key)

/-- Forward only. -/
def reseek : Positioning σ := fun source key =>
  Noted.use .reseek source (Source.reseek · key)

/-- By direct positioning where the source has it, and otherwise by the plain
way that moves in the same direction. -/
def exactly (forward : Bool) : Positioning σ := fun source key =>
  if Source.supportsExactSeek source then
    Noted.use .seekExactly source (Source.seekExactly · key forward)
  else if forward then reseek source key
  else seek source key

end Positioning

end MergeScan
