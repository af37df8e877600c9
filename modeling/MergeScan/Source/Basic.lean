import MergeScan.Cell.Basic
import MergeScan.Source.Error

/-! # Sources

A source is a cursor over cells in ascending order. It can move forward one
cell at a time, or jump to the first cell at or after a key, and it has to be
closed once. Each operation may fail; its result comes with the source as it is
afterwards, also when it failed.
-/

namespace MergeScan

/-- Where the cells of a source are kept. -/
inductive SourceKind
  | memory
  | file
deriving DecidableEq

/-- The number under which a sorted run is known. -/
structure RunId where
  number : Nat
deriving DecidableEq

/-- What a source reads, which is how the record of a scan tells sources apart. -/
inductive Origin
  /-- A scripted source, by the number it was handed out under. -/
  | scripted (serial : Nat)
  /-- A reader of a sorted run. -/
  | run (id : RunId)
  /-- A cursor on a write buffer, by the number of buffers before it. -/
  | buffer (generation : Nat)
deriving DecidableEq

/-- The printed form of a kind. -/
def SourceKind.describe : SourceKind → String
  | memory => "Memory"
  | file => "File"

/-- A source with states `σ`. -/
class Source (σ : Type) where
  /-- The cells from the cursor on. -/
  remaining : σ → List Cell
  /-- The cell under the cursor. -/
  peek : σ → Option Cell
  /-- Take the cell under the cursor. -/
  advance : σ → Except SourceError (Option Cell) × σ
  /-- Move to the first cell at or after a key, from anywhere. -/
  seek : σ → Cell → Except SourceError Bool × σ
  /-- Move to the first cell at or after a key, forward only. -/
  reseek : σ → Cell → Except SourceError Bool × σ
  /-- Whether the source has direct positioning. -/
  supportsExactSeek : σ → Bool := fun _ => false
  /-- Move to the first cell at or after a key by direct positioning, forward
  only if the flag says so. The answer is whether that cell is of the column of
  the key. -/
  seekExactly : σ → Cell → Bool → Except SourceError Bool × σ :=
    fun source _ _ => (.error .noExactSeek, source)
  /-- The rank of the source among others: of equal cells, the one from the
  source with the larger rank is the newest. -/
  sequenceId : σ → Nat
  kind : σ → SourceKind
  origin : σ → Origin
  /-- Give the source up. -/
  close : σ → Except SourceError Unit × σ

end MergeScan
