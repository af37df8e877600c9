import MergeScan.Proofs.Cell.Sorted
import MergeScan.Source.Positioning

/-! # What sources promise

A source is a cursor over a list of cells. Every operation may fail, and then
leaves the cursor where it is; otherwise it does what its description says. A
merge depends on no more than that, so that it can be read as the list of the
cells that its sources have left.
-/

namespace MergeScan

/-- An operation moved a source so that `rest` is left of the `cells` it holds,
or it failed and left the source where it was. Reliable sources do not fail. -/
structure Moved {σ α : Type} [Source σ] (Holds : σ → List Cell → Prop) (Reliable : σ → Prop)
    (source : σ) (cells rest : List Cell) (outcome : Except SourceError α × σ) : Prop where
  holds : Holds outcome.2 cells
  sequenceId : Source.sequenceId outcome.2 = Source.sequenceId source
  remaining : Source.remaining outcome.2 =
    if outcome.1.isOk then rest else Source.remaining source
  reliable : Reliable source → outcome.1.isOk = true ∧ Reliable outcome.2

/-- Sources that do what is required of them, with cells in an order. -/
class LawfulSource (σ : Type) [Source σ] (order : CellOrder) where
  /-- Whether an open source holds a list of cells, wherever its cursor is. -/
  Holds : σ → List Cell → Prop
  /-- Whether no operation on a source will fail. -/
  Reliable : σ → Prop
  suffix {source : σ} {cells : List Cell} : Holds source cells →
    Source.remaining source <:+ cells
  peek_eq {source : σ} {cells : List Cell} : Holds source cells →
    Source.peek source = (Source.remaining source).head?
  advance {source : σ} {cells : List Cell} : Holds source cells →
    Moved Holds Reliable source cells (Source.remaining source).tail (Source.advance source)
  answer {source : σ} {cells : List Cell} {answer : Option Cell} : Holds source cells →
    (Source.advance source).1 = .ok answer → answer = (Source.remaining source).head?
  seek {source : σ} {cells : List Cell} (key : Cell) : Holds source cells →
    Moved Holds Reliable source cells (order.skipTo key cells) (Source.seek source key)
  /-- A forward movement is only asked for if the cell under the cursor is below the key. -/
  reseek {source : σ} {cells : List Cell} {top key : Cell} : Holds source cells →
    Source.peek source = some top → order.compare top key = .lt →
    Moved Holds Reliable source cells (order.skipTo key (Source.remaining source))
      (Source.reseek source key)
  seekExactly {source : σ} {cells : List Cell} (key : Cell) : Holds source cells →
    Source.supportsExactSeek source = true →
    Moved Holds Reliable source cells (order.skipTo key cells)
      (Source.seekExactly source key false)
  seekExactlyForward {source : σ} {cells : List Cell} {top key : Cell} : Holds source cells →
    Source.supportsExactSeek source = true →
    Source.peek source = some top → order.compare top key = .lt →
    Moved Holds Reliable source cells (order.skipTo key (Source.remaining source))
      (Source.seekExactly source key true)

namespace LawfulSource

variable {σ : Type} [Source σ] {order : CellOrder} [LawfulSource σ order]

/-- A fresh source: its cursor is at the first of its cells, and it does not fail. -/
structure Fresh (order : CellOrder) [LawfulSource σ order] (source : σ) (cells : List Cell) :
    Prop where
  holds : Holds order source cells
  reliable : Reliable order source
  remaining : Source.remaining source = cells

end LawfulSource

/-- What a way of positioning sources does to a source: it moves it to the first
cell from the key on, among all cells or among those that are left. -/
def Positioning.Lawful {σ : Type} [Source σ] (order : CellOrder) [LawfulSource σ order]
    (positioning : Positioning σ) : Prop :=
  ∀ {source : σ} {cells : List Cell} (key : Cell), LawfulSource.Holds order source cells →
    Moved (LawfulSource.Holds order) (LawfulSource.Reliable order) source cells
      (order.skipTo key cells) (positioning source key).value

/-- What a forward way of positioning does to a source whose cell is below the key. -/
def Positioning.LawfulForward {σ : Type} [Source σ] (order : CellOrder) [LawfulSource σ order]
    (positioning : Positioning σ) : Prop :=
  ∀ {source : σ} {cells : List Cell} {top key : Cell}, LawfulSource.Holds order source cells →
    Source.peek source = some top → order.compare top key = .lt →
    Moved (LawfulSource.Holds order) (LawfulSource.Reliable order) source cells
      (order.skipTo key (Source.remaining source)) (positioning source key).value

namespace Positioning

variable {σ : Type} [Source σ] {order : CellOrder} [LawfulSource σ order]

theorem seek_lawful : (seek : Positioning σ).Lawful order :=
  fun key hholds => LawfulSource.seek key hholds

theorem reseek_lawfulForward : (reseek : Positioning σ).LawfulForward order :=
  fun hholds htop hlt => LawfulSource.reseek hholds htop hlt

theorem exactly_lawful : (exactly false : Positioning σ).Lawful order := by
  intro source cells key hholds
  unfold exactly
  split
  next hexact => exact LawfulSource.seekExactly key hholds hexact
  next => exact LawfulSource.seek key hholds

theorem exactly_lawfulForward : (exactly true : Positioning σ).LawfulForward order := by
  intro source cells top key hholds htop hlt
  unfold exactly
  split
  next hexact => exact LawfulSource.seekExactlyForward hholds hexact htop hlt
  next => exact LawfulSource.reseek hholds htop hlt

end Positioning

end MergeScan
