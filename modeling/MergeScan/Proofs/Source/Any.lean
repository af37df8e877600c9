import MergeScan.Source.Any
import MergeScan.Proofs.Source.Run
import MergeScan.Proofs.Source.Scripted
import MergeScan.Proofs.Source.Buffer

/-! # Sources of any kind keep the promises of their kind -/

namespace MergeScan.AnySource

open CellOrder

/-- A source of any kind over a list of cells. -/
def HoldsCells : AnySource → List Cell → Prop
  | run reader => LawfulSource.Holds keys reader
  | buffer cursor => LawfulSource.Holds keys cursor
  | scripted source => LawfulSource.Holds keys source

/-- A source of any kind that does not fail. -/
def NeverFails : AnySource → Prop
  | run reader => LawfulSource.Reliable keys reader
  | buffer cursor => LawfulSource.Reliable keys cursor
  | scripted source => LawfulSource.Reliable keys source

section Kinds

variable {σ α : Type} [Source σ] [LawfulSource σ keys]

/-- A kind of source, as one of the kinds of any source. -/
structure IsKind (wrap : σ → AnySource) : Prop where
  holds source : (wrap source).HoldsCells = LawfulSource.Holds keys source
  reliable source : (wrap source).NeverFails = LawfulSource.Reliable keys source
  sequenceId source : Source.sequenceId (wrap source) = Source.sequenceId source
  remaining source : Source.remaining (wrap source) = Source.remaining source
  peek source : Source.peek (wrap source) = Source.peek source

variable {wrap : σ → AnySource} {source : σ} {cells rest : List Cell}

/-- What an operation does to a source it does to it as one of any kind. -/
theorem IsKind.moved (hkind : IsKind wrap) {outcome : Except SourceError α × σ}
    (hmoved : Moved (LawfulSource.Holds keys) (LawfulSource.Reliable keys) source cells rest
      outcome) :
    Moved HoldsCells NeverFails (wrap source) cells rest (outcome.map id wrap) := by
  refine ⟨?_, ?_, ?_, ?_⟩
  · rw [Prod.map_snd, hkind.holds]
    exact hmoved.holds
  · rw [Prod.map_snd, hkind.sequenceId, hkind.sequenceId]
    exact hmoved.sequenceId
  · rw [Prod.map_snd, Prod.map_fst, hkind.remaining, hkind.remaining]
    exact hmoved.remaining
  · rw [Prod.map_snd, Prod.map_fst, hkind.reliable, hkind.reliable]
    exact hmoved.reliable

theorem IsKind.suffix (hkind : IsKind wrap) (hholds : (wrap source).HoldsCells cells) :
    Source.remaining (wrap source) <:+ cells := by
  rw [hkind.holds] at hholds
  rw [hkind.remaining]
  exact LawfulSource.suffix hholds

theorem IsKind.peek_eq (hkind : IsKind wrap) (hholds : (wrap source).HoldsCells cells) :
    Source.peek (wrap source) = (Source.remaining (wrap source)).head? := by
  rw [hkind.holds] at hholds
  rw [hkind.remaining, hkind.peek]
  exact LawfulSource.peek_eq hholds

end Kinds

theorem run_isKind : IsKind run :=
  ⟨fun _ => rfl, fun _ => rfl, fun _ => rfl, fun _ => rfl, fun _ => rfl⟩

theorem buffer_isKind : IsKind buffer :=
  ⟨fun _ => rfl, fun _ => rfl, fun _ => rfl, fun _ => rfl, fun _ => rfl⟩

theorem scripted_isKind : IsKind scripted :=
  ⟨fun _ => rfl, fun _ => rfl, fun _ => rfl, fun _ => rfl, fun _ => rfl⟩

theorem answer_eq_head? {source : AnySource} {cells : List Cell} {answer : Option Cell}
    (hholds : source.HoldsCells cells) (hanswer : (Source.advance source).1 = .ok answer) :
    answer = (Source.remaining source).head? := by
  cases source with
  | run reader => exact @LawfulSource.answer RunReader _ keys _ reader _ _ hholds hanswer
  | buffer cursor => exact @LawfulSource.answer BufferCursor _ keys _ cursor _ _ hholds hanswer
  | scripted source =>
      exact @LawfulSource.answer ScriptedSource _ keys _ source _ _ hholds hanswer

instance : LawfulSource AnySource keys where
  Holds := HoldsCells
  Reliable := NeverFails
  suffix {source} _ hholds :=
    match source with
    | run _ => run_isKind.suffix hholds
    | buffer _ => buffer_isKind.suffix hholds
    | scripted _ => scripted_isKind.suffix hholds
  peek_eq {source} _ hholds :=
    match source with
    | run _ => run_isKind.peek_eq hholds
    | buffer _ => buffer_isKind.peek_eq hholds
    | scripted _ => scripted_isKind.peek_eq hholds
  advance {source} _ hholds :=
    match source with
    | run _ => run_isKind.moved (LawfulSource.advance hholds)
    | buffer _ => buffer_isKind.moved (LawfulSource.advance hholds)
    | scripted _ => scripted_isKind.moved (LawfulSource.advance hholds)
  answer := answer_eq_head?
  seek {source} _ key hholds :=
    match source with
    | run _ => run_isKind.moved (LawfulSource.seek key hholds)
    | buffer _ => buffer_isKind.moved (LawfulSource.seek key hholds)
    | scripted _ => scripted_isKind.moved (LawfulSource.seek key hholds)
  reseek {source} _ _ _ hholds htop hlt :=
    match source with
    | run _ => run_isKind.moved (LawfulSource.reseek hholds htop hlt)
    | buffer _ => buffer_isKind.moved (LawfulSource.reseek hholds htop hlt)
    | scripted _ => scripted_isKind.moved (LawfulSource.reseek hholds htop hlt)
  seekExactly {source} _ key hholds hexact :=
    match source with
    | run _ => run_isKind.moved (LawfulSource.seekExactly key hholds hexact)
    | buffer _ => buffer_isKind.moved (LawfulSource.seekExactly key hholds hexact)
    | scripted _ => scripted_isKind.moved (LawfulSource.seekExactly key hholds hexact)
  seekExactlyForward {source} _ _ _ hholds hexact htop hlt :=
    match source with
    | run _ => run_isKind.moved (LawfulSource.seekExactlyForward hholds hexact htop hlt)
    | buffer _ => buffer_isKind.moved (LawfulSource.seekExactlyForward hholds hexact htop hlt)
    | scripted _ => scripted_isKind.moved (LawfulSource.seekExactlyForward hholds hexact htop hlt)

end MergeScan.AnySource
