import MergeScan.Scanner.Read

/-! # What a pass preserves

A pass asks its matcher about cells and moves its merge on, in whatever order. So what neither
of the two undoes, a pass does not undo either, whether or not it fails. All that a read does
after its pass is to hand out the cells, and to end the scan if it is over.
-/

namespace MergeScan.ReadState

variable {σ φ : Type} [Source σ] [CellFilter φ] {state : ReadState σ φ}

/-- What holds of a state however its merge is moved on and whatever its matcher decides on. -/
structure Preserved (Holds : ReadState σ φ → Prop) : Prop where
  advance state : Holds state → Holds { state with merge := state.merge.advance.value.2 }
  reseek state key : Holds state → Holds { state with merge := (state.merge.reseek key).value.2 }
  seekExactly state key : Holds state →
    Holds { state with merge := (state.merge.seekExactly key true).value.2 }
  decide state cell : Holds state →
    Holds { state with matcher := (state.matcher.decide cell).value.2 }

omit [Source σ] [CellFilter φ] in
theorem after_snd {α : Type} (emitted : Option Cell)
    (moved : Except SourceError α × ReadState σ φ) : (after emitted moved).2 = moved.2 := by
  obtain ⟨_ | _, state⟩ := moved <;> rfl

namespace Preserved

variable {Holds : ReadState σ φ → Prop} (hpreserved : Preserved Holds)

include hpreserved

theorem moveTo (hstate : Holds state) (key : Cell) : Holds (state.moveTo key).value.2 := by
  unfold ReadState.moveTo
  split
  · exact hpreserved.seekExactly state key hstate
  · exact hpreserved.reseek state key hstate

theorem follow (hstate : Holds state) (cell : Cell) (decision : Decision) :
    Holds (state.follow cell decision).value.2 := by
  have hstay (emitted : Option Cell) : Holds (state.leaveCell emitted).value.2 := by
    simp only [leaveCell, Noted.value_map, after_snd]
    exact hpreserved.advance state hstate
  have hcolumn (emitted : Option Cell) : Holds (state.leaveColumn cell emitted).value.2 := by
    simp only [leaveColumn, Noted.value_map, after_snd]
    exact hpreserved.moveTo hstate _
  have hrow (emitted : Option Cell) : Holds (state.leaveRow cell emitted).value.2 := by
    unfold leaveRow
    split
    · simp only [Noted.value_map, after_snd]
      exact hpreserved.moveTo hstate _
    · exact hstate
  cases decision with
  | emit | skip => exact hstay _
  | emitThenNextColumn | nextColumn => exact hcolumn _
  | emitThenNextRow | nextRow => exact hrow _
  | rowDone | scanDone => exact hstate
  | seekTo key =>
      rw [ReadState.follow]
      split
      · simp only [Noted.value_map, after_snd]
        exact hpreserved.moveTo hstate _
      · exact hstay _

theorem turn (hstate : Holds state) (previous : Option Cell) (cell : Cell) :
    Holds (state.turn previous cell).value.2 := by
  unfold ReadState.turn
  split
  · exact hstate
  · have hdecided := hpreserved.decide state cell hstate
    rw [Noted.value_bind]
    generalize (state.matcher.decide cell).value = decided at hdecided ⊢
    obtain ⟨_ | decision, matcher⟩ := decided
    · exact hdecided
    · exact hpreserved.follow hdecided cell decision

theorem turns (hstate : Holds state) (previous : Option Cell) (limit : Option Nat) (fuel : Nat) :
    Holds (turns previous limit fuel state).value.2 := by
  induction fuel generalizing previous limit state with
  | zero => exact hstate
  | succ fuel ih =>
      unfold ReadState.turns
      split
      · exact hstate
      next cell _ =>
        have hturn := hpreserved.turn hstate previous cell
        rw [Noted.value_bind]
        generalize (state.turn previous cell).value = turned at hturn ⊢
        obtain ⟨_ | ⟨emitted⟩ | ⟨emitted, ending⟩, next⟩ := turned
        · exact hturn
        · dsimp only
          split
          · exact hturn
          · exact ih hturn _ _
        · exact hturn

theorem pass (hstate : Holds state) (limit : Option Nat) :
    Holds (state.pass limit).value.2 :=
  hpreserved.turns hstate none limit _

end Preserved

end MergeScan.ReadState

namespace MergeScan.Scanner

variable {σ φ : Type} [Source σ]

/-- Hand out cells. If the scan is over, these are the last ones. -/
def handOut (scanner : Scanner σ φ) (cells : List Cell) (ended : Bool) :
    Noted (Except ScanError Page × Scanner σ φ) :=
  if ended then do
    let released ← scanner.release
    pure (.ok ⟨cells, false⟩, released)
  else pure (.ok ⟨cells, true⟩, scanner)

end MergeScan.Scanner
