import MergeScan.Proofs.Source.Lawful
import MergeScan.Source.Run

/-! # Readers of sorted runs keep their promises

Bisection finds the same position as a search from the beginning, because in a
sorted run the cells below a key come before all others.
-/

namespace MergeScan

/-- Bisection finds the border between the positions below and the others. -/
theorem bisect_spec {below : Nat → Bool} (fuel low span : Nat) (hfuel : span ≤ fuel)
    (hbelow : ∀ first second, low ≤ first → first ≤ second → second < low + span →
      below second = true → below first = true) :
    low ≤ bisect below fuel low span ∧ bisect below fuel low span ≤ low + span ∧
      (∀ position, low ≤ position → position < bisect below fuel low span →
        below position = true) ∧
      ∀ position, bisect below fuel low span ≤ position → position < low + span →
        below position = false := by
  induction fuel generalizing low span with
  | zero =>
      unfold bisect
      grind
  | succ fuel ih =>
      unfold bisect
      split
      next hspan => grind
      next hspan =>
        simp only
        split
        next hhalf =>
          obtain ⟨hlow, hhigh, hlower, hupper⟩ :=
            ih (low + span / 2 + 1) (span - span / 2 - 1) (by omega) fun first second h h' h'' =>
              hbelow first second (by omega) h' (by omega)
          refine ⟨by omega, by omega, ?_, fun position h h' => hupper position h (by omega)⟩
          intro position hposition hlt
          by_cases hle : position ≤ low + span / 2
          · exact hbelow position (low + span / 2) hposition hle (by omega) hhalf
          · exact hlower position (by omega) hlt
        next hhalf =>
          obtain ⟨hlow, hhigh, hlower, hupper⟩ :=
            ih low (span / 2) (by omega) fun first second h h' h'' =>
              hbelow first second h h' (by omega)
          refine ⟨hlow, by omega, hlower, ?_⟩
          intro position hposition hlt
          by_cases hle : position < low + span / 2
          · exact hupper position hposition hle
          · rw [Bool.eq_false_iff]
            intro hmore
            exact hhalf (hbelow (low + span / 2) position (by omega) (by omega) hlt hmore)

/-- The border of a list between what fails a test and the rest is where a search from the
beginning stops. -/
theorem findIdx_of_border {α : Type} {test : α → Bool} {list : List α} {border : Nat}
    (hborder : border ≤ list.length)
    (hbefore : ∀ position (hposition : position < list.length), position < border →
      test list[position] = false)
    (hafter : ∀ hborder : border < list.length, test list[border] = true) :
    list.findIdx test = border := by
  rcases Nat.lt_or_eq_of_le hborder with hlt | rfl
  · exact (List.findIdx_eq hlt).mpr ⟨hafter hlt, fun position hposition =>
      hbefore position (Nat.lt_trans hposition hlt) hposition⟩
  · apply List.findIdx_eq_length_of_false
    intro item hitem
    obtain ⟨position, hposition, rfl⟩ := List.mem_iff_getElem.mp hitem
    exact hbefore position hposition hposition

namespace SortedRun

theorem below_eq (run : SortedRun) (key : Cell) {position : Nat}
    (hposition : position < run.toList.length) :
    run.below key position = (Cell.compareKeys run.toList[position] key).isLT := by
  have hcell : run.cells[position]? = some run.toList[position] := by
    rw [← Array.getElem?_toList]
    exact List.getElem?_eq_getElem hposition
  rw [below, hcell]

/-- Looking a key up from a position on finds what a search cell by cell from there finds. -/
theorem ceiling_eq {run : SortedRun} (hsorted : CellOrder.keys.Sorted run.toList)
    (start : Nat) (key : Cell) :
    run.ceiling start key = min start run.size +
      (run.toList.drop start).findIdx fun cell => (Cell.compareKeys cell key).isGE := by
  have hsize : run.toList.length = run.size := rfl
  generalize hlow : min start run.size = low
  have hstart : run.toList.drop start = run.toList.drop low := by
    rw [← hlow, List.drop_eq_drop_min, hsize]
  obtain ⟨hge, hle, hbelow, habove⟩ := @bisect_spec (run.below key) run.size low
    (run.size - low) (by omega) (by
      intro first second _ hfirst hsecond htrue
      rw [run.below_eq key (by omega), Ordering.isLT_iff_eq_lt] at htrue ⊢
      rcases Nat.lt_or_eq_of_le hfirst with hfirst | rfl
      · have hle := List.pairwise_iff_getElem.mp hsorted first second (by omega) (by omega) hfirst
        exact Std.TransCmp.lt_of_isLE_of_lt hle htrue
      · exact htrue)
  rw [ceiling, hlow, hstart]
  generalize bisect (run.below key) run.size low (run.size - low) = found at *
  have hlength : (run.toList.drop low).length = run.size - low := List.length_drop
  -- the border of the bisection is the first cell that is not below the key
  have hborder : (run.toList.drop low).findIdx (fun cell => (Cell.compareKeys cell key).isGE) =
      found - low := by
    apply findIdx_of_border (by omega)
    · intro offset hoffset hlt
      have htrue := hbelow (low + offset) (by omega) (by omega)
      rw [run.below_eq key (by omega)] at htrue
      rw [List.getElem_drop, ← Ordering.not_isLT_eq_isGE, htrue]
      rfl
    · intro hlt
      have hfalse := habove (low + (found - low)) (by omega) (by omega)
      rw [run.below_eq key (by omega)] at hfalse
      rw [List.getElem_drop, ← Ordering.not_isLT_eq_isGE, hfalse]
      rfl
  omega

/-- Looking a key up moves past exactly the cells below it. -/
theorem drop_ceiling {run : SortedRun} (hsorted : CellOrder.keys.Sorted run.toList)
    (start : Nat) (key : Cell) :
    run.toList.drop (run.ceiling start key) =
      CellOrder.keys.skipTo key (run.toList.drop start) := by
  have hsize : run.toList.length = run.size := rfl
  rw [ceiling_eq hsorted, ← List.drop_drop, ← hsize, ← List.drop_eq_drop_min,
    CellOrder.skipTo, List.dropWhile_eq_drop_findIdx_not]
  simp only [Ordering.not_isLT_eq_isGE]
  rfl

end SortedRun

namespace RunReader

/-- An open reader of a run of sorted cells. -/
def HoldsCells (reader : RunReader) (cells : List Cell) : Prop :=
  reader.closed = false ∧ reader.run.toList = cells ∧ CellOrder.keys.Sorted cells

variable {reader : RunReader} {cells : List Cell}

theorem remaining_of_open (hopen : reader.closed = false) :
    Source.remaining reader = reader.run.toList.drop reader.position := by
  simp [Source.remaining, hopen]

theorem peek_of_open (hopen : reader.closed = false) :
    Source.peek reader = (Source.remaining reader).head? := by
  rw [remaining_of_open hopen, List.head?_drop]
  simp [Source.peek, current, hopen, SortedRun.toList]

/-- Looking a key up from a position on succeeds, whatever is reported about it. -/
theorem moveTo_moved {α : Type} (hholds : reader.HoldsCells cells) (start : Nat) (key : Cell)
    (answer : α) :
    Moved HoldsCells (fun _ => True) reader cells
      (CellOrder.keys.skipTo key (cells.drop start)) (.ok answer, reader.moveTo start key) := by
  obtain ⟨hopen, rfl, hsorted⟩ := hholds
  have hmoved : (reader.moveTo start key).closed = false := hopen
  refine ⟨⟨hopen, rfl, hsorted⟩, rfl, ?_, fun _ => ⟨rfl, trivial⟩⟩
  exact (remaining_of_open hmoved).trans (SortedRun.drop_ceiling hsorted start key)

theorem advance_moved (hholds : reader.HoldsCells cells) :
    Moved HoldsCells (fun _ => True) reader cells (Source.remaining reader).tail
      (Source.advance reader) := by
  obtain ⟨hopen, rfl, hsorted⟩ := hholds
  have hremaining := remaining_of_open hopen
  simp only [Source.advance, hopen, Bool.false_eq_true, if_false]
  split
  next cell hcell =>
    refine ⟨⟨rfl, rfl, hsorted⟩, rfl, ?_, fun _ => ⟨rfl, trivial⟩⟩
    rw [hremaining, List.tail_drop]
    exact remaining_of_open rfl
  next hcell =>
    refine ⟨⟨hopen, rfl, hsorted⟩, rfl, ?_, fun _ => ⟨rfl, trivial⟩⟩
    have hend : reader.run.toList.drop reader.position = [] :=
      List.drop_eq_nil_of_le (Array.getElem?_eq_none_iff.mp hcell)
    rw [hremaining, hend]
    rfl

theorem answer_eq_head? {answer : Option Cell} (hopen : reader.closed = false)
    (hanswer : (Source.advance reader).1 = .ok answer) :
    answer = (Source.remaining reader).head? := by
  rw [← peek_of_open hopen]
  simp only [Source.advance, hopen, Bool.false_eq_true, if_false] at hanswer
  simp only [Source.peek, hopen, Bool.false_eq_true, if_false]
  split at hanswer
  next cell hcell => rw [hcell]; exact (Except.ok.inj hanswer).symm
  next hcell => rw [hcell]; exact (Except.ok.inj hanswer).symm

instance : LawfulSource RunReader CellOrder.keys where
  Holds := HoldsCells
  Reliable _ := True
  suffix hholds := by
    rw [remaining_of_open hholds.1, hholds.2.1]
    exact List.drop_suffix _ _
  peek_eq hholds := peek_of_open hholds.1
  advance := advance_moved
  answer hholds hanswer := answer_eq_head? hholds.1 hanswer
  seek key hholds := by
    simp only [Source.seek, hholds.1, Bool.false_eq_true, if_false]
    exact moveTo_moved hholds 0 key _
  reseek hholds _ _ := by
    rw [remaining_of_open hholds.1, hholds.2.1]
    simp only [Source.reseek, hholds.1, Bool.false_eq_true, if_false]
    exact moveTo_moved hholds _ _ _
  seekExactly key hholds _ := by
    simp only [Source.seekExactly, hholds.1, Bool.false_eq_true, if_false]
    exact moveTo_moved hholds 0 key _
  seekExactlyForward hholds _ _ _ := by
    rw [remaining_of_open hholds.1, hholds.2.1]
    simp only [Source.seekExactly, hholds.1, Bool.false_eq_true, if_false, if_true]
    exact moveTo_moved hholds _ _ _

end RunReader

end MergeScan
