import MergeScan.Proofs.Source.Lawful
import MergeScan.Source.Scripted

/-! # Scripted sources keep their promises

A scripted source fails where its script says so, and moves as required
otherwise. It is reliable if its script says nothing about failures of its
movements.
-/

namespace MergeScan.ScriptedSource

theorem drop_length_takeWhile {α : Type} (keep : α → Bool) (items : List α) :
    items.drop (items.takeWhile keep).length = items.dropWhile keep := by
  induction items with
  | nil => rfl
  | cons item rest ih =>
      by_cases hkeep : keep item
      · rw [List.takeWhile_cons_of_pos hkeep, List.dropWhile_cons_of_pos hkeep, ← ih]
        rfl
      · rw [List.takeWhile_cons_of_neg hkeep, List.dropWhile_cons_of_neg hkeep]
        rfl

theorem drop_ceiling (source : ScriptedSource) (start : Nat) (key : Cell) :
    source.script.cells.drop (source.ceiling start key) =
      source.order.skipTo key (source.script.cells.drop start) := by
  exact List.drop_drop.symm.trans (drop_length_takeWhile _ _)

/-- An open source over cells in some order. -/
def HoldsCells (order : CellOrder) (source : ScriptedSource) (cells : List Cell) : Prop :=
  source.closed = false ∧ source.order = order ∧ source.script.cells = cells

/-- A source whose movements do not fail. -/
def NeverFails (source : ScriptedSource) : Prop :=
  source.script.failAdvanceAfter = none ∧ source.script.failSeekAfter = none

variable {order : CellOrder} {source : ScriptedSource} {cells : List Cell}

theorem remaining_of_open (hopen : source.closed = false) :
    Source.remaining source = source.script.cells.drop source.position := by
  simp [Source.remaining, hopen]

theorem peek_of_open (hopen : source.closed = false) :
    Source.peek source = (Source.remaining source).head? := by
  rw [remaining_of_open hopen, List.head?_drop]
  simp [Source.peek, current, hopen]

theorem moveTo_moved (hholds : source.HoldsCells order cells) (start : Nat) (key : Cell)
    (found : Option Cell → Bool) :
    Moved (HoldsCells order) NeverFails source cells
      (order.skipTo key (cells.drop start)) (source.moveTo start key found) := by
  obtain ⟨hopen, rfl, rfl⟩ := hholds
  unfold moveTo
  rw [hopen]
  split
  next hfail => cases hfail
  next =>
    split
    next hfails =>
      refine ⟨⟨hopen, rfl, rfl⟩, rfl, rfl, ?_⟩
      rintro ⟨_, hnever⟩
      rw [hnever] at hfails
      cases hfails
    next =>
      refine ⟨⟨rfl, rfl, rfl⟩, rfl, ?_, fun hreliable => ⟨rfl, hreliable⟩⟩
      exact (remaining_of_open rfl).trans (drop_ceiling source start key)

theorem advance_moved (hholds : source.HoldsCells order cells) :
    Moved (HoldsCells order) NeverFails source cells (Source.remaining source).tail
      (Source.advance source) := by
  obtain ⟨hopen, rfl, rfl⟩ := hholds
  simp only [Source.advance, hopen, Bool.false_eq_true, if_false]
  split
  next hfails =>
    refine ⟨⟨hopen, rfl, rfl⟩, rfl, rfl, ?_⟩
    rintro ⟨hnever, _⟩
    rw [hnever] at hfails
    cases hfails
  next =>
    split
    next cell hcell =>
      refine ⟨⟨rfl, rfl, rfl⟩, rfl, ?_, fun hreliable => ⟨rfl, hreliable⟩⟩
      rw [remaining_of_open hopen, List.tail_drop]
      exact remaining_of_open rfl
    next hcell =>
      refine ⟨⟨rfl, rfl, rfl⟩, rfl, ?_, fun hreliable => ⟨rfl, hreliable⟩⟩
      have hend : source.script.cells.drop source.position = [] :=
        List.drop_eq_nil_of_le (List.getElem?_eq_none_iff.mp hcell)
      rw [remaining_of_open hopen, hend]
      exact (remaining_of_open rfl).trans hend

theorem answer_eq_head? {answer : Option Cell} (hopen : source.closed = false)
    (hanswer : (Source.advance source).1 = .ok answer) :
    answer = (Source.remaining source).head? := by
  rw [← peek_of_open hopen]
  simp only [Source.advance, hopen, Bool.false_eq_true, if_false] at hanswer
  simp only [Source.peek, hopen, Bool.false_eq_true, if_false]
  split at hanswer
  · cases hanswer
  · split at hanswer
    next cell hcell => rw [hcell]; exact (Except.ok.inj hanswer).symm
    next hcell => rw [hcell]; exact (Except.ok.inj hanswer).symm

instance (order : CellOrder) : LawfulSource ScriptedSource order where
  Holds := HoldsCells order
  Reliable := NeverFails
  suffix hholds := by
    rw [remaining_of_open hholds.1, hholds.2.2]
    exact List.drop_suffix _ _
  peek_eq hholds := peek_of_open hholds.1
  advance := advance_moved
  answer hholds hanswer := answer_eq_head? hholds.1 hanswer
  seek key hholds := moveTo_moved hholds 0 key _
  reseek hholds _ _ := by
    rw [remaining_of_open hholds.1, hholds.2.2]
    exact moveTo_moved hholds _ _ _
  seekExactly key hholds hexact := by
    have hexact : _ = true := hexact
    simp only [Source.supportsExactSeek] at hexact
    simp only [Source.seekExactly, hexact, if_true]
    exact moveTo_moved hholds 0 key _
  seekExactlyForward hholds hexact _ _ := by
    have hexact : _ = true := hexact
    simp only [Source.supportsExactSeek] at hexact
    simp only [Source.seekExactly, hexact, if_true]
    rw [remaining_of_open hholds.1, hholds.2.2]
    exact moveTo_moved hholds _ _ _

end MergeScan.ScriptedSource
