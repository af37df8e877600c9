import MergeScan.Proofs.Source.Lawful
import MergeScan.Source.Buffer

/-! # Write buffers and their cursors keep their promises

A buffer is sorted at all times, and holds the last cell written at each place. A
cursor on it remembers a cell and finds its way from there. As long as nothing is
written, it goes through the cells like a position in a list does.
-/

namespace MergeScan

open CellOrder

namespace Buffer

theorem mem_insertCell {cell other : Cell} {cells : List Cell}
    (hother : other ∈ insertCell cell cells) : other = cell ∨ other ∈ cells := by
  induction cells with
  | nil => exact .inl (List.mem_singleton.mp hother)
  | cons first rest ih =>
      unfold insertCell at hother
      split at hother
      · exact List.mem_cons.mp hother
      · exact (List.mem_cons.mp hother).imp_right (List.mem_cons_of_mem first)
      · rcases List.mem_cons.mp hother with rfl | hmem
        · exact .inr List.mem_cons_self
        · exact (ih hmem).imp_right (List.mem_cons_of_mem first)

theorem insertCell_strictlySorted {cells : List Cell} (hcells : keys.StrictlySorted cells)
    (cell : Cell) : keys.StrictlySorted (insertCell cell cells) := by
  induction cells with
  | nil => exact List.pairwise_singleton _ _
  | cons first rest ih =>
      obtain ⟨hfirst, hrest⟩ := List.pairwise_cons.mp hcells
      unfold insertCell
      split
      next hlt =>
        refine List.pairwise_cons.mpr ⟨?_, hcells⟩
        intro other hother
        rcases List.mem_cons.mp hother with rfl | hmem
        · exact hlt
        · exact Std.TransCmp.lt_trans hlt (hfirst other hmem)
      next heq =>
        refine List.pairwise_cons.mpr ⟨?_, hrest⟩
        intro other hother
        exact Std.TransCmp.lt_of_eq_of_lt heq (hfirst other hother)
      next hgt =>
        refine List.pairwise_cons.mpr ⟨?_, ih hrest⟩
        intro other hother
        rcases mem_insertCell hother with rfl | hmem
        · exact Std.OrientedCmp.gt_iff_lt.mp hgt
        · exact hfirst other hmem

/-- A written cell is the only one at its place. The other places stay as they are. -/
theorem copies_insertCell {cells : List Cell} (hcells : keys.StrictlySorted cells)
    (cell place : Cell) : keys.copies place (insertCell cell cells) =
      if Cell.compareKeys cell place = .eq then [cell] else keys.copies place cells := by
  induction cells with
  | nil =>
      rw [insertCell]
      split
      next heq => exact copies_cons_of_eq heq []
      next hne => exact copies_cons_of_ne hne []
  | cons first rest ih =>
      obtain ⟨hfirst, hrest⟩ := List.pairwise_cons.mp hcells
      -- the new cell stands before the first one, takes its place, or goes into the rest
      unfold insertCell
      by_cases hplace : Cell.compareKeys cell place = .eq
      · rw [if_pos hplace]
        split
        next hlt =>
          rw [copies_cons_of_eq hplace, copies_eq_nil_of_lt _ hplace]
          intro other hother
          rcases List.mem_cons.mp hother with rfl | hmem
          · exact hlt
          · exact Std.TransCmp.lt_trans hlt (hfirst other hmem)
        next heq =>
          rw [copies_cons_of_eq hplace, copies_eq_nil_of_lt _ hplace]
          exact fun other hother => Std.TransCmp.lt_of_eq_of_lt heq (hfirst other hother)
        next hgt =>
          have hne : Cell.compareKeys first place ≠ .eq := by
            intro heq
            rw [Std.TransCmp.congr_left hplace, Std.OrientedCmp.eq_symm heq] at hgt
            cases hgt
          rw [copies_cons_of_ne hne, ih hrest, if_pos hplace]
      · rw [if_neg hplace]
        split
        next => exact copies_cons_of_ne hplace _
        next heq =>
          have hne : Cell.compareKeys first place ≠ .eq := by
            rwa [← Std.TransCmp.congr_left heq]
          rw [copies_cons_of_ne hplace, copies_cons_of_ne hne]
        next =>
          rw [copies, List.filter_cons, ← copies, ih hrest, if_neg hplace, copies,
            copies, List.filter_cons]

/-- The cells above a cell of the buffer are the ones that follow it. -/
theorem above_eq {buffer : Buffer} (hstrict : keys.StrictlySorted buffer.cells)
    {front tail : List Cell} {cell : Cell} (hcells : buffer.cells = front ++ cell :: tail) :
    buffer.above cell = tail := by
  rw [hcells] at hstrict
  obtain ⟨_, hstrict, hfront⟩ := List.pairwise_append.mp hstrict
  rw [above, hcells, List.dropWhile_append_of_pos, List.dropWhile_cons_of_pos]
  · cases tail with
    | nil => rfl
    | cons next rest =>
        have hlt : Cell.compareKeys cell next = .lt :=
          (List.pairwise_cons.mp hstrict).1 next List.mem_cons_self
        rw [List.dropWhile_cons_of_neg]
        simp [Std.OrientedCmp.gt_of_lt hlt]
  · exact Std.ReflCmp.isLE_rfl
  · intro other hother
    have hlt : Cell.compareKeys other cell = .lt := hfront other hother cell List.mem_cons_self
    simp [hlt]

theorem ceiling_eq (buffer : Buffer) (key : Cell) :
    buffer.ceiling key = (keys.skipTo key buffer.cells).head? := by
  rw [ceiling, CellOrder.skipTo]
  induction buffer.cells with
  | nil => rfl
  | cons cell rest ih =>
      rw [List.find?_cons, List.dropWhile_cons, ih, Cell.compare_keys]
      split <;> split <;> simp_all

end Buffer

namespace BufferCursor

/-- An open cursor on a buffer, at one of its cells or at the end. -/
def HoldsCells (cursor : BufferCursor) (cells : List Cell) : Prop :=
  cursor.closed = false ∧ cursor.buffer.cells = cells ∧ keys.StrictlySorted cells ∧
    ∃ rest, rest <:+ cells ∧ cursor.current = rest.head?

variable {cursor : BufferCursor} {cells : List Cell}

theorem remaining_eq {rest : List Cell} (hstrict : keys.StrictlySorted cursor.buffer.cells)
    (hrest : rest <:+ cursor.buffer.cells) (hcurrent : cursor.current = rest.head?) :
    Source.remaining cursor = rest := by
  obtain ⟨front, hcells⟩ := hrest
  cases rest with
  | nil => simp [Source.remaining, hcurrent]
  | cons cell tail =>
      simp [Source.remaining, hcurrent, Buffer.above_eq hstrict hcells.symm]

theorem peek_eq (hholds : cursor.HoldsCells cells) :
    Source.peek cursor = (Source.remaining cursor).head? := by
  obtain ⟨_, rfl, hstrict, rest, hrest, hcurrent⟩ := hholds
  rw [remaining_eq hstrict hrest hcurrent, ← hcurrent]
  rfl

/-- A cursor that was put to the first cell of a part of the buffer reads that part. -/
theorem moved_of_current {α : Type} {rest : List Cell} (hholds : cursor.HoldsCells cells)
    (hrest : rest <:+ cells) (answer : α) :
    Moved HoldsCells (fun _ => True) cursor cells rest
      (.ok answer, { cursor with current := rest.head? }) := by
  obtain ⟨hopen, rfl, hstrict, _⟩ := hholds
  refine ⟨⟨hopen, rfl, hstrict, rest, hrest, rfl⟩, rfl, ?_, fun _ => ⟨rfl, trivial⟩⟩
  have hmoved : keys.StrictlySorted ({ cursor with current := rest.head? }).buffer.cells := hstrict
  exact remaining_eq hmoved hrest rfl

theorem moveTo_eq (cursor : BufferCursor) (key : Cell) :
    cursor.moveTo key =
      { cursor with current := (keys.skipTo key cursor.buffer.cells).head? } := by
  rw [moveTo, Buffer.ceiling_eq]

theorem moveTo_moved {α : Type} (hholds : cursor.HoldsCells cells) (key : Cell) (answer : α) :
    Moved HoldsCells (fun _ => True) cursor cells (keys.skipTo key cells)
      (.ok answer, cursor.moveTo key) := by
  rw [moveTo_eq, hholds.2.1]
  exact moved_of_current hholds (List.dropWhile_suffix _) answer

/-- What lies below a key ahead of the cursor is all that lies below it from there on. -/
theorem skipTo_remaining (hholds : cursor.HoldsCells cells) {top key : Cell}
    (htop : Source.peek cursor = some top) (hlt : Cell.compareKeys top key = .lt) :
    keys.skipTo key (Source.remaining cursor) = keys.skipTo key cells := by
  rw [peek_eq hholds] at htop
  obtain ⟨_, rfl, hstrict, rest, hrest, hcurrent⟩ := hholds
  rw [remaining_eq hstrict hrest hcurrent] at htop ⊢
  obtain ⟨front, hcells⟩ := hrest
  rw [← hcells, skipTo_append_of_lt]
  intro cell hcell
  rw [← hcells] at hstrict
  have hbelow := (List.pairwise_append.mp hstrict).2.2 cell hcell top
    (List.mem_of_head? htop)
  exact Std.TransCmp.lt_trans hbelow hlt

theorem advance_moved (hholds : cursor.HoldsCells cells) :
    Moved HoldsCells (fun _ => True) cursor cells (Source.remaining cursor).tail
      (Source.advance cursor) := by
  have hkept := hholds
  obtain ⟨hopen, rfl, hstrict, rest, hrest, hcurrent⟩ := hkept
  rw [remaining_eq hstrict hrest hcurrent]
  simp only [Source.advance, hopen, Bool.false_eq_true, if_false]
  cases rest with
  | nil =>
      rw [hcurrent]
      refine ⟨hholds, rfl, ?_, fun _ => ⟨rfl, trivial⟩⟩
      exact remaining_eq hstrict hrest hcurrent
  | cons cell tail =>
      rw [hcurrent]
      obtain ⟨front, hcells⟩ := hrest
      simp only [List.head?_cons, Buffer.above_eq hstrict hcells.symm]
      have htail : tail <:+ cursor.buffer.cells :=
        (List.suffix_cons cell tail).trans ⟨front, hcells⟩
      have hmoved := moved_of_current hholds htail (some cell)
      rw [hopen] at hmoved
      exact hmoved

theorem answer_eq_head? {answer : Option Cell} (hholds : cursor.HoldsCells cells)
    (hanswer : (Source.advance cursor).1 = .ok answer) :
    answer = (Source.remaining cursor).head? := by
  rw [← peek_eq hholds]
  simp only [Source.advance, hholds.1, Bool.false_eq_true, if_false] at hanswer
  simp only [Source.peek]
  split at hanswer
  next cell hcell => rw [hcell]; exact (Except.ok.inj hanswer).symm
  next hcell => rw [hcell]; exact (Except.ok.inj hanswer).symm

theorem reseek_moved (hholds : cursor.HoldsCells cells) {top key : Cell}
    (htop : Source.peek cursor = some top) (hlt : Cell.compareKeys top key = .lt) :
    Moved HoldsCells (fun _ => True) cursor cells (keys.skipTo key (Source.remaining cursor))
      (Source.reseek cursor key) := by
  have hcurrent : cursor.current = some top := htop
  rw [skipTo_remaining hholds htop hlt]
  simp only [Source.reseek, hholds.1, hcurrent, hlt, Bool.false_eq_true, if_false]
  exact moveTo_moved hholds key _

instance : LawfulSource BufferCursor keys where
  Holds := HoldsCells
  Reliable _ := True
  suffix hholds := by
    obtain ⟨_, rfl, hstrict, rest, hrest, hcurrent⟩ := hholds
    rw [remaining_eq hstrict hrest hcurrent]
    exact hrest
  peek_eq := peek_eq
  advance := advance_moved
  answer := answer_eq_head?
  seek key hholds := by
    simp only [Source.seek, hholds.1, Bool.false_eq_true, if_false]
    exact moveTo_moved hholds key _
  reseek hholds htop hlt := reseek_moved hholds htop hlt
  seekExactly _ _ hexact := by cases hexact
  seekExactlyForward _ hexact := by cases hexact

end BufferCursor

end MergeScan
