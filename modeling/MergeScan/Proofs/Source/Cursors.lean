import Mathlib
import MergeScan.Proofs.Source.Buffer
import MergeScan.Proofs.Source.Distinct
import MergeScan.Proofs.Source.Run
import MergeScan.Session.Cursors

/-! # Two cursors, one contract

A cursor on a write buffer remembers a cell and looks up its successor, a reader of
a run keeps a position and bisects. What is asked of either is described by a third
cursor, which carries the cells it has ahead of it. Both give the answers of that
one, whatever is asked of them in whatever order, also past the end, behind the
cursor and after it was closed.
-/

namespace MergeScan

open CellOrder

/-- What every cursor can be asked to do. -/
inductive CursorCall
  | peek
  | advance
  | seek (key : Cell)
  | reseek (key : Cell)
  | close

/-- The command for a call. -/
def CursorCall.command : CursorCall → CursorCommand
  | .peek => .peek
  | .advance => .advance
  | .seek key => .seek key
  | .reseek key => .reseek key
  | .close => .close

/-- The answers of a cursor to calls, one after the other. An answer also shows where the
cursor stands then. -/
def Cursors.answers {σ : Type} [Source σ] (cursor : σ) : List CursorCall → List CursorAnswer
  | [] => []
  | call :: calls =>
    let (answer, next) := (use cursor call.command).value
    answer :: answers next calls

/-! ## The contract -/

/-- A cursor that carries its cells, and those of them that are still ahead. -/
structure ListCursor where
  cells : List Cell
  ahead : List Cell
  closed : Bool := false

namespace ListCursor

/-- A cursor at the first of some cells. -/
def onto (cells : List Cell) : ListCursor :=
  { cells, ahead := cells }

/-- The cells that are not below a key. -/
def notBelow (key : Cell) (cells : List Cell) : List Cell :=
  cells.filter fun cell => Cell.compareKeys cell key ≠ .lt

/-- The first of the cells ahead. -/
def peek (cursor : ListCursor) : Option Cell :=
  cursor.ahead.head?

/-- Take the first of the cells ahead. -/
def advance (cursor : ListCursor) : Except SourceError (Option Cell) × ListCursor :=
  if cursor.closed then (.error .closed, cursor)
  else (.ok cursor.ahead.head?, { cursor with ahead := cursor.ahead.tail })

/-- Have some cells ahead. -/
def moveTo (cursor : ListCursor) (ahead : List Cell) : Except SourceError Bool × ListCursor :=
  if cursor.closed then (.error .closed, cursor)
  else (.ok ahead.head?.isSome, { cursor with ahead })

/-- Have all cells ahead that are not below a key. -/
def seek (cursor : ListCursor) (key : Cell) : Except SourceError Bool × ListCursor :=
  cursor.moveTo (notBelow key cursor.cells)

/-- Drop the cells ahead that are below a key. -/
def reseek (cursor : ListCursor) (key : Cell) : Except SourceError Bool × ListCursor :=
  cursor.moveTo (notBelow key cursor.ahead)

/-- Have no cells ahead any more. -/
def close (cursor : ListCursor) : Except SourceError Unit × ListCursor :=
  if cursor.closed then (.error .doubleClose, cursor)
  else (.ok (), { cursor with ahead := [], closed := true })

/-- Answer a call. -/
def use (cursor : ListCursor) : CursorCall → CursorAnswer × ListCursor
  | .peek => (.cell cursor.peek, cursor)
  | .advance => (.advanced cursor.advance.1 cursor.advance.2.peek, cursor.advance.2)
  | .seek key => (.positioned (cursor.seek key).1 (cursor.seek key).2.peek, (cursor.seek key).2)
  | .reseek key =>
    (.positioned (cursor.reseek key).1 (cursor.reseek key).2.peek, (cursor.reseek key).2)
  | .close => (.closed cursor.close.1 cursor.close.2.peek, cursor.close.2)

/-- The answers to calls, one after the other. -/
def answers (cursor : ListCursor) : List CursorCall → List CursorAnswer
  | [] => []
  | call :: calls => (cursor.use call).1 :: (cursor.use call).2.answers calls

/-- The cursor after calls. -/
def after (cursor : ListCursor) (calls : List CursorCall) : ListCursor :=
  calls.foldl (fun cursor call => (cursor.use call).2) cursor

/-- The cells of a cursor ascend and end with those ahead. A closed cursor has none ahead. -/
structure Placed (cursor : ListCursor) : Prop where
  strict : keys.StrictlySorted cursor.cells
  suffix : cursor.ahead <:+ cursor.cells
  past : cursor.closed = true → cursor.ahead = []

variable {cursor : ListCursor}

theorem onto_placed {cells : List Cell} (hstrict : keys.StrictlySorted cells) :
    (onto cells).Placed :=
  ⟨hstrict, List.suffix_refl _, nofun⟩

theorem moveTo_of_open (hopen : cursor.closed = false) (ahead : List Cell) :
    cursor.moveTo ahead = (.ok ahead.head?.isSome, { cursor with ahead }) :=
  if_neg (by simp [hopen])

/-- In order, what is not below a key is what follows the cells below it. -/
theorem notBelow_eq {cells : List Cell} (hcells : keys.Sorted cells) (key : Cell) :
    notBelow key cells = keys.skipTo key cells :=
  (skipTo_eq_filter hcells key).symm

theorem notBelow_suffix {cells : List Cell} (hcells : keys.Sorted cells) (key : Cell) :
    notBelow key cells <:+ cells := by
  rw [notBelow_eq hcells]
  exact List.dropWhile_suffix _

theorem Placed.sorted_ahead (hplaced : cursor.Placed) : keys.Sorted cursor.ahead :=
  hplaced.strict.sorted.sublist hplaced.suffix.sublist

theorem Placed.advance (hplaced : cursor.Placed) : cursor.advance.2.Placed := by
  unfold ListCursor.advance
  split
  next => exact hplaced
  next hopen =>
    exact ⟨hplaced.strict, (List.tail_suffix _).trans hplaced.suffix,
      fun hclosed => absurd hclosed hopen⟩

theorem Placed.moveTo (hplaced : cursor.Placed) {ahead : List Cell}
    (hahead : ahead <:+ cursor.cells) : (cursor.moveTo ahead).2.Placed := by
  unfold ListCursor.moveTo
  split
  next => exact hplaced
  next hopen => exact ⟨hplaced.strict, hahead, fun hclosed => absurd hclosed hopen⟩

theorem Placed.seek (hplaced : cursor.Placed) (key : Cell) : (cursor.seek key).2.Placed :=
  hplaced.moveTo (notBelow_suffix hplaced.strict.sorted key)

theorem Placed.reseek (hplaced : cursor.Placed) (key : Cell) : (cursor.reseek key).2.Placed :=
  hplaced.moveTo ((notBelow_suffix hplaced.sorted_ahead key).trans hplaced.suffix)

theorem Placed.close (hplaced : cursor.Placed) : cursor.close.2.Placed := by
  unfold ListCursor.close
  split
  next => exact hplaced
  next => exact ⟨hplaced.strict, List.nil_suffix, fun _ => rfl⟩

theorem Placed.after (hplaced : cursor.Placed) (calls : List CursorCall) :
    (cursor.after calls).Placed := by
  induction calls generalizing cursor with
  | nil => exact hplaced
  | cons call calls ih =>
      refine @ih (cursor.use call).2 ?_
      cases call with
      | peek => exact hplaced
      | advance => exact hplaced.advance
      | seek key => exact hplaced.seek key
      | reseek key => exact hplaced.reseek key
      | close => exact hplaced.close

/-- A forward movement only takes cells away from the front of those that are ahead. -/
theorem Placed.reseek_suffix (hplaced : cursor.Placed) (key : Cell) :
    (cursor.reseek key).2.ahead <:+ cursor.ahead := by
  unfold ListCursor.reseek ListCursor.moveTo
  split
  next => exact List.suffix_refl _
  next => exact notBelow_suffix hplaced.sorted_ahead key

end ListCursor

/-- Sources keep the contract if they show what the list cursors they follow show, answer what
these answer, and follow them on. -/
structure KeepsContract {σ : Type} [Source σ] (Follows : σ → ListCursor → Prop) : Prop where
  peek {source cursor} : Follows source cursor → Source.peek source = cursor.peek
  advance {source cursor} : Follows source cursor →
    (Source.advance source).1 = cursor.advance.1 ∧
      Follows (Source.advance source).2 cursor.advance.2
  seek {source cursor} key : Follows source cursor →
    (Source.seek source key).1 = (cursor.seek key).1 ∧
      Follows (Source.seek source key).2 (cursor.seek key).2
  reseek {source cursor} key : Follows source cursor →
    (Source.reseek source key).1 = (cursor.reseek key).1 ∧
      Follows (Source.reseek source key).2 (cursor.reseek key).2
  close {source cursor} : Follows source cursor →
    (Source.close source).1 = cursor.close.1 ∧ Follows (Source.close source).2 cursor.close.2

namespace KeepsContract

variable {σ : Type} [Source σ] {Follows : σ → ListCursor → Prop} {source : σ} {cursor : ListCursor}

theorem use (hkeeps : KeepsContract Follows) (hfollows : Follows source cursor)
    (call : CursorCall) :
    (Cursors.use source call.command).value.1 = (cursor.use call).1 ∧
      Follows (Cursors.use source call.command).value.2 (cursor.use call).2 := by
  cases call with
  | peek => exact ⟨congrArg CursorAnswer.cell (hkeeps.peek hfollows), hfollows⟩
  | advance =>
      obtain ⟨hanswer, hnext⟩ := hkeeps.advance hfollows
      exact ⟨congr (congrArg CursorAnswer.advanced hanswer) (hkeeps.peek hnext), hnext⟩
  | seek key =>
      obtain ⟨hanswer, hnext⟩ := hkeeps.seek key hfollows
      exact ⟨congr (congrArg CursorAnswer.positioned hanswer) (hkeeps.peek hnext), hnext⟩
  | reseek key =>
      obtain ⟨hanswer, hnext⟩ := hkeeps.reseek key hfollows
      exact ⟨congr (congrArg CursorAnswer.positioned hanswer) (hkeeps.peek hnext), hnext⟩
  | close =>
      obtain ⟨hanswer, hnext⟩ := hkeeps.close hfollows
      exact ⟨congr (congrArg CursorAnswer.closed hanswer) (hkeeps.peek hnext), hnext⟩

theorem answers (hkeeps : KeepsContract Follows) (hfollows : Follows source cursor)
    (calls : List CursorCall) : Cursors.answers source calls = cursor.answers calls := by
  induction calls generalizing source cursor with
  | nil => rfl
  | cons call calls ih =>
      obtain ⟨hanswer, hnext⟩ := hkeeps.use hfollows call
      exact List.cons_eq_cons.mpr ⟨hanswer, ih hnext⟩

end KeepsContract

/-! ## Readers of runs -/

namespace RunReader

/-- A reader and the cursor that says what it has to do. -/
structure Follows (reader : RunReader) (cursor : ListCursor) : Prop where
  placed : cursor.Placed
  cells : reader.run.toList = cursor.cells
  closed : reader.closed = cursor.closed
  ahead : cursor.closed = false → reader.run.toList.drop reader.position = cursor.ahead

variable {reader : RunReader} {cursor : ListCursor}

/-- The cell at a position is the first of those from there on. -/
theorem current_eq_head? (reader : RunReader) :
    reader.current = (reader.run.toList.drop reader.position).head? := by
  rw [List.head?_drop, SortedRun.toList, Array.getElem?_toList]
  rfl

theorem Follows.current (hfollows : reader.Follows cursor) (hopen : cursor.closed = false) :
    reader.current = cursor.peek := by
  rw [current_eq_head?, hfollows.ahead hopen]
  rfl

theorem Follows.peek (hfollows : reader.Follows cursor) : Source.peek reader = cursor.peek := by
  cases hopen : cursor.closed with
  | false =>
      rw [← hfollows.current hopen]
      simp [Source.peek, hfollows.closed, hopen]
  | true => simp [Source.peek, ListCursor.peek, hfollows.closed, hfollows.placed.past hopen, hopen]

theorem Follows.advance (hfollows : reader.Follows cursor) :
    (Source.advance reader).1 = cursor.advance.1 ∧
      (Source.advance reader).2.Follows cursor.advance.2 := by
  have hplaced := hfollows.placed.advance
  unfold ListCursor.advance at hplaced ⊢
  simp only [Source.advance, hfollows.closed]
  split at hplaced
  next hclosed =>
    rw [if_pos hclosed, if_pos hclosed]
    exact ⟨rfl, hfollows⟩
  next hopen =>
    have hcurrent := hfollows.current (Bool.not_eq_true _ ▸ hopen)
    have hahead := hfollows.ahead (Bool.not_eq_true _ ▸ hopen)
    rw [if_neg hopen, if_neg hopen, hcurrent, ListCursor.peek]
    cases hleft : cursor.ahead with
    | nil =>
        rw [hleft] at hplaced hahead
        exact ⟨rfl, hplaced, hfollows.cells, hfollows.closed, fun _ => hahead⟩
    | cons cell rest =>
        rw [hleft] at hplaced hahead
        refine ⟨rfl, hplaced, hfollows.cells, rfl, fun _ => ?_⟩
        exact List.tail_drop.symm.trans (congrArg List.tail hahead)

/-- Bisection puts an open reader where its cursor has to be. -/
theorem Follows.moveTo (hfollows : reader.Follows cursor) (hopen : cursor.closed = false)
    (start : Nat) {cells : List Cell} (hcells : reader.run.toList.drop start = cells) (key : Cell)
    (hplaced : (cursor.moveTo (ListCursor.notBelow key cells)).2.Placed) :
    .ok (reader.moveTo start key).current.isSome =
        (cursor.moveTo (ListCursor.notBelow key cells)).1 ∧
      (reader.moveTo start key).Follows (cursor.moveTo (ListCursor.notBelow key cells)).2 := by
  have hsorted : keys.Sorted reader.run.toList := hfollows.cells ▸ hfollows.placed.strict.sorted
  have hahead : (reader.moveTo start key).run.toList.drop (reader.moveTo start key).position =
      ListCursor.notBelow key cells := by
    rw [← hcells, ListCursor.notBelow_eq (hsorted.sublist (List.drop_sublist _ _))]
    exact SortedRun.drop_ceiling hsorted start key
  rw [current_eq_head?, hahead]
  rw [ListCursor.moveTo_of_open hopen] at hplaced ⊢
  exact ⟨rfl, hplaced, hfollows.cells, hfollows.closed, fun _ => hahead⟩

theorem Follows.seek (key : Cell) (hfollows : reader.Follows cursor) :
    (Source.seek reader key).1 = (cursor.seek key).1 ∧
      (Source.seek reader key).2.Follows (cursor.seek key).2 := by
  have hplaced := hfollows.placed.seek key
  cases hopen : cursor.closed with
  | true =>
      simp only [Source.seek, ListCursor.seek, ListCursor.moveTo, hfollows.closed, hopen, if_true]
      exact ⟨trivial, hfollows⟩
  | false =>
      simp only [Source.seek, hfollows.closed, hopen, Bool.false_eq_true, if_false]
      exact hfollows.moveTo hopen 0 hfollows.cells key hplaced

theorem Follows.reseek (key : Cell) (hfollows : reader.Follows cursor) :
    (Source.reseek reader key).1 = (cursor.reseek key).1 ∧
      (Source.reseek reader key).2.Follows (cursor.reseek key).2 := by
  have hplaced := hfollows.placed.reseek key
  cases hopen : cursor.closed with
  | true =>
      simp only [Source.reseek, ListCursor.reseek, ListCursor.moveTo, hfollows.closed, hopen,
        if_true]
      exact ⟨trivial, hfollows⟩
  | false =>
      simp only [Source.reseek, hfollows.closed, hopen, Bool.false_eq_true, if_false]
      exact hfollows.moveTo hopen _ (hfollows.ahead hopen) key hplaced

theorem Follows.close (hfollows : reader.Follows cursor) :
    (Source.close reader).1 = cursor.close.1 ∧
      (Source.close reader).2.Follows cursor.close.2 := by
  have hplaced := hfollows.placed.close
  unfold ListCursor.close at hplaced ⊢
  simp only [Source.close, hfollows.closed]
  split at hplaced
  next hclosed =>
    rw [if_pos hclosed, if_pos hclosed]
    exact ⟨rfl, hfollows⟩
  next hopen =>
    rw [if_neg hopen, if_neg hopen]
    exact ⟨rfl, hplaced, hfollows.cells, rfl, nofun⟩

theorem keepsContract : KeepsContract Follows :=
  ⟨Follows.peek, Follows.advance, Follows.seek, Follows.reseek, Follows.close⟩

end RunReader

/-! ## Cursors on buffers -/

namespace Buffer

/-- A cell that is new to a buffer takes its place among the cells there. -/
theorem insertCell_perm {cell : Cell} {cells : List Cell}
    (hnew : ∀ other ∈ cells, Cell.compareKeys cell other ≠ .eq) :
    (insertCell cell cells).Perm (cell :: cells) := by
  induction cells with
  | nil => exact List.Perm.refl _
  | cons first rest ih =>
      obtain ⟨hfirst, hrest⟩ := List.forall_mem_cons.mp hnew
      unfold insertCell
      split
      next => exact List.Perm.refl _
      next hsame => exact absurd hsame hfirst
      next => exact ((ih hrest).cons first).trans (List.Perm.swap cell first rest)

/-- A buffer that cells at different places were written to holds these cells. -/
theorem insert_all {buffer : Buffer} {cells : List Cell}
    (hstrict : keys.StrictlySorted buffer.cells)
    (hdistinct : (buffer.cells ++ cells).Pairwise fun left right =>
      Cell.compareKeys left right ≠ .eq) :
    keys.StrictlySorted (cells.foldl insert buffer).cells ∧
      (cells.foldl insert buffer).cells.Perm (buffer.cells ++ cells) := by
  induction cells generalizing buffer with
  | nil => exact ⟨hstrict, by rw [List.append_nil]; exact List.Perm.refl _⟩
  | cons cell rest ih =>
      have hsym : ∀ {left right : Cell}, Cell.compareKeys left right ≠ .eq →
          Cell.compareKeys right left ≠ .eq := fun hne heq => hne (Std.OrientedCmp.eq_symm heq)
      have hnew : ∀ other ∈ buffer.cells, Cell.compareKeys cell other ≠ .eq := fun other hother =>
        hsym ((List.pairwise_append.mp hdistinct).2.2 other hother cell List.mem_cons_self)
      have hperm : ((buffer.insert cell).cells ++ rest).Perm (buffer.cells ++ cell :: rest) :=
        ((insertCell_perm hnew).append_right rest).trans List.perm_middle.symm
      obtain ⟨hsorted, hall⟩ := ih (insertCell_strictlySorted hstrict cell)
        (hperm.symm.pairwise hdistinct hsym)
      exact ⟨hsorted, hall.trans hperm⟩

end Buffer

namespace BufferCursor

/-- A cursor on a buffer and the cursor that says what it has to do. -/
structure Follows (source : BufferCursor) (cursor : ListCursor) : Prop where
  placed : cursor.Placed
  cells : source.buffer.cells = cursor.cells
  closed : source.closed = cursor.closed
  current : source.current = cursor.peek

variable {source : BufferCursor} {cursor : ListCursor}

theorem Follows.advance (hfollows : source.Follows cursor) :
    (Source.advance source).1 = cursor.advance.1 ∧
      (Source.advance source).2.Follows cursor.advance.2 := by
  have hplaced := hfollows.placed.advance
  have hcurrent := hfollows.current
  unfold ListCursor.peek at hcurrent
  unfold ListCursor.advance at hplaced ⊢
  simp only [Source.advance, hfollows.closed, hcurrent]
  split at hplaced
  next hclosed =>
    rw [if_pos hclosed, if_pos hclosed]
    exact ⟨rfl, hfollows⟩
  next hopen =>
    rw [if_neg hopen, if_neg hopen]
    cases hleft : cursor.ahead with
    | nil =>
        rw [hleft] at hplaced hcurrent
        exact ⟨rfl, hplaced, hfollows.cells, hfollows.closed, hcurrent⟩
    | cons cell rest =>
        obtain ⟨passed, hcells⟩ := hleft ▸ hfollows.placed.suffix
        have hstrict : keys.StrictlySorted source.buffer.cells :=
          hfollows.cells ▸ hfollows.placed.strict
        have habove := Buffer.above_eq hstrict (hfollows.cells.trans hcells.symm)
        rw [hleft] at hplaced
        exact ⟨rfl, hplaced, hfollows.cells, rfl, congrArg List.head? habove⟩

/-- Looking up the first cell from a key on puts an open cursor where it has to be. -/
theorem Follows.moveTo (hfollows : source.Follows cursor) (hopen : cursor.closed = false)
    (key : Cell) {ahead : List Cell} (hahead : ahead = keys.skipTo key cursor.cells)
    (hplaced : (cursor.moveTo ahead).2.Placed) :
    .ok (source.moveTo key).current.isSome = (cursor.moveTo ahead).1 ∧
      (source.moveTo key).Follows (cursor.moveTo ahead).2 := by
  have hcurrent : (source.moveTo key).current = ahead.head? := by
    rw [BufferCursor.moveTo, Buffer.ceiling_eq, hfollows.cells, hahead]
  rw [hcurrent]
  rw [ListCursor.moveTo_of_open hopen] at hplaced ⊢
  exact ⟨rfl, hplaced, hfollows.cells, hfollows.closed, hcurrent⟩

theorem Follows.seek (key : Cell) (hfollows : source.Follows cursor) :
    (Source.seek source key).1 = (cursor.seek key).1 ∧
      (Source.seek source key).2.Follows (cursor.seek key).2 := by
  have hplaced := hfollows.placed.seek key
  cases hopen : cursor.closed with
  | true =>
      simp only [Source.seek, ListCursor.seek, ListCursor.moveTo, hfollows.closed, hopen, if_true]
      exact ⟨trivial, hfollows⟩
  | false =>
      simp only [Source.seek, hfollows.closed, hopen, Bool.false_eq_true, if_false]
      have hahead := ListCursor.notBelow_eq hfollows.placed.strict.sorted key
      exact hfollows.moveTo hopen key hahead hplaced

/-- If the first cell ahead is below a key, what is not below it is the same among the cells
ahead and among all cells. -/
theorem skipTo_ahead (hplaced : cursor.Placed) {key first : Cell} {rest : List Cell}
    (hahead : cursor.ahead = first :: rest) (hlt : Cell.compareKeys first key = .lt) :
    keys.skipTo key cursor.ahead = keys.skipTo key cursor.cells := by
  obtain ⟨passed, hcells⟩ := hplaced.suffix
  have hstrict := hplaced.strict
  rw [← hcells] at hstrict ⊢
  rw [skipTo_append_of_lt]
  intro cell hcell
  have hbelow := (List.pairwise_append.mp hstrict).2.2 cell hcell first
    (hahead ▸ List.mem_cons_self)
  exact Std.TransCmp.lt_trans hbelow hlt

/-- A movement to where the cursor is leaves it there. -/
theorem Follows.stay (hfollows : source.Follows cursor) (hopen : cursor.closed = false) (key : Cell)
    (hstay : keys.skipTo key cursor.ahead = cursor.ahead) :
    .ok cursor.ahead.head?.isSome = (cursor.reseek key).1 ∧
      source.Follows (cursor.reseek key).2 := by
  rw [ListCursor.reseek, ListCursor.notBelow_eq hfollows.placed.sorted_ahead, hstay,
    ListCursor.moveTo_of_open hopen]
  exact ⟨rfl, hfollows⟩

theorem Follows.reseek (key : Cell) (hfollows : source.Follows cursor) :
    (Source.reseek source key).1 = (cursor.reseek key).1 ∧
      (Source.reseek source key).2.Follows (cursor.reseek key).2 := by
  have hcurrent := hfollows.current
  unfold ListCursor.peek at hcurrent
  cases hopen : cursor.closed with
  | true =>
      simp only [Source.reseek, ListCursor.reseek, ListCursor.moveTo, hfollows.closed, hopen,
        if_true]
      exact ⟨trivial, hfollows⟩
  | false =>
      simp only [Source.reseek, hfollows.closed, hopen, Bool.false_eq_true, if_false, hcurrent]
      cases hleft : cursor.ahead with
      | nil =>
          have hstay := hfollows.stay hopen key (by rw [hleft]; rfl)
          rwa [hleft] at hstay
      | cons first rest =>
          by_cases hlt : Cell.compareKeys first key = .lt
          · simp only [List.head?_cons, hlt]
            have hahead := ListCursor.notBelow_eq hfollows.placed.sorted_ahead key
            rw [skipTo_ahead hfollows.placed hleft hlt] at hahead
            exact hfollows.moveTo hopen key hahead (hfollows.placed.reseek key)
          · have hge : (Cell.compareKeys first key).isGE = true := by
              simpa [Ordering.isGE_iff_ne_lt] using hlt
            simp only [List.head?_cons, hge, if_true]
            have hstay := hfollows.stay hopen key
              (by rw [hleft]; exact skipTo_cons_of_not_lt hlt rest)
            rwa [hleft] at hstay

theorem Follows.close (hfollows : source.Follows cursor) :
    (Source.close source).1 = cursor.close.1 ∧
      (Source.close source).2.Follows cursor.close.2 := by
  have hplaced := hfollows.placed.close
  unfold ListCursor.close at hplaced ⊢
  simp only [Source.close, hfollows.closed]
  split at hplaced
  next hclosed =>
    rw [if_pos hclosed, if_pos hclosed]
    exact ⟨rfl, hfollows⟩
  next hopen =>
    rw [if_neg hopen, if_neg hopen]
    exact ⟨rfl, hplaced, hfollows.cells, rfl, rfl⟩

theorem keepsContract : KeepsContract Follows :=
  ⟨Follows.current, Follows.advance, Follows.seek, Follows.reseek, Follows.close⟩

end BufferCursor

/-! ## The cursors of the library -/

/-- A cursor on a buffer and a reader of a run over the same cells, all at different places, give
the same answers to the same calls and show the same cell after each of them. The answers are those
of the contract, under which no forward movement gives a cell back. -/
theorem cursors_keep_contract (written sorted : List Cell) (hsame : sorted.Perm written)
    (hdistinct : written.Pairwise fun left right => Cell.compareKeys left right ≠ .eq)
    (generation bufferRank runRank : Nat) (id : RunId) (calls : List CursorCall) :
    let source := (written.foldl Buffer.insert Buffer.empty).cursor generation bufferRank
    let reader := (SortedRun.ofCells id runRank sorted).reader
    let cursor := ListCursor.onto (keys.sort written)
    Cursors.answers source calls = Cursors.answers reader calls ∧
      Cursors.answers reader calls = cursor.answers calls ∧
      ∀ key, ((cursor.after calls).reseek key).2.ahead <:+ (cursor.after calls).ahead := by
  intro source reader cursor
  obtain ⟨hstrict, hperm⟩ := @Buffer.insert_all .empty _ List.Pairwise.nil hdistinct
  have hordered : keys.StrictlySorted (keys.sort written) := sort_strictlySorted hdistinct
  have hplaced : cursor.Placed := ListCursor.onto_placed hordered
  have hbuffer : source.buffer.cells = keys.sort written :=
    hstrict.eq_of_perm hordered (hperm.trans (sort_perm written).symm)
  have hrun : reader.run.toList = keys.sort written := by
    have hdistinct' := hsame.symm.pairwise hdistinct fun hne heq =>
      hne (Std.OrientedCmp.eq_symm heq)
    have hsorted : keys.StrictlySorted (keys.sort sorted) := sort_strictlySorted hdistinct'
    rw [← hsorted.eq_of_perm hordered
      ((sort_perm sorted).trans (hsame.trans (sort_perm written).symm))]
    exact SortedRun.dedupe_of_strictlySorted hsorted
  have hsource : source.Follows cursor := ⟨hplaced, hbuffer, rfl, congrArg List.head? hbuffer⟩
  have hreader : reader.Follows cursor := ⟨hplaced, hrun, rfl, fun _ => hrun⟩
  have hsource' := BufferCursor.keepsContract.answers hsource calls
  have hreader' := RunReader.keepsContract.answers hreader calls
  exact ⟨hsource'.trans hreader'.symm, hreader', fun key => (hplaced.after calls).reseek_suffix key⟩

/-- Two cells, written to a buffer in descending order. The calls go behind the cursor, past the
end and beyond the close. -/
theorem cursors_keep_contract_of_two_cells :
    let first := Cell.put [114] [102] [99] ⟨1⟩ [1]
    let last := Cell.put [115] [102] [99] ⟨1⟩ [2]
    let source := ([last, first].foldl Buffer.insert Buffer.empty).cursor 0 2
    let reader := (SortedRun.ofCells ⟨0⟩ 1 [first, last]).reader
    let calls := [.advance, .reseek first, .advance, .reseek first, .seek first, .close,
      .seek first, .peek, .close]
    ([first, last].Perm [last, first] ∧
      [last, first].Pairwise fun left right => Cell.compareKeys left right ≠ .eq) ∧
    Cursors.answers source calls = Cursors.answers reader calls ∧
      Cursors.answers reader calls =
        [.advanced (.ok (some first)) (some last), .positioned (.ok true) (some last),
          .advanced (.ok (some last)) none, .positioned (.ok false) none,
          .positioned (.ok true) (some first), .closed (.ok ()) none,
          .positioned (.error .closed) none, .cell none, .closed (.error .doubleClose) none] := by
  intro first last source reader calls
  have hsame : [first, last].Perm [last, first] := List.Perm.swap last first []
  have hdistinct : [last, first].Pairwise fun left right => Cell.compareKeys left right ≠ .eq := by
    simp only [first, last, List.pairwise_cons]
    decide
  obtain ⟨halike, hcontract, -⟩ :=
    cursors_keep_contract [last, first] [first, last] hsame hdistinct 0 2 1 ⟨0⟩ calls
  refine ⟨⟨hsame, hdistinct⟩, halike, hcontract.trans ?_⟩
  have hsort : keys.sort [last, first] = [first, last] := by cbv
  rw [hsort]
  rfl

end MergeScan
