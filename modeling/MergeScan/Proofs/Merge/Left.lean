import MergeScan.Proofs.Merge.Steps

/-! # What is left of a merge

The cells that the sources of a merge have left, in no order: each step leaves some of those
that there were, and the cell on top is not among them if the step goes behind it. The cell
on top is the first one of all if every source is in order.
-/

namespace MergeScan

namespace Part

variable {order : CellOrder} {key : Cell}

/-- To skip to a key takes a cell from a part that begins below it. -/
theorem length_skipTo_lt {parts : List Part} {part : Part} (hpart : part ∈ parts) {cell : Cell}
    (hcell : part.cells.head? = some cell) (hlt : order.compare cell key = .lt) :
    ((parts.map (skipTo order key)).flatMap cells).length < (parts.flatMap cells).length := by
  have hshorter : ∀ part : Part, (part.skipTo order key).cells.length ≤ part.cells.length :=
    fun part => CellOrder.skipTo_length_le key part.cells
  have hall : ∀ parts : List Part, ((parts.map (skipTo order key)).flatMap cells).length ≤
      (parts.flatMap cells).length := by
    intro parts
    induction parts with
    | nil => exact Nat.le_refl _
    | cons first rest ih =>
        simp only [List.map_cons, List.flatMap_cons, List.length_append]
        exact Nat.add_le_add (hshorter first) ih
  obtain ⟨before, after, rfl⟩ := List.append_of_mem hpart
  obtain ⟨rest, hrest⟩ := List.head?_eq_some_iff.mp hcell
  have hfewer : (part.skipTo order key).cells.length < part.cells.length := by
    rw [skipTo, hrest, CellOrder.skipTo_cons_of_lt hlt]
    exact Nat.lt_succ_of_le (CellOrder.skipTo_length_le key rest)
  have hbefore := hall before
  have hafter := hall after
  simp only [List.map_append, List.map_cons, List.flatMap_append, List.flatMap_cons,
    List.length_append]
  omega

/-- A cell is left in parts that skip to a key if it was there and is not below the key. -/
theorem exists_mem_skipTo [Std.TransCmp order.compare] {parts : List Part} {cell : Cell}
    (hsorted : ∀ part ∈ parts, order.Sorted part.cells) :
    (∃ part ∈ parts.map (skipTo order key), cell ∈ part.cells) ↔
      (∃ part ∈ parts, cell ∈ part.cells) ∧ order.compare cell key ≠ .lt := by
  constructor
  · rintro ⟨_, hmoved, hcell⟩
    obtain ⟨part, hpart, rfl⟩ := List.mem_map.mp hmoved
    obtain ⟨hmem, hge⟩ := (CellOrder.mem_skipTo (hsorted part hpart)).mp hcell
    exact ⟨⟨part, hpart, hmem⟩, hge⟩
  · rintro ⟨⟨part, hpart, hmem⟩, hge⟩
    exact ⟨_, List.mem_map_of_mem hpart,
      (CellOrder.mem_skipTo (hsorted part hpart)).mpr ⟨hmem, hge⟩⟩

end Part

namespace Merge

variable {σ : Type} [Source σ] {merge after : Merge σ} {cell top key : Cell}

/-- Whether a source of a merge has a cell left. -/
def Has (merge : Merge σ) (cell : Cell) : Prop :=
  ∃ part ∈ merge.parts, cell ∈ part.cells

theorem has_of_parts {parts : List Part} (hparts : after.parts.Perm (Part.stocked parts)) :
    after.Has cell ↔ ∃ part ∈ parts, cell ∈ part.cells := by
  unfold Has
  constructor
  · rintro ⟨part, hpart, hcell⟩
    exact ⟨part, (Part.mem_stocked.mp (hparts.mem_iff.mp hpart)).1, hcell⟩
  · rintro ⟨part, hpart, hcell⟩
    exact ⟨part, hparts.mem_iff.mpr (Part.mem_stocked.mpr ⟨hpart, List.ne_nil_of_mem hcell⟩), hcell⟩

theorem cellCount_eq_parts (merge : Merge σ) :
    merge.cellCount = (merge.parts.flatMap Part.cells).length := by
  rw [cellCount, parts, List.flatMap_map]
  rfl

theorem cellCount_of_parts {other : Merge σ} {parts : List Part}
    (hparts : other.parts.Perm (Part.stocked parts)) :
    other.cellCount = (parts.flatMap Part.cells).length := by
  rw [cellCount_eq_parts, (hparts.flatMap_right _).length_eq, Part.flatMap_stocked]

variable {order : CellOrder} [LawfulSource σ order] {admits : Nat → List Cell → Prop}

/-- The cell on top is the first one of the current source. -/
theorem Tidy.current_part (hmerge : Tidy order admits merge) {cell : Cell}
    (hpeek : merge.peek = some cell) : ∃ entry, merge.current = some entry ∧
      Source.part entry.source ∈ merge.parts ∧
      Source.remaining entry.source = cell :: (Source.remaining entry.source).tail := by
  obtain ⟨entry, hcurrent, rfl⟩ := Option.map_eq_some_iff.mp hpeek
  have hentry := mem_entries_of_current hcurrent
  exact ⟨entry, hcurrent, List.mem_map_of_mem hentry, hmerge.remaining_eq hentry⟩

/-- The cells of a merge are admitted ones of its sources. -/
theorem Tidy.exists_admitted (hmerge : Tidy order admits merge) {part : Part}
    (hpart : part ∈ merge.parts) : ∃ cells, admits part.rank cells ∧ part.cells <:+ cells := by
  obtain ⟨entry, hentry, rfl⟩ := List.mem_map.mp hpart
  obtain ⟨cells, hholds, hadmits⟩ := hmerge.held entry hentry
  exact ⟨cells, hadmits, LawfulSource.suffix hholds⟩

theorem Tidy.has_peek (hmerge : Tidy order admits merge) (hpeek : merge.peek = some top) :
    merge.Has top := by
  obtain ⟨entry, -, hpart, hremaining⟩ := hmerge.current_part hpeek
  refine ⟨_, hpart, ?_⟩
  rw [Source.part, hremaining]
  exact List.mem_cons_self

/-- The cells that are left are admitted ones. -/
theorem Tidy.admitted_of_has (hmerge : Tidy order admits merge) (hcell : merge.Has cell) :
    ∃ rank cells, admits rank cells ∧ cell ∈ cells := by
  obtain ⟨part, hpart, hcell⟩ := hcell
  obtain ⟨cells, hadmits, hsuffix⟩ := hmerge.exists_admitted hpart
  exact ⟨part.rank, cells, hadmits, hsuffix.subset hcell⟩

/-- To take the cell on top leaves one cell less. -/
theorem Tidy.length_advanced_lt (hmerge : Tidy order admits merge) {cell : Cell}
    (hpeek : merge.peek = some cell) :
    (merge.advanced.flatMap Part.cells).length < merge.cellCount := by
  obtain ⟨entry, hcurrent, -, hremaining⟩ := hmerge.current_part hpeek
  rw [cellCount_eq_parts, parts, entries_of_current hcurrent, advanced, hcurrent]
  simp only [List.map_cons, List.flatMap_cons, List.length_append, Source.part]
  rw [hremaining, List.length_cons, List.tail_cons]
  omega

/-- To move to a key after the cell on top leaves fewer cells. -/
theorem Tidy.length_skipTo_lt (hmerge : Tidy order admits merge) {cell key : Cell}
    (hpeek : merge.peek = some cell) (hlt : order.compare cell key = .lt) :
    ((merge.parts.map (Part.skipTo order key)).flatMap Part.cells).length < merge.cellCount := by
  obtain ⟨entry, -, hpart, hremaining⟩ := hmerge.current_part hpeek
  rw [cellCount_eq_parts]
  apply Part.length_skipTo_lt hpart _ hlt
  rw [Source.part, hremaining]
  rfl

/-- Of the cells that are left, an advance takes the one on top. -/
theorem Tidy.has_advanced (hmerge : Tidy order admits merge) (hpeek : merge.peek = some top)
    (hparts : after.parts.Perm (Part.stocked merge.advanced)) :
    (after.Has cell → merge.Has cell) ∧ (merge.Has cell → cell = top ∨ after.Has cell) := by
  obtain ⟨entry, hcurrent, -, hremaining⟩ := hmerge.current_part hpeek
  rw [has_of_parts hparts, Has, parts, entries_of_current hcurrent, advanced, hcurrent]
  simp only [List.map_cons, List.mem_cons, or_and_right, exists_or, exists_eq_left, Source.part]
  rw [hremaining, List.tail_cons, List.mem_cons]
  constructor
  · rintro (hmem | hmem)
    · exact .inl (.inr hmem)
    · exact .inr hmem
  · rintro ((rfl | hmem) | hmem)
    · exact .inl rfl
    · exact .inr (.inl hmem)
    · exact .inr (.inr hmem)

variable [Std.TransCmp order.compare]
variable (hsorted : ∀ rank cells, admits rank cells → order.Sorted cells)
include hsorted

omit [Std.TransCmp order.compare] in
theorem Tidy.sorted_of_mem (hmerge : Tidy order admits merge) {part : Part}
    (hpart : part ∈ merge.parts) : order.Sorted part.cells := by
  obtain ⟨cells, hadmits, hsuffix⟩ := hmerge.exists_admitted hpart
  exact (hsorted part.rank cells hadmits).sublist hsuffix.sublist

/-- Of the cells that are left, a movement to a key takes those below it. -/
theorem Tidy.has_skipTo (hmerge : Tidy order admits merge)
    (hparts : after.parts.Perm (Part.stocked (merge.parts.map (Part.skipTo order key)))) :
    after.Has cell ↔ merge.Has cell ∧ order.compare cell key ≠ .lt := by
  rw [has_of_parts hparts, Part.exists_mem_skipTo fun _ => hmerge.sorted_of_mem hsorted]
  rfl

/-- No cell that is left comes before the one on top. -/
theorem Led.le_of_has (hmerge : Led order admits merge) (hpeek : merge.peek = some top)
    (hcell : merge.Has cell) : (order.compare top cell).isLE = true := by
  obtain ⟨part, hpart, hcell⟩ := hcell
  obtain ⟨entry, hcurrent, rfl⟩ := Option.map_eq_some_iff.mp hpeek
  have hpartSorted := hmerge.sorted_of_mem hsorted hpart
  obtain ⟨other, hother, rfl⟩ := List.mem_map.mp hpart
  have hle := MergeEntry.isLE_of_le (hmerge.le_of_mem hcurrent hother)
  -- the other source leads with its own first cell
  have hcell : cell ∈ Source.remaining other.source := hcell
  have hpartSorted : order.Sorted (Source.remaining other.source) := hpartSorted
  rw [hmerge.remaining_eq hother] at hcell hpartSorted
  rcases List.mem_cons.mp hcell with rfl | htail
  · exact hle
  · exact Std.TransCmp.isLE_trans hle ((List.pairwise_cons.mp hpartSorted).1 cell htail)

end Merge

end MergeScan
