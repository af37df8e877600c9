import MergeScan.Proofs.Merge.Entries

/-! # A merge is a sorted list

As long as its sources keep their promises, a merge goes through one sorted list:
the cells that its sources have left, where of cells at one place the one of the
freshest source comes first. Which source is current and how the others wait is
not visible in that list.
-/

namespace MergeScan

variable {σ : Type} [Source σ] {order : CellOrder}

namespace LawfulSource

variable [LawfulSource σ order]

/-- A source that keeps its promises and has its cells in order. -/
def Sound (order : CellOrder) [LawfulSource σ order] (source : σ) : Prop :=
  ∃ cells, Holds order source cells ∧ order.Sorted cells

variable {source : σ}

theorem Sound.sorted (hsound : Sound order source) : order.Sorted (Source.remaining source) := by
  obtain ⟨cells, hholds, hsorted⟩ := hsound
  exact hsorted.sublist (suffix hholds).sublist

end LawfulSource

namespace Merge

/-- The list of cells that a merge goes through. -/
def stream (merge : Merge σ) : List Cell :=
  merge.order.merged merge.parts

/-- The number of cells is the length of the list. -/
theorem cellCount_eq (merge : Merge σ) : merge.cellCount = merge.stream.length := by
  rw [stream, CellOrder.length_merged, cellCount, parts, List.flatMap_map]
  rfl

variable [LawfulSource σ order]

/-- What holds of the entries of a merge, whichever of them is current. -/
structure Gathered (order : CellOrder) [LawfulSource σ order] (merge : Merge σ) : Prop where
  sameOrder : merge.order = order
  sound entry : entry ∈ merge.entries → LawfulSource.Sound order entry.source
  top entry : entry ∈ merge.entries → Source.peek entry.source = some entry.top
  distinct : Part.Distinct merge.parts
  heap : PriorityQueue.IsHeap (MergeEntry.le order) merge.waiting.slots

/-- A merge in order: no entry comes before the current one. -/
structure Sound (order : CellOrder) [LawfulSource σ order] (merge : Merge σ) : Prop
    extends Gathered order merge where
  first entry : merge.current = some entry →
    ∀ other ∈ merge.waiting.toList, MergeEntry.le order other entry = true
  idle : merge.current = none → merge.waiting.toList = []

variable {merge : Merge σ} {source : σ}

theorem Gathered.tidy (hmerge : Gathered order merge) :
    Tidy order (fun _ => order.Sorted) merge :=
  ⟨hmerge.sameOrder, hmerge.sound, hmerge.top, hmerge.heap⟩

theorem Sound.led (hmerge : Sound order merge) : Led order (fun _ => order.Sorted) merge :=
  ⟨hmerge.tidy, hmerge.first, hmerge.idle⟩

theorem Led.sound (hmerge : Led order (fun _ => order.Sorted) merge)
    (hdistinct : Part.Distinct merge.parts) : Sound order merge :=
  ⟨⟨hmerge.sameOrder, hmerge.held, hmerge.top, hdistinct, hmerge.heap⟩, hmerge.first,
    hmerge.idle⟩

omit [LawfulSource σ order] in
/-- Parts without cells can be left out of the list. -/
theorem stream_of_parts (horder : merge.order = order) {parts : List Part}
    (hdistinct : Part.Distinct parts) (hparts : merge.parts.Perm (Part.stocked parts)) :
    merge.stream = order.merged parts := by
  rw [stream, horder, CellOrder.merged_perm ((hdistinct.stocked).perm hparts.symm) hparts,
    CellOrder.merged_stocked hdistinct]

theorem Gathered.sorted_parts (hmerge : Gathered order merge) :
    ∀ part ∈ merge.parts, order.Sorted part.cells := by
  intro part hpart
  obtain ⟨entry, hentry, rfl⟩ := List.mem_map.mp hpart
  exact (hmerge.sound entry hentry).sorted

theorem Gathered.rank_ne (hmerge : Gathered order merge) {entry : MergeEntry σ}
    (hcurrent : merge.current = some entry) :
    ∀ part ∈ merge.waiting.toList.map (fun other => Source.part other.source),
      part.rank ≠ Source.sequenceId entry.source := by
  have hdistinct := hmerge.distinct
  rw [parts, entries_of_current hcurrent] at hdistinct
  intro part hpart
  exact ((List.pairwise_cons.mp hdistinct).1 part hpart).symm

theorem Sound.stream_eq_nil (hmerge : Sound order merge) (hidle : merge.current = none) :
    merge.stream = [] := by
  rw [stream, parts, entries_of_idle hidle, hmerge.idle hidle, List.map_nil]
  exact CellOrder.merged_nil merge.order

variable [Std.TransCmp order.compare]

theorem Sound.sorted_stream (hmerge : Sound order merge) : order.Sorted merge.stream := by
  rw [stream, hmerge.sameOrder]
  exact CellOrder.merged_sorted merge.parts

/-- No cell of the other entries comes before the one of the current entry. -/
theorem Sound.le_of_mem (hmerge : Sound order merge) {entry other : MergeEntry σ}
    (hcurrent : merge.current = some entry) (hother : other ∈ merge.waiting.toList) {cell : Cell}
    (hcell : cell ∈ Source.remaining other.source) :
    order.compare entry.top cell = .lt ∨ order.compare entry.top cell = .eq ∧
      Source.sequenceId other.source < Source.sequenceId entry.source := by
  have hmem : other ∈ merge.entries := by
    rw [entries_of_current hcurrent]
    exact List.mem_cons_of_mem _ hother
  have hle : (order.compare other.top cell).isLE = true := by
    have hsorted := (hmerge.sound other hmem).sorted
    rw [hmerge.tidy.remaining_eq hmem] at hsorted hcell
    rcases List.mem_cons.mp hcell with rfl | htail
    · exact Std.ReflCmp.isLE_rfl
    · exact (List.pairwise_cons.mp hsorted).1 cell htail
  rcases MergeEntry.le_iff.mp (hmerge.first entry hcurrent other hother) with hlt | ⟨heq, hrank⟩
  · exact .inl (Std.TransCmp.lt_of_lt_of_isLE hlt hle)
  · have hne := hmerge.rank_ne hcurrent (Source.part other.source) (List.mem_map_of_mem hother)
    rw [Std.TransCmp.congr_left heq]
    have hlt := Nat.lt_of_le_of_ne hrank hne
    cases hcompare : order.compare other.top cell with
    | lt => exact .inl rfl
    | eq => exact .inr ⟨rfl, hlt⟩
    | gt => rw [hcompare] at hle; cases hle

/-- The list of a merge starts with the cell of its current entry. -/
theorem Sound.stream_eq (hmerge : Sound order merge) {entry : MergeEntry σ}
    (hcurrent : merge.current = some entry) :
    merge.stream = entry.top ::
      order.merged (⟨Source.sequenceId entry.source, (Source.remaining entry.source).tail⟩ ::
        merge.waiting.toList.map fun other => Source.part other.source) := by
  have hmem : entry ∈ merge.entries := by
    rw [entries_of_current hcurrent]
    exact List.mem_cons_self
  have hdistinct := hmerge.distinct
  have hremaining := hmerge.tidy.remaining_eq hmem
  have hsorted := (hmerge.sound entry hmem).sorted
  rw [parts, entries_of_current hcurrent] at hdistinct
  rw [stream, hmerge.sameOrder, parts, entries_of_current hcurrent, List.map_cons, Source.part,
    hremaining]
  rw [hremaining] at hsorted
  apply CellOrder.merged_cons_cons (List.pairwise_cons.mp hdistinct).2 (hmerge.rank_ne hcurrent)
    (List.pairwise_cons.mp hsorted).1
  intro part hpart cell hcell
  obtain ⟨other, hother, rfl⟩ := List.mem_map.mp hpart
  exact hmerge.le_of_mem hcurrent hother hcell

theorem Sound.peek_eq (hmerge : Sound order merge) : merge.peek = merge.stream.head? := by
  unfold peek
  cases hcurrent : merge.current with
  | none => rw [hmerge.stream_eq_nil hcurrent]; rfl
  | some entry => rw [hmerge.stream_eq hcurrent]; rfl

end Merge

end MergeScan
