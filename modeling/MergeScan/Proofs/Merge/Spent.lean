import MergeScan.Proofs.Merge.Left

/-! # Sources that ran dry

A merge lets go of a source when it has no cell left, and of no other one. Whichever way it was
moved, nothing that is left in it comes before a cell of a source that it has let go of.
-/

namespace MergeScan.Merge

variable {σ : Type} [Source σ] {merge before middle after : Merge σ} {order : CellOrder}
variable {part : Part} {cells : List Cell} {key top : Cell} {rank : Nat}

/-- Whether the source of a rank is one that is merged. -/
def Keeps (merge : Merge σ) (rank : Nat) : Prop :=
  ∃ part ∈ merge.parts, part.rank = rank

/-- Whether nothing that is left comes before one of these cells. -/
def IsPast (order : CellOrder) (merge : Merge σ) (cells : List Cell) : Prop :=
  ∀ cell ∈ cells, ∀ left, merge.Has left → (order.compare cell left).isLE = true

/-- Whether a source with these cells is merged, or the merge is past all of them. -/
def AccountsFor (order : CellOrder) (merge : Merge σ) (part : Part) : Prop :=
  merge.Keeps part.rank ∨ merge.IsPast order part.cells

theorem IsPast.mono (hpast : before.IsPast order cells)
    (hleft : ∀ cell, after.Has cell → before.Has cell) : after.IsPast order cells :=
  fun cell hcell left hhas => hpast cell hcell left (hleft left hhas)

theorem keeps_of_parts {parts : List Part} (hparts : after.parts.Perm (Part.stocked parts))
    (hpart : part ∈ parts) (hcells : part.cells ≠ []) (hrank : part.rank = rank) :
    after.Keeps rank :=
  ⟨part, hparts.mem_iff.mpr (Part.mem_stocked.mpr ⟨hpart, hcells⟩), hrank⟩

variable [Std.TransCmp order.compare]

/-- What is past the last cells of a sorted list is past all of it. -/
theorem IsPast.of_suffix (hpast : merge.IsPast order cells) {held : List Cell}
    (hsuffix : cells <:+ held) (hcells : cells ≠ []) (hsorted : order.Sorted held) :
    merge.IsPast order held := by
  intro cell hcell left hleft
  obtain ⟨gone, rfl⟩ := hsuffix
  rcases List.mem_append.mp hcell with hgone | hcell
  · obtain ⟨next, hnext⟩ := List.exists_mem_of_ne_nil cells hcells
    exact Std.TransCmp.isLE_trans ((List.pairwise_append.mp hsorted).2.2 cell hgone next hnext)
      (hpast next hnext left hleft)
  · exact hpast cell hcell left hleft

/-- A merge that has skipped to a key in sorted parts keeps them as long as they have cells from
there on, and is past the others. -/
theorem accountsFor_of_skipTo {parts : List Part}
    (hsorted : ∀ part ∈ parts, order.Sorted part.cells)
    (hparts : after.parts.Perm (Part.stocked (parts.map (Part.skipTo order key))))
    (hpart : part ∈ parts) : after.AccountsFor order part := by
  by_cases hcells : (part.skipTo order key).cells = []
  · refine .inr fun cell hcell left hleft => ?_
    have hbelow : order.compare cell key = .lt := by
      refine Decidable.byContradiction fun hge => ?_
      have hmem := (CellOrder.mem_skipTo (hsorted part hpart)).mpr ⟨hcell, hge⟩
      exact List.ne_nil_of_mem hmem hcells
    obtain ⟨_, hmoved, hleft⟩ := (has_of_parts hparts).mp hleft
    obtain ⟨other, hother, rfl⟩ := List.mem_map.mp hmoved
    have hfrom := CellOrder.le_of_mem_skipTo (hsorted other hother) hleft
    exact Std.TransCmp.isLE_trans (Ordering.isLE_iff_eq_lt_or_eq_eq.mpr (.inl hbelow)) hfrom
  · exact .inl (keeps_of_parts hparts (List.mem_map_of_mem hpart) hcells rfl)

variable {held : Nat → List Cell}

/-- To seek is to let go of the sources that have nothing from the key on. -/
theorem accountsFor_of_seek (hsorted : ∀ part ∈ merge.parts, order.Sorted (held part.rank))
    (hparts : after.parts.Perm (Part.stocked (merge.parts.map (seekPart order held key))))
    (hkeeps : merge.Keeps rank) : after.AccountsFor order ⟨rank, held rank⟩ := by
  obtain ⟨part, hpart, rfl⟩ := hkeeps
  -- to seek is to skip in all that the sources hold, wherever they stand
  let whole (part : Part) : Part := ⟨part.rank, held part.rank⟩
  have hmoved : merge.parts.map (seekPart order held key) =
      (merge.parts.map whole).map (Part.skipTo order key) := by
    rw [List.map_map]
    rfl
  have hwhole : ∀ other ∈ merge.parts.map whole, order.Sorted other.cells := by
    intro _ hmem
    obtain ⟨other, hother, rfl⟩ := List.mem_map.mp hmem
    exact hsorted other hother
  have hmem : whole part ∈ merge.parts.map whole := List.mem_map_of_mem hpart
  exact accountsFor_of_skipTo hwhole (hmoved ▸ hparts) hmem

/-! ## Going on -/

/-- A merge that has gone on: it has no cell that it did not have, and is past all cells of each
source that it has let go of. `held` are the cells of the source of each rank. -/
structure GoneOn (order : CellOrder) (held : Nat → List Cell) (before after : Merge σ) : Prop where
  left cell : after.Has cell → before.Has cell
  sources rank : before.Keeps rank → after.AccountsFor order ⟨rank, held rank⟩

omit [Std.TransCmp order.compare] in
theorem GoneOn.refl (merge : Merge σ) : GoneOn order held merge merge :=
  ⟨fun _ => id, fun _ => .inl⟩

omit [Std.TransCmp order.compare] in
theorem GoneOn.accountsFor (hgone : GoneOn order held before after)
    (hheld : held part.rank = part.cells) (hbefore : before.AccountsFor order part) :
    after.AccountsFor order part := by
  rcases hbefore with hkeeps | hpast
  · have hafter := hgone.sources part.rank hkeeps
    rwa [hheld] at hafter
  · exact .inr (hpast.mono hgone.left)

omit [Std.TransCmp order.compare] in
theorem GoneOn.trans (hfirst : GoneOn order held before middle)
    (hsecond : GoneOn order held middle after) : GoneOn order held before after where
  left cell hcell := hfirst.left cell (hsecond.left cell hcell)
  sources rank hkeeps := hsecond.accountsFor rfl (hfirst.sources rank hkeeps)

variable [LawfulSource σ order] {admits : Nat → List Cell → Prop}
variable (hadmits : ∀ rank cells, admits rank cells → cells = held rank ∧ order.Sorted cells)
include hadmits

/-- A merge is past all cells of a source if it is past those that the source had left. -/
theorem Tidy.isPast_held (hmerge : Tidy order admits merge) (hpart : part ∈ merge.parts)
    (hpast : after.IsPast order part.cells) : after.IsPast order (held part.rank) := by
  obtain ⟨cells, hadmitted, hsuffix⟩ := hmerge.exists_admitted hpart
  obtain ⟨rfl, hsorted⟩ := hadmits _ _ hadmitted
  have hcells : part.cells ≠ [] :=
    (Part.mem_stocked.mp (hmerge.stocked_parts.symm ▸ hpart)).2
  exact hpast.of_suffix hsuffix hcells hsorted

/-- To take the cell on top is to go on. -/
theorem Led.goneOn_advanced (hmerge : Led order admits merge) (hpeek : merge.peek = some top)
    (hparts : after.parts.Perm (Part.stocked merge.advanced)) :
    GoneOn order held merge after where
  left _ := (hmerge.has_advanced hpeek hparts).1
  sources := by
    rintro _ ⟨part, hpart, rfl⟩
    have hleft (cell : Cell) : after.Has cell → merge.Has cell :=
      (hmerge.has_advanced hpeek hparts).1
    obtain ⟨entry, hcurrent, -, hremaining⟩ := hmerge.current_part hpeek
    have hcells : part.cells ≠ [] :=
      (Part.mem_stocked.mp (hmerge.stocked_parts.symm ▸ hpart)).2
    have hmem := hpart
    rw [parts, entries_of_current hcurrent, List.map_cons] at hmem
    rw [advanced, hcurrent] at hparts
    rcases List.mem_cons.mp hmem with rfl | hwaits
    · by_cases hlast : (Source.remaining entry.source).tail = []
      · -- the source gave its last cell, and nothing that is left comes before that
        refine .inr (hmerge.isPast_held hadmits hpart ?_)
        rw [Source.part, hremaining, hlast]
        intro cell hcell left hhas
        obtain rfl := List.mem_singleton.mp hcell
        exact hmerge.le_of_has (fun rank cells hall => (hadmits rank cells hall).2) hpeek
          (hleft left hhas)
      · exact .inl (keeps_of_parts hparts List.mem_cons_self hlast rfl)
    · exact .inl (keeps_of_parts hparts (List.mem_cons_of_mem _ hwaits) hcells rfl)

/-- To move forward to a key is to go on. -/
theorem Led.goneOn_skipTo (hmerge : Led order admits merge)
    (hparts : after.parts.Perm (Part.stocked (merge.parts.map (Part.skipTo order key)))) :
    GoneOn order held merge after := by
  have hsorted : ∀ rank cells, admits rank cells → order.Sorted cells :=
    fun rank cells hall => (hadmits rank cells hall).2
  refine ⟨fun cell hcell => ((hmerge.has_skipTo hsorted hparts).mp hcell).1, ?_⟩
  rintro _ ⟨part, hpart, rfl⟩
  have hmoved := accountsFor_of_skipTo (fun _ => hmerge.sorted_of_mem hsorted) hparts hpart
  exact hmoved.imp_right (hmerge.isPast_held hadmits hpart)

end MergeScan.Merge
