import MergeScan.Proofs.Source.Distinct

/-! # The freshest cells

Where fresher cells come first in a list, the first cell at each place is the one that
counts. Putting fresher or older cells next to some others can only hide cells at the
same places.
-/

namespace MergeScan

open CellOrder

namespace CellOrder

/-- Sorted lists without copies are equal if they have the same cells. -/
theorem StrictlySorted.eq_of_mem_iff {left right : List Cell} (hleft : keys.StrictlySorted left)
    (hright : keys.StrictlySorted right) (hmem : ∀ cell, cell ∈ left ↔ cell ∈ right) :
    left = right := by
  have hperm : left.Perm right := by
    apply (List.perm_ext_iff_of_nodup _ _).mpr hmem
    · exact hleft.imp fun hlt heq => by simp [heq, Std.ReflCmp.compare_self] at hlt
    · exact hright.imp fun hlt heq => by simp [heq, Std.ReflCmp.compare_self] at hlt
  apply hperm.eq_of_pairwise _ hleft hright
  intro first second _ _ hlt hgt
  exact absurd (Std.OrientedCmp.gt_of_lt hlt) (by rw [hgt]; nofun)

/-- Sorting keeps the cells at some places only as they are. -/
theorem sort_filter (kept : Cell → Bool) (cells : List Cell) :
    keys.sort (cells.filter kept) = (keys.sort cells).filter kept := by
  have hcopies (place : Cell) (cells : List Cell) :
      keys.copies place (cells.filter kept) = (keys.copies place cells).filter kept := by
    rw [copies, copies, List.filter_filter, List.filter_filter]
    exact List.filter_congr fun cell _ => Bool.and_comm _ _
  apply sort_eq_of_copies ((sort_sorted cells).sublist List.filter_sublist)
  intro place
  rw [hcopies, hcopies, copies_sort]

/-- Cells at one place have the same copies. -/
theorem copies_congr {first second : Cell} (hsame : Cell.compareKeys first second = .eq)
    (cells : List Cell) : keys.copies first cells = keys.copies second cells :=
  List.filter_congr fun cell _ => by
    have heq : Cell.compareKeys cell first = Cell.compareKeys cell second :=
      Std.TransCmp.congr_right hsame
    exact congrArg (fun ordering => decide (ordering = .eq)) heq

/-- A list without copies is no longer than a list that has copies of all its cells. -/
theorem StrictlySorted.length_le {left right : List Cell} (hleft : keys.StrictlySorted left)
    (hcopies : ∀ cell ∈ left, ∃ copy ∈ right, Cell.compareKeys copy cell = .eq) :
    left.length ≤ right.length := by
  induction left generalizing right with
  | nil => exact Nat.zero_le _
  | cons first rest ih =>
      obtain ⟨hfirst, hrest⟩ := List.pairwise_cons.mp hleft
      obtain ⟨copy, hcopy, hsame⟩ := hcopies first List.mem_cons_self
      -- the others have their copies among what is not a copy of the first
      have hothers : rest.length ≤
          (right.filter fun cell => Cell.compareKeys cell first ≠ .eq).length := by
        apply ih hrest
        intro cell hcell
        obtain ⟨other, hother, heq⟩ := hcopies cell (List.mem_cons_of_mem _ hcell)
        refine ⟨other, List.mem_filter.mpr ⟨hother, ?_⟩, heq⟩
        have hlt : Cell.compareKeys cell first = .gt := Std.OrientedCmp.gt_of_lt (hfirst cell hcell)
        simp [Std.TransCmp.congr_left heq, hlt]
      have hshorter : (right.filter fun cell => Cell.compareKeys cell first ≠ .eq).length <
          right.length :=
        List.length_filter_lt_length_iff_exists.mpr ⟨copy, hcopy, by simp [hsame]⟩
      rw [List.length_cons]
      omega

/-- Of a list without copies no more cells are of some kind than in a list that has copies of
all of them. -/
theorem StrictlySorted.countP_le {left right : List Cell} (hleft : keys.StrictlySorted left)
    {chosen among : Cell → Bool} (hcopies : ∀ cell ∈ left, chosen cell = true →
      ∃ copy ∈ right, Cell.compareKeys copy cell = .eq ∧ among copy = true) :
    left.countP chosen ≤ right.countP among := by
  have hsorted : keys.StrictlySorted (left.filter chosen) := hleft.filter _
  rw [List.countP_eq_length_filter, List.countP_eq_length_filter]
  apply hsorted.length_le
  intro cell hcell
  obtain ⟨hmem, hchosen⟩ := List.mem_filter.mp hcell
  obtain ⟨copy, hcopy, hsame, hamong⟩ := hcopies cell hmem hchosen
  exact ⟨copy, List.mem_filter.mpr ⟨hcopy, hamong⟩, hsame⟩

end CellOrder

namespace Cell

variable {cell : Cell} {cells fresher older : List Cell}

/-- The cells that count of a list in which fresher ones come first. -/
def freshest (cells : List Cell) : List Cell :=
  SortedRun.dedupe (keys.sort cells)

theorem freshest_strictlySorted (cells : List Cell) : keys.StrictlySorted (freshest cells) :=
  SortedRun.dedupe_strictlySorted (sort_sorted cells)

theorem freshest_of_strictlySorted (hcells : keys.StrictlySorted cells) :
    freshest cells = cells := by
  rw [freshest, sort_of_sorted hcells.sorted, SortedRun.dedupe_of_strictlySorted hcells]

/-- A cell counts if it is the first one at its place. -/
theorem mem_freshest : cell ∈ freshest cells ↔ (keys.copies cell cells).head? = some cell := by
  rw [freshest, SortedRun.mem_dedupe (sort_sorted cells), copies_sort]

theorem mem_of_mem_freshest (hcell : cell ∈ freshest cells) : cell ∈ cells :=
  (mem_copies.mp (List.mem_of_head? (mem_freshest.mp hcell))).1

/-- At the place of each cell one counts. -/
theorem exists_freshest (hcell : cell ∈ cells) :
    ∃ copy ∈ freshest cells, compareKeys copy cell = .eq := by
  have hcopies : keys.copies cell cells ≠ [] :=
    List.ne_nil_of_mem (mem_copies.mpr ⟨hcell, Std.ReflCmp.compare_self⟩)
  obtain ⟨copy, rest, hlist⟩ := List.exists_cons_of_ne_nil hcopies
  have hcopy : copy ∈ keys.copies cell cells := hlist ▸ List.mem_cons_self
  have hsame : compareKeys copy cell = .eq := (mem_copies.mp hcopy).2
  refine ⟨copy, mem_freshest.mpr ?_, hsame⟩
  rw [copies_congr hsame, hlist, List.head?_cons]

/-- An older cell counts if no fresher one is at its place. -/
theorem mem_freshest_append : cell ∈ freshest (fresher ++ older) ↔ cell ∈ freshest fresher ∨
    (∀ copy ∈ fresher, compareKeys copy cell ≠ .eq) ∧ cell ∈ freshest older := by
  rw [mem_freshest, mem_freshest, mem_freshest, copies_append]
  cases hcopies : keys.copies cell fresher with
  | nil =>
      have hnone : ∀ copy ∈ fresher, compareKeys copy cell ≠ .eq := by
        intro copy hcopy hsame
        have hmem : copy ∈ keys.copies cell fresher := mem_copies.mpr ⟨hcopy, hsame⟩
        rw [hcopies] at hmem
        cases hmem
      simp [and_iff_right hnone]
  | cons first rest =>
      obtain ⟨hmem, hsame⟩ := mem_copies.mp (hcopies ▸ List.mem_cons_self : first ∈ _)
      have hnot : ¬∀ copy ∈ fresher, compareKeys copy cell ≠ .eq := fun hnone =>
        hnone first hmem hsame
      simp [hnot]

end Cell

end MergeScan
