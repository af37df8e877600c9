import MergeScan.Proofs.Cell.Sorted
import MergeScan.Source.Run

/-! # One cell for each place

Of a sorted list, only the first of the cells at each place is kept. The result
ascends strictly and has the same places, and cutting the list off below a key
before or afterwards makes no difference.
-/

namespace MergeScan.SortedRun

open CellOrder

theorem dropRepeats_sublist (kept : Cell) (cells : List Cell) :
    (dropRepeats kept cells).Sublist cells := by
  induction cells generalizing kept with
  | nil => exact List.Sublist.slnil
  | cons cell rest ih =>
      unfold dropRepeats
      split
      · exact (ih kept).cons cell
      · exact (ih cell).cons_cons cell

theorem dedupe_sublist (cells : List Cell) : (dedupe cells).Sublist cells := by
  cases cells with
  | nil => exact List.Sublist.slnil
  | cons cell rest => exact (dropRepeats_sublist cell rest).cons_cons cell

/-- Cells at the place of the kept one are dropped as long as they follow it directly. -/
theorem dropRepeats_append {kept : Cell} {repeats : List Cell}
    (hrepeats : ∀ cell ∈ repeats, Cell.compareKeys cell kept = .eq) (cells : List Cell) :
    dropRepeats kept (repeats ++ cells) = dropRepeats kept cells := by
  induction repeats with
  | nil => rfl
  | cons cell rest ih =>
      rw [List.cons_append, dropRepeats, hrepeats cell List.mem_cons_self]
      exact ih fun other hother => hrepeats other (List.mem_cons_of_mem _ hother)

theorem dropRepeats_eq_dedupe {kept : Cell} {cells : List Cell}
    (hcells : ∀ cell ∈ cells, Cell.compareKeys kept cell = .lt) :
    dropRepeats kept cells = dedupe cells := by
  cases cells with
  | nil => rfl
  | cons cell rest =>
      rw [dropRepeats, Std.OrientedCmp.gt_of_lt (hcells cell List.mem_cons_self), dedupe]

/-- A sorted list begins with the cells at the place of its first one. -/
theorem exists_repeats {cell : Cell} {cells : List Cell} (hcells : keys.Sorted (cell :: cells)) :
    ∃ repeats rest, cells = repeats ++ rest ∧
      (∀ other ∈ repeats, Cell.compareKeys other cell = .eq) ∧
      ∀ other ∈ rest, Cell.compareKeys cell other = .lt := by
  obtain ⟨hcell, hrest⟩ := List.pairwise_cons.mp hcells
  induction cells with
  | nil => exact ⟨[], [], rfl, by simp, by simp⟩
  | cons first rest ih =>
      have hfirst := hcell first List.mem_cons_self
      obtain ⟨hbelow, hsorted⟩ := List.pairwise_cons.mp hrest
      by_cases hsame : Cell.compareKeys cell first = .eq
      · have hcell' := fun other hother => hcell other (List.mem_cons_of_mem first hother)
        obtain ⟨repeats, later, rfl, hrepeats, hlater⟩ :=
          ih (List.pairwise_cons.mpr ⟨hcell', hsorted⟩) hcell' hsorted
        refine ⟨first :: repeats, later, rfl, ?_, hlater⟩
        intro other hother
        rcases List.mem_cons.mp hother with rfl | hmem
        · exact Std.OrientedCmp.eq_symm hsame
        · exact hrepeats other hmem
      · have hlt : Cell.compareKeys cell first = .lt := by
          rcases Ordering.isLE_iff_eq_lt_or_eq_eq.mp hfirst with hlt | heq
          · exact hlt
          · exact absurd heq hsame
        refine ⟨[], first :: rest, rfl, by simp, ?_⟩
        intro other hother
        rcases List.mem_cons.mp hother with rfl | hmem
        · exact hlt
        · exact Std.TransCmp.lt_of_lt_of_isLE hlt (hbelow other hmem)

theorem dedupe_cons_append {cell : Cell} {repeats rest : List Cell}
    (hrepeats : ∀ other ∈ repeats, Cell.compareKeys other cell = .eq)
    (hrest : ∀ other ∈ rest, Cell.compareKeys cell other = .lt) :
    dedupe (cell :: (repeats ++ rest)) = cell :: dedupe rest := by
  rw [dedupe, dropRepeats_append hrepeats, dropRepeats_eq_dedupe hrest]

/-- An induction over a sorted list that takes all cells at one place at a time. -/
theorem sorted_induction {motive : (cells : List Cell) → keys.Sorted cells → Prop}
    (nil : motive [] List.Pairwise.nil)
    (cons : ∀ cell repeats rest (hcells : keys.Sorted (cell :: (repeats ++ rest)))
      (hrest : keys.Sorted rest), (∀ other ∈ repeats, Cell.compareKeys other cell = .eq) →
      (∀ other ∈ rest, Cell.compareKeys cell other = .lt) → motive rest hrest →
      motive (cell :: (repeats ++ rest)) hcells) :
    ∀ (cells : List Cell) (hcells : keys.Sorted cells), motive cells hcells
  | [], _ => nil
  | cell :: tail, hcells => by
      obtain ⟨repeats, rest, htail, hrepeats, hrest⟩ := exists_repeats hcells
      have hsuffix : rest <:+ tail := ⟨repeats, htail.symm⟩
      have hsorted : keys.Sorted rest := hcells.sublist (hsuffix.sublist.cons cell)
      have hlength : rest.length < (cell :: tail).length :=
        Nat.lt_succ_of_le hsuffix.length_le
      have ih := sorted_induction nil cons rest hsorted
      subst htail
      exact cons cell repeats rest hcells hsorted hrepeats hrest ih
termination_by cells => cells.length

theorem dedupe_strictlySorted {cells : List Cell} (hcells : keys.Sorted cells) :
    keys.StrictlySorted (dedupe cells) := by
  induction cells, hcells using sorted_induction with
  | nil => exact List.Pairwise.nil
  | cons cell repeats rest hcells hsorted hrepeats hrest ih =>
      rw [dedupe_cons_append hrepeats hrest]
      refine List.pairwise_cons.mpr ⟨?_, ih⟩
      intro other hother
      exact hrest other ((dedupe_sublist rest).subset hother)

theorem dedupe_of_strictlySorted {cells : List Cell} (hcells : keys.StrictlySorted cells) :
    dedupe cells = cells := by
  induction cells with
  | nil => rfl
  | cons cell rest ih =>
      obtain ⟨hcell, hrest⟩ := List.pairwise_cons.mp hcells
      rw [dedupe, dropRepeats_eq_dedupe hcell, ih hrest]

/-- Of the cells at a place the first one is kept. -/
theorem copies_dedupe {cells : List Cell} (hcells : keys.Sorted cells) (place : Cell) :
    keys.copies place (dedupe cells) = (keys.copies place cells).head?.toList := by
  induction cells, hcells using sorted_induction with
  | nil => rfl
  | cons first repeats rest hcells hsorted hrepeats hrest ih =>
      rw [dedupe_cons_append hrepeats hrest]
      by_cases hsame : Cell.compareKeys first place = .eq
      · rw [copies_cons_of_eq hsame, copies_cons_of_eq hsame, ih, copies_eq_nil_of_lt hrest hsame]
        rfl
      · have hnone : keys.copies place repeats = [] := copies_eq_nil fun other hother heq =>
          hsame (Std.TransCmp.congr_left (hrepeats other hother) ▸ heq)
        rw [copies_cons_of_ne hsame, copies_cons_of_ne hsame, copies_append, hnone, ih,
          List.nil_append]

/-- A cell is kept if and only if it is the first one at its place. -/
theorem mem_dedupe {cells : List Cell} (hcells : keys.Sorted cells) {cell : Cell} :
    cell ∈ dedupe cells ↔ (keys.copies cell cells).head? = some cell := by
  rw [← Option.mem_toList, ← copies_dedupe hcells, mem_copies]
  exact (and_iff_left Std.ReflCmp.compare_self).symm

/-- Where copies are kept or dropped together, it makes no difference whether that is done before
or after the first cell at each place is kept. -/
theorem dedupe_filter {cells : List Cell} (hcells : keys.Sorted cells) {kept : Cell → Bool}
    (hkept : ∀ cell ∈ cells, ∀ copy ∈ cells, Cell.compareKeys copy cell = .eq →
      kept copy = kept cell) : dedupe (cells.filter kept) = (dedupe cells).filter kept := by
  induction cells, hcells using sorted_induction with
  | nil => rfl
  | cons first repeats rest hcells hsorted hrepeats hrest ih =>
      have hrepeat (copy : Cell) (hcopy : copy ∈ repeats) : kept copy = kept first :=
        hkept first List.mem_cons_self copy (List.mem_cons_of_mem _ (List.mem_append_left _ hcopy))
          (hrepeats copy hcopy)
      have hlater (cell : Cell) (hcell : cell ∈ rest) : cell ∈ first :: (repeats ++ rest) :=
        List.mem_cons_of_mem _ (List.mem_append_right _ hcell)
      have ih := ih fun cell hcell copy hcopy =>
        hkept cell (hlater cell hcell) copy (hlater copy hcopy)
      rw [dedupe_cons_append hrepeats hrest, List.filter_cons, List.filter_cons, List.filter_append]
      cases hfirst : kept first with
      | true =>
          simp only [if_true]
          rw [dedupe_cons_append (fun copy hcopy => hrepeats copy (List.mem_filter.mp hcopy).1)
            (fun cell hcell => hrest cell (List.mem_filter.mp hcell).1), ih]
      | false =>
          have hnone : repeats.filter kept = [] := by
            rw [List.filter_eq_nil_iff]
            intro copy hcopy
            rw [hrepeat copy hcopy, hfirst]
            nofun
          simp only [Bool.false_eq_true, if_false, hnone, List.nil_append]
          exact ih

/-- Cutting off below a key and keeping the first cell at each place commute. -/
theorem dedupe_skipTo {cells : List Cell} (hcells : keys.Sorted cells) (key : Cell) :
    dedupe (keys.skipTo key cells) = keys.skipTo key (dedupe cells) := by
  induction cells, hcells using sorted_induction with
  | nil => rfl
  | cons first repeats rest hcells hsorted hrepeats hrest ih =>
      rw [dedupe_cons_append hrepeats hrest]
      by_cases hlt : Cell.compareKeys first key = .lt
      · have hbelow : ∀ cell ∈ repeats, Cell.compareKeys cell key = .lt := by
          intro cell hcell
          rw [Std.TransCmp.congr_left (hrepeats cell hcell)]
          exact hlt
        rw [skipTo_cons_of_lt hlt, skipTo_cons_of_lt hlt, skipTo_append_of_lt hbelow, ih]
      · rw [skipTo_cons_of_not_lt hlt, skipTo_cons_of_not_lt hlt,
          dedupe_cons_append hrepeats hrest]

end MergeScan.SortedRun
