import MergeScan.Proofs.Cell.Sorted

/-! # Several sorted lists as one

What a merge hands out is a sorted list in which the cells at one place come in
the order of the sources they are from, the freshest first. Here this is said of
lists of cells with ranks, and how such a list changes when one of them does.
-/

namespace MergeScan

/-- The cells that a source contributes to a merge, with the rank of the source. -/
structure Part where
  rank : Nat
  cells : List Cell

namespace Part

/-- The part that is left from a key on. -/
def skipTo (order : CellOrder) (key : Cell) (part : Part) : Part :=
  ⟨part.rank, order.skipTo key part.cells⟩

/-- No two parts are equally fresh. -/
def Distinct (parts : List Part) : Prop :=
  parts.Pairwise fun left right => left.rank ≠ right.rank

/-- The parts by descending rank. -/
def freshestFirst (parts : List Part) : List Part :=
  parts.mergeSort fun left right => right.rank ≤ left.rank

theorem freshestFirst_perm (parts : List Part) : (freshestFirst parts).Perm parts :=
  List.mergeSort_perm _ _

theorem Distinct.perm {parts others : List Part} (hparts : Distinct parts)
    (hperm : parts.Perm others) : Distinct others :=
  hperm.pairwise hparts fun hne => hne.symm

theorem pairwise_freshestFirst {parts : List Part} (hparts : Distinct parts) :
    (freshestFirst parts).Pairwise fun left right => right.rank < left.rank := by
  have hdescending : (freshestFirst parts).Pairwise fun left right => right.rank ≤ left.rank := by
    have hsorted := @List.pairwise_mergeSort _ (fun left right : Part => right.rank ≤ left.rank)
      (by simp only [decide_eq_true_eq]; omega)
      (by simp only [Bool.or_eq_true, decide_eq_true_eq]; omega) parts
    simpa only [freshestFirst, decide_eq_true_eq] using hsorted
  have hdistinct := hparts.perm (freshestFirst_perm parts).symm
  exact (hdescending.and hdistinct).imp fun ⟨hle, hne⟩ => Nat.lt_of_le_of_ne hle (Ne.symm hne)

/-- Parts that are in order are all there is to their order. -/
theorem freshestFirst_eq {parts ranked : List Part} (hperm : ranked.Perm parts)
    (hranked : ranked.Pairwise fun left right => right.rank < left.rank) :
    freshestFirst parts = ranked := by
  have hdistinct : Distinct ranked := hranked.imp fun hlt => Ne.symm (Nat.ne_of_lt hlt)
  apply List.Perm.eq_of_pairwise _ (pairwise_freshestFirst (hdistinct.perm hperm)) hranked
    ((freshestFirst_perm parts).trans hperm.symm)
  intro left right _ _ hlt hgt
  omega

/-- Where a part stands among others depends on its rank only. -/
theorem exists_freshestFirst_cons {rank : Nat} {parts : List Part} (hparts : Distinct parts)
    (hrank : ∀ part ∈ parts, part.rank ≠ rank) :
    ∃ fresher staler, (∀ part ∈ fresher, rank < part.rank) ∧
      (∀ part ∈ staler, part.rank < rank) ∧ freshestFirst parts = fresher ++ staler ∧
      ∀ cells, freshestFirst (⟨rank, cells⟩ :: parts) = fresher ++ ⟨rank, cells⟩ :: staler := by
  let isFresher (part : Part) : Bool := rank < part.rank
  let ranked := freshestFirst parts
  have hranked := pairwise_freshestFirst hparts
  have hfresher : ∀ part ∈ ranked.filter isFresher, rank < part.rank := by
    intro part hpart
    simpa [isFresher] using (List.mem_filter.mp hpart).2
  have hstaler : ∀ part ∈ ranked.filter (!isFresher ·), part.rank < rank := by
    intro part hpart
    obtain ⟨hmem, hle⟩ := List.mem_filter.mp hpart
    have hne := hrank part ((freshestFirst_perm parts).mem_iff.mp hmem)
    have : part.rank ≤ rank := by simpa [isFresher] using hle
    omega
  have hsplit : (ranked.filter isFresher ++ ranked.filter (!isFresher ·)).Perm parts :=
    (List.filter_append_perm isFresher ranked).trans (freshestFirst_perm parts)
  have hcross : ∀ left ∈ ranked.filter isFresher, ∀ right ∈ ranked.filter (!isFresher ·),
      right.rank < left.rank := fun left hleft right hright =>
    Nat.lt_trans (hstaler right hright) (hfresher left hleft)
  refine ⟨ranked.filter isFresher, ranked.filter (!isFresher ·), hfresher, hstaler, ?_, ?_⟩
  · apply freshestFirst_eq hsplit
    exact List.pairwise_append.mpr ⟨hranked.filter _, hranked.filter _, hcross⟩
  -- the new part stands behind the fresher ones, whatever it has
  · intro cells
    apply freshestFirst_eq (List.perm_middle.trans (hsplit.cons _))
    refine List.pairwise_append.mpr ⟨hranked.filter _, ?_, ?_⟩
    · exact List.pairwise_cons.mpr ⟨hstaler, hranked.filter _⟩
    · intro left hleft right hright
      rcases List.mem_cons.mp hright with rfl | hmem
      · exact hfresher left hleft
      · exact hcross left hleft right hmem

/-- Whatever becomes of their cells, parts keep their order by rank. -/
theorem freshestFirst_map {move : Part → Part} (hrank : ∀ part, (move part).rank = part.rank)
    (parts : List Part) : freshestFirst (parts.map move) = (freshestFirst parts).map move := by
  symm
  apply List.map_mergeSort
  intro first second _ _
  rw [hrank, hrank]

theorem freshestFirst_skipTo (order : CellOrder) (key : Cell) (parts : List Part) :
    freshestFirst (parts.map (skipTo order key)) =
      (freshestFirst parts).map (skipTo order key) :=
  @freshestFirst_map (skipTo order key) (fun _ => rfl) parts

/-! ## Parts that have cells -/

/-- The parts that have cells. -/
def stocked (parts : List Part) : List Part :=
  parts.filter fun part => !part.cells.isEmpty

variable {parts others : List Part} {part : Part} {move : Part → Part}

theorem stocked_perm (hperm : parts.Perm others) : (stocked parts).Perm (stocked others) :=
  hperm.filter _

theorem stocked_append (parts others : List Part) :
    stocked (parts ++ others) = stocked parts ++ stocked others :=
  List.filter_append parts others

theorem stocked_cons (part : Part) (parts : List Part) :
    stocked (part :: parts) = stocked [part] ++ stocked parts :=
  stocked_append [part] parts

theorem stocked_cons_of_nil (hpart : part.cells = []) (parts : List Part) :
    stocked (part :: parts) = stocked parts :=
  List.filter_cons_of_neg (by simp [hpart])

theorem stocked_cons_of_ne_nil (hpart : part.cells ≠ []) (parts : List Part) :
    stocked (part :: parts) = part :: stocked parts :=
  List.filter_cons_of_pos (by simp [hpart])

theorem mem_stocked : part ∈ stocked parts ↔ part ∈ parts ∧ part.cells ≠ [] := by
  simp [stocked]

theorem stocked_eq_self (hparts : ∀ part ∈ parts, part.cells ≠ []) : stocked parts = parts :=
  List.filter_eq_self.mpr fun part hpart => by simp [hparts part hpart]

/-- Parts without cells contribute none. -/
theorem flatMap_stocked (parts : List Part) :
    (stocked parts).flatMap cells = parts.flatMap cells := by
  induction parts with
  | nil => rfl
  | cons part rest ih =>
      by_cases hpart : part.cells = []
      · rw [stocked_cons_of_nil hpart, ih, List.flatMap_cons, hpart, List.nil_append]
      · rw [stocked_cons_of_ne_nil hpart, List.flatMap_cons, List.flatMap_cons, ih]

theorem Distinct.stocked (hparts : Distinct parts) : Distinct (stocked parts) :=
  List.Pairwise.filter _ hparts

/-- A movement that gives no cells to parts without any can leave them out. -/
theorem stocked_map_stocked (hmove : ∀ part : Part, part.cells = [] → (move part).cells = [])
    (parts : List Part) : stocked ((stocked parts).map move) = stocked (parts.map move) := by
  induction parts with
  | nil => rfl
  | cons part rest ih =>
      by_cases hpart : part.cells = []
      · rw [stocked_cons_of_nil hpart, ih, List.map_cons, stocked_cons_of_nil (hmove part hpart)]
      · rw [stocked_cons_of_ne_nil hpart, List.map_cons, List.map_cons]
        by_cases hmoved : (move part).cells = []
        · rw [stocked_cons_of_nil hmoved, stocked_cons_of_nil hmoved, ih]
        · rw [stocked_cons_of_ne_nil hmoved, stocked_cons_of_ne_nil hmoved, ih]

/-- Some of the parts were moved and the others stayed. Those without cells are gone. -/
def Shifted (move : Part → Part) (before after : List Part) : Prop :=
  ∃ stayed moved, before.Perm (stayed ++ moved) ∧
    after.Perm (stocked (stayed ++ moved.map move))

theorem Shifted.perm {before after : List Part} (hshifted : Shifted move before after)
    (hbefore : others.Perm before) : Shifted move others after := by
  obtain ⟨stayed, moved, hperm, hafter⟩ := hshifted
  exact ⟨stayed, moved, hbefore.trans hperm, hafter⟩

theorem Shifted.of_perm_after {before after : List Part} (hshifted : Shifted move before after)
    (hafter : others.Perm after) : Shifted move before others := by
  obtain ⟨stayed, moved, hperm, hmoved⟩ := hshifted
  exact ⟨stayed, moved, hperm, hafter.trans hmoved⟩

/-- Parts that were moved have the ranks that they had. -/
theorem Shifted.distinct {before after : List Part} (hshifted : Shifted move before after)
    (hbefore : Distinct before) (hrank : ∀ part, (move part).rank = part.rank) :
    Distinct after := by
  obtain ⟨stayed, moved, hperm, hafter⟩ := hshifted
  obtain ⟨hstayed, hmoved, hapart⟩ := List.pairwise_append.mp (hbefore.perm hperm)
  have hall : Distinct (stayed ++ moved.map move) := by
    refine List.pairwise_append.mpr ⟨hstayed, List.pairwise_map.mpr ?_, ?_⟩
    · simpa only [hrank] using hmoved
    · intro left hleft right hright
      obtain ⟨part, hpart, rfl⟩ := List.mem_map.mp hright
      rw [hrank]
      exact hapart left hleft part hpart
  exact hall.stocked.perm hafter.symm

/-- No part was moved. -/
theorem Shifted.of_perm (hperm : others.Perm (stocked parts)) : Shifted move parts others :=
  ⟨parts, [], by rw [List.append_nil], by rwa [List.map_nil, List.append_nil]⟩

/-- One more part was moved. -/
theorem Shifted.cons {before after : List Part} (hshifted : Shifted move before after)
    (part : Part) : Shifted move (part :: before) (stocked [move part] ++ after) := by
  obtain ⟨stayed, moved, hperm, hafter⟩ := hshifted
  refine ⟨stayed, part :: moved, (hperm.cons part).trans List.perm_middle.symm, ?_⟩
  have hfront : (stocked (move part :: (stayed ++ moved.map move))).Perm
      (stocked (stayed ++ (part :: moved).map move)) :=
    stocked_perm List.perm_middle.symm
  rw [stocked_cons] at hfront
  exact (hafter.append_left _).trans hfront

/-- One part is moved before others are, and is not moved any further. -/
theorem Shifted.of_moved (hmove : ∀ part, move (move part) = move part) {next after : List Part}
    (hshifted : Shifted move next after) (hnext : next.Perm (stocked (move part :: parts)))
    (hparts : stocked parts = parts) : Shifted move (part :: parts) after := by
  obtain ⟨stayed, moved, hperm, hafter⟩ := hshifted
  by_cases hempty : (move part).cells = []
  · rw [stocked_cons_of_nil hempty, hparts] at hnext
    refine ⟨stayed, part :: moved, ?_, hafter.trans ?_⟩
    · exact ((hnext.symm.trans hperm).cons part).trans List.perm_middle.symm
    · rw [List.map_cons, ← stocked_cons_of_nil hempty]
      exact stocked_perm List.perm_middle.symm
  · rw [stocked_cons_of_ne_nil hempty, hparts] at hnext
    have hall := hnext.symm.trans hperm
    rcases List.mem_append.mp (hall.mem_iff.mp List.mem_cons_self) with hmem | hmem
    · -- it is among those that stayed from then on
      obtain ⟨first, last, rfl⟩ := List.append_of_mem hmem
      have hkept : (first ++ move part :: last ++ moved).Perm
          (move part :: (first ++ last ++ moved)) := List.perm_middle.append_right moved
      refine ⟨first ++ last, part :: moved, ?_, hafter.trans (stocked_perm ?_)⟩
      · exact ((hall.trans hkept).cons_inv.cons part).trans List.perm_middle.symm
      · exact (List.perm_middle.append_right _).trans List.perm_middle.symm
    · obtain ⟨first, last, rfl⟩ := List.append_of_mem hmem
      have hkept : (stayed ++ (first ++ move part :: last)).Perm
          (move part :: (stayed ++ (first ++ last))) :=
        (List.perm_middle.append_left stayed).trans List.perm_middle
      refine ⟨stayed, part :: (first ++ last), ?_, hafter.trans (stocked_perm ?_)⟩
      · exact ((hall.trans hkept).cons_inv.cons part).trans List.perm_middle.symm
      · have hagain : ((first ++ move part :: last).map move).Perm
            (move (move part) :: (first ++ last).map move) := List.perm_middle.map move
        rw [hmove] at hagain
        exact hagain.append_left stayed

/-- To move a part that was moved already changes nothing. -/
theorem skipTo_idem (order : CellOrder) (key : Cell) (part : Part) :
    (part.skipTo order key).skipTo order key = part.skipTo order key := by
  rw [skipTo, skipTo, CellOrder.skipTo_eq_self CellOrder.head?_skipTo]

end Part

namespace CellOrder

/-- The cells of several parts as one sorted list. Of cells at the same place,
the ones of the freshest part come first. -/
def merged (order : CellOrder) (parts : List Part) : List Cell :=
  order.sort ((Part.freshestFirst parts).flatMap Part.cells)

variable {order : CellOrder}

theorem mem_merged {parts : List Part} {cell : Cell} :
    cell ∈ order.merged parts ↔ ∃ part ∈ parts, cell ∈ part.cells := by
  rw [merged, mem_sort, List.mem_flatMap]
  simp only [(Part.freshestFirst_perm parts).mem_iff]

@[simp] theorem merged_nil (order : CellOrder) : order.merged [] = [] := by
  simp [merged, Part.freshestFirst, sort]

theorem length_merged (parts : List Part) :
    (order.merged parts).length = (parts.flatMap Part.cells).length := by
  rw [merged, (sort_perm _).length_eq]
  exact ((Part.freshestFirst_perm parts).flatMap_right _).length_eq

theorem merged_perm {parts others : List Part} (hparts : Part.Distinct parts)
    (hperm : parts.Perm others) : order.merged parts = order.merged others := by
  rw [merged, Part.freshestFirst_eq ((Part.freshestFirst_perm others).trans hperm.symm)
    (Part.pairwise_freshestFirst (hparts.perm hperm)), merged]

variable {rank : Nat} {parts : List Part}

theorem merged_stocked (hparts : Part.Distinct parts) :
    order.merged (Part.stocked parts) = order.merged parts := by
  have hfresh : Part.freshestFirst (Part.stocked parts) = Part.stocked (Part.freshestFirst parts) :=
    Part.freshestFirst_eq (Part.stocked_perm (Part.freshestFirst_perm parts))
      ((Part.pairwise_freshestFirst hparts).filter _)
  rw [merged, hfresh, Part.flatMap_stocked, merged]

variable [Std.TransCmp order.compare]

theorem merged_sorted (parts : List Part) : order.Sorted (order.merged parts) :=
  sort_sorted _

theorem merged_singleton {part : Part} (hpart : order.Sorted part.cells) :
    order.merged [part] = part.cells := by
  have hsame : Part.freshestFirst [part] = [part] := List.mergeSort_singleton part
  rw [merged, hsame, List.flatMap_singleton]
  exact sort_of_sorted hpart

theorem copies_merged (cell : Cell) (parts : List Part) :
    order.copies cell (order.merged parts) =
      (Part.freshestFirst parts).flatMap fun part => order.copies cell part.cells := by
  rw [merged, copies_sort, copies_flatMap]

/-- The first of the cells is the one that sorts first, and among several at one
place the one of the freshest part. -/
theorem merged_cons_cons {cell : Cell} {rest : List Cell} (hparts : Part.Distinct parts)
    (hrank : ∀ part ∈ parts, part.rank ≠ rank)
    (hrest : ∀ other ∈ rest, (order.compare cell other).isLE = true)
    (hfirst : ∀ part ∈ parts, ∀ other ∈ part.cells, order.compare cell other = .lt ∨
      order.compare cell other = .eq ∧ part.rank < rank) :
    order.merged (⟨rank, cell :: rest⟩ :: parts) =
      cell :: order.merged (⟨rank, rest⟩ :: parts) := by
  obtain ⟨fresher, staler, hfresher, hstaler, hsplit, hcons⟩ :=
    Part.exists_freshestFirst_cons hparts hrank
  have hmem : ∀ part, part ∈ fresher ∨ part ∈ staler → part ∈ parts := by
    intro part hpart
    rw [← (Part.freshestFirst_perm parts).mem_iff, hsplit, List.mem_append]
    exact hpart
  -- sorted lists are equal if they have the same cells in the same order at each place
  apply sort_eq_of_copies
  · refine List.pairwise_cons.mpr ⟨?_, merged_sorted _⟩
    intro other hother
    obtain ⟨part, hpart, hother⟩ := mem_merged.mp hother
    rcases List.mem_cons.mp hpart with rfl | hpart
    · exact hrest other hother
    · rcases hfirst part hpart other hother with hlt | ⟨heq, -⟩
      · simp [hlt]
      · simp [heq]
  · intro place
    -- at the place of the first cell the fresher parts have none
    have hnone : order.compare cell place = .eq →
        fresher.flatMap (fun part => order.copies place part.cells) = [] := by
      intro hplace
      rw [List.flatMap_eq_nil_iff]
      intro part hpart
      refine copies_eq_nil fun other hother heq => ?_
      have hsame : order.compare cell other = .eq :=
        Std.TransCmp.eq_trans hplace (Std.OrientedCmp.eq_symm heq)
      have hfresh := hfresher part hpart
      rcases hfirst part (hmem part (.inl hpart)) other hother with hlt | ⟨-, hstale⟩
      · rw [hsame] at hlt
        cases hlt
      · omega
    rw [copies_flatMap, hcons, List.flatMap_append, List.flatMap_cons]
    by_cases hplace : order.compare cell place = .eq
    · rw [copies_cons_of_eq hplace, copies_cons_of_eq hplace, hnone hplace, copies_merged, hcons,
        List.flatMap_append, List.flatMap_cons, hnone hplace]
      rfl
    · rw [copies_cons_of_ne hplace, copies_cons_of_ne hplace, copies_merged, hcons,
        List.flatMap_append, List.flatMap_cons]

/-- To skip to a key in all parts is to skip to it in what they make together. -/
theorem merged_skipTo (hparts : ∀ part ∈ parts, order.Sorted part.cells) (key : Cell) :
    order.merged (parts.map (Part.skipTo order key)) =
      order.skipTo key (order.merged parts) := by
  apply sort_eq_of_copies ((merged_sorted parts).skipTo key)
  intro place
  have hpart : ∀ part ∈ Part.freshestFirst parts,
      order.copies place (part.skipTo order key).cells =
        if order.compare place key = .lt then [] else order.copies place part.cells :=
    fun part hmem =>
      copies_skipTo (hparts part ((Part.freshestFirst_perm parts).mem_iff.mp hmem)) key place
  rw [copies_skipTo (merged_sorted parts), copies_merged, Part.freshestFirst_skipTo,
    copies_flatMap, List.flatMap_map]
  simp only [List.flatMap_def, List.map_congr_left hpart]
  split
  · exact (List.flatMap_eq_nil_iff.mpr fun _ _ => rfl).symm
  · rfl

end CellOrder

end MergeScan
