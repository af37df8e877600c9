import MergeScan.Proofs.Scanner.Abreast
import MergeScan.Proofs.Source.Distinct

/-! # Copies of what is handed out

A scan that hands out markers hands out the copies of a marker as well. Apart from that
copies make no difference: to keep the first cell at each place of what is handed out is
to read a list of which only those cells were kept.
-/

namespace MergeScan.Matcher

open CellOrder SortedRun

variable {φ : Type} [CellFilter φ] {matcher next : Matcher φ} {cell other : Cell}
variable {rest ahead : List Cell} {family : Bytes} {decision : Decision}

/-- Where a cell was passed over, its copies are. -/
theorem Judged.copyDecision_of_skip (hjudged : Judged matcher cell .skip next) :
    next.copyDecision cell = .skip := by
  unfold copyDecision
  split
  next hdelete =>
    generalize hdecision : Decision.skip = decision at hjudged
    have hretain : next.markerDecision = matcher.markerDecision := by
      rw [markerDecision, markerDecision, retainDeletes_of_reset hjudged.reset_eq]
    cases hjudged with
    | row decision hrow => simpa [← hdecision] using decideRow_mem hrow
    | expired hrow hage =>
        rcases matcher.columns.giveUp_decision cell.qualifier with heq | heq <;>
          simp [giveUpColumn, heq] at hdecision
    | marker hconsiders => exact hretain
    | masked hconsiders hvalue hhides =>
        rw [hvalue] at hdelete
        cases hdelete
    | tooNew hlive hposition =>
        rw [hlive.value] at hdelete
        cases hdelete
    | tooOld hlive hposition =>
        rw [hlive.value] at hdelete
        cases hdelete
    | version decision columns hlive hposition hchecked =>
        rw [hlive.value] at hdelete
        cases hdelete
  next => rfl

/-- What is handed out is a part of the cells ahead, in their order. -/
theorem output_sublist (matcher : Matcher φ) (ahead : List Cell) :
    (matcher.output ahead).Sublist ahead := by
  have hemitted (matcher : Matcher φ) (cell : Cell) (rest : List Cell) :
      (matcher.look cell rest).emitted.toList.Sublist [cell] := by
    simp only [Matcher.look, Decision.emitted]
    split
    · exact List.Sublist.refl _
    · exact List.nil_sublist _
  induction matcher, ahead using output_induction with
  | nil matcher =>
      rewrite [output_nil]
      exact List.Sublist.refl _
  | ends matcher cell rest ending hcourse =>
      rw [output_cons_error hcourse]
      exact (hemitted _ cell rest).trans ((List.nil_sublist rest).cons_cons cell)
  | goOn matcher cell rest ahead hcourse ih =>
      rw [output_cons_ok hcourse]
      exact (hemitted _ cell rest).append (ih.trans (goOn_suffix hcourse).sublist)

theorem mem_of_mem_output (hother : other ∈ matcher.output ahead) : other ∈ ahead :=
  (output_sublist matcher ahead).mem hother

/-- A decision on the copies of a cell whose column was not left: all of them are handed out,
or none. -/
theorem output_copies {copies : List Cell} (hrow : next.row = some cell.row)
    (hcopies : ∀ copy ∈ copies, copy.row = cell.row ∧
      (next.decide copy).value = (.ok (next.copyDecision cell), next)) (rest : List Cell) :
    next.output (copies ++ rest) =
      copies.flatMap (fun copy => ((next.copyDecision cell).emitted copy).toList) ++
        next.output rest := by
  induction copies with
  | nil => rfl
  | cons copy copies ih =>
      obtain ⟨hcopy, hlater⟩ := List.forall_mem_cons.mp hcopies
      have hstays : next.copyDecision cell = .emit ∨ next.copyDecision cell = .skip := by
        unfold copyDecision
        split
        · rcases next.markerDecision_eq with ⟨heq, -⟩ | ⟨heq, -⟩
          · exact .inl heq
          · exact .inr heq
        · exact .inr rfl
      have hjudge : next.judge copy = (next.copyDecision cell, next) := by rw [judge, hcopy.2]
      have hcourse : (next.look copy (copies ++ rest)).course = .ok (copies ++ rest) := by
        rw [Matcher.look, hjudge]
        rcases hstays with heq | heq <;> rw [heq] <;> rfl
      rw [List.cons_append, output_here_ok (hcopy.1 ▸ hrow) hcourse, List.flatMap_cons,
        List.append_assoc, ← ih hlater]
      simp only [Matcher.look, hjudge]

theorem dedupe_emitted (hlater : ∀ other ∈ rest, Cell.compareKeys cell other = .lt)
    (decision : Decision) :
    dedupe ((decision.emitted cell).toList ++ rest) =
      (decision.emitted cell).toList ++ dedupe rest := by
  unfold Decision.emitted
  split
  · have hnone : ∀ other ∈ ([] : List Cell), Cell.compareKeys other cell = .eq := nofun
    exact dedupe_cons_append hnone hlater
  · rfl

/-! ## The first cell in its row -/

theorem output_first_ok (hrow : matcher.row = some cell.row)
    (hgoOn : (matcher.judge cell).2.goOn cell rest (matcher.judge cell).1 = .ok ahead) :
    matcher.output (cell :: rest) =
      ((matcher.judge cell).1.emitted cell).toList ++ (matcher.judge cell).2.output ahead := by
  have hstays := inRow_of_row hrow
  have hcourse : ((matcher.inRow cell.row).look cell rest).course = .ok ahead := hstays.symm ▸ hgoOn
  rw [output_cons_ok hcourse, hstays]
  rfl

theorem output_first_error (hrow : matcher.row = some cell.row) {ending : PassEnd}
    (hgoOn : (matcher.judge cell).2.goOn cell rest (matcher.judge cell).1 = .error ending) :
    matcher.output (cell :: rest) = ((matcher.judge cell).1.emitted cell).toList := by
  have hstays := inRow_of_row hrow
  have hcourse : ((matcher.inRow cell.row).look cell rest).course = .error ending :=
    hstays.symm ▸ hgoOn
  rw [output_cons_error hcourse, hstays]
  rfl

section First

variable {repeats : List Cell} (hready : Ready family matcher (cell :: (repeats ++ rest)))
variable (hrepeats : ∀ other ∈ repeats, Cell.compareKeys other cell = .eq)
variable (hrest : ∀ other ∈ rest, Cell.compareKeys cell other = .lt)
include hready hrepeats hrest

/-- Where the column of a cell is not left, at most copies of it follow before the others. -/
theorem Ready.dedupe_stays (hrow : matcher.row = some cell.row)
    (hstays : (matcher.judge cell).1 = .emit ∨ (matcher.judge cell).1 = .skip) :
    dedupe (((matcher.judge cell).1.emitted cell).toList ++
        (matcher.judge cell).2.output (repeats ++ rest)) =
      ((matcher.judge cell).1.emitted cell).toList ++
        dedupe ((matcher.judge cell).2.output rest) := by
  have hjudged := hready.judged.2
  have hnext : (matcher.judge cell).2.row = some cell.row :=
    (row_of_reset hjudged.reset_eq).trans hrow
  have hfits := hready.fits cell List.mem_cons_self hrow
  have hlater : ∀ other ∈ (matcher.judge cell).2.output rest, Cell.compareKeys cell other = .lt :=
    fun other hother => hrest other (mem_of_mem_output hother)
  rw [output_copies hnext fun copy hcopy => ⟨Cell.row_eq_of_eq (hrepeats copy hcopy),
    hjudged.decide_again hready.plain hfits hready.isReal hstays
      (hready.stored copy (List.mem_cons_of_mem _ (List.mem_append_left _ hcopy))).1
      (hrepeats copy hcopy)⟩]
  -- a copy is handed out once more where the cell was, and is then dropped with it
  rcases hstays with hemit | hskip
  · have hcopies : ∀ other ∈ repeats.flatMap fun copy =>
        (((matcher.judge cell).2.copyDecision cell).emitted copy).toList,
        Cell.compareKeys other cell = .eq := by
      intro other hother
      obtain ⟨copy, hcopy, hemitted⟩ := List.mem_flatMap.mp hother
      unfold Decision.emitted at hemitted
      split at hemitted
      · rw [List.mem_singleton.mp hemitted]
        exact hrepeats copy hcopy
      · cases hemitted
    rw [hemit]
    exact dedupe_cons_append hcopies hlater
  · have hnone : (matcher.judge cell).2.copyDecision cell = .skip :=
      Judged.copyDecision_of_skip (hskip ▸ hjudged)
    have hempty : repeats.flatMap (fun copy => (Decision.skip.emitted copy).toList) = [] :=
      List.flatMap_eq_nil_iff.mpr fun _ _ => rfl
    rw [hskip, hnone, hempty]
    rfl

/-- What is handed out from the first cell in its row on, if this is known of what follows. -/
theorem Ready.dedupe_first (hrow : matcher.row = some cell.row)
    (hfollows : ∀ (next : Matcher φ) ahead, ahead <:+ rest → Prepared family next ahead →
      dedupe (next.output ahead) = next.output (dedupe ahead)) :
    dedupe (matcher.output (cell :: (repeats ++ rest))) = matcher.output (cell :: dedupe rest) := by
  have hjudged := hready.judged.2
  have hsorted : keys.Sorted rest :=
    (List.pairwise_append.mp (List.pairwise_cons.mp hready.sorted).2).2.1
  rcases hjudged.goOn_cases hready.plain hready.isReal with
    ⟨hstays, hgoOn⟩ | ⟨key, hlt, hgoOn⟩ | ⟨ending, hgoOn⟩
  · have hnext := (hready.look (hgoOn (repeats ++ rest))).toPrepared
    rw [output_first_ok hrow (hgoOn _), output_first_ok hrow (hgoOn _),
      hready.dedupe_stays hrepeats hrest hrow hstays]
    congr 1
    exact hfollows _ rest (List.suffix_refl _) (hnext.sublist (List.sublist_append_right _ _))
  · have hskip : ∀ copy ∈ repeats, Cell.compareKeys copy key = .lt := fun copy hcopy =>
      (Std.TransCmp.congr_left (hrepeats copy hcopy)).trans hlt
    have hcourse := hgoOn (repeats ++ rest)
    rw [skipTo_append_of_lt hskip] at hcourse
    have hsuffix : keys.skipTo key rest <:+ rest := List.dropWhile_suffix _
    have hlater : ∀ other ∈ (matcher.judge cell).2.output (keys.skipTo key rest),
        Cell.compareKeys cell other = .lt :=
      fun other hother => hrest other (hsuffix.subset (mem_of_mem_output hother))
    rw [output_first_ok hrow hcourse, output_first_ok hrow (hgoOn _), dedupe_emitted hlater,
      ← dedupe_skipTo hsorted]
    congr 1
    exact hfollows _ _ hsuffix (hready.look hcourse).toPrepared
  · rw [output_first_error hrow (hgoOn _), output_first_error hrow (hgoOn _)]
    unfold Decision.emitted
    split <;> rfl

end First

/-- To keep the first cell at each place of what is handed out is to read a list of which only
those cells were kept. -/
theorem Prepared.dedupe_output (hprepared : Prepared family matcher ahead) :
    dedupe (matcher.output ahead) = matcher.output (dedupe ahead) := by
  induction hlength : ahead.length using Nat.strongRecOn generalizing matcher ahead with
  | ind length ih =>
      cases ahead with
      | nil =>
          rw [output_nil]
          exact (output_nil matcher).symm
      | cons cell tail =>
          have hready := hprepared.inRow_first
          obtain ⟨repeats, rest, rfl, hrepeats, hrest⟩ := exists_repeats hready.sorted
          rw [dedupe_cons_append hrepeats hrest, ← output_inRow,
            ← output_inRow matcher cell (dedupe rest)]
          -- the copies of the first cell go along with it, the induction is on what follows
          refine hready.dedupe_first hrepeats hrest (row_inRow matcher cell.row) ?_
          intro next ahead hsuffix hnext
          have hshorter := hsuffix.length_le
          rw [List.length_cons, List.length_append] at hlength
          exact ih ahead.length (by omega) hnext rfl

end MergeScan.Matcher
