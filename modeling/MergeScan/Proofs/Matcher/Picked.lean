import MergeScan.Proofs.Filter.Picks
import MergeScan.Proofs.Matcher.Sieved

/-! # Decisions under a filter that picks cells

A filter that keeps or skips each cell for what it is has no say about rows, about where to go on or
about the end of the scan. A matcher asks it about a value before the versions of its column are
counted. So a value that it skips is not counted.
-/

namespace MergeScan

namespace Matcher

open CellFilter

variable {φ : Type} [CellFilter φ] {matcher : Matcher φ} {cell : Cell} {rest : List Cell}
variable {accepts : Cell → Bool} {family : Bytes}

theorem isStopped_of_chooses (hchooses : Chooses accepts matcher.filter) :
    matcher.isStopped = false := by
  unfold isStopped
  generalize matcher.filter = filter at hchooses
  cases filter with
  | none => rfl
  | some filter => exact hchooses.goesOn filter .start

/-- To enter a row, which no such filter drops, makes no other matcher than without the filter. -/
theorem enterRow_of_chooses (hchooses : Chooses accepts matcher.filter) (row : Bytes) :
    (matcher.enterRow row).value.bare = matcher.bare.entered row := by
  unfold enterRow
  cases hfilter : matcher.filter with
  | none => rfl
  | some filter =>
      rw [hfilter] at hchooses
      have hkeeps := hchooses.judgeRow _ row (Reaches.start.reset)
      simp only [Noted.value_bind]
      generalize CellFilter.judgeRow (CellFilter.reset filter) row = judged at hkeeps
      obtain ⟨_, later⟩ := judged
      cases hkeeps
      rfl

/-- A value that the filter is asked about and keeps is decided on as without the filter, and so is
every cell that the filter is not asked about. -/
theorem Ready.judge_of_accepts (hready : Ready family matcher.bare (cell :: rest))
    (hchooses : Chooses accepts matcher.filter)
    (haccepts : Considers.Sought matcher.bare cell → accepts cell = true) :
    ∃ filter, Heard cell matcher.filter filter ∧ matcher.judge cell =
      ((matcher.bare.judge cell).1, (matcher.bare.judge cell).2.withFilter filter) := by
  have hstopped := isStopped_of_chooses hchooses
  by_cases hsought : Considers.Sought matcher.bare cell
  · have hfits := hready.fits cell List.mem_cons_self
      (row_eq_of_decideRow hready.plain hsought.row hready.entered)
    cases hfilter : matcher.filter with
    | none =>
        refine ⟨none, .unasked none, ?_⟩
        rw [judge, hready.decide_unfiltered hfilter]
    | some filter =>
        rw [hfilter] at hchooses
        refine ⟨_, .asked filter, ?_⟩
        have hkeeps := hchooses.judgeCell filter cell .start
        rw [haccepts hsought, if_pos rfl] at hkeeps
        rw [judge, hsought.decide_asked ⟨hfits.column, hfits.marker⟩ hstopped hfilter, hkeeps,
          applyVerdict, Noted.value_pure, hsought.decideVersion_eq hready]
  · refine ⟨matcher.filter, .unasked _, ?_⟩
    rw [judge, decide_of_not_sought hstopped hsought, hready.judged.1, Prod.map_apply,
      hready.refitted_judge]
    rfl

/-- A value that the filter is asked about and skips is left out. -/
theorem Considers.Sought.judge_of_rejects (hsought : Considers.Sought matcher.bare cell)
    (hfits : Fits matcher cell) (hchooses : Chooses accepts matcher.filter)
    (hrejects : accepts cell = false) :
    ∃ filter, Heard cell matcher.filter filter ∧
      matcher.judge cell = (.skip, (matcher.afterMarkers cell).withFilter filter) := by
  have hstopped := isStopped_of_chooses hchooses
  cases hfilter : matcher.filter with
  | none =>
      rw [hfilter] at hchooses
      have hall : accepts cell = true := hchooses cell
      rw [hall] at hrejects
      cases hrejects
  | some filter =>
      rw [hfilter] at hchooses
      refine ⟨_, .asked filter, ?_⟩
      have hskips := hchooses.judgeCell filter cell .start
      rw [hrejects, if_neg Bool.false_ne_true] at hskips
      rw [judge, hsought.decide_asked hfits hstopped hfilter, hskips]
      rfl

end Matcher

end MergeScan
