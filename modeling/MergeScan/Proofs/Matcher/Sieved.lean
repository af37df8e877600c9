import MergeScan.Proofs.Filter.Sieves
import MergeScan.Proofs.Matcher.Settles
import MergeScan.Proofs.Matcher.WholeRows
import MergeScan.Proofs.Scanner.Gathered

/-! # Decisions under a filter that leaves out values

A filter is asked about a value that everything else lets pass, short of its versions. Where it is
not asked, or keeps the value, a matcher decides as it does without the filter. Otherwise it leaves
out values that the filter rejects.
-/

namespace MergeScan

namespace CellFilter

variable {φ : Type} [CellFilter φ]

/-- A filter that leaves out only values that it rejects, or none, which rejects nothing. -/
def Sifts (keepsRow : Bytes → Bool) (accepts : Cell → Bool) : Option φ → Prop
  | some filter => Sieves keepsRow accepts filter
  | none => (∀ row, keepsRow row = true) ∧ ∀ cell, accepts cell = true

theorem Sifts.comesTo {keepsRow : Bytes → Bool} {accepts : Cell → Bool} {first second : Option φ}
    (hsifts : Sifts keepsRow accepts first) (hcomes : ComesTo first second) :
    Sifts keepsRow accepts second := by
  match first, second with
  | none, none => exact hsifts
  | some first, some second => exact Sieves.of_reaches hsifts hcomes

/-- Such a filter hands out cells as they are. -/
theorem Sifts.eq_of_shapes {keepsRow : Bytes → Bool} {accepts : Cell → Bool} {filter : Option φ}
    {cell shaped : Cell} (hsifts : Sifts keepsRow accepts filter)
    (hshapes : Shapes filter cell shaped) : shaped = cell := by
  cases filter with
  | none => exact hshapes
  | some filter =>
      obtain ⟨reached, hreached, hshaped⟩ := hshapes
      exact hshaped.trans (hsifts.reshape reached cell hreached)

end CellFilter

namespace Matcher

variable {φ : Type} [CellFilter φ] {matcher : Matcher φ} {cell : Cell} {rest : List Cell}
variable {keepsRow : Bytes → Bool} {accepts : Cell → Bool} {family : Bytes}

/-- A cell is a value of the time range that nothing deletes: a filter is asked about it. -/
structure Considers.Sought (matcher : Matcher φ) (cell : Cell) : Prop
    extends Considers.Live matcher cell where
  position : matcher.timeRange.position cell.timestamp = .eq

theorem Considers.Sought.seeks (hsought : Considers.Sought matcher cell) (hplain : Plain matcher)
    (hreal : cell.IsReal) : matcher.seeks cell = true := by
  have hrow := (contains_of_decideRow hplain hsought.row).1
  simp [Matcher.seeks, hreal.kind_eq_put hsought.value, hrow, hsought.age, TimeRange.contains,
    hsought.position]

/-- What a matcher decides whose filter has not ended the scan. -/
inductive Sieved (accepts : Cell → Bool) (matcher : Matcher φ) (cell : Cell) :
    Decision → Matcher φ → Prop
  /-- The filter was not asked, or it has kept the value. -/
  | same (filter : Option φ) : Heard cell matcher.filter filter →
      (Considers.Sought matcher.bare cell → accepts cell = true) →
      Sieved accepts matcher cell (matcher.bare.judge cell).1
        ((matcher.bare.judge cell).2.withFilter filter)
  | skipped (filter : Option φ) : Heard cell matcher.filter filter →
      Considers.Sought matcher.bare cell → accepts cell = false →
      Sieved accepts matcher cell .skip ((matcher.afterMarkers cell).withFilter filter)
  /-- The filter wants no more of the row. -/
  | row (filter : Option φ) : Heard cell matcher.filter filter →
      Considers.Sought matcher.bare cell →
      (∀ other, other.row = cell.row → cell.qualifier ≤ other.qualifier →
        accepts other = false) →
      Sieved accepts matcher cell .nextRow
        { (matcher.afterMarkers cell).withFilter filter with rowOver := true }
  /-- The filter leads on to a later column of the row. -/
  | leads (filter : Option φ) (column : Bytes) : Heard cell matcher.filter filter →
      Considers.Sought matcher.bare cell → cell.qualifier < column →
      (∀ other, other.row = cell.row → other.qualifier < column → accepts other = false) →
      Sieved accepts matcher cell (.seekTo (Cell.firstOnColumn cell.row cell.family column))
        ((matcher.afterMarkers cell).withFilter filter)

/-- Where the filter is not asked, a matcher decides as without it. -/
theorem decide_of_not_sought (hstopped : matcher.isStopped = false)
    (hnot : ¬Considers.Sought matcher.bare cell) :
    (matcher.decide cell).value =
      (matcher.bare.decide cell).value.map id
        (·.refitted matcher.filter matcher.exactColumn) := by
  have hsame : matcher.bare.refitted matcher.filter matcher.exactColumn = matcher := rfl
  rw [← hsame] at hstopped
  refine decide_refitted rfl hstopped fun after hrow hage hvalue hmasked hposition => ?_
  obtain ⟨hhides, rfl⟩ := Prod.mk.inj (eq_of_isMasked hmasked)
  exact absurd ⟨⟨⟨hrow, hage⟩, hvalue, hhides.symm⟩, hposition⟩ hnot

/-- A value that the filter is asked about is decided on by the answer. -/
theorem Considers.Sought.decide_eq (hsought : Considers.Sought matcher.bare cell)
    (hfits : Fits matcher cell) (hstopped : matcher.isStopped = false) :
    (matcher.decide cell).value = ((matcher.afterMarkers cell).decideValue cell).value := by
  have hrow := (decideRow_of_not_stopped hstopped).trans hsought.row
  have hposition : matcher.timeRange.position cell.timestamp = .eq := hsought.position
  rw [Matcher.decide, hrow]
  exact (decideCell_live (isMasked_eq hfits) hsought.age hsought.value hsought.live).trans
    (by rw [hposition])

/-- A decision without the filter changes nothing that the filter has to do with. -/
theorem Ready.refitted_judge (hready : Ready family matcher.bare (cell :: rest))
    (kept : Option φ) :
    (matcher.bare.judge cell).2.refitted kept matcher.exactColumn =
      (matcher.bare.judge cell).2.withFilter kept := by
  have hexact : (matcher.bare.judge cell).2.exactColumn = matcher.exactColumn :=
    (congrArg exactColumn hready.judged.2.reset_eq :)
  rw [← hexact]
  rfl

/-- A decision without the filter has none to remember. -/
theorem Ready.judge_bare (hready : Ready family matcher.bare (cell :: rest)) :
    (matcher.bare.judge cell).2.bare = (matcher.bare.judge cell).2 := by
  have hfilter : (matcher.bare.judge cell).2.filter = none :=
    (filter_of_reset hready.judged.2.reset_eq :)
  rw [bare, withFilter, ← hfilter]

omit [CellFilter φ] in
theorem bare_of_unfiltered (hfilter : matcher.filter = none) : matcher.bare = matcher := by
  rw [bare, withFilter, ← hfilter]

/-- A matcher without a filter decides as such. -/
theorem Ready.decide_unfiltered (hready : Ready family matcher.bare (cell :: rest))
    (hfilter : matcher.filter = none) :
    (matcher.decide cell).value =
      (.ok (matcher.bare.judge cell).1, (matcher.bare.judge cell).2.withFilter none) := by
  obtain ⟨hdecide, -⟩ := hready.judged
  have hnext : (matcher.bare.judge cell).2.withFilter none = _ := hready.judge_bare
  rw [hnext, ← hdecide, bare_of_unfiltered hfilter]

/-- The filter is asked about a value, and its answer carried out. -/
theorem Considers.Sought.decide_asked (hsought : Considers.Sought matcher.bare cell)
    (hfits : Fits matcher cell) (hstopped : matcher.isStopped = false) {filter : φ}
    (hfilter : matcher.filter = some filter) :
    (matcher.decide cell).value =
      (((matcher.afterMarkers cell).withFilter
        (some (CellFilter.judgeCell filter cell).2)).applyVerdict
          (CellFilter.judgeCell filter cell).2 cell
            (CellFilter.judgeCell filter cell).1).value := by
  have hafter : (matcher.afterMarkers cell).filter = some filter := hfilter
  rw [hsought.decide_eq hfits hstopped]
  simp only [decideValue, hafter, Noted.value_bind]
  rfl

/-- A value that is kept is decided on by its versions. -/
theorem Considers.Sought.decideVersion_eq (hsought : Considers.Sought matcher.bare cell)
    (hready : Ready family matcher.bare (cell :: rest)) (kept : Option φ) :
    ((matcher.afterMarkers cell).withFilter kept).decideVersion cell =
      (.ok (matcher.bare.judge cell).1, (matcher.bare.judge cell).2.withFilter kept) := by
  have hfits := hready.fits cell List.mem_cons_self
    (row_eq_of_decideRow hready.plain hsought.row hready.entered)
  obtain ⟨hdecide, -⟩ := hready.judged
  have hbare : Considers.Sought matcher.bare.bare cell := hsought
  rw [hbare.decide_eq hfits rfl, decideValue_unfiltered rfl] at hdecide
  have hkept :=
    decideVersion_refitted (matcher.bare.afterMarkers cell) kept matcher.exactColumn cell
  rw [hdecide, Prod.map_apply, hready.refitted_judge] at hkept
  exact hkept

/-- A cell that comes in order is decided on as without the filter, or the filter leaves out values
that it rejects. -/
theorem Ready.exists_sieved (hready : Ready family matcher.bare (cell :: rest))
    (hstopped : matcher.isStopped = false)
    (hsifts : CellFilter.Sifts keepsRow accepts matcher.filter) :
    ∃ decision next, (matcher.decide cell).value = (.ok decision, next) ∧
      Sieved accepts matcher cell decision next := by
  obtain ⟨hdecide, -⟩ := hready.judged
  by_cases hsought : Considers.Sought matcher.bare cell
  · have hfits := hready.fits cell List.mem_cons_self
      (row_eq_of_decideRow hready.plain hsought.row hready.entered)
    cases hfilter : matcher.filter with
    | none =>
        rw [hfilter] at hsifts
        refine ⟨_, _, hready.decide_unfiltered hfilter, .same none ?_ fun _ => hsifts.2 cell⟩
        rw [hfilter]
        exact .unasked none
    | some filter =>
        rw [hfilter] at hsifts
        have hheard : Heard cell matcher.filter (some (CellFilter.judgeCell filter cell).2) :=
          hfilter ▸ .asked filter
        have hhonors := hsifts.judgeCell filter cell .start
        rw [hsought.decide_asked ⟨hfits.column, hfits.marker⟩ hstopped hfilter]
        generalize (CellFilter.judgeCell filter cell).1 = verdict at hhonors
        cases hhonors with
        | keep haccepts =>
            exact ⟨_, _, hsought.decideVersion_eq hready _, .same _ hheard fun _ => haccepts⟩
        | skip hrejects => exact ⟨_, _, rfl, .skipped _ hheard hsought hrejects⟩
        | nextRow hrejects => exact ⟨_, _, rfl, .row _ hheard hsought hrejects⟩
        | seekHint column hhint hlt hrejects =>
            simp only [applyVerdict, Noted.value_bind, hhint]
            exact ⟨_, _, rfl, .leads _ column hheard hsought hlt hrejects⟩
  -- the filter is not asked
  · refine ⟨_, _, ?_, .same matcher.filter (.unasked _) fun hfound => absurd hfound hsought⟩
    rw [decide_of_not_sought hstopped hsought, hdecide, Prod.map_apply, hready.refitted_judge]
    rfl

end Matcher

end MergeScan
