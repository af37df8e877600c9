import MergeScan.Proofs.Filter.Sieves

/-! # Filters that pick cells

The simplest filter keeps or skips each cell for what it is. It has no say about rows, about where
to go on or about the end of the scan. A script is of this kind if it only lists such verdicts.
-/

namespace MergeScan

namespace CellFilter

variable {φ : Type} [CellFilter φ] {accepts : Cell → Bool} {filter reached : φ}

/-- A filter that says of each cell, whatever it was asked before, whether it is kept, and does
nothing else. -/
structure Picks (accepts : Cell → Bool) (filter : φ) : Prop where
  reshape reached cell : Reaches filter reached → CellFilter.reshape reached cell = cell
  judgeRow reached row : Reaches filter reached → (CellFilter.judgeRow reached row).1 = false
  judgeCell reached cell : Reaches filter reached →
    (CellFilter.judgeCell reached cell).1 = if accepts cell then .keep else .skip
  byCell reached : Reaches filter reached → needsWholeRow reached = false
  goesOn reached : Reaches filter reached → stopsScan reached = false

theorem Picks.of_reaches (hpicks : Picks accepts filter) (hreaches : Reaches filter reached) :
    Picks accepts reached where
  reshape later cell hlater := hpicks.reshape later cell (hreaches.trans hlater)
  judgeRow later row hlater := hpicks.judgeRow later row (hreaches.trans hlater)
  judgeCell later cell hlater := hpicks.judgeCell later cell (hreaches.trans hlater)
  byCell later hlater := hpicks.byCell later (hreaches.trans hlater)
  goesOn later hlater := hpicks.goesOn later (hreaches.trans hlater)

theorem Picks.steady (hpicks : Picks accepts filter) : Steady filter where
  byCell := hpicks.byCell
  stopped reached _ hreached _ hstops := by
    rw [hpicks.goesOn reached hreached] at hstops
    cases hstops

/-- To skip a cell is a way to leave out a value. -/
theorem Picks.sieves (hpicks : Picks accepts filter) : Sieves (fun _ => true) accepts filter where
  reshape := hpicks.reshape
  judgeRow reached row hreaches := by rw [hpicks.judgeRow reached row hreaches, Bool.not_true]
  judgeCell reached cell hreaches := by
    rw [hpicks.judgeCell reached cell hreaches]
    cases haccepts : accepts cell with
    | true => exact .keep haccepts
    | false => exact .skip haccepts
  stopsAtRow reached row hreaches hstops := by
    rw [hpicks.goesOn _ (hreaches.judgeRow row)] at hstops
    cases hstops
  resets reached hreaches _ := hpicks.goesOn _ hreaches.reset
  goesOn reached cell hreaches _ := hpicks.goesOn _ (hreaches.judgeCell cell)

/-- A filter that picks cells, or none, which accepts all of them. -/
def Chooses (accepts : Cell → Bool) : Option φ → Prop
  | some filter => Picks accepts filter
  | none => ∀ cell, accepts cell = true

variable {first second : Option φ}

theorem Chooses.comesTo (hchooses : Chooses accepts first) (hcomes : ComesTo first second) :
    Chooses accepts second := by
  match first, second with
  | none, none => exact hchooses
  | some first, some second => exact Picks.of_reaches hchooses hcomes

theorem Chooses.steady (hchooses : Chooses accepts first) : ∀ state ∈ first, Steady state := by
  rintro state hstate
  obtain rfl := Option.mem_def.mp hstate
  exact Picks.steady hchooses

/-- Such a filter hands out cells as they are. -/
theorem Chooses.eq_of_shapes {cell shaped : Cell} (hchooses : Chooses accepts first)
    (hshapes : Shapes first cell shaped) : shaped = cell := by
  cases first with
  | none => exact hshapes
  | some filter =>
      obtain ⟨reached, hreached, hshaped⟩ := hshapes
      exact hshaped.trans (hchooses.reshape reached cell hreached)

end CellFilter

open CellFilter

/-- In every state, a script has the same table. -/
theorem FilterScript.of_reaches {script : FilterScript} {reached : AnyFilter}
    (hreaches : Reaches (.scripted script) reached) :
    ∃ rowsSeen, reached = .scripted { script with rowsSeen } := by
  induction hreaches with
  | start => exact ⟨script.rowsSeen, rfl⟩
  | reset _ ih =>
      obtain ⟨rowsSeen, rfl⟩ := ih
      exact ⟨rowsSeen, rfl⟩
  | judgeRow row _ ih =>
      obtain ⟨rowsSeen, rfl⟩ := ih
      exact ⟨rowsSeen + 1, rfl⟩
  | judgeCell cell _ ih =>
      obtain ⟨rowsSeen, rfl⟩ := ih
      exact ⟨rowsSeen, rfl⟩

/-- The verdict of a script is one of those that it lists. -/
theorem FilterScript.verdict_of_rules (script : FilterScript) {listed : Verdict → Prop}
    (hrules : ∀ rule ∈ script.rules, listed rule.verdict) (hotherwise : listed script.otherwise)
    (cell : Cell) : listed (script.verdict cell) := by
  unfold verdict
  split
  next rule hrule => exact hrules rule (List.mem_of_find?_eq_some hrule)
  next => exact hotherwise

/-- A script that only keeps and skips cells accepts those that it keeps. -/
theorem FilterScript.picks {script : FilterScript}
    (hrules : ∀ rule ∈ script.rules, rule.verdict = .keep ∨ rule.verdict = .skip)
    (hotherwise : script.otherwise = .keep ∨ script.otherwise = .skip)
    (hrows : script.dropRows = []) (hstop : script.stopAfter = none)
    (hvalue : script.value = none) (hcount : script.minCells = none) :
    Picks (fun cell => script.verdict cell = .keep) (AnyFilter.scripted script) where
  reshape reached cell hreaches := by
    obtain ⟨rowsSeen, rfl⟩ := FilterScript.of_reaches hreaches
    simp only [CellFilter.reshape, hvalue]
  judgeRow reached row hreaches := by
    obtain ⟨rowsSeen, rfl⟩ := FilterScript.of_reaches hreaches
    simp only [CellFilter.judgeRow, hrows, Prod.map_fst, List.contains_nil, id]
  judgeCell reached cell hreaches := by
    obtain ⟨rowsSeen, rfl⟩ := FilterScript.of_reaches hreaches
    have hsame : (CellFilter.judgeCell (AnyFilter.scripted { script with rowsSeen }) cell).1 =
        script.verdict cell := rfl
    rw [hsame]
    rcases @script.verdict_of_rules (fun verdict => verdict = .keep ∨ verdict = .skip) hrules
      hotherwise cell with hkeep | hskip
    · simp [hkeep]
    · simp [hskip]
  byCell reached hreaches := by
    obtain ⟨rowsSeen, rfl⟩ := FilterScript.of_reaches hreaches
    simp only [CellFilter.needsWholeRow, hcount, Option.isSome_none]
  goesOn reached hreaches := by
    obtain ⟨rowsSeen, rfl⟩ := FilterScript.of_reaches hreaches
    simp only [CellFilter.stopsScan, hstop]

end MergeScan
