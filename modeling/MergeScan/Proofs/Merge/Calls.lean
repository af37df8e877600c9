import MergeScan.Proofs.Merge.Moves
import MergeScan.Proofs.Source.Scripted

/-! # Calls on a merge

Whatever is called on a merge, and whichever sources fail at it, the merge goes on to
stand for one sorted list: the cells that its live sources have left. An advance takes
the first cell of the list, a movement forward drops what lies below the key, and a seek
starts over with the cells of the sources that were still live. A call that fails leaves
no source behind that has cells.
-/

namespace MergeScan

open CellOrder

/-- A call on a merge. -/
inductive MergeCall
  | advance
  | reseek (key : Cell)
  | seekExactly (key : Cell) (forward : Bool)
  | seek (key : Cell)

/-- What a call on a merge answers: the cell that was taken, or whether a cell is left. -/
inductive MergeAnswer
  | taken (cell : Option Cell)
  | found (some : Bool)

namespace MergeCall

variable {σ : Type} [Source σ]

/-- Do what is called for. -/
def perform (merge : Merge σ) : MergeCall → Except SourceError MergeAnswer × Merge σ
  | .advance => (merge.advance.value.1.map .taken, merge.advance.value.2)
  | .reseek key => ((merge.reseek key).value.1.map .found, (merge.reseek key).value.2)
  | .seekExactly key forward =>
    ((merge.seekExactly key forward).value.1.map .found, (merge.seekExactly key forward).value.2)
  | .seek key => ((merge.seek key).value.1.map .found, (merge.seek key).value.2)

/-- Do what is called for, one call after the other, whether they fail or not. -/
def performAll (merge : Merge σ) : List MergeCall → Merge σ
  | [] => merge
  | call :: rest => performAll (perform merge call).2 rest

end MergeCall

namespace Positioning

variable {σ : Type} [Source σ] {order : CellOrder} [LawfulSource σ order]
variable [Std.TransCmp order.compare]

/-- In a source whose cells are in order, a direct positioning from anywhere that goes forward
is one among the cells that are left. -/
theorem exactly_forward {admits : Nat → List Cell → Prop}
    (hsorted : ∀ rank cells, admits rank cells → order.Sorted cells) (forward : Bool) :
    (exactly forward : Positioning σ).Forward order admits := by
  intro source cells top key hholds hadmits htop hlt
  cases forward with
  | true => exact exactly_lawfulForward hholds htop hlt
  | false =>
      obtain ⟨before, hcells⟩ := LawfulSource.suffix hholds
      have hbelow : ∀ cell ∈ before, order.compare cell key = .lt := by
        intro cell hcell
        rw [LawfulSource.peek_eq hholds] at htop
        have hcross := (List.pairwise_append.mp (hcells ▸ hsorted _ _ hadmits)).2.2
        exact Std.TransCmp.lt_of_isLE_of_lt (hcross cell hcell top (List.mem_of_head? htop)) hlt
      have hskip := skipTo_append_of_lt hbelow (Source.remaining source)
      rw [hcells] at hskip
      rw [← hskip]
      exact exactly_lawful key hholds

end Positioning

namespace Merge

variable {σ : Type} [Source σ] {order : CellOrder} {merge : Merge σ}

/-- The sources of a merge that have cells left. -/
def live (merge : Merge σ) : List σ :=
  merge.entries.map MergeEntry.source

/-- What a merge shows, whatever was called on it: the first cell of its list is on top, and
that is the smallest one under the cursors of the live sources, of equal ones that of the
freshest source. -/
structure Shows (order : CellOrder) (merge : Merge σ) : Prop where
  first : merge.peek = merge.stream.head?
  least top : merge.peek = some top → ∃ source ∈ merge.live, Source.peek source = some top ∧
    ∀ other ∈ merge.live, ∀ cell, Source.peek other = some cell →
      order.compare top cell = .lt ∨ order.compare top cell = .eq ∧
        Source.sequenceId other ≤ Source.sequenceId source
  cells source : source ∈ merge.live → Source.remaining source ≠ []
  size : merge.size = merge.live.length
  isEmpty : merge.isEmpty = true ↔ merge.live = []

/-- What a call does to the list of a merge, where `held` are the cells of the source of each
rank. Where it fails, each source was moved or stands where it stood, and is live as long as it
has cells. -/
def Refines (order : CellOrder) (held : Nat → List Cell) (merge : Merge σ) :
    MergeCall → Except SourceError MergeAnswer × Merge σ → Prop
  | .advance, (.ok answer, after) =>
    answer = .taken merge.stream.head? ∧ after.stream = merge.stream.tail
  | .reseek key, (.ok _, after) | .seekExactly key _, (.ok _, after) =>
    after.stream = order.skipTo key merge.stream
  | .seek key, (.ok _, after) =>
    after.stream = order.merged (merge.parts.map (seekPart order held key))
  | .advance, (.error _, after) => Unmoved merge after
  | .reseek key, (.error _, after) | .seekExactly key _, (.error _, after) =>
    Part.Shifted (Part.skipTo order key) merge.parts after.parts
  | .seek key, (.error _, after) =>
    Part.Shifted (seekPart order held key) merge.parts after.parts

variable [LawfulSource σ order]

theorem Led.mono {admits others : Nat → List Cell → Prop} (hmerge : Led order admits merge)
    (himplies : ∀ rank cells, admits rank cells → others rank cells) : Led order others merge where
  sameOrder := hmerge.sameOrder
  held entry hentry :=
    have ⟨cells, hholds, hadmits⟩ := hmerge.held entry hentry
    ⟨cells, hholds, himplies _ _ hadmits⟩
  top := hmerge.top
  heap := hmerge.heap
  first := hmerge.first
  idle := hmerge.idle

/-- A merge whose sources hold the cells of their ranks, which are in order. -/
structure Carries (order : CellOrder) [LawfulSource σ order] (held : Nat → List Cell)
    (merge : Merge σ) : Prop where
  led : Led order (fun rank cells => cells = held rank ∧ order.Sorted cells) merge
  distinct : Part.Distinct merge.parts

variable {held : Nat → List Cell}

theorem Carries.sound (hmerge : Carries order held merge) : Sound order merge :=
  (hmerge.led.mono fun _ _ hadmits => hadmits.2).sound hmerge.distinct

variable [Std.TransCmp order.compare]

/-- Everything that a merge shows is there to see in its entries. -/
theorem Sound.shows (hmerge : Sound order merge) : Shows order merge where
  first := hmerge.peek_eq
  least top htop := by
    obtain ⟨entry, hcurrent, rfl⟩ := Option.map_eq_some_iff.mp htop
    have hentry := mem_entries_of_current hcurrent
    refine ⟨entry.source, List.mem_map_of_mem hentry, hmerge.top entry hentry, ?_⟩
    intro other hother cell hcell
    obtain ⟨another, hanother, rfl⟩ := List.mem_map.mp hother
    rw [hmerge.top another hanother] at hcell
    rw [← Option.some.inj hcell]
    exact MergeEntry.le_iff.mp (hmerge.led.le_of_mem hcurrent hanother)
  cells source hsource := by
    obtain ⟨entry, hentry, rfl⟩ := List.mem_map.mp hsource
    rw [hmerge.tidy.remaining_eq hentry]
    exact List.cons_ne_nil _ _
  size := by
    rw [live, List.length_map, size]
    cases hcurrent : merge.current with
    | none =>
        rw [entries_of_idle hcurrent]
        rfl
    | some entry =>
        rw [entries_of_current hcurrent]
        rfl
  isEmpty := by
    rw [isEmpty, Option.isNone_iff_eq_none, live, List.map_eq_nil_iff]
    constructor
    · intro hidle
      rw [entries_of_idle hidle, hmerge.idle hidle]
    · intro hnone
      cases hcurrent : merge.current with
      | none => rfl
      | some entry => cases (entries_of_current hcurrent).symm.trans hnone

omit [Std.TransCmp order.compare] in
/-- A movement of the sources of a merge keeps its list in order, and shows in it. -/
theorem Carries.shifts (hmerge : Carries order held merge) {move : Part → Part}
    {outcome : Except SourceError Bool × Merge σ}
    (hshifts : Shifts order (fun rank cells => cells = held rank ∧ order.Sorted cells) move merge
      outcome) (hrank : ∀ part, (move part).rank = part.rank) :
    Carries order held outcome.2 ∧
      (outcome.1.isOk = true → outcome.2.stream = order.merged (merge.parts.map move)) := by
  refine ⟨⟨hshifts.led, hshifts.shifted.distinct hmerge.distinct hrank⟩, fun hok => ?_⟩
  have hdistinct : Part.Distinct (merge.parts.map move) := by
    refine List.pairwise_map.mpr (hmerge.distinct.imp fun hne => ?_)
    rwa [hrank, hrank]
  exact stream_of_parts hshifts.led.sameOrder hdistinct (hshifts.complete hok)

/-- A movement forward drops what lies below the key from the list. -/
theorem Carries.moveForward (hmerge : Carries order held merge) {positioning : Positioning σ}
    (hpositioning : positioning.Forward order
      fun rank cells => cells = held rank ∧ order.Sorted cells) (key : Cell) :
    let outcome := (merge.moveForward positioning key).value
    Carries order held outcome.2 ∧
      Part.Shifted (Part.skipTo order key) merge.parts outcome.2.parts ∧
      (outcome.1.isOk = true → outcome.2.stream = order.skipTo key merge.stream) := by
  have hshifts := hmerge.led.moveForward hpositioning key
  obtain ⟨hcarries, hstream⟩ := hmerge.shifts hshifts fun _ => rfl
  refine ⟨hcarries, hshifts.shifted, fun hok => ?_⟩
  rw [hstream hok, merged_skipTo hmerge.sound.sorted_parts, stream, hmerge.led.sameOrder]

/-- Every call does to the list what it is called for, or fails. -/
theorem Carries.perform (hmerge : Carries order held merge) (call : MergeCall) :
    Carries order held (call.perform merge).2 ∧
      Refines order held merge call (call.perform merge) := by
  cases call with
  | advance =>
      have hmoved := hmerge.sound.advance_moved
      have hadvances := hmerge.led.advance
      refine ⟨⟨hadvances.led, hmoved.sound.distinct⟩, ?_⟩
      simp only [MergeCall.perform]
      cases hresult : merge.advance.value.1 with
      | error failure => exact hadvances.failed failure hresult
      | ok answer =>
          have hok : merge.advance.value.1.isOk = true := by rw [hresult]; rfl
          have hanswer := hmerge.sound.advance_answer hresult
          rw [hmerge.sound.peek_eq] at hanswer
          exact ⟨congrArg _ hanswer, hmoved.stream hok⟩
  | reseek key =>
      obtain ⟨hcarries, hshifted, hstream⟩ :=
        hmerge.moveForward (Positioning.reseek_lawfulForward.forward _) key
      refine ⟨hcarries, ?_⟩
      simp only [MergeCall.perform, Merge.reseek]
      cases hresult : (merge.moveForward Positioning.reseek key).value.1 with
      | error failure => exact hshifted
      | ok answer => exact hstream (by rw [hresult]; rfl)
  | seekExactly key forward =>
      obtain ⟨hcarries, hshifted, hstream⟩ :=
        hmerge.moveForward (Positioning.exactly_forward (fun _ _ hadmits => hadmits.2) forward) key
      refine ⟨hcarries, ?_⟩
      simp only [MergeCall.perform, Merge.seekExactly]
      cases hresult : (merge.moveForward (Positioning.exactly forward) key).value.1 with
      | error failure => exact hshifted
      | ok answer => exact hstream (by rw [hresult]; rfl)
  | seek key =>
      have hshifts := hmerge.led.seek (fun _ _ hadmits => hadmits.1) key
      obtain ⟨hcarries, hstream⟩ := hmerge.shifts hshifts fun _ => rfl
      refine ⟨hcarries, ?_⟩
      simp only [MergeCall.perform]
      cases hresult : (merge.seek key).value.1 with
      | error failure => exact hshifts.shifted
      | ok answer => exact hstream (by rw [hresult]; rfl)

theorem Carries.performAll (hmerge : Carries order held merge) (calls : List MergeCall) :
    Carries order held (MergeCall.performAll merge calls) := by
  induction calls generalizing merge with
  | nil => exact hmerge
  | cons call rest ih => exact ih (hmerge.perform call).1

/-- A merge of sources with cells in order refines the sorted list of these cells, whatever is
called on it and whichever of the calls fail. -/
theorem performAll_refines {sources : List σ} {held : Nat → List Cell}
    (hholds : ∀ source ∈ sources,
      LawfulSource.Holds order source (held (Source.sequenceId source)))
    (hsorted : ∀ source ∈ sources, order.Sorted (held (Source.sequenceId source)))
    (hdistinct : Part.Distinct (sources.map Source.part)) :
    (ofSources order sources).value.stream = order.merged (sources.map Source.part) ∧
      ∀ calls : List MergeCall,
        let merge := MergeCall.performAll (ofSources order sources).value calls
        Shows order merge ∧
          ∀ call : MergeCall, Refines order held merge call (call.perform merge) := by
  obtain ⟨hled, hparts⟩ := @ofSources_led _ _ order _
    (fun rank cells => cells = held rank ∧ order.Sorted cells) _ sources
    fun source hsource => ⟨_, hholds source hsource, rfl, hsorted source hsource⟩
  have hcarries : Carries order held (ofSources order sources).value :=
    ⟨hled, hdistinct.stocked.perm hparts.symm⟩
  refine ⟨stream_of_parts hled.sameOrder hdistinct hparts, fun calls => ?_⟩
  have hreached := hcarries.performAll calls
  exact ⟨hreached.sound.shows, fun call => (hreached.perform call).2⟩

/-- Two sources with the same cells, of which the fresher one cannot be positioned and the
staler one cannot be read. -/
theorem performAll_refines_of_scripts :
    let cells := [Cell.put [114] [102] [99] ⟨2⟩ [1], Cell.put [115] [102] [99] ⟨1⟩ [1]]
    let fresher : SourceScript := { sequenceId := 2, cells, failSeekAfter := some 0 }
    let staler : SourceScript := { sequenceId := 1, cells, failAdvanceAfter := some 0 }
    let sources := [fresher.open keys 0, staler.open keys 1]
    let calls := [.advance, .advance, .reseek (Cell.firstOnRow [115]), .seek (Cell.firstOnRow [])]
    let merge := MergeCall.performAll (ofSources keys sources).value calls
    ((∀ source ∈ sources, ScriptedSource.HoldsCells keys source cells) ∧ keys.Sorted cells ∧
      Part.Distinct (sources.map Source.part)) ∧
    (ofSources keys sources).value.stream = keys.merged (sources.map Source.part) ∧
      Shows keys merge ∧ ∀ call : MergeCall,
        Refines keys (fun _ => cells) merge call (call.perform merge) := by
  intro cells fresher staler sources calls merge
  have hholds : ∀ source ∈ sources, ScriptedSource.HoldsCells keys source cells := by
    simp only [sources, List.forall_mem_cons]
    exact ⟨⟨rfl, rfl, rfl⟩, ⟨rfl, rfl, rfl⟩, nofun⟩
  have hsorted : keys.Sorted cells := by
    simp only [CellOrder.Sorted, cells, List.pairwise_cons]
    decide
  have hdistinct : Part.Distinct (sources.map Source.part) := by
    simp only [Part.Distinct, sources, List.map_cons, List.pairwise_cons]
    exact ⟨by decide, nofun, List.Pairwise.nil⟩
  obtain ⟨hstream, hcalls⟩ :=
    @performAll_refines _ _ keys _ _ _ (fun _ => cells) hholds (fun _ _ => hsorted) hdistinct
  exact ⟨⟨hholds, hsorted, hdistinct⟩, hstream, hcalls calls⟩

end Merge

end MergeScan
