import MergeScan.Proofs.Merge.Steps
import MergeScan.Proofs.Merge.Stream

/-! # Moving a merge

The operations of a merge in terms of the list that it goes through: to advance is
to take its first cell, and to move forward to a key is to drop what lies below it.
-/

namespace MergeScan.Merge

variable {σ : Type} [Source σ] {order : CellOrder} [LawfulSource σ order]
variable {merge : Merge σ}

/-- An operation moved a merge so that `rest` is left of what it goes through, or it
failed. It does not fail if no source does. -/
structure Moved {α : Type} (order : CellOrder) [LawfulSource σ order] (merge : Merge σ)
    (rest : List Cell) (outcome : Except SourceError α × Merge σ) : Prop where
  sound : Sound order outcome.2
  stream : outcome.1.isOk = true → outcome.2.stream = rest
  reliable : Reliable order merge → outcome.1.isOk = true ∧ Reliable order outcome.2

variable [Std.TransCmp order.compare]

/-! ## Taking cells -/

omit [Std.TransCmp order.compare] in
/-- The sources keep their ranks while the current one goes on. -/
theorem Sound.distinct_advanced (hmerge : Sound order merge) : Part.Distinct merge.advanced := by
  unfold advanced
  split
  next => exact List.Pairwise.nil
  next entry hcurrent =>
    have hdistinct := hmerge.distinct
    rw [parts, entries_of_current hcurrent] at hdistinct
    exact List.pairwise_cons.mpr (List.pairwise_cons.mp hdistinct)

/-- A merge that has left of its sources what another one has but for the cell on top goes through
the rest of the list. -/
theorem Sound.of_advanced (hmerge : Sound order merge) {next : Merge σ}
    (hnext : next.Led order fun _ => order.Sorted)
    (hparts : next.parts.Perm (Part.stocked merge.advanced)) :
    Sound order next ∧ next.stream = merge.stream.tail := by
  refine ⟨hnext.sound (hmerge.distinct_advanced.stocked.perm hparts.symm), ?_⟩
  rw [stream_of_parts hnext.sameOrder hmerge.distinct_advanced hparts]
  cases hcurrent : merge.current with
  | none => simp [hmerge.stream_eq_nil hcurrent, advanced, hcurrent]
  | some entry => rw [hmerge.stream_eq hcurrent, List.tail_cons, advanced, hcurrent]

/-- To advance is to take the first cell of the list. -/
theorem Sound.advance_moved (hmerge : Sound order merge) :
    Moved order merge merge.stream.tail merge.advance.value := by
  have hadvances := hmerge.led.advance
  cases hresult : merge.advance.value.1 with
  | error failure =>
      refine ⟨hadvances.led.sound ?_, fun hok => ?_, hadvances.reliable⟩
      · rw [(hadvances.failed failure hresult).parts]
        exact hmerge.distinct
      · rw [hresult] at hok
        cases hok
  | ok answer =>
      obtain ⟨hsound, hstream⟩ :=
        hmerge.of_advanced hadvances.led (hadvances.taken answer hresult).2
      exact ⟨hsound, fun _ => hstream, hadvances.reliable⟩

/-- The answer of an advance is the cell that was on top. -/
theorem Sound.advance_answer (hmerge : Sound order merge) {answer : Option Cell}
    (hanswer : merge.advance.value.1 = .ok answer) : answer = merge.peek :=
  (hmerge.led.advance.taken answer hanswer).1

/-! ## Moving forward -/

/-- A merge that has left of its sources what another one has from a key on goes through the list
from the key on. -/
theorem Sound.of_skipTo (hmerge : Sound order merge) {next : Merge σ} {key : Cell}
    (hnext : next.Led order fun _ => order.Sorted)
    (hparts : next.parts.Perm (Part.stocked (merge.parts.map (Part.skipTo order key)))) :
    Sound order next ∧ next.stream = order.skipTo key merge.stream := by
  have hdistinct : Part.Distinct (merge.parts.map (Part.skipTo order key)) :=
    List.pairwise_map.mpr hmerge.distinct
  refine ⟨hnext.sound (hdistinct.stocked.perm hparts.symm), ?_⟩
  rw [stream_of_parts hnext.sameOrder hdistinct hparts,
    CellOrder.merged_skipTo hmerge.sorted_parts, stream, hmerge.sameOrder]

/-- To move forward to a key is to drop what lies below it. -/
theorem Sound.moveForward_moved {positioning : Positioning σ} {key : Cell}
    (hpositioning : positioning.LawfulForward order)
    (hmerge : Sound order merge) :
    Moved order merge (order.skipTo key merge.stream)
      (merge.moveForward positioning key).value := by
  have hshifts := hmerge.led.moveForward (hpositioning.forward _) key
  exact ⟨hshifts.led.sound (hshifts.shifted.distinct hmerge.distinct fun _ => rfl),
    fun hok => (hmerge.of_skipTo hshifts.led (hshifts.complete hok)).2, hshifts.reliable⟩

theorem Sound.reseek_moved (hmerge : Sound order merge) (key : Cell) :
    Moved order merge (order.skipTo key merge.stream) (merge.reseek key).value :=
  hmerge.moveForward_moved Positioning.reseek_lawfulForward

theorem Sound.seekExactly_moved (hmerge : Sound order merge) (key : Cell) :
    Moved order merge (order.skipTo key merge.stream) (merge.seekExactly key true).value :=
  hmerge.moveForward_moved Positioning.exactly_lawfulForward

/-! ## Opening and draining -/

/-- A merge of sources goes through all that they have left. -/
theorem ofSources_sound {sources : List σ}
    (hsources : ∀ source ∈ sources, LawfulSource.Sound order source)
    (hdistinct : Part.Distinct (sources.map Source.part)) :
    Sound order (ofSources order sources).value ∧
      (ofSources order sources).value.stream = order.merged (sources.map Source.part) := by
  obtain ⟨hled, hparts⟩ := @ofSources_led _ _ _ _ (fun _ => order.Sorted) _ _ hsources
  exact ⟨hled.sound (hdistinct.stocked.perm hparts.symm),
    stream_of_parts hled.sameOrder hdistinct hparts⟩

omit [Std.TransCmp order.compare] in
theorem Reliable.takeInAll {sources : List σ} (hreliable : Reliable order merge)
    (hsources : ∀ source ∈ sources, LawfulSource.Reliable order source) :
    Reliable order (merge.takeInAll sources).value := by
  induction sources generalizing merge with
  | nil => exact hreliable
  | cons source rest ih =>
      obtain ⟨hsource, hrest⟩ := List.forall_mem_cons.mp hsources
      simp only [Merge.takeInAll, Noted.value_bind]
      exact ih (hreliable.takeIn hsource) hrest

omit [Std.TransCmp order.compare] in
theorem ofSources_reliable {sources : List σ}
    (hreliable : ∀ source ∈ sources, LawfulSource.Reliable order source) :
    Reliable order (ofSources order sources).value := by
  have hstart : Reliable order (⟨order, none, .empty, []⟩ : Merge σ) := nofun
  exact (hstart.takeInAll hreliable).promote (current_takeInAll _ sources)

/-- A merge whose sources do not fail hands out all of its list. -/
theorem Sound.drainFor_eq {fuel : Nat} (hmerge : Sound order merge)
    (hreliable : Reliable order merge) (hfuel : merge.stream.length < fuel) :
    (drainFor fuel merge).value.1 = (merge.stream, none) := by
  induction fuel generalizing merge with
  | zero => omega
  | succ fuel ih =>
      have hmoved := hmerge.advance_moved
      obtain ⟨hok, hrest⟩ := hmoved.reliable hreliable
      simp only [drainFor, Noted.value_bind]
      cases hresult : merge.advance.value.1 with
      | error failure =>
          rw [hresult] at hok
          cases hok
      | ok answer =>
          have hanswer := hmerge.advance_answer hresult
          rw [hmerge.peek_eq] at hanswer
          have hstream := hmoved.stream hok
          cases answer with
          | none => rw [List.head?_eq_none_iff.mp hanswer.symm]; rfl
          | some cell =>
              obtain ⟨rest, hcells⟩ := List.head?_eq_some_iff.mp hanswer.symm
              rw [hcells, List.tail_cons] at hstream
              rw [hcells, List.length_cons] at hfuel
              have hdrained := ih hmoved.sound hrest (by rw [hstream]; omega)
              rw [hstream] at hdrained
              simp only [Noted.value_bind, Noted.value_pure, hdrained, hcells]

theorem Sound.drain_eq (hmerge : Sound order merge) (hreliable : Reliable order merge) :
    merge.drain.value.1 = (merge.stream, none) := by
  apply hmerge.drainFor_eq hreliable
  rw [cellCount_eq]
  exact Nat.lt_succ_self _

/-! ## Merges that do not fail -/

section

variable {cells : List Cell}

/-- A merge that goes through a list, and whose sources do not fail. -/
structure Offers (order : CellOrder) [LawfulSource σ order] (merge : Merge σ)
    (cells : List Cell) : Prop where
  sound : Sound order merge
  reliable : Reliable order merge
  stream : merge.stream = cells

omit [Std.TransCmp order.compare] in
theorem Offers.moved {α : Type} (hoffers : merge.Offers order cells) {next : List Cell}
    {outcome : Except SourceError α × Merge σ} (hmoved : Moved order merge next outcome) :
    outcome.1.isOk = true ∧ outcome.2.Offers order next := by
  obtain ⟨hok, hreliable⟩ := hmoved.reliable hoffers.reliable
  exact ⟨hok, hmoved.sound, hreliable, hmoved.stream hok⟩

theorem Offers.peek_eq (hoffers : merge.Offers order cells) : merge.peek = cells.head? := by
  rw [hoffers.sound.peek_eq, hoffers.stream]

theorem Offers.sorted (hoffers : merge.Offers order cells) : order.Sorted cells := by
  rw [← hoffers.stream]
  exact hoffers.sound.sorted_stream

end

end MergeScan.Merge
