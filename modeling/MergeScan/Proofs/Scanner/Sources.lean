import MergeScan.Proofs.Merge.Moves
import MergeScan.Proofs.Source.Scripted
import MergeScan.Scanner.Basic

/-! # Taking sources

A provider that hands out fresh sources in order provides one sorted list. To take
its sources and to position them on a key is to take the part of that list from the
key on. The same holds of some of its sources, and it may be asked for less if all that
matters is what they have from a key on.
-/

namespace MergeScan

open CellOrder

variable {σ : Type} [Source σ] [LawfulSource σ keys]

namespace Supply

/-- The sources that a provider hands out for a request, if it does not fail. -/
def sources (supply : Supply σ) (request : SourceRequest) : List σ :=
  match supply request with
  | .ok sources => sources
  | .error _ => []

/-- What a provider has for a request, source by source. -/
def stock (supply : Supply σ) (request : SourceRequest) : List Part :=
  (supply.sources request).map Source.part

/-- A provider that answers a request with fresh sources whose rows are in any one order, no two of
them equally fresh, which hold cells of one family. -/
structure SoundIn (order : CellOrder) [LawfulSource σ order] (family : Bytes) (supply : Supply σ)
    (request : SourceRequest) : Prop where
  answers : (supply request).isOk = true
  fresh source : source ∈ supply.sources request → ∃ held, LawfulSource.Fresh order source held ∧
    order.Sorted held ∧ Cell.StoredIn family held
  distinct : Part.Distinct (supply.stock request)

/-- The list that the sources for a request make up together. -/
def cells (supply : Supply σ) (request : SourceRequest) : List Cell :=
  keys.merged ((supply.sources request).map Source.part)

/-- A provider that answers a request with fresh sources in order, no two of them equally
fresh, which hold cells of one family. -/
structure Sound (family : Bytes) (supply : Supply σ) (request : SourceRequest) : Prop where
  answers : (supply request).isOk = true
  fresh source : source ∈ supply.sources request → ∃ held, LawfulSource.Fresh keys source held ∧
    keys.Sorted held ∧ Cell.StoredIn family held
  distinct : Part.Distinct ((supply.sources request).map Source.part)

/-- A provider of sources in order, no two of them equally fresh, which hold cells of one family.
It may fail, and so may the sources. -/
structure Orderly (family : Bytes) (supply : Supply σ) (request : SourceRequest) : Prop where
  holds source : source ∈ supply.sources request →
    LawfulSource.Holds keys source (Source.remaining source)
  sorted source : source ∈ supply.sources request → keys.Sorted (Source.remaining source)
  stored source : source ∈ supply.sources request → Cell.StoredIn family (Source.remaining source)
  distinct : Part.Distinct ((supply.sources request).map Source.part)

variable {family : Bytes} {supply : Supply σ} {request : SourceRequest}

theorem Sound.soundIn (hsupply : Sound family supply request) :
    SoundIn keys family supply request :=
  ⟨hsupply.answers, hsupply.fresh, hsupply.distinct⟩

omit [LawfulSource σ keys] [Source σ] in
theorem answer_of_isOk (hanswers : (supply request).isOk = true) :
    supply request = .ok (supply.sources request) := by
  unfold sources
  split
  next heq => exact heq
  next heq =>
    rw [heq] at hanswers
    cases hanswers

theorem Sound.answer (hsupply : Sound family supply request) :
    supply request = .ok (supply.sources request) :=
  answer_of_isOk hsupply.answers

omit [LawfulSource σ keys] in
theorem SoundIn.stored {order : CellOrder} [LawfulSource σ order]
    (hsupply : SoundIn order family supply request) :
    Cell.StoredIn family (order.merged (supply.stock request)) := by
  intro cell hcell
  obtain ⟨part, hpart, hcell⟩ := mem_merged.mp hcell
  obtain ⟨source, hsource, rfl⟩ := List.mem_map.mp hpart
  obtain ⟨held, hfresh, -, hstored⟩ := hsupply.fresh source hsource
  exact hstored cell (hfresh.remaining ▸ hcell)

omit [LawfulSource σ keys] in
theorem cells_sorted (supply : Supply σ) (request : SourceRequest) :
    keys.Sorted (supply.cells request) :=
  merged_sorted _

theorem Sound.orderly (hsupply : Sound family supply request) : Orderly family supply request where
  holds source hsource :=
    have ⟨_, hfresh, _⟩ := hsupply.fresh source hsource
    hfresh.remaining ▸ hfresh.holds
  sorted source hsource :=
    have ⟨_, hfresh, hsorted, _⟩ := hsupply.fresh source hsource
    hfresh.remaining ▸ hsorted
  stored source hsource :=
    have ⟨_, hfresh, _, hstored⟩ := hsupply.fresh source hsource
    hfresh.remaining ▸ hstored
  distinct := hsupply.distinct

theorem Orderly.stored_cells (hsupply : Orderly family supply request) :
    Cell.StoredIn family (supply.cells request) := by
  intro cell hcell
  obtain ⟨part, hpart, hcell⟩ := mem_merged.mp hcell
  obtain ⟨source, hsource, rfl⟩ := List.mem_map.mp hpart
  exact hsupply.stored source hsource cell hcell

theorem Orderly.sorted_parts (hsupply : Orderly family supply request) :
    ∀ part ∈ (supply.sources request).map Source.part, keys.Sorted part.cells := by
  intro part hpart
  obtain ⟨source, hsource, rfl⟩ := List.mem_map.mp hpart
  exact hsupply.sorted source hsource

theorem Sound.stored (hsupply : Sound family supply request) :
    Cell.StoredIn family (supply.cells request) :=
  hsupply.orderly.stored_cells

end Supply

namespace SourceScript

variable (script : SourceScript) {family : Bytes}
variable (hreliable : script.failAdvanceAfter = none ∧ script.failSeekAfter = none)
variable (hstored : Cell.StoredIn family script.cells)
include hreliable hstored

/-- A script that never fails, with cells of one family in any one order, on its own. -/
theorem soundIn {order : CellOrder} (hsorted : order.Sorted script.cells)
    (request : SourceRequest) :
    Supply.SoundIn order family (fun _ => .ok [script.open order 0]) request where
  answers := rfl
  fresh source hsource := by
    obtain rfl := List.mem_singleton.mp hsource
    exact ⟨script.cells, ⟨⟨rfl, rfl, rfl⟩, hreliable, rfl⟩, hsorted, hstored⟩
  distinct := List.pairwise_singleton _ _

/-- A script that never fails, with sorted cells of one family, on its own. -/
theorem sound (hsorted : keys.Sorted script.cells) (request : SourceRequest) :
    Supply.Sound family (fun _ => .ok [script.open .keys 0]) request :=
  have hsound := script.soundIn hreliable hstored hsorted request
  ⟨hsound.answers, hsound.fresh, hsound.distinct⟩

end SourceScript

variable {family : Bytes} {supply : Supply σ} {request : SourceRequest}
variable {positioning : Positioning σ} {key : Cell} {sources : List σ}

omit [LawfulSource σ keys] in
/-- Sources that were placed one after the other hold what they held, and are left with it from
the key on. -/
theorem placeEach_ok {order : CellOrder} [LawfulSource σ order] {admits : Nat → List Cell → Prop}
    (hpositioning : positioning.Lawful order)
    (hheld : ∀ source ∈ sources, LawfulSource.Holds order source (Source.remaining source) ∧
      admits (Source.sequenceId source) (Source.remaining source)) {placed : List σ}
    (hplace : (placeEach positioning key sources).value = (none, placed)) :
    (∀ source ∈ placed, LawfulSource.Held order admits source) ∧
      placed.map Source.part = (sources.map Source.part).map (Part.skipTo order key) := by
  induction sources generalizing placed with
  | nil =>
      cases hplace
      exact ⟨nofun, rfl⟩
  | cons source rest ih =>
      obtain ⟨⟨hholds, hadmits⟩, hheld⟩ := List.forall_mem_cons.mp hheld
      simp only [placeEach, Noted.value_bind] at hplace
      cases hresult : (positioning source key).value.1 with
      | error failure =>
          rw [hresult] at hplace
          cases hplace
      | ok found =>
          simp only [hresult, Noted.value_bind, Noted.value_pure, Prod.mk.injEq] at hplace
          obtain ⟨hrest, rfl⟩ := hplace
          have hmoved := hpositioning key hholds
          obtain ⟨hrestHeld, hparts⟩ := ih hheld (Prod.ext hrest rfl)
          refine ⟨List.forall_mem_cons.mpr ⟨.of_moved hmoved hadmits, hrestHeld⟩, ?_⟩
          rw [List.map_cons, List.map_cons, List.map_cons, hparts, hmoved.part_of_ok hresult]
          rfl

omit [LawfulSource σ keys] in
theorem of_placeAll {placed : List σ}
    (hplace : (placeAll positioning key sources).value = .ok placed) :
    (placeEach positioning key sources).value = (none, placed) := by
  simp only [placeAll, Noted.value_bind] at hplace
  split at hplace
  next hnone => exact Prod.ext hnone (Except.ok.inj hplace)
  next => cases hplace

omit [LawfulSource σ keys] in
/-- Sources that do not fail are positioned one after the other, and still do not fail. -/
theorem placeEach_reliable {order : CellOrder} [LawfulSource σ order]
    (hpositioning : positioning.Lawful order) (key : Cell)
    (hsources : ∀ source ∈ sources, LawfulSource.Holds order source (Source.remaining source) ∧
      LawfulSource.Reliable order source) :
    ∃ placed, (placeEach positioning key sources).value = (none, placed) ∧
      ∀ source ∈ placed, LawfulSource.Reliable order source := by
  induction sources with
  | nil => exact ⟨[], rfl, nofun⟩
  | cons source rest ih =>
      obtain ⟨⟨hholds, hreliable⟩, hrest⟩ := List.forall_mem_cons.mp hsources
      obtain ⟨placed, hplace, hplaced⟩ := ih hrest
      obtain ⟨hok, hnext⟩ := (hpositioning key hholds).reliable hreliable
      cases hresult : (positioning source key).value.1 with
      | error failure =>
          rw [hresult] at hok
          cases hok
      | ok found =>
          refine ⟨(positioning source key).value.2 :: placed, ?_, ?_⟩
          · simp only [placeEach, Noted.value_bind, hresult, hplace]
            rfl
          · exact List.forall_mem_cons.mpr ⟨hnext, hplaced⟩

/-- The merge of the sources of a provider, positioned on a key, goes through the list of
the provider from the key on. -/
theorem Supply.Orderly.placed (hsupply : supply.Orderly family request)
    (hpositioning : positioning.Lawful keys) {placed : List σ}
    (hplace : (placeAll positioning key (supply.sources request)).value = .ok placed) :
    Merge.Sound keys (Merge.ofSources keys placed).value ∧
      (Merge.ofSources keys placed).value.stream = keys.skipTo key (supply.cells request) := by
  obtain ⟨hheld, hparts⟩ := @placeEach_ok _ _ _ _ _ keys _ (fun _ => keys.Sorted) hpositioning
    (fun source hsource => ⟨hsupply.holds source hsource, hsupply.sorted source hsource⟩) _
    (of_placeAll hplace)
  have hdistinct : Part.Distinct (placed.map Source.part) := by
    rw [hparts]
    exact List.pairwise_map.mpr hsupply.distinct
  obtain ⟨hsound, hstream⟩ := Merge.ofSources_sound hheld hdistinct
  refine ⟨hsound, ?_⟩
  rw [hstream, hparts, merged_skipTo hsupply.sorted_parts, Supply.cells]

omit [LawfulSource σ keys] in
/-- Where no source fails, the sources can be positioned on a key, and their merge goes through all
that they have from it on. -/
theorem Supply.placed_of_fresh {order : CellOrder} [LawfulSource σ order]
    [Std.TransCmp order.compare]
    (hfresh : ∀ source ∈ supply.sources request, ∃ held,
      LawfulSource.Fresh order source held ∧ order.Sorted held)
    (hdistinct : Part.Distinct (supply.stock request))
    (hpositioning : positioning.Lawful order) (key : Cell) :
    ∃ placed, (placeAll positioning key (supply.sources request)).value = .ok placed ∧
      (Merge.ofSources order placed).value.Offers order
        (order.skipTo key (order.merged (supply.stock request))) := by
  have hheld : ∀ source ∈ supply.sources request,
      LawfulSource.Holds order source (Source.remaining source) ∧
        order.Sorted (Source.remaining source) := by
    intro source hsource
    obtain ⟨held, hfresh, hsorted⟩ := hfresh source hsource
    rw [hfresh.remaining]
    exact ⟨hfresh.holds, hsorted⟩
  obtain ⟨placed, hplace, hreliable⟩ := placeEach_reliable hpositioning key fun source hsource =>
    have ⟨_, hfresh, _⟩ := hfresh source hsource
    ⟨(hheld source hsource).1, hfresh.reliable⟩
  obtain ⟨hplaced, hparts⟩ := @placeEach_ok _ _ _ _ _ order _ (fun _ => order.Sorted)
    hpositioning hheld _ hplace
  have hdistinct : Part.Distinct (placed.map Source.part) := by
    rw [hparts]
    exact List.pairwise_map.mpr hdistinct
  obtain ⟨hsound, hstream⟩ := Merge.ofSources_sound hplaced hdistinct
  refine ⟨placed, ?_, hsound, Merge.ofSources_reliable hreliable, ?_⟩
  · simp only [placeAll, Noted.value_bind, hplace]
    rfl
  · have hsorted : ∀ part ∈ supply.stock request, order.Sorted part.cells := by
      intro part hpart
      obtain ⟨source, hsource, rfl⟩ := List.mem_map.mp hpart
      exact (hheld source hsource).2
    rw [hstream, hparts, ← CellOrder.merged_skipTo hsorted]
    rfl

omit [LawfulSource σ keys] in
theorem Supply.SoundIn.placed {order : CellOrder} [LawfulSource σ order]
    [Std.TransCmp order.compare] (hsupply : supply.SoundIn order family request)
    (hpositioning : positioning.Lawful order) (key : Cell) :
    ∃ placed, (placeAll positioning key (supply.sources request)).value = .ok placed ∧
      Merge.Sound order (Merge.ofSources order placed).value ∧
      Merge.Reliable order (Merge.ofSources order placed).value ∧
      (Merge.ofSources order placed).value.stream =
        order.skipTo key (order.merged (supply.stock request)) := by
  obtain ⟨placed, hplaced, hoffers⟩ := supply.placed_of_fresh (fun source hsource =>
    have ⟨held, hfresh, hsorted, _⟩ := hsupply.fresh source hsource
    ⟨held, hfresh, hsorted⟩) hsupply.distinct hpositioning key
  exact ⟨placed, hplaced, hoffers.sound, hoffers.reliable, hoffers.stream⟩

/-- Where no source fails, the sources can be positioned. -/
theorem Supply.Sound.placed (hsupply : supply.Sound family request)
    (hpositioning : positioning.Lawful keys) (key : Cell) :
    ∃ placed, (placeAll positioning key (supply.sources request)).value = .ok placed ∧
      Merge.Sound keys (Merge.ofSources keys placed).value ∧
      Merge.Reliable keys (Merge.ofSources keys placed).value ∧
      (Merge.ofSources keys placed).value.stream = keys.skipTo key (supply.cells request) :=
  hsupply.soundIn.placed hpositioning key

omit [LawfulSource σ keys] in
theorem askFor_of_isOk (hanswers : (supply request).isOk = true) :
    (MergeScan.askFor supply request).value = .ok (supply.sources request) := by
  simp only [MergeScan.askFor, Noted.value_bind, Supply.answer_of_isOk hanswers]
  rfl

theorem Supply.Sound.askFor (hsupply : supply.Sound family request) :
    (MergeScan.askFor supply request).value = .ok (supply.sources request) :=
  askFor_of_isOk hsupply.answers

/-! ## Some of a provider's sources -/

/-- The request for the same from a row on. -/
def SourceRequest.startingAt (request : SourceRequest) (row : Bytes) : SourceRequest :=
  { request with rows := { request.rows with start := row } }

namespace Supply

variable {supply : Supply σ} {request first second : SourceRequest} {name : Bytes}
variable {kept : Nat → Bool} {key : Cell}

omit [LawfulSource σ keys]

/-- A provider that has only the sources of some ranks. -/
def only (supply : Supply σ) (kept : Nat → Bool) : Supply σ := fun request =>
  (supply request).map fun sources => sources.filter fun source => kept (Source.sequenceId source)

theorem sources_only (supply : Supply σ) (kept : Nat → Bool) (request : SourceRequest) :
    (supply.only kept).sources request =
      (supply.sources request).filter fun source => kept (Source.sequenceId source) := by
  unfold Supply.sources only
  cases supply request <;> rfl

theorem stock_only (supply : Supply σ) (kept : Nat → Bool) (request : SourceRequest) :
    (supply.only kept).stock request =
      (supply.stock request).filter fun part => kept part.rank := by
  rw [stock, sources_only, stock, List.filter_map]
  rfl

theorem cells_only (supply : Supply σ) (kept : Nat → Bool) (request : SourceRequest) :
    (supply.only kept).cells request =
      keys.merged ((supply.stock request).filter fun part => kept part.rank) := by
  rw [← stock_only]
  rfl

/-- Whether a provider has the same for two requests from a key on, source by source. Sources that
have nothing from the key on do not count. -/
def AgreesFrom (supply : Supply σ) (key : Cell) (first second : SourceRequest) : Prop :=
  (Part.stocked ((supply.stock first).map (Part.skipTo keys key))).Perm
    (Part.stocked ((supply.stock second).map (Part.skipTo keys key)))

theorem mem_of_mem_only {source : σ} (hsource : source ∈ (supply.only kept).sources request) :
    source ∈ supply.sources request := by
  rw [sources_only] at hsource
  exact (List.mem_filter.mp hsource).1

theorem distinct_only (hdistinct : Part.Distinct (supply.stock request)) (kept : Nat → Bool) :
    Part.Distinct ((supply.only kept).stock request) := by
  rw [stock_only]
  exact List.Pairwise.filter _ hdistinct

variable [LawfulSource σ keys]

theorem Orderly.only (hsupply : supply.Orderly name request) (kept : Nat → Bool) :
    (supply.only kept).Orderly name request where
  holds source hsource := hsupply.holds source (mem_of_mem_only hsource)
  sorted source hsource := hsupply.sorted source (mem_of_mem_only hsource)
  stored source hsource := hsupply.stored source (mem_of_mem_only hsource)
  distinct := distinct_only hsupply.distinct kept

theorem Sound.only (hsupply : supply.Sound name request) (kept : Nat → Bool) :
    (supply.only kept).Sound name request where
  answers := by
    rw [Supply.only, hsupply.answer]
    rfl
  fresh source hsource := hsupply.fresh source (mem_of_mem_only hsource)
  distinct := distinct_only hsupply.distinct kept

/-- The cells from a key on are the ones of the parts from the key on. -/
theorem Orderly.skipTo_cells_only (hsupply : supply.Orderly name request) (kept : Nat → Bool)
    (key : Cell) :
    keys.skipTo key ((supply.only kept).cells request) =
      keys.merged ((Part.stocked ((supply.stock request).map (Part.skipTo keys key))).filter
        fun part => kept part.rank) := by
  have hsorted : ∀ part ∈ (supply.stock request).filter fun part => kept part.rank,
      keys.Sorted part.cells := fun part hpart =>
    hsupply.sorted_parts part (List.mem_filter.mp hpart).1
  have hdistinct : Part.Distinct
      (((supply.stock request).filter fun part => kept part.rank).map (Part.skipTo keys key)) :=
    List.pairwise_map.mpr (List.Pairwise.filter _ hsupply.distinct)
  have hcomm : ((supply.stock request).filter fun part => kept part.rank).map
      (Part.skipTo keys key) =
      ((supply.stock request).map (Part.skipTo keys key)).filter fun part => kept part.rank := by
    rw [List.filter_map]
    rfl
  rw [cells_only, ← merged_skipTo hsorted, ← merged_stocked hdistinct, hcomm, Part.stocked,
    Part.stocked, List.filter_filter, List.filter_filter]
  exact congrArg keys.merged (List.filter_congr fun _ _ => Bool.and_comm _ _)

theorem AgreesFrom.skipTo_cells_only (hagrees : supply.AgreesFrom key first second)
    (hfirst : supply.Orderly name first) (hsecond : supply.Orderly name second)
    (kept : Nat → Bool) :
    keys.skipTo key ((supply.only kept).cells first) =
      keys.skipTo key ((supply.only kept).cells second) := by
  rw [hfirst.skipTo_cells_only, hsecond.skipTo_cells_only]
  have hdistinct : Part.Distinct (Part.stocked ((supply.stock first).map (Part.skipTo keys key))) :=
    Part.Distinct.stocked (List.pairwise_map.mpr hfirst.distinct)
  exact merged_perm (List.Pairwise.filter _ hdistinct) (hagrees.filter _)

theorem AgreesFrom.skipTo_cells (hagrees : supply.AgreesFrom key first second)
    (hfirst : supply.Orderly name first) (hsecond : supply.Orderly name second) :
    keys.skipTo key (supply.cells first) = keys.skipTo key (supply.cells second) := by
  have hall (request : SourceRequest) :
      (supply.only fun _ => true).cells request = supply.cells request := by
    rw [cells_only, List.filter_eq_self.mpr fun _ _ => rfl]
    rfl
  rw [← hall, ← hall]
  exact hagrees.skipTo_cells_only hfirst hsecond fun _ => true

end Supply

end MergeScan
