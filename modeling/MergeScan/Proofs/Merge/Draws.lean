import MergeScan.Proofs.Merge.Calls
import MergeScan.Proofs.Merge.Spent

/-! # Merges of what a provider has

A merge of sources that a provider has handed out goes through their cells from where the
cursors are. A seek takes all those of them up again that have not run dry.
-/

namespace MergeScan

open CellOrder

namespace Part

/-- The cells that are held at a rank. -/
def cellsAt (parts : List Part) (rank : Nat) : List Cell :=
  ((parts.find? fun part => part.rank = rank).map cells).getD []

variable {parts others : List Part} {part : Part} {order : CellOrder} {key : Cell}

/-- No two of distinct parts have the same rank. -/
theorem Distinct.eq_of_rank_eq (hparts : Distinct parts) {other : Part} (hpart : part ∈ parts)
    (hother : other ∈ parts) (hrank : part.rank = other.rank) : part = other := by
  have hsame : parts.Pairwise fun left right => left.rank = right.rank → left = right :=
    hparts.imp fun hne heq => absurd heq hne
  have hflipped : parts.Pairwise (flip fun left right => left.rank = right.rank → left = right) :=
    hparts.imp fun hne heq => absurd heq.symm hne
  exact List.Pairwise.forall_of_forall_of_flip (fun _ _ _ => rfl) hsame hflipped hpart hother hrank

theorem Distinct.nodup (hparts : Distinct parts) : parts.Nodup :=
  hparts.imp fun hne heq => hne (congrArg rank heq)

theorem Distinct.cellsAt_eq (hparts : Distinct parts) (hpart : part ∈ parts) :
    cellsAt parts part.rank = part.cells := by
  unfold cellsAt
  cases hfind : parts.find? fun other => other.rank = part.rank with
  | none => exact absurd (decide_eq_true rfl) (List.find?_eq_none.mp hfind part hpart)
  | some other =>
      have hrank : other.rank = part.rank := by simpa using List.find?_some hfind
      rw [hparts.eq_of_rank_eq (List.mem_of_find?_eq_some hfind) hpart hrank]
      rfl

/-- Where there are cells at a rank, there is a part with them. -/
theorem exists_of_cellsAt_ne_nil {rank : Nat} (hcells : cellsAt parts rank ≠ []) :
    ∃ part ∈ parts, part.rank = rank ∧ part.cells = cellsAt parts rank := by
  unfold cellsAt at hcells ⊢
  cases hfind : parts.find? fun other => other.rank = rank with
  | none =>
      rw [hfind] at hcells
      exact absurd rfl hcells
  | some part =>
      exact ⟨part, List.mem_of_find?_eq_some hfind, by simpa using List.find?_some hfind, rfl⟩

theorem skipTo_ne_nil (hcells : (part.skipTo order key).cells ≠ []) : part.cells ≠ [] := by
  intro hnil
  rw [skipTo, hnil] at hcells
  exact hcells rfl

end Part

namespace Merge

variable {σ : Type} [Source σ] {order : CellOrder} [LawfulSource σ order]
variable {sure : Prop} {stock : List Part} {merge : Merge σ}

/-- A merge of sources that hold what others do that are in stock, wherever their cursors are. If
`sure` holds, none of them will fail. -/
structure Draws (order : CellOrder) [LawfulSource σ order] (sure : Prop) (stock : List Part)
    (merge : Merge σ) : Prop where
  carries : Carries order (Part.cellsAt stock) merge
  reliable : sure → Reliable order merge

/-- A merge without sources can be one of any stock. -/
theorem Draws.of_idle {others : List Part} {certain : Prop} (hmerge : Draws order sure stock merge)
    (hpeek : merge.peek = none) : Draws order certain others merge := by
  have hled := hmerge.carries.led
  have hcurrent : merge.current = none := Option.map_eq_none_iff.mp hpeek
  have hentries : merge.entries = [] := by rw [entries_of_idle hcurrent, hled.idle hcurrent]
  refine ⟨⟨⟨⟨hled.sameOrder, ?_, hled.top, hled.heap⟩, hled.first, hled.idle⟩,
    hmerge.carries.distinct⟩, fun _ => ?_⟩
  · rw [hentries]
    nofun
  · rw [Reliable, hentries]
    nofun

variable [Std.TransCmp order.compare]

theorem Draws.advance (hmerge : Draws order sure stock merge) :
    Draws order sure stock merge.advance.value.2 where
  carries := (hmerge.carries.perform .advance).1
  reliable hsure := (hmerge.carries.led.advance.reliable (hmerge.reliable hsure)).2

theorem Draws.reseek (hmerge : Draws order sure stock merge) (key : Cell) :
    Draws order sure stock (merge.reseek key).value.2 where
  carries := (hmerge.carries.perform (.reseek key)).1
  reliable hsure := ((hmerge.carries.sound.reseek_moved key).reliable (hmerge.reliable hsure)).2

theorem Draws.seekExactly (hmerge : Draws order sure stock merge) (key : Cell) :
    Draws order sure stock (merge.seekExactly key true).value.2 where
  carries := (hmerge.carries.perform (.seekExactly key true)).1
  reliable hsure :=
    ((hmerge.carries.sound.seekExactly_moved key).reliable (hmerge.reliable hsure)).2

theorem Draws.seek (hmerge : Draws order sure stock merge) (key : Cell) :
    Draws order sure stock (merge.seek key).value.2 where
  carries := (hmerge.carries.perform (.seek key)).1
  reliable hsure :=
    ((hmerge.carries.led.seek (fun _ _ hadmits => hadmits.1) key).reliable
      (hmerge.reliable hsure)).2

/-- A seek does not fail where no source does. -/
theorem Draws.seek_isOk (hmerge : Draws order sure stock merge) (hsure : sure) (key : Cell) :
    (merge.seek key).value.1.isOk = true :=
  ((hmerge.carries.led.seek (fun _ _ hadmits => hadmits.1) key).reliable
    (hmerge.reliable hsure)).1

omit [LawfulSource σ order] [Std.TransCmp order.compare] in
/-- What is left of the sources of a merge that are moved to a key from anywhere is left of those
in stock that the merge has. -/
theorem seekPart_perm (hstock : Part.Distinct stock) (hmerge : Part.Distinct merge.parts)
    {kept : Nat → Bool} (hkept : ∀ part ∈ stock, part.cells ≠ [] →
      (kept part.rank = true ↔ merge.Keeps part.rank)) (key : Cell) :
    (Part.stocked (merge.parts.map (seekPart order (Part.cellsAt stock) key))).Perm
      (Part.stocked ((stock.filter fun part => kept part.rank).map (Part.skipTo order key))) := by
  have hsought : Part.Distinct (merge.parts.map (seekPart order (Part.cellsAt stock) key)) :=
    List.pairwise_map.mpr hmerge
  have hchosen : Part.Distinct
      ((stock.filter fun part => kept part.rank).map (Part.skipTo order key)) :=
    List.pairwise_map.mpr (List.Pairwise.filter _ hstock)
  -- ranks are distinct on either side, so that having the same parts is enough
  refine (List.perm_ext_iff_of_nodup hsought.stocked.nodup hchosen.stocked.nodup).mpr fun part => ?_
  rw [Part.mem_stocked, Part.mem_stocked, List.mem_map, List.mem_map]
  refine and_congr_left fun hcells => ⟨?_, ?_⟩
  · rintro ⟨other, hother, rfl⟩
    have hheld : Part.cellsAt stock other.rank ≠ [] :=
      @Part.skipTo_ne_nil ⟨other.rank, Part.cellsAt stock other.rank⟩ order key hcells
    obtain ⟨held, hmem, hrank, hsame⟩ := Part.exists_of_cellsAt_ne_nil hheld
    refine ⟨held, List.mem_filter.mpr ⟨hmem, ?_⟩, ?_⟩
    · exact (hkept held hmem (hsame ▸ hheld)).mpr ⟨other, hother, hrank.symm⟩
    · rw [seekPart, Part.skipTo, hrank, hsame]
  · rintro ⟨held, hmem, rfl⟩
    obtain ⟨hmem, hrank⟩ := List.mem_filter.mp hmem
    obtain ⟨other, hother, hsame⟩ := (hkept held hmem (Part.skipTo_ne_nil hcells)).mp hrank
    refine ⟨other, hother, ?_⟩
    rw [seekPart, Part.skipTo, hsame, hstock.cellsAt_eq hmem]

/-- To seek is to take up again the sources that the merge has, and to go through what they hold
from the key on. -/
theorem Draws.seek_stream (hmerge : Draws order sure stock merge) (hstock : Part.Distinct stock)
    (hsorted : ∀ part ∈ stock, order.Sorted part.cells) {kept : Nat → Bool}
    (hkept : ∀ part ∈ stock, part.cells ≠ [] →
      (kept part.rank = true ↔ merge.Keeps part.rank))
    {key : Cell} (hok : (merge.seek key).value.1.isOk = true) :
    (merge.seek key).value.2.stream =
      order.skipTo key (order.merged (stock.filter fun part => kept part.rank)) := by
  have hshifts := hmerge.carries.led.seek (fun _ _ hadmits => hadmits.1) key
  have hchosen : Part.Distinct
      ((stock.filter fun part => kept part.rank).map (Part.skipTo order key)) :=
    List.pairwise_map.mpr (List.Pairwise.filter _ hstock)
  rw [stream_of_parts hshifts.led.sameOrder hchosen
    ((hshifts.complete hok).trans (seekPart_perm hstock hmerge.carries.distinct hkept key)),
    merged_skipTo fun part hpart => hsorted part (List.mem_filter.mp hpart).1]

/-- A merge of sources that hold what is in stock, wherever they were positioned. -/
theorem ofSources_draws (hstock : Part.Distinct stock)
    (hsorted : ∀ part ∈ stock, order.Sorted part.cells) {sources : List σ}
    (hheld : ∀ source ∈ sources,
      LawfulSource.Held order (fun rank cells => ⟨rank, cells⟩ ∈ stock) source)
    (hdistinct : Part.Distinct (sources.map Source.part))
    (hreliable : sure → ∀ source ∈ sources, LawfulSource.Reliable order source) :
    Draws order sure stock (ofSources order sources).value := by
  obtain ⟨hled, hparts⟩ := ofSources_led hheld
  refine ⟨⟨hled.mono ?_, hdistinct.stocked.perm hparts.symm⟩,
    fun hsure => ofSources_reliable (hreliable hsure)⟩
  intro rank cells hmem
  exact ⟨(hstock.cellsAt_eq hmem).symm, hsorted _ hmem⟩

end Merge

end MergeScan
