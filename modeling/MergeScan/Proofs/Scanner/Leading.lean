import MergeScan.Proofs.Scanner.Anew
import MergeScan.Proofs.Scanner.Reference
import MergeScan.Proofs.Scanner.Thinned

/-! # Filters on leading bytes

A filter on the leading bytes of rows or of columns ends the scan early, jumps ahead and leaves rows
before their end. All the same it only picks cells: a scan with such a filter hands out what the
scan without it does of the rows, or columns, that begin with the bytes.
-/

namespace MergeScan

open CellOrder SortedRun

variable {φ : Type} {family : Family} {scan : Scan φ} {cells : List Cell} {cell : Cell}
variable {keepsRow : Bytes → Bool} {accepts kept passes : Cell → Bool}

/-! ## Values that are not there -/

namespace Matcher

variable {matcher : Matcher φ}

/-- What is handed out does not depend on values of other columns, nor on values that the scan does
not ask for. -/
theorem handsOut_filter (hreal : ∀ other ∈ cells, other.IsReal)
    (hvalues : ∀ other ∈ cells, kept other = false → other.isDelete = false)
    (hcolumn : ∀ other ∈ cells, kept other = false → other.row = cell.row →
      other.qualifier = cell.qualifier → matcher.seeks other = false)
    (hcell : cell ∈ cells) (hkept : kept cell = true) :
    matcher.handsOut (cells.filter kept) cell = matcher.handsOut cells cell := by
  rw [handsOut, handsOut, Cell.inRow_filter]
  refine keeps_filter rfl rfl (fun other _ _ => finds_filter rfl rfl ?_)
    (fun other hother hdropped hsame => ?_) rfl (Cell.mem_inRow.mpr ⟨hcell, rfl⟩) hkept
  · intro _ marker hmarker hdropped
    have hmem := (Cell.mem_inRow.mp hmarker).1
    exact Cell.masks_of_put ((hreal marker hmem).kind_eq_put (hvalues marker hmem hdropped)) other
  · obtain ⟨hmem, hrow⟩ := Cell.mem_inRow.mp hother
    rw [finds, seeks_inRow, hcolumn other hmem hdropped hrow hsame, Bool.false_and]

theorem isDelete_of_seeks (hseeks : matcher.seeks cell = true) : cell.isDelete = false := by
  simp only [seeks, Bool.and_eq_true, decide_eq_true_eq] at hseeks
  rw [Cell.isDelete, hseeks.1.1.1]
  rfl

/-- Copies are asked for alike. -/
theorem seeks_copy {copy : Cell} (hcopy : copy.IsReal) (hcell : cell.IsReal)
    (hsame : Cell.compareKeys copy cell = .eq) : matcher.seeks copy = matcher.seeks cell := by
  rw [Cell.eq_withValue hcell hcopy hsame]
  rfl

variable (hvalues : matcher.retainDeletes = false) (hreal : ∀ other ∈ cells, other.IsReal)
variable (hspares : ∀ cell, kept cell = (!matcher.seeks cell || passes cell))
variable (hpasses : ∀ first second : Cell, first.row = second.row →
  first.qualifier = second.qualifier → passes first = passes second)
include hreal hspares hpasses

/-- Where a filter is of one mind about a column, the cells to keep can be told before or after the
first cell at each place is kept. -/
theorem thin_eq_filter (hsorted : keys.Sorted cells) :
    thin kept cells = (dedupe cells).filter kept := by
  refine dedupe_filter hsorted fun cell hcell copy hcopy hsame => ?_
  obtain ⟨hrow, -, hcolumn, -⟩ := (Cell.compareKeys_eq_eq_iff (hreal copy hcopy).not_lastOnRow
    (hreal cell hcell).not_lastOnRow).mp hsame
  rw [hspares, hspares, seeks_copy (hreal copy hcopy) (hreal cell hcell) hsame,
    hpasses copy cell hrow hcolumn]

include hvalues

/-- Where a filter is of one mind about a column, to leave out values before they are counted is to
leave them out afterwards. -/
theorem filter_handsOut_filter :
    (cells.filter kept).filter (matcher.handsOut (cells.filter kept)) =
      (cells.filter (matcher.handsOut cells)).filter passes := by
  rw [List.filter_filter, List.filter_filter]
  refine List.filter_congr fun cell hcell => ?_
  cases hpass : passes cell with
  | true =>
      have hkept : kept cell = true := by rw [hspares, hpass, Bool.or_true]
      have hdropped (other : Cell) (hother : kept other = false) :
          matcher.seeks other = true ∧ passes other = false := by
        rw [hspares, Bool.or_eq_false_iff, Bool.not_eq_false'] at hother
        exact hother
      rw [handsOut_filter hreal (fun other _ hother => isDelete_of_seeks (hdropped other hother).1)
        (fun other _ hother hrow hcolumn => ?_) hcell hkept, hkept, Bool.and_true, Bool.true_and]
      -- no value of the column is left out
      have hrejects := (hdropped other hother).2
      rw [hpasses other cell hrow hcolumn, hpass] at hrejects
      cases hrejects
  | false =>
      rw [Bool.false_and]
      cases hseeks : matcher.seeks cell with
      | true => rw [hspares, hseeks, hpass, Bool.not_true, Bool.or_false, Bool.and_false]
      | false => rw [handsOut_of_not_seeks hvalues hseeks, Bool.false_and]

end Matcher

namespace Scan

variable [CellFilter φ] {filter : Option φ}

/-- The matcher of a scan with a filter that leaves out values. -/
theorem Plain.sieving (hplain : scan.Plain family) (hname : family.name ≠ [])
    (hsorted : keys.Sorted cells) (hstored : Cell.StoredIn family.name cells)
    (htagged : ∀ cell ∈ cells, cell.Tagged) (hsifts : CellFilter.Sifts keepsRow accepts filter)
    (hsteady : ∀ state ∈ filter, CellFilter.Steady state)
    (hgoesOn : ∀ state ∈ filter, CellFilter.stopsScan state = false)
    (hspares : ∀ cell, kept cell =
      (!(Matcher.ofScan family scan).seeks cell || keepsRow cell.row && accepts cell)) :
    Matcher.Sieving keepsRow accepts kept family.name
      (Matcher.ofScan family { scan with filter })
      (keys.skipTo (Matcher.ofScan family scan).startKey cells) where
  toPrimed :=
    have hscan : ({ scan with filter } : Scan φ).WellFormed :=
      ⟨hplain.wellFormed.columns, hplain.wellFormed.versions⟩
    Scanner.primed_ofScan hscan hplain.order hsteady hsorted hstored
  named := hname
  tagged cell hcell := htagged cell ((mem_skipTo hsorted).mp hcell).1
  lasting :=
    have hmatcher := hplain.steady.matcher
    ⟨hmatcher.versions, hmatcher.every, hmatcher.reaches⟩
  valuesOnly := hplain.retainDeletes
  spares := hspares
  sifts := hsifts
  stopped hover := by
    cases filter with
    | none => cases hover
    | some state =>
        have hnot : CellFilter.stopsScan state = true := hover
        rw [hgoesOn state rfl] at hnot
        cases hnot
  wanted _ hrow := nomatch hrow
  met _ _ hrow := nomatch hrow
  current _ hrow := nomatch hrow

/-- A scan whose filter leaves out values hands out what the scan without it does of the other
cells. -/
theorem Plain.gather_eq (hplain : scan.Plain family) (hname : family.name ≠ [])
    (hsorted : keys.Sorted cells) (hstored : Cell.StoredIn family.name cells)
    (htagged : ∀ cell ∈ cells, cell.Tagged) (hsifts : CellFilter.Sifts keepsRow accepts filter)
    (hsteady : ∀ state ∈ filter, CellFilter.Steady state)
    (hgoesOn : ∀ state ∈ filter, CellFilter.stopsScan state = false)
    (hspares : ∀ cell, kept cell =
      (!(Matcher.ofScan family scan).seeks cell || keepsRow cell.row && accepts cell)) :
    (Matcher.ofScan family { scan with filter }).gather
        (keys.skipTo (Matcher.ofScan family scan).startKey cells) =
      (thin kept cells).filter ((Matcher.ofScan family scan).handsOut (thin kept cells)) := by
  have hsieving :=
    hplain.sieving hname hsorted hstored htagged hsifts hsteady hgoesOn hspares
  have hlined := hsieving.lined
  have hmem (cell : Cell) (hcell : cell ∈ thin kept cells) : cell ∈ cells := (mem_of_thin hcell).1
  -- at its beginning no row has been entered, so the filter has not been asked yet
  have hsame (ahead : List Cell) (cell : Cell) :
      (Matcher.ofScan family { scan with filter }).bare.handsOut ahead cell =
        (Matcher.ofScan family scan).handsOut ahead cell := by
    have hfirst : (Matcher.ofScan family { scan with filter }).bare.inRow cell.row =
        (Matcher.ofScan family { scan with filter }).bare.entered cell.row := if_neg nofun
    have hsecond : (Matcher.ofScan family scan).inRow cell.row =
        (Matcher.ofScan family scan).entered cell.row := if_neg nofun
    rw [Matcher.handsOut, Matcher.handsOut, hfirst, hsecond]
    rfl
  have hsingle := @thin_strictlySorted kept _ hsorted
  have hthinStored (cell : Cell) (hcell : cell ∈ thin kept cells) := hstored cell (hmem cell hcell)
  have hthinTagged (cell : Cell) (hcell : cell ∈ thin kept cells) := htagged cell (hmem cell hcell)
  have hahead (cell : Cell) (hcell : cell ∈ keys.skipTo (Matcher.ofScan family scan).startKey
      (thin kept cells)) : cell ∈ thin kept cells := (skipTo_sublist _ _).mem hcell
  have hplainLined := hplain.steady.lined hname
    (hsingle.skipTo (Matcher.ofScan family scan).startKey)
    (fun cell hcell => hthinStored cell (hahead cell hcell))
    fun cell hcell => hthinTagged cell (hahead cell hcell)
  rw [hsieving.gather_eq, hlined.output_eq_filter,
    List.filter_congr fun cell _ => hsame _ cell, thin_skipTo hsorted,
    ← hplainLined.output_eq_filter]
  exact hplain.steady.output_skipTo hname hsingle hthinStored hthinTagged

variable {σ : Type} [Source σ] [LawfulSource σ keys] {supply : Supply σ}

theorem Plain.yields_thinned (hplain : scan.Plain family) (hname : family.name ≠ [])
    (hbatch : scan.batch ≠ some 0) (hsupply : supply.Orderly family.name scan.request)
    (htagged : ∀ cell ∈ supply.cells scan.request, cell.Tagged)
    (hsifts : CellFilter.Sifts keepsRow accepts filter)
    (hsteady : ∀ state ∈ filter, CellFilter.Steady state)
    (hgoesOn : ∀ state ∈ filter, CellFilter.stopsScan state = false)
    (hspares : ∀ cell, kept cell =
      (!(Matcher.ofScan family scan).seeks cell || keepsRow cell.row && accepts cell)) :
    Yields family supply { scan with filter }
      ((thin kept (supply.cells scan.request)).filter
        ((Matcher.ofScan family scan).handsOut (thin kept (supply.cells scan.request)))) := by
  have hscan : ({ scan with filter } : Scan φ).WellFormed :=
    ⟨hplain.wellFormed.columns, hplain.wellFormed.versions⟩
  have hyields := hscan.yields_gather hplain.order hsteady hbatch hsupply
  have hgather := hplain.gather_eq hname (supply.cells_sorted scan.request)
    hsupply.stored_cells htagged hsifts hsteady hgoesOn hspares
  rw [← hgather]
  exact hyields

/-- What a scan hands out without a filter. -/
theorem Plain.yields (hplain : scan.Plain family) (hname : family.name ≠ [])
    (hbatch : scan.batch ≠ some 0) (hsupply : supply.Orderly family.name scan.request)
    (htagged : ∀ cell ∈ supply.cells scan.request, cell.Tagged) :
    Yields family supply scan ((dedupe (supply.cells scan.request)).filter
      ((Matcher.ofScan family scan).handsOut (dedupe (supply.cells scan.request)))) := by
  have hall : thin (fun _ => true) (supply.cells scan.request) =
      dedupe (supply.cells scan.request) := by
    rw [thin, List.filter_true]
  have hyields := @hplain.yields_thinned _ _ _ (fun _ => true) (fun _ => true) (fun _ => true) _
    none _ _ _ _ hname hbatch hsupply htagged ⟨fun _ => rfl, fun _ => rfl⟩ (by rintro _ ⟨⟩)
    (by rintro _ ⟨⟩) (by simp)
  have hsame : { scan with filter := none } = scan := by rw [← hplain.filter]
  rw [hall, hsame] at hyields
  exact hyields

/-- A filter that is of one mind about each column picks cells of those that are handed out without
it. -/
theorem Plain.yields_picked (hplain : scan.Plain family) (hname : family.name ≠ [])
    (hbatch : scan.batch ≠ some 0) (hsupply : supply.Orderly family.name scan.request)
    (htagged : ∀ cell ∈ supply.cells scan.request, cell.Tagged) {filter : φ}
    (hsieves : CellFilter.Sieves keepsRow accepts filter) (hsteady : CellFilter.Steady filter)
    (hgoesOn : CellFilter.stopsScan filter = false)
    (haccepts : ∀ first second : Cell, first.row = second.row →
      first.qualifier = second.qualifier → accepts first = accepts second) :
    Yields family supply { scan with filter := some filter }
      (((dedupe (supply.cells scan.request)).filter
        ((Matcher.ofScan family scan).handsOut (dedupe (supply.cells scan.request)))).filter
          fun cell => keepsRow cell.row && accepts cell) := by
  let kept (cell : Cell) : Bool :=
    !(Matcher.ofScan family scan).seeks cell || (keepsRow cell.row && accepts cell)
  have hpasses (first second : Cell) (hrow : first.row = second.row)
      (hcolumn : first.qualifier = second.qualifier) :
      (keepsRow first.row && accepts first) = (keepsRow second.row && accepts second) := by
    rw [haccepts first second hrow hcolumn, hrow]
  have hreal (cell : Cell) (hcell : cell ∈ supply.cells scan.request) : cell.IsReal :=
    (hsupply.stored_cells cell hcell).1
  have hyields := @hplain.yields_thinned _ _ _ keepsRow accepts kept _ (some filter)
    _ _ _ _ hname hbatch hsupply htagged hsieves (by rintro _ ⟨⟩; exact hsteady)
    (by rintro _ ⟨⟩; exact hgoesOn) fun _ => rfl
  rw [Matcher.thin_eq_filter hreal (fun _ => rfl) hpasses (supply.cells_sorted _),
    Matcher.filter_handsOut_filter hplain.retainDeletes
      (fun cell hcell => hreal cell ((dedupe_sublist _).mem hcell)) (fun _ => rfl) hpasses]
    at hyields
  exact hyields

/-- A scan that picks rows, or columns, by their leading bytes hands out what the scan without the
filter does of the rows, or columns, that begin with the bytes, in the same order. A scan of rows
that ends behind the last of them, jumps to the first column and gives rows up make no difference.
The sources may fail; then what is handed out is a part from the beginning. -/
theorem Plain.yields_leading {scan : Scan AnyFilter} (hplain : scan.Plain family)
    (hname : family.name ≠ []) (hbatch : scan.batch ≠ some 0)
    (hsupply : supply.Orderly family.name scan.request)
    (htagged : ∀ cell ∈ supply.cells scan.request, cell.Tagged) :
    ∃ total, scan.Yields family supply total ∧ ∀ lead : Bytes,
      Yields family supply ({ scan with filter := some (.rowLead { lead }) } : Scan AnyFilter)
        (total.filter fun cell => cell.row.startsWith lead) ∧
      Yields family supply ({ scan with filter := some (.columnLead { lead }) } : Scan AnyFilter)
        (total.filter fun cell => cell.qualifier.startsWith lead) := by
  refine ⟨_, hplain.yields hname hbatch hsupply htagged, fun lead => ⟨?_, ?_⟩⟩
  · have hyields := hplain.yields_picked hname hbatch hsupply htagged (RowLead.sieves { lead })
      (AnyFilter.steady rfl) rfl fun _ _ _ _ => rfl
    simpa only [Bool.and_true] using hyields
  · have hyields := hplain.yields_picked hname hbatch hsupply htagged (ColumnLead.sieves { lead })
      (AnyFilter.steady rfl) rfl fun _ _ _ hcolumn => by rw [hcolumn]
    simpa only [Bool.true_and] using hyields

/-- A column of two versions, one of them deleted, next to one whose name begins otherwise, in rows
that begin alike and in one that does not. -/
theorem Plain.yields_leading_of_script :
    let family : Family := { name := [102], maxVersions := 2, clock := .manual .oldest }
    let scan : Scan AnyFilter := { maxVersions := 2 }
    let cells := [
      Cell.put [97] [102] [99] ⟨1⟩ [1],
      .put [114] [102] [99] ⟨2⟩ [1], .delete [114] [102] [99] ⟨1⟩, .put [114] [102] [99] ⟨1⟩ [2],
      .put [114, 114] [102] [100] ⟨1⟩ [1]]
    let script : SourceScript := { sequenceId := 1, cells }
    let supply : Supply ScriptedSource := fun _ => .ok [script.open .keys 0]
    ∃ total, scan.Yields family supply total ∧
      Yields family supply
        ({ scan with filter := some (.rowLead { lead := [114] }) } : Scan AnyFilter)
        (total.filter fun cell => cell.row.startsWith [114]) ∧
      Yields family supply
        ({ scan with filter := some (.columnLead { lead := [99] }) } : Scan AnyFilter)
        (total.filter fun cell => cell.qualifier.startsWith [99]) := by
  intro family scan cells script supply
  have hplain : scan.Plain family :=
    ⟨⟨List.Pairwise.nil, by decide⟩, Nat.le_succ 1, rfl, rfl, rfl⟩
  have hsupply : supply.Sound family.name scan.request :=
    script.sound ⟨rfl, rfl⟩ (by decide) (by decide) _
  have htagged : ∀ cell ∈ supply.cells scan.request, cell.Tagged := by
    intro cell hcell
    obtain ⟨part, hpart, hmem⟩ := mem_merged.mp hcell
    obtain rfl := List.mem_singleton.mp hpart
    exact (by decide : ∀ cell ∈ cells, cell.Tagged) cell hmem
  obtain ⟨total, htotal, hleading⟩ :=
    hplain.yields_leading (by decide) nofun hsupply.orderly htagged
  exact ⟨total, htotal, (hleading [114]).1, (hleading [99]).2⟩

end Scan

end MergeScan
