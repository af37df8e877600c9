import MergeScan.Proofs.Matcher.Refuses

/-! # What the markers of a row answer

When the cells of a row come in order, the two markers that are remembered answer for all
of them: a value is told to be deleted if and only if some marker of the row deletes it.
Nothing is lost with a marker that is forgotten or passed over, since every value that it
deletes lies behind it, and before the next column. Where no marker is remembered, the
question can be left out.
-/

namespace MergeScan

open CellOrder

namespace RowMarkers

/-- Ask whether a value is deleted. If `leftOut` is set, nothing is looked up as long as no
marker is remembered. -/
def ask (markers : RowMarkers) (leftOut : Bool) (value : Cell) :
    Except ScanError (Bool × RowMarkers) :=
  if leftOut && markers.isEmpty then .ok (false, markers)
  else markers.masks value.qualifier value.timestamp

/-- Remember the markers of a list as they come, and ask for each value whether it is
deleted. Which questions may be left out is said by the cells from the value on, which no
two questions share. -/
def answers (leftOut : List Cell → Bool) (markers : RowMarkers) :
    List Cell → Except ScanError (List Bool)
  | [] => .ok []
  | cell :: rest =>
    if cell.isDelete then
      answers leftOut (markers.add cell.qualifier cell.kind cell.timestamp) rest
    else do
      let (deleted, markers) ← markers.ask (leftOut (cell :: rest)) cell
      return deleted :: (← answers leftOut markers rest)

variable {markers : RowMarkers} {cell value : Cell} {seen rest cells : List Cell}

/-- Without a marker the question has the answer that it is given if it is left out. -/
theorem masks_of_isEmpty (hempty : markers.isEmpty = true) (qualifier : Bytes)
    (timestamp : Timestamp) : markers.masks qualifier timestamp = .ok (false, markers) := by
  simp only [isEmpty, Bool.and_eq_true, Option.isNone_iff_eq_none] at hempty
  simp [masks, coversRow, hempty]

theorem ask_eq (markers : RowMarkers) (leftOut : Bool) (value : Cell) :
    markers.ask leftOut value = markers.masks value.qualifier value.timestamp := by
  unfold ask
  split
  next hempty =>
    rw [Bool.and_eq_true] at hempty
    rw [masks_of_isEmpty hempty.2]
  next => rfl

/-- Markers that stand for all cells met so far, as far as it matters for the cells ahead. -/
structure Recalls (markers : RowMarkers) (seen ahead : List Cell) : Prop where
  met : ∀ cell ∈ ahead, markers.Met cell
  hides : ∀ value ∈ ahead, markers.hides value.qualifier value.timestamp =
    seen.any fun marker => marker.masks value

theorem recalls_empty (ahead : List Cell) : Recalls .empty [] ahead :=
  ⟨fun cell _ => met_empty cell, fun _ _ => rfl⟩

/-- A marker is remembered, or it deletes nothing ahead that is not deleted already. -/
theorem Recalls.add (hrecalls : Recalls markers seen (cell :: rest))
    (hleads : ∀ other ∈ rest, cell.Leads other) (hdelete : cell.isDelete = true) :
    Recalls (markers.add cell.qualifier cell.kind cell.timestamp) (seen ++ [cell]) rest where
  met other hother :=
    (hrecalls.met other (List.mem_cons_of_mem _ hother)).add (hleads other hother) hdelete
  hides value hvalue := by
    have hcell := hrecalls.met cell List.mem_cons_self
    rw [hcell.hides_add (hleads value hvalue) hdelete,
      hrecalls.hides value (List.mem_cons_of_mem _ hvalue), List.any_append]
    simp

/-- A marker that is forgotten at a value deletes nothing ahead. -/
theorem Recalls.after (hrecalls : Recalls markers seen (cell :: rest))
    (hleads : ∀ other ∈ rest, cell.Leads other) (hput : cell.kind = .put) :
    Recalls (markers.after cell.qualifier cell.timestamp) (seen ++ [cell]) rest where
  met other hother :=
    (hrecalls.met other (List.mem_cons_of_mem _ hother)).of_column fun _ => column_after
  hides value hvalue := by
    have hcell := hrecalls.met cell List.mem_cons_self
    rw [hcell.hides_after (hleads value hvalue),
      hrecalls.hides value (List.mem_cons_of_mem _ hvalue), List.any_append]
    simp [Cell.masks_of_put hput]

/-- Whether a list has stored cells of one row in order, where the markers on the whole row
stand in the column without a name. -/
structure IsRow (name row : Bytes) (cells : List Cell) : Prop where
  sorted : keys.Sorted cells
  stored : Cell.StoredIn name cells
  row : ∀ cell ∈ cells, cell.row = row
  nameless : ∀ cell ∈ cells, cell.Nameless

variable {name row : Bytes}

theorem IsRow.leads (hrow : IsRow name row (seen ++ cell :: rest)) :
    ∀ other ∈ rest, cell.Leads other := by
  intro other hother
  have hsuffix : (cell :: rest).Sublist (seen ++ cell :: rest) := List.sublist_append_right _ _
  have hcell : cell ∈ seen ++ cell :: rest := List.mem_append_right _ List.mem_cons_self
  have hlater := List.mem_cons_of_mem cell hother
  apply Cell.leads_of_sorted (hrow.sorted.sublist hsuffix)
    (fun marker hmarker => hrow.stored marker (hsuffix.subset hmarker)) hlater
  rw [hrow.row cell hcell, hrow.row other (hsuffix.subset hlater)]

/-- No cell from a value on deletes the value. -/
theorem IsRow.not_masks (hrow : IsRow name row (seen ++ cell :: rest)) (hput : cell.kind = .put) :
    (cell :: rest).any (fun marker => marker.masks cell) = false := by
  have hcell : cell ∈ seen ++ cell :: rest := List.mem_append_right _ List.mem_cons_self
  rw [List.any_eq_false]
  intro marker hmarker hmasks
  have hmem : marker ∈ seen ++ cell :: rest := List.mem_append_right _ hmarker
  have hlt : Cell.compareKeys marker cell = .lt :=
    Cell.lt_of_masks (hrow.stored marker hmem) (hrow.stored cell hcell)
      ((hrow.row marker hmem).trans (hrow.row cell hcell).symm) (hrow.nameless marker hmem)
      hput hmasks
  rcases List.mem_cons.mp hmarker with rfl | hbehind
  · rw [Cell.masks_of_put hput] at hmasks
    cases hmasks
  · have hle := (List.pairwise_cons.mp (List.pairwise_append.mp hrow.sorted).2.1).1 marker hbehind
    rw [Cell.compare_keys, Std.OrientedCmp.gt_of_lt hlt] at hle
    cases hle

/-- Markers that stand for the cells met so far answer for the next value as all markers of
the row do. -/
theorem Recalls.ask (hrecalls : Recalls markers seen (cell :: rest))
    (hrow : IsRow name row (seen ++ cell :: rest)) (hput : cell.kind = .put) (leftOut : Bool) :
    markers.ask leftOut cell = .ok ((seen ++ cell :: rest).any fun marker => marker.masks cell,
      markers.after cell.qualifier cell.timestamp) := by
  have hmet := hrecalls.met cell List.mem_cons_self
  rw [ask_eq, masks_eq fun marker hmarker => (hmet.leads marker hmarker).qualifier_le,
    hrecalls.hides cell List.mem_cons_self, List.any_append, hrow.not_masks hput, Bool.or_false]

theorem Recalls.answers (hrecalls : Recalls markers seen cells)
    (hrow : IsRow name row (seen ++ cells)) (leftOut : List Cell → Bool) :
    markers.answers leftOut cells = .ok ((cells.filter fun cell => cell.kind = .put).map
      fun value => (seen ++ cells).any fun marker => marker.masks value) := by
  induction cells generalizing markers seen with
  | nil => rfl
  | cons cell rest ih =>
      -- the cell goes over to those seen; the row as a whole stays the same
      have hwhole : (seen ++ [cell]) ++ rest = seen ++ cell :: rest :=
        List.append_assoc seen [cell] rest
      have hleads := hrow.leads
      rw [RowMarkers.answers]
      cases hdelete : cell.isDelete with
      | true =>
          have hkind : cell.kind ≠ .put := by
            intro hput
            rw [Cell.isDelete, hput] at hdelete
            cases hdelete
          have hlater := ih (hrecalls.add hleads hdelete) (hwhole ▸ hrow)
          rw [if_pos rfl, hlater, hwhole, List.filter_cons_of_neg (by simpa using hkind)]
      | false =>
          have hcell : cell ∈ seen ++ cell :: rest := List.mem_append_right _ List.mem_cons_self
          have hput := (hrow.stored cell hcell).1.kind_eq_put hdelete
          have hlater := ih (hrecalls.after hleads hput) (hwhole ▸ hrow)
          rw [if_neg Bool.false_ne_true, hrecalls.ask hrow hput,
            List.filter_cons_of_pos (by simpa using hput), List.map_cons]
          simp only [bind, Except.bind, hlater, hwhole]
          rfl

/-- Asked about the values of a row in order, the markers never fail, and they tell exactly
those to be deleted that some marker of the row deletes, whichever questions are left out
while there is no marker. -/
theorem answers_exact (hrow : IsRow name row cells) (leftOut : List Cell → Bool) :
    RowMarkers.empty.answers leftOut cells =
      .ok ((cells.filter fun cell => cell.kind = .put).map fun value =>
        cells.any fun marker => marker.masks value) :=
  (recalls_empty cells).answers hrow leftOut

/-- In a row with markers of all kinds, two values are spared: one between the markers on its
column, and one that is newer than the marker on the row. -/
theorem answers_exact_of_markers :
    let cells := [Cell.deleteFamily [114] [102] ⟨2⟩, .delete [114] [102] [97] ⟨7⟩,
      .put [114] [102] [97] ⟨7⟩ [1], .put [114] [102] [97] ⟨6⟩ [2],
      .deleteColumn [114] [102] [97] ⟨5⟩, .put [114] [102] [97] ⟨5⟩ [3],
      .put [114] [102] [98] ⟨3⟩ [4], .put [114] [102] [98] ⟨2⟩ [5]]
    RowMarkers.empty.answers (fun _ => true) cells = .ok [true, false, true, false, true] := by
  intro cells
  have hrow : IsRow [102] [114] cells := ⟨by decide, by decide, by decide, by decide⟩
  rw [answers_exact hrow]
  rfl

end RowMarkers

/-- A matcher leaves the question out wherever it can. -/
theorem Matcher.isMasked_eq_ask {φ : Type} (matcher : Matcher φ) (cell : Cell) :
    matcher.isMasked cell =
      (matcher.markers.ask true cell).map fun (masked, markers) =>
        (masked, { matcher with markers }) := by
  unfold Matcher.isMasked RowMarkers.ask
  cases hempty : matcher.markers.isEmpty with
  | true => rfl
  | false =>
      simp only [Bool.and_false, Bool.false_eq_true, if_false]
      cases matcher.markers.masks cell.qualifier cell.timestamp <;> rfl

end MergeScan
