import MergeScan.Proofs.Scan.Visible

/-! # Compacting a layer of cells

Cells lie in layers, and those of a fresher layer hide older ones at the same place. If
one layer is compacted, cells go that nobody saw. This shows the others neither more nor
less: each value that is shown, before or after, is one behind which the layer has lost no
value, and no marker that masks it.
-/

namespace MergeScan

open CellOrder

variable {family : Family} {versions : Nat}

/-- A layer of cells, along with fresher and older ones. No marker is on one version. -/
structure Layers (family : Family) where
  newer : List Cell
  window : List Cell
  older : List Cell
  real cell : cell ∈ newer ++ window ++ older → cell.IsReal
  tagged cell : cell ∈ newer ++ window ++ older → cell.Tagged
  ranged cell : cell ∈ newer ++ window ++ older → cell.kind ≠ .delete

namespace Layers

variable {layers : Layers family} {value other marker cell : Cell}

/-- What is left of the layer. -/
def kept (layers : Layers family) : List Cell :=
  family.compacted false layers.window

def before (layers : Layers family) : List Cell :=
  Cell.freshest (layers.newer ++ layers.window ++ layers.older)

def after (layers : Layers family) : List Cell :=
  Cell.freshest (layers.newer ++ layers.kept ++ layers.older)

theorem mem_kept : cell ∈ layers.kept ↔ cell ∈ Cell.freshest layers.window ∧
    (family.shows family.maxVersions (Cell.freshest layers.window) cell = true ∨
      family.carries (Cell.freshest layers.window) cell = true) := by
  simp [kept, Family.compacted]

theorem mem_window (hcell : cell ∈ layers.kept) : cell ∈ layers.window :=
  Cell.mem_of_mem_freshest (mem_kept.mp hcell).1

/-! ## The cells of the layers -/

theorem real_before (hcell : cell ∈ layers.before) : cell.IsReal :=
  layers.real cell (Cell.mem_of_mem_freshest hcell)

/-- Compaction makes no cells. -/
theorem mem_all (hcell : cell ∈ layers.newer ++ layers.kept ++ layers.older) :
    cell ∈ layers.newer ++ layers.window ++ layers.older := by
  simp only [List.mem_append] at hcell ⊢
  exact hcell.imp_left (Or.imp_right mem_window)

theorem mem_all_of_after (hcell : cell ∈ layers.after) :
    cell ∈ layers.newer ++ layers.window ++ layers.older :=
  mem_all (Cell.mem_of_mem_freshest hcell)

theorem mem_all_of_window (hcell : cell ∈ Cell.freshest layers.window) :
    cell ∈ layers.newer ++ layers.window ++ layers.older :=
  List.mem_append_left _ (List.mem_append_right _ (Cell.mem_of_mem_freshest hcell))

/-- What is kept has a copy after the compaction. -/
theorem exists_after (hcell : cell ∈ layers.newer ++ layers.kept ++ layers.older) :
    ∃ copy ∈ layers.after, Cell.compareKeys copy cell = .eq ∧ copy.IsReal := by
  obtain ⟨copy, hcopy, hsame⟩ := Cell.exists_freshest hcell
  exact ⟨copy, hcopy, hsame, layers.real copy (mem_all_of_after hcopy)⟩

theorem exists_before (hcell : cell ∈ layers.newer ++ layers.window ++ layers.older) :
    ∃ copy ∈ layers.before, Cell.compareKeys copy cell = .eq ∧ copy.IsReal := by
  obtain ⟨copy, hcopy, hsame⟩ := Cell.exists_freshest hcell
  exact ⟨copy, hcopy, hsame, real_before hcopy⟩

theorem mem_before : cell ∈ layers.before ↔ cell ∈ Cell.freshest layers.newer ∨
    (∀ copy ∈ layers.newer, Cell.compareKeys copy cell ≠ .eq) ∧
      (cell ∈ Cell.freshest layers.window ∨
        (∀ copy ∈ layers.window, Cell.compareKeys copy cell ≠ .eq) ∧
          cell ∈ Cell.freshest layers.older) := by
  rw [before, List.append_assoc, Cell.mem_freshest_append, Cell.mem_freshest_append]

theorem mem_after : cell ∈ layers.after ↔ cell ∈ Cell.freshest layers.newer ∨
    (∀ copy ∈ layers.newer, Cell.compareKeys copy cell ≠ .eq) ∧
      (cell ∈ layers.kept ∨ (∀ copy ∈ layers.kept, Cell.compareKeys copy cell ≠ .eq) ∧
          cell ∈ Cell.freshest layers.older) := by
  have hkept : Cell.freshest layers.kept = layers.kept :=
    Cell.freshest_of_strictlySorted (family.compacted_strictlySorted _ _)
  rw [after, List.append_assoc, Cell.mem_freshest_append, Cell.mem_freshest_append, hkept]

/-! ## Values behind which nothing is lost -/

/-- Whether the layer keeps the values of a column from a timestamp on. -/
def KeepsFrom (layers : Layers family) (row qualifier : Bytes) (timestamp : Timestamp) : Prop :=
  ∀ value ∈ Cell.freshest layers.window, value.kind = .put → value.row = row →
    value.qualifier = qualifier → timestamp ≤ value.timestamp → value ∈ layers.kept

/-- Where the values of the layer are kept, the same ones count before and after. -/
theorem KeepsFrom.mem_iff {timestamp : Timestamp}
    (hkeeps : layers.KeepsFrom value.row value.qualifier timestamp) (hreal : value.IsReal)
    (hput : value.kind = .put) (hle : timestamp ≤ value.timestamp) :
    value ∈ layers.before ↔ value ∈ layers.after := by
  have hkept : value ∈ Cell.freshest layers.window ↔ value ∈ layers.kept :=
    ⟨fun hmem => hkeeps value hmem hput rfl rfl hle, fun hmem => (mem_kept.mp hmem).1⟩
  -- where the layer has a copy of the value, it keeps one
  have hnone : (∀ copy ∈ layers.window, Cell.compareKeys copy value ≠ .eq) ↔
      ∀ copy ∈ layers.kept, Cell.compareKeys copy value ≠ .eq := by
    refine ⟨fun hnone copy hcopy => hnone copy (mem_window hcopy), fun hnone copy hcopy hsame => ?_⟩
    obtain ⟨first, hfirst, heq⟩ := Cell.exists_freshest hcopy
    have hsame : Cell.compareKeys first value = .eq := Std.TransCmp.eq_trans heq hsame
    have hcopy := Cell.eq_withValue hreal (layers.real first (mem_all_of_window hfirst)) hsame
    refine hnone first (hkeeps first hfirst ?_ ?_ ?_ ?_) hsame <;> rw [hcopy]
    · exact hput
    · rfl
    · rfl
    · exact hle
  rw [mem_before, mem_after, hkept, hnone]

/-! ### Newer values -/

theorem isLive_before (hlive : value.isLive layers.before = true) (hput : other.kind = .put)
    (hrow : other.row = value.row) (hcolumn : other.qualifier = value.qualifier)
    (hle : value.timestamp ≤ other.timestamp) : other.isLive layers.before = true :=
  Cell.isLive_of_le (fun marker hmarker => layers.ranged marker (Cell.mem_of_mem_freshest hmarker))
    hlive hput hrow hcolumn hle

theorem isLive_after (hlive : value.isLive layers.after = true) (hput : other.kind = .put)
    (hrow : other.row = value.row) (hcolumn : other.qualifier = value.qualifier)
    (hle : value.timestamp ≤ other.timestamp) : other.isLive layers.after = true :=
  Cell.isLive_of_le (fun marker hmarker => layers.ranged marker (mem_all_of_after hmarker))
    hlive hput hrow hcolumn hle

/-- A copy of a newer value is a newer value of the column. -/
theorem newer_of_copy {copy : Cell} (hcopyReal : copy.IsReal) (hreal : other.IsReal)
    (hsame : Cell.compareKeys copy other = .eq) (hput : other.kind = .put)
    (hnewer : other.isNewer value = true) :
    copy.isNewer value = true ∧ copy.kind = .put ∧ copy.row = value.row ∧
      copy.qualifier = value.qualifier ∧ value.timestamp ≤ copy.timestamp := by
  obtain ⟨⟨hrow, hcolumn⟩, hlt⟩ := Cell.isNewer_iff.mp hnewer
  refine ⟨(Cell.isNewer_copy hcopyReal hreal hsame value).trans hnewer, ?_⟩
  rw [Cell.eq_withValue hreal hcopyReal hsame]
  exact ⟨hput, hrow, hcolumn, Std.le_of_lt hlt⟩

/-- A value of the layer that is newer than a live one has a copy that counts. -/
theorem exists_newer_before (hlive : value.isLive layers.before = true)
    (hother : other ∈ Cell.freshest layers.window) (hput : other.kind = .put)
    (hnewer : other.isNewer value = true) : ∃ copy ∈ layers.before,
      Cell.compareKeys copy other = .eq ∧ copy.isNewer value = true ∧
        copy.isLive layers.before = true := by
  have hreal := layers.real other (mem_all_of_window hother)
  obtain ⟨copy, hcopy, hsame, hcopyReal⟩ := exists_before (mem_all_of_window hother)
  obtain ⟨hcopyNewer, hcopyPut, hrow, hcolumn, hle⟩ :=
    newer_of_copy hcopyReal hreal hsame hput hnewer
  exact ⟨copy, hcopy, hsame, hcopyNewer, isLive_before hlive hcopyPut hrow hcolumn hle⟩

/-- If it is kept, it has one after the compaction. -/
theorem exists_newer_after (hlive : value.isLive layers.after = true) (hother : other ∈ layers.kept)
    (hput : other.kind = .put) (hnewer : other.isNewer value = true) : ∃ copy ∈ layers.after,
      Cell.compareKeys copy other = .eq ∧ copy.isNewer value = true ∧
        copy.isLive layers.after = true := by
  have hreal := layers.real other (mem_all_of_window (mem_kept.mp hother).1)
  obtain ⟨copy, hcopy, hsame, hcopyReal⟩ :=
    exists_after (List.mem_append_left _ (List.mem_append_right _ hother))
  obtain ⟨hcopyNewer, hcopyPut, hrow, hcolumn, hle⟩ :=
    newer_of_copy hcopyReal hreal hsame hput hnewer
  exact ⟨copy, hcopy, hsame, hcopyNewer, isLive_after hlive hcopyPut hrow hcolumn hle⟩

/-! ## Values that are shown before -/

theorem isLive_window (hlive : value.isLive layers.before = true) :
    value.isLive (Cell.freshest layers.window) = true := by
  refine Cell.isLive_of_copies (fun cell => real_before)
    (fun cell hcell => layers.real cell (mem_all_of_window hcell))
    (fun marker hmarker _ _ => ?_) hlive
  obtain ⟨copy, hcopy, hsame, -⟩ := exists_before (mem_all_of_window hmarker)
  exact ⟨copy, hcopy, hsame⟩

theorem isLive_after_of_before (hlive : value.isLive layers.before = true) :
    value.isLive layers.after = true := by
  refine Cell.isLive_of_copies (fun cell => real_before)
    (fun cell hcell => layers.real cell (mem_all_of_after hcell))
    (fun marker hmarker _ _ => ?_) hlive
  obtain ⟨copy, hcopy, hsame, -⟩ := exists_before (mem_all_of_after hmarker)
  exact ⟨copy, hcopy, hsame⟩

/-- Of the column of a value that is shown, the layer keeps the values that are as new: none
of them lies deeper in the layer. -/
theorem keepsFrom_of_before (hle : versions ≤ family.maxVersions)
    (hshows : family.shows versions layers.before value = true) :
    layers.KeepsFrom value.row value.qualifier value.timestamp := by
  intro other hother hput hrow hcolumn hnewer
  have hlive := (Family.shows_iff.mp hshows).1
  have hdepth : other.depth (Cell.freshest layers.window) ≤ value.depth layers.before := by
    apply Cell.depth_le (Cell.freshest_strictlySorted _)
    intro third hthird hthirdNewer hthirdLive
    obtain ⟨⟨hthirdRow, hthirdColumn⟩, hlt⟩ := Cell.isNewer_iff.mp hthirdNewer
    exact exists_newer_before hlive hthird (Cell.isLive_iff.mp hthirdLive).1 (Cell.isNewer_iff.mpr
      ⟨⟨hthirdRow.trans hrow, hthirdColumn.trans hcolumn⟩, Std.lt_of_le_of_lt hnewer hlt⟩)
  have hotherLive := isLive_window (isLive_before hlive hput hrow hcolumn hnewer)
  exact mem_kept.mpr ⟨hother, .inl (Family.shows_mono hshows hle hotherLive hdepth hnewer)⟩

/-- What is shown before a compaction is shown after it. -/
theorem shows_after (hle : versions ≤ family.maxVersions) (hvalue : value ∈ layers.before)
    (hshows : family.shows versions layers.before value = true) :
    value ∈ layers.after ∧ family.shows versions layers.after value = true := by
  have hkeeps := keepsFrom_of_before hle hshows
  have hlive := (Family.shows_iff.mp hshows).1
  have hput := (Cell.isLive_iff.mp hlive).1
  refine ⟨(hkeeps.mem_iff (real_before hvalue) hput (Std.le_refl _)).mp hvalue,
    Family.shows_mono hshows (Nat.le_refl _) (isLive_after_of_before hlive) ?_ (Std.le_refl _)⟩
  refine Cell.depth_le_of_mem (Cell.freshest_strictlySorted _)
    fun other hother hotherPut hrow hcolumn hnewer => ?_
  have hreal := layers.real other (mem_all_of_after hother)
  rw [← hrow, ← hcolumn] at hkeeps
  exact ⟨(hkeeps.mem_iff hreal hotherPut hnewer).mpr hother,
    isLive_before hlive hotherPut hrow hcolumn hnewer⟩

/-! ## Values that are shown after -/

/-- A marker of the layer that masks a value which is shown after the compaction is kept, if the
layer keeps the newer values of their column: the column is not left behind any of them, because
all of them are newer than what is shown. -/
theorem mem_kept_of_masks (hle : versions ≤ family.maxVersions)
    (hshows : family.shows versions layers.after value = true)
    (hmarker : marker ∈ Cell.freshest layers.window) (hrow : marker.row = value.row)
    (hmasks : marker.masks value = true)
    (hkeeps : ∀ other ∈ Cell.freshest layers.window, other.kind = .put → other.row = value.row →
      other.qualifier = value.qualifier → marker.timestamp < other.timestamp →
        other ∈ layers.kept) : marker ∈ layers.kept := by
  have holder := Cell.timestamp_le_of_masks hmasks
  have hlive := (Family.shows_iff.mp hshows).1
  refine mem_kept.mpr ⟨hmarker, .inr (Family.carries_iff.mpr
    ⟨⟨Cell.isDelete_of_masks hmasks, Family.rulesOut_of_shows hshows holder⟩, ?_⟩)⟩
  intro other hother hnewer hotherLive
  have hput := (Cell.isLive_iff.mp hotherLive).1
  have hcolumn : marker.qualifier = value.qualifier := by
    refine (Cell.kind_of_masks hmasks).resolve_left fun hkind => ?_
    -- a marker on the row has no values in its column
    have hempty := (layers.tagged marker (mem_all_of_window hmarker)).mpr hkind
    have hfamily := (layers.tagged other (mem_all_of_window hother)).mp
      ((Cell.isNewer_iff.mp hnewer).1.2.trans hempty)
    rw [hput] at hfamily
    cases hfamily
  -- the versions in front of the marker are kept, so there are fewer of them than of the value
  have hdepth : other.depth (Cell.freshest layers.window) < value.depth layers.after := by
    apply Cell.depth_lt (Cell.freshest_strictlySorted _) hother hotherLive
    intro third hthird hthirdNewer hthirdLive
    have hthirdPut := (Cell.isLive_iff.mp hthirdLive).1
    have hthirdMarker : third.isNewer marker = true := by
      rcases hthirdNewer with rfl | hthirdNewer
      · exact hnewer
      · exact Cell.isNewer_trans hthirdNewer hnewer
    obtain ⟨⟨hthirdRow, hthirdColumn⟩, hlt⟩ := Cell.isNewer_iff.mp hthirdMarker
    have hthirdRow := hthirdRow.trans hrow
    have hthirdColumn := hthirdColumn.trans hcolumn
    exact exists_newer_after hlive (hkeeps third hthird hthirdPut hthirdRow hthirdColumn hlt)
      hthirdPut (Cell.isNewer_iff.mpr ⟨⟨hthirdRow, hthirdColumn⟩, Std.lt_of_le_of_lt holder hlt⟩)
  have hlt := (Cell.isNewer_iff.mp hnewer).2
  exact Family.readsOn_of_depth_lt hshows hle hdepth (Std.le_trans holder (Std.le_of_lt hlt))

/-- What the layer keeps of markers masks nothing that is live after the compaction. -/
theorem not_masks_of_mem_kept (hlive : value.isLive layers.after = true)
    (hmarker : marker ∈ layers.newer ++ layers.kept ++ layers.older)
    (hrow : marker.row = value.row) : marker.masks value = false := by
  obtain ⟨copy, hcopy, hsame, hreal⟩ := exists_after hmarker
  obtain ⟨hrows, hmasks⟩ := Cell.masks_copy hreal (layers.real marker (mem_all hmarker)) hsame value
  rw [← hmasks]
  exact (Cell.isLive_iff.mp hlive).2 copy hcopy (hrows.trans hrow)

/-- A value that is as new as one that is shown after the compaction is live in the layer, if the
newer versions of the column are kept. -/
theorem isLive_window_of_kept (hle : versions ≤ family.maxVersions)
    (hshows : family.shows versions layers.after value = true) (hput : other.kind = .put)
    (hrow : other.row = value.row) (hcolumn : other.qualifier = value.qualifier)
    (hnewer : value.timestamp ≤ other.timestamp)
    (hkeeps : ∀ third ∈ Cell.freshest layers.window, third.kind = .put →
      third.row = value.row → third.qualifier = value.qualifier →
      other.timestamp < third.timestamp → third ∈ layers.kept) :
    other.isLive (Cell.freshest layers.window) = true := by
  have hlive := (Family.shows_iff.mp hshows).1
  refine Cell.isLive_iff.mpr ⟨hput, fun marker hmarker hsame => ?_⟩
  cases hmasks : marker.masks other with
  | false => rfl
  | true =>
      have hranged := layers.ranged marker (mem_all_of_window hmarker)
      have hmasksValue := Cell.masks_of_le hranged hcolumn hnewer hmasks
      -- the marker would be kept as well, and the value would not be shown
      have hkept := mem_kept_of_masks hle hshows hmarker (hsame.trans hrow) hmasksValue
        fun third hthird hthirdPut hthirdRow hthirdColumn hlt =>
          hkeeps third hthird hthirdPut hthirdRow hthirdColumn
            (Std.lt_of_le_of_lt (Cell.timestamp_le_of_masks hmasks) hlt)
      rw [not_masks_of_mem_kept hlive
        (List.mem_append_left _ (List.mem_append_right _ hkept)) (hsame.trans hrow)]
        at hmasksValue
      cases hmasksValue

/-- Of the column of a value that is shown after the compaction, the layer has kept the values
that are as new. This is by induction from the newest one on. -/
theorem keepsFrom_of_after (hle : versions ≤ family.maxVersions)
    (hshows : family.shows versions layers.after value = true) :
    layers.KeepsFrom value.row value.qualifier value.timestamp := by
  have hlive := (Family.shows_iff.mp hshows).1
  -- whether a version is kept depends on which markers are, and that on which newer versions are:
  -- so the induction is on the age of the version
  suffices hall : ∀ age, ∀ other ∈ Cell.freshest layers.window, other.kind = .put →
      other.row = value.row → other.qualifier = value.qualifier →
      value.timestamp ≤ other.timestamp → UInt64.size - other.timestamp.toNat = age →
        other ∈ layers.kept from
    fun other hother hput hrow hcolumn hnewer => hall _ other hother hput hrow hcolumn hnewer rfl
  intro age
  induction age using Nat.strongRecOn with
  | _ age ih =>
    intro other hother hput hrow hcolumn hnewer hage
    have hkeeps : ∀ third ∈ Cell.freshest layers.window, third.kind = .put →
        third.row = value.row → third.qualifier = value.qualifier →
        other.timestamp < third.timestamp → third ∈ layers.kept := by
      intro third hthird hthirdPut hthirdRow hthirdColumn hlt
      have hstamp := (Timestamp.lt_iff_toNat _ _).mp hlt
      have hsize := third.timestamp.toNat_lt_size
      exact ih _ (by omega) third hthird hthirdPut hthirdRow hthirdColumn
        (Std.le_trans hnewer (Std.le_of_lt hlt)) rfl
    have hotherLive := isLive_window_of_kept hle hshows hput hrow hcolumn hnewer hkeeps
    have hdepth : other.depth (Cell.freshest layers.window) ≤ value.depth layers.after := by
      apply Cell.depth_le (Cell.freshest_strictlySorted _)
      intro third hthird hthirdNewer hthirdLive
      obtain ⟨⟨hthirdRow, hthirdColumn⟩, hlt⟩ := Cell.isNewer_iff.mp hthirdNewer
      have hthirdPut := (Cell.isLive_iff.mp hthirdLive).1
      have hthirdRow := hthirdRow.trans hrow
      have hthirdColumn := hthirdColumn.trans hcolumn
      exact exists_newer_after hlive (hkeeps third hthird hthirdPut hthirdRow hthirdColumn hlt)
        hthirdPut (Cell.isNewer_iff.mpr ⟨⟨hthirdRow, hthirdColumn⟩, Std.lt_of_le_of_lt hnewer hlt⟩)
    exact mem_kept.mpr ⟨hother, .inl (Family.shows_mono hshows hle hotherLive hdepth hnewer)⟩

/-- What is shown after a compaction was shown before it. -/
theorem shows_before (hle : versions ≤ family.maxVersions) (hvalue : value ∈ layers.after)
    (hshows : family.shows versions layers.after value = true) :
    value ∈ layers.before ∧ family.shows versions layers.before value = true := by
  have hkeeps := keepsFrom_of_after hle hshows
  have hlive := (Family.shows_iff.mp hshows).1
  have hput := (Cell.isLive_iff.mp hlive).1
  have hreal := layers.real value (mem_all_of_after hvalue)
  -- a marker that deletes the value is still there after the compaction, when the value is live
  have hliveBefore : value.isLive layers.before = true := by
    refine Cell.isLive_iff.mpr ⟨hput, fun marker hmarker hrow => ?_⟩
    cases hmasks : marker.masks value with
    | false => rfl
    | true =>
        have hleft : marker ∈ layers.newer ++ layers.kept ++ layers.older := by
          simp only [List.mem_append]
          rcases mem_before.mp hmarker with hnewer | ⟨-, hwindow | ⟨-, holder⟩⟩
          · exact .inl (.inl (Cell.mem_of_mem_freshest hnewer))
          · exact .inl (.inr (mem_kept_of_masks hle hshows hwindow hrow hmasks
              fun other hother hput hrow hcolumn hlt => hkeeps other hother hput hrow hcolumn
                (Std.le_trans (Cell.timestamp_le_of_masks hmasks) (Std.le_of_lt hlt))))
          · exact .inr (Cell.mem_of_mem_freshest holder)
        rw [← hmasks, not_masks_of_mem_kept hlive hleft hrow]
  refine ⟨(hkeeps.mem_iff hreal hput (Std.le_refl _)).mpr hvalue,
    Family.shows_mono hshows (Nat.le_refl _) hliveBefore ?_ (Std.le_refl _)⟩
  refine Cell.depth_le_of_mem (Cell.freshest_strictlySorted _)
    fun other hother hotherPut hrow hcolumn hnewer => ?_
  rw [← hrow, ← hcolumn] at hkeeps
  exact ⟨(hkeeps.mem_iff (real_before hother) hotherPut hnewer).mp hother,
    isLive_after hlive hotherPut hrow hcolumn hnewer⟩

/-- To compact a layer changes nothing of what is shown. -/
theorem filter_shows (layers : Layers family) (rows : Cell → Bool)
    (hle : versions ≤ family.maxVersions) :
    (layers.after.filter fun cell => rows cell && family.shows versions layers.after cell) =
      layers.before.filter fun cell => rows cell && family.shows versions layers.before cell := by
  have hafter : keys.StrictlySorted layers.after := Cell.freshest_strictlySorted _
  have hbefore : keys.StrictlySorted layers.before := Cell.freshest_strictlySorted _
  apply StrictlySorted.eq_of_mem_iff (hafter.filter _) (hbefore.filter _)
  intro cell
  simp only [List.mem_filter, Bool.and_eq_true]
  constructor
  · rintro ⟨hcell, hrow, hshows⟩
    obtain ⟨hmem, hshown⟩ := shows_before hle hcell hshows
    exact ⟨hmem, hrow, hshown⟩
  · rintro ⟨hcell, hrow, hshows⟩
    obtain ⟨hmem, hshown⟩ := shows_after hle hcell hshows
    exact ⟨hmem, hrow, hshown⟩

end Layers

/-! ## Compacting everything

What is left of all cells without their markers are the values that can be shown at most.
Newer live values of one of them can be shown as well, so as many of them are left as there
were.
-/

namespace Family

variable {cells : List Cell} {value other cell : Cell}

theorem mem_compacted : cell ∈ family.compacted true cells ↔ cell ∈ Cell.freshest cells ∧
    family.shows family.maxVersions (Cell.freshest cells) cell = true := by
  simp [compacted]

/-- No marker is left. -/
theorem kind_of_mem_compacted (hcell : cell ∈ family.compacted true cells) : cell.kind = .put :=
  (Cell.isLive_iff.mp (shows_iff.mp (mem_compacted.mp hcell).2).1).1

theorem isLive_compacted (hput : value.kind = .put) :
    value.isLive (family.compacted true cells) = true :=
  Cell.isLive_iff.mpr ⟨hput, fun _ hmarker _ =>
    Cell.masks_of_put (kind_of_mem_compacted hmarker) value⟩

theorem depth_compacted_le (family : Family) (cells : List Cell) (value : Cell) :
    value.depth (family.compacted true cells) ≤ value.depth (Cell.freshest cells) := by
  apply Cell.depth_le (family.compacted_strictlySorted _ _)
  intro other hother hnewer _
  obtain ⟨hmem, hshows⟩ := mem_compacted.mp hother
  exact ⟨other, hmem, Std.ReflCmp.compare_self, hnewer, (shows_iff.mp hshows).1⟩

theorem le_depth_compacted (hle : versions ≤ family.maxVersions)
    (hshows : family.shows versions (Cell.freshest cells) value = true) :
    value.depth (Cell.freshest cells) ≤ value.depth (family.compacted true cells) := by
  apply Cell.depth_le (Cell.freshest_strictlySorted _)
  intro other hother hnewer hlive
  have hdepth : other.depth (Cell.freshest cells) ≤ value.depth (Cell.freshest cells) := by
    apply Cell.depth_le (Cell.freshest_strictlySorted _)
    intro third hthird hthirdNewer hthirdLive
    exact ⟨third, hthird, Std.ReflCmp.compare_self, Cell.isNewer_trans hthirdNewer hnewer,
      hthirdLive⟩
  have hshown := shows_mono hshows hle hlive hdepth (Std.le_of_lt (Cell.isNewer_iff.mp hnewer).2)
  exact ⟨other, mem_compacted.mpr ⟨hother, hshown⟩, Std.ReflCmp.compare_self, hnewer,
    isLive_compacted (Cell.isLive_iff.mp hlive).1⟩

theorem shows_compacted_iff (hle : versions ≤ family.maxVersions) :
    value ∈ family.compacted true cells ∧
        family.shows versions (family.compacted true cells) value = true ↔
      value ∈ Cell.freshest cells ∧ family.shows versions (Cell.freshest cells) value = true := by
  constructor
  · rintro ⟨hvalue, hshows⟩
    obtain ⟨hmem, hmost⟩ := mem_compacted.mp hvalue
    exact ⟨hmem, shows_mono hshows (Nat.le_refl _) (shows_iff.mp hmost).1
      (le_depth_compacted (Nat.le_refl _) hmost) (Std.le_refl _)⟩
  · rintro ⟨hmem, hshows⟩
    have hlive := (shows_iff.mp hshows).1
    have hmost := shows_mono hshows hle hlive (Nat.le_refl _) (Std.le_refl _)
    exact ⟨mem_compacted.mpr ⟨hmem, hmost⟩, shows_mono hshows (Nat.le_refl _)
      (isLive_compacted (Cell.isLive_iff.mp hlive).1) (depth_compacted_le family cells value)
      (Std.le_refl _)⟩

/-- To compact everything changes nothing of what is shown. -/
theorem filter_shows_compacted (cells : List Cell) (rows : Cell → Bool)
    (hle : versions ≤ family.maxVersions) :
    ((family.compacted true cells).filter fun cell =>
        rows cell && family.shows versions (family.compacted true cells) cell) =
      (Cell.freshest cells).filter fun cell =>
        rows cell && family.shows versions (Cell.freshest cells) cell := by
  have hleft : keys.StrictlySorted (family.compacted true cells) :=
    family.compacted_strictlySorted _ _
  have hright : keys.StrictlySorted (Cell.freshest cells) := Cell.freshest_strictlySorted _
  apply StrictlySorted.eq_of_mem_iff (hleft.filter _) (hright.filter _)
  intro cell
  rw [List.mem_filter, List.mem_filter, Bool.and_eq_true, Bool.and_eq_true, and_left_comm,
    shows_compacted_iff hle, and_left_comm]

/-- To compact everything once more changes nothing. -/
theorem compacted_compacted (family : Family) (cells : List Cell) :
    family.compacted true (family.compacted true cells) = family.compacted true cells := by
  have hsorted : keys.StrictlySorted (family.compacted true cells) :=
    family.compacted_strictlySorted _ _
  have hsame := Cell.freshest_of_strictlySorted hsorted
  apply StrictlySorted.eq_of_mem_iff (family.compacted_strictlySorted _ _) hsorted
  intro cell
  rw [mem_compacted, hsame, shows_compacted_iff (Nat.le_refl _), mem_compacted]

end Family

end MergeScan
