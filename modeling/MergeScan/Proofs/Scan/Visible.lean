import MergeScan.Proofs.Cell.Alike
import MergeScan.Proofs.Cell.Freshest
import MergeScan.Proofs.Matcher.Masks
import MergeScan.Proofs.Scan.Reference

/-! # What can be seen of a list

What a scan of every column and of all times shows of a list depends on the number of
versions that it asks for, but apart from that only on the list: on which values are live,
and on how many newer ones there are of each.
-/

namespace MergeScan

open CellOrder

variable {family : Family} {cells left right : List Cell} {cell other value marker : Cell}

namespace Cell

/-- Whether a cell is a value that no marker of a list deletes. -/
def isLive (cells : List Cell) (value : Cell) : Bool :=
  value.kind = .put && !cells.any fun marker => marker.row = value.row && marker.masks value

/-- The number of newer live values of the same column. -/
def depth (cells : List Cell) (cell : Cell) : Nat :=
  cells.countP fun other => other.isNewer cell && other.isLive cells

theorem isLive_iff : value.isLive cells = true ↔
    value.kind = .put ∧ ∀ marker ∈ cells, marker.row = value.row → marker.masks value = false := by
  simp [isLive]

theorem isNewer_iff : other.isNewer cell = true ↔ (other.row = cell.row ∧
    other.qualifier = cell.qualifier) ∧ cell.timestamp < other.timestamp := by
  simp [isNewer]

theorem isNewer_trans (hother : other.isNewer cell = true) (hcell : cell.isNewer value = true) :
    other.isNewer value = true := by
  obtain ⟨⟨hrow, hcolumn⟩, hlt⟩ := isNewer_iff.mp hother
  obtain ⟨⟨hrow', hcolumn'⟩, hlt'⟩ := isNewer_iff.mp hcell
  exact isNewer_iff.mpr ⟨⟨hrow.trans hrow', hcolumn.trans hcolumn'⟩, Std.lt_trans hlt' hlt⟩

/-- A marker masks what a copy of it masks. -/
theorem masks_copy {copy : Cell} (hcopy : copy.IsReal) (hmarker : marker.IsReal)
    (hsame : compareKeys copy marker = .eq) (value : Cell) :
    copy.row = marker.row ∧ copy.masks value = marker.masks value := by
  rw [eq_withValue hmarker hcopy hsame]
  exact ⟨rfl, rfl⟩

theorem isNewer_copy {copy : Cell} (hcopy : copy.IsReal) (hother : other.IsReal)
    (hsame : compareKeys copy other = .eq) (cell : Cell) :
    copy.isNewer cell = other.isNewer cell := by
  rw [eq_withValue hother hcopy hsame]
  rfl

/-- What is live in a list is live wherever there are no other markers. -/
theorem isLive_of_copies (hleft : ∀ cell ∈ left, cell.IsReal) (hright : ∀ cell ∈ right, cell.IsReal)
    (hcopies : ∀ marker ∈ right, marker.row = value.row → marker.masks value = true →
      ∃ copy ∈ left, compareKeys copy marker = .eq)
    (hlive : value.isLive left = true) : value.isLive right = true := by
  obtain ⟨hput, hnone⟩ := isLive_iff.mp hlive
  refine isLive_iff.mpr ⟨hput, fun marker hmarker hrow => ?_⟩
  cases hmasks : marker.masks value with
  | false => rfl
  | true =>
      obtain ⟨copy, hcopy, hsame⟩ := hcopies marker hmarker hrow hmasks
      obtain ⟨hrows, heq⟩ :=
        masks_copy (hleft copy hcopy) (hright marker hmarker) hsame value
      rw [← heq, hnone copy hcopy (hrows.trans hrow)] at hmasks
      cases hmasks

/-- A marker that masks a value is one on its row or one on its column. -/
theorem kind_of_masks (hmasks : marker.masks value = true) :
    marker.kind = .deleteFamily ∨ marker.qualifier = value.qualifier := by
  unfold masks at hmasks
  cases hkind : marker.kind <;> simp_all

/-- Markers other than those on one version mask what is older than what they mask. -/
theorem masks_of_le (hkind : marker.kind ≠ .delete) (hcolumn : other.qualifier = value.qualifier)
    (hle : value.timestamp ≤ other.timestamp) (hmasks : marker.masks other = true) :
    marker.masks value = true := by
  have hstamp := Std.le_trans hle (timestamp_le_of_masks hmasks)
  unfold masks at hmasks ⊢
  cases hcase : marker.kind <;> simp_all

/-- Where no marker is on one version, what is newer than a live value is live. -/
theorem isLive_of_le (hkinds : ∀ marker ∈ cells, marker.kind ≠ .delete)
    (hlive : value.isLive cells = true) (hput : other.kind = .put) (hrow : other.row = value.row)
    (hcolumn : other.qualifier = value.qualifier) (hle : value.timestamp ≤ other.timestamp) :
    other.isLive cells = true := by
  obtain ⟨-, hnone⟩ := isLive_iff.mp hlive
  refine isLive_iff.mpr ⟨hput, fun marker hmarker hsame => ?_⟩
  cases hmasks : marker.masks other with
  | false => rfl
  | true =>
      rw [← hnone marker hmarker (hsame.trans hrow),
        masks_of_le (hkinds marker hmarker) hcolumn hle hmasks]

/-- A value lies as deep as another one at most if each newer value has a copy that is newer than
the other one. -/
theorem depth_le (hleft : keys.StrictlySorted left)
    (hcopies : ∀ newer ∈ left, newer.isNewer cell = true → newer.isLive left = true →
      ∃ copy ∈ right, compareKeys copy newer = .eq ∧ copy.isNewer value = true ∧
        copy.isLive right = true) :
    depth left cell ≤ depth right value := by
  apply hleft.countP_le
  intro newer hmem hnewer
  rw [Bool.and_eq_true] at hnewer
  obtain ⟨copy, hcopy, hsame, hcopyNewer, hlive⟩ := hcopies newer hmem hnewer.1 hnewer.2
  exact ⟨copy, hcopy, hsame, by rw [hcopyNewer, hlive]; rfl⟩

/-- A value lies nowhere deeper than where the values of its column that are as new are live. -/
theorem depth_le_of_mem (hleft : keys.StrictlySorted left)
    (hmem : ∀ newer ∈ left, newer.kind = .put → newer.row = value.row →
      newer.qualifier = value.qualifier → value.timestamp ≤ newer.timestamp →
        newer ∈ right ∧ newer.isLive right = true) :
    depth left value ≤ depth right value := by
  apply depth_le hleft
  intro newer hnewer hisNewer hlive
  obtain ⟨⟨hrow, hcolumn⟩, hlt⟩ := isNewer_iff.mp hisNewer
  obtain ⟨hother, hotherLive⟩ :=
    hmem newer hnewer (isLive_iff.mp hlive).1 hrow hcolumn (Std.le_of_lt hlt)
  exact ⟨newer, hother, Std.ReflCmp.compare_self, hisNewer, hotherLive⟩

/-- A live value lies less deep than another one if it has a copy that is newer, and each newer
value has. -/
theorem depth_lt (hleft : keys.StrictlySorted left) (hcell : cell ∈ left)
    (hlive : cell.isLive left = true)
    (hcopies : ∀ newer ∈ left, newer = cell ∨ newer.isNewer cell = true →
      newer.isLive left = true → ∃ copy ∈ right, compareKeys copy newer = .eq ∧
        copy.isNewer value = true ∧ copy.isLive right = true) :
    depth left cell < depth right value := by
  let among (newer : Cell) : Bool := (newer = cell || newer.isNewer cell) && newer.isLive left
  have hmore : left.countP among ≤ depth right value := by
    apply hleft.countP_le
    intro newer hmem hamong
    simp only [among, Bool.and_eq_true, Bool.or_eq_true, decide_eq_true_eq] at hamong
    obtain ⟨copy, hcopy, hsame, hcopyNewer, hlive⟩ := hcopies newer hmem hamong.1 hamong.2
    exact ⟨copy, hcopy, hsame, by rw [hcopyNewer, hlive]; rfl⟩
  -- the value itself is among those that are counted, but not newer than itself
  have hself : cell.isNewer cell = false := by simp [isNewer, Std.lt_irrefl]
  have hfewer : (left.filter fun newer => newer.isNewer cell && newer.isLive left) =
      (left.filter among).filter fun newer => newer.isNewer cell && newer.isLive left := by
    rw [List.filter_filter]
    refine List.filter_congr fun newer _ => ?_
    cases hnewer : newer.isNewer cell <;> simp +contextual [among, hnewer]
  refine Nat.lt_of_lt_of_le ?_ hmore
  rw [depth, List.countP_eq_length_filter, List.countP_eq_length_filter, hfewer]
  apply List.length_filter_lt_length_iff_exists.mpr
  exact ⟨cell, List.mem_filter.mpr ⟨hcell, by simp [among, hlive]⟩, by simp [hself]⟩

end Cell

namespace Family

/-- Whether a value of a list is shown to those who ask for so many versions. -/
def shows (family : Family) (versions : Nat) (cells : List Cell) (value : Cell) : Bool :=
  value.isLive cells && value.depth cells < versions &&
    (value.depth cells < family.minVersions || !family.hasExpired value.timestamp)

/-- Whether the column of a live value is read on behind it. -/
def readsOn (family : Family) (cells : List Cell) (value : Cell) : Bool :=
  value.depth cells + 1 < family.maxVersions &&
    (value.depth cells < family.minVersions || !family.hasExpired value.timestamp)

/-- Whether a marker of a list is carried along by those who keep markers. -/
def carries (family : Family) (cells : List Cell) (marker : Cell) : Bool :=
  marker.isDelete && !family.rulesOut marker.timestamp &&
    cells.all fun other =>
      !(other.isNewer marker && other.isLive cells) || family.readsOn cells other

theorem hasExpired_of_le {timestamp older : Timestamp} (holder : older ≤ timestamp)
    (hexpired : family.hasExpired timestamp = true) : family.hasExpired older = true := by
  unfold hasExpired at hexpired ⊢
  cases hoption : family.oldestUnexpired with
  | none => simp [hoption] at hexpired
  | some oldest =>
      simp only [hoption, Option.any_some, decide_eq_true_eq] at hexpired ⊢
      exact Std.lt_of_le_of_lt holder hexpired

variable {versions most : Nat}

theorem shows_iff : family.shows versions cells value = true ↔ value.isLive cells = true ∧
    value.depth cells < versions ∧
      (value.depth cells < family.minVersions ∨ family.hasExpired value.timestamp = false) := by
  simp [shows, and_assoc]

/-- What is shown is not ruled out, and neither is what is newer. -/
theorem rulesOut_of_shows (hshows : family.shows versions cells value = true)
    {timestamp : Timestamp} (hle : value.timestamp ≤ timestamp) :
    family.rulesOut timestamp = false := by
  obtain ⟨-, -, hyoung⟩ := shows_iff.mp hshows
  refine Bool.eq_false_iff.mpr fun hout => ?_
  simp only [rulesOut, Bool.and_eq_true, decide_eq_true_eq] at hout
  rw [hout.1, hasExpired_of_le hle hout.2] at hyoung
  exact hyoung.elim (Nat.not_lt_zero _) Bool.noConfusion

/-- A live value is shown if one is that is no newer and lies no less deep. -/
theorem shows_mono (hshows : family.shows versions left value = true) (hle : versions ≤ most)
    (hlive : other.isLive right = true) (hdepth : other.depth right ≤ value.depth left)
    (hnewer : value.timestamp ≤ other.timestamp) : family.shows most right other = true := by
  obtain ⟨-, hversions, hyoung⟩ := shows_iff.mp hshows
  refine shows_iff.mpr ⟨hlive, by omega, hyoung.imp (by omega) fun hyoung => ?_⟩
  exact Bool.eq_false_iff.mpr (mt (hasExpired_of_le hnewer) (by simp [hyoung]))

/-- Behind a live value a column is read on if one is shown that is no newer and lies deeper. -/
theorem readsOn_of_depth_lt (hshows : family.shows versions left value = true)
    (hle : versions ≤ family.maxVersions) (hdepth : other.depth right < value.depth left)
    (hnewer : value.timestamp ≤ other.timestamp) : family.readsOn right other = true := by
  obtain ⟨-, hversions, hyoung⟩ := shows_iff.mp hshows
  simp only [readsOn, Bool.and_eq_true, Bool.or_eq_true, decide_eq_true_eq, Bool.not_eq_true']
  refine ⟨by omega, hyoung.imp (by omega) fun hyoung => ?_⟩
  exact Bool.eq_false_iff.mpr (mt (hasExpired_of_le hnewer) (by simp [hyoung]))

theorem carries_iff : family.carries cells marker = true ↔ (marker.isDelete = true ∧
    family.rulesOut marker.timestamp = false) ∧ ∀ other ∈ cells, other.isNewer marker = true →
      other.isLive cells = true → family.readsOn cells other = true := by
  simp only [carries, Bool.and_eq_true, Bool.not_eq_true', List.all_eq_true, Bool.or_eq_true,
    Bool.and_eq_false_imp]
  refine and_congr_right fun _ => forall_congr' fun other => imp_congr_right fun _ => ?_
  cases other.isNewer marker <;> cases other.isLive cells <;> simp

/-- What is shown at most of a list, and with it the markers that are carried along unless
the list holds everything there is. -/
def compacted (family : Family) (major : Bool) (cells : List Cell) : List Cell :=
  (Cell.freshest cells).filter fun cell =>
    family.shows family.maxVersions (Cell.freshest cells) cell ||
      (!major && family.carries (Cell.freshest cells) cell)

theorem compacted_strictlySorted (family : Family) (major : Bool) (cells : List Cell) :
    keys.StrictlySorted (family.compacted major cells) :=
  (Cell.freshest_strictlySorted cells).filter _

end Family

/-! ## Scans of every column and of all times -/

theorem TimeRange.contains_all (timestamp : Timestamp) :
    TimeRange.all.contains timestamp = true := by
  have hnot : ¬timestamp < .oldest := Std.not_lt.mpr (Timestamp.oldest_le timestamp)
  simp [contains, position, all, hnot]

theorem RowRange.contains_all (row : Bytes) : RowRange.all.contains row = true := by
  refine contains_iff.mpr ⟨Bool.eq_false_iff.mpr (mt startsAfter_iff.mp ?_), rfl⟩
  exact Std.not_lt.mpr (List.nil_le row)

namespace Scan

variable {φ : Type} {scan : Scan φ}

/-- A scan of every column and of all times. -/
structure Wide (scan : Scan φ) : Prop where
  columns : scan.columns = []
  timeRange : scan.timeRange = .all

theorem Wide.finds_eq (hwide : scan.Wide) (cells : List Cell) (cell : Cell) :
    scan.finds cells cell = (scan.rows.contains cell.row && cell.isLive cells) := by
  rw [finds, wants, hwide.columns, hwide.timeRange, TimeRange.contains_all, Cell.isLive,
    Bool.and_comm (cell.kind = .put : Bool)]
  simp [Bool.and_assoc]

theorem Wide.rank_eq (hwide : scan.Wide) (cells : List Cell)
    (hrow : scan.rows.contains cell.row = true) : scan.rank cells cell = cell.depth cells := by
  apply List.countP_congr
  intro other _
  rw [hwide.finds_eq]
  cases hnewer : other.isNewer cell with
  | false => rfl
  | true => simp [(Cell.isNewer_iff.mp hnewer).1.1, hrow]

/-- What such a scan shows. -/
theorem Wide.shows_eq (hwide : scan.Wide) (family : Family) (cells : List Cell) (cell : Cell) :
    scan.shows family cells cell = (scan.rows.contains cell.row &&
      family.shows (min scan.maxVersions family.maxVersions) cells cell) := by
  cases hrow : scan.rows.contains cell.row with
  | false => simp [shows, hwide.finds_eq, hrow]
  | true => rw [shows, hwide.finds_eq, hwide.rank_eq cells hrow, hrow]; rfl

/-- Which markers such a scan carries along that asks for all versions there are. -/
theorem Wide.carries_eq (hwide : scan.Wide) (cells : List Cell)
    (hmost : family.maxVersions ≤ scan.maxVersions) (marker : Cell) :
    scan.carries family cells marker = (scan.retainDeletes && scan.rows.contains marker.row &&
      family.carries cells marker) := by
  cases hrow : scan.rows.contains marker.row with
  | false => simp [carries, hrow]
  | true =>
      have hreads (other : Cell) :
          (!(other.isNewer marker && scan.finds cells other) || scan.readsOn family cells other) =
            (!(other.isNewer marker && other.isLive cells) || family.readsOn cells other) := by
        cases hnewer : other.isNewer marker with
        | false => rfl
        | true =>
            have hsame := (Cell.isNewer_iff.mp hnewer).1.1
            rw [hwide.finds_eq, readsOn, hwide.rank_eq cells (hsame ▸ hrow), hsame, hrow,
              Nat.min_eq_right hmost]
            rfl
      simp only [carries, Family.carries, hrow, hreads, Bool.and_true, Bool.and_assoc]

end Scan

end MergeScan
