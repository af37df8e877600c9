import Mathlib
import MergeScan.Filter.Any
import MergeScan.Proofs.Scan.Visible
import MergeScan.Proofs.Scanner.Copies
import MergeScan.Proofs.Scanner.Drain
import MergeScan.Proofs.Scanner.Kept
import MergeScan.Proofs.Store.Supply

/-! # A scan hands out what it should

A scan of a list with one cell at each place hands out its reference, and along with that
the markers that it carries, if it hands out markers at all.
-/

namespace MergeScan

open CellOrder

variable {φ : Type} {family : Family} {scan : Scan φ} {cells : List Cell} {cell other : Cell}

namespace Scan

/-- A scan without a filter. Where it hands out markers, it asks for every column and for all
times up to the newest. -/
structure Steady (family : Family) (scan : Scan φ) : Prop extends scan.Unfiltered family where
  every : scan.retainDeletes = true → scan.columns = []
  reaches : scan.retainDeletes = true → scan.timeRange.start = .oldest

/-- A scan that can be told by its reference: where the columns of a list are wanted, no expired
version is kept. -/
structure Regular (family : Family) (scan : Scan φ) : Prop extends scan.Steady family where
  strict : scan.columns = [] ∨ family.minVersions = 0 ∨ family.ttl = none

theorem Steady.matcher (hsteady : scan.Steady family) : (Matcher.ofScan family scan).Steady where
  versions := Nat.le_min.mpr ⟨hsteady.wellFormed.versions, hsteady.familyWellFormed⟩
  every hretain := by
    have hcolumns := hsteady.every hretain
    exact ⟨none, by simp [Matcher.ofScan, ColumnProgress.start, hcolumns]⟩
  reaches timestamp hretain := by
    have hstart := hsteady.reaches hretain
    have hnot : ¬timestamp < Timestamp.oldest := Std.not_lt.mpr (Timestamp.oldest_le timestamp)
    have hposition : scan.timeRange.position timestamp ≠ .lt := by
      unfold TimeRange.position
      rw [hstart, if_neg hnot]
      split <;> simp
    exact hposition

/-- The matcher of a scan and a list with one cell at each place. -/
theorem Steady.lined (hsteady : scan.Steady family) (hname : family.name ≠ [])
    (hsingle : keys.StrictlySorted cells) (hstored : Cell.StoredIn family.name cells)
    (htagged : ∀ cell ∈ cells, cell.Tagged) :
    (Matcher.ofScan family scan).Lined family.name cells where
  toPrepared := hsteady.toUnfiltered.prepared hsingle.sorted hstored
  named := hname
  single := hsingle
  tagged := htagged
  steady := hsteady.matcher
  current _ hrow := nomatch hrow

theorem Plain.steady (hplain : scan.Plain family) : scan.Steady family where
  toUnfiltered := hplain.unfiltered
  every hretain := by
    rw [hplain.retainDeletes] at hretain
    cases hretain
  reaches hretain := by
    rw [hplain.retainDeletes] at hretain
    cases hretain

theorem Plain.regular (hplain : scan.Plain family)
    (hstrict : scan.columns = [] ∨ family.minVersions = 0 ∨ family.ttl = none) :
    scan.Regular family :=
  ⟨hplain.steady, hstrict⟩

theorem Regular.plain (hregular : scan.Regular family) (hvalues : scan.retainDeletes = false) :
    scan.Plain family :=
  ⟨hregular.wellFormed, hregular.familyWellFormed, hregular.order, hregular.filter, hvalues⟩

/-- A newer value that is found comes before fewer ones. -/
theorem rank_lt (hmem : other ∈ cells) (hnewer : other.isNewer cell = true)
    (hfound : scan.finds cells other = true) : scan.rank cells other < scan.rank cells cell := by
  have hself : other.isNewer other = false := by simp [Cell.isNewer, Std.lt_irrefl]
  have hfewer : (cells.filter fun third => third.isNewer other && scan.finds cells third) =
      (cells.filter fun third => third.isNewer cell && scan.finds cells third).filter
        fun third => third.isNewer other && scan.finds cells third := by
    rw [List.filter_filter]
    refine List.filter_congr fun third _ => ?_
    cases hthird : third.isNewer other with
    | false => rfl
    | true =>
        simp only [Cell.isNewer, Bool.and_eq_true, decide_eq_true_eq] at hthird hnewer
        have hcolumn : third.isNewer cell = true := by
          simp [Cell.isNewer, hthird.1.1.trans hnewer.1.1, hthird.1.2.trans hnewer.1.2,
            Std.lt_trans hnewer.2 hthird.2]
        simp [hcolumn]
  rw [rank, rank, List.countP_eq_length_filter, List.countP_eq_length_filter, hfewer]
  apply List.length_filter_lt_length_iff_exists.mpr
  exact ⟨other, List.mem_filter.mpr ⟨hmem, by rw [hnewer, hfound]; rfl⟩, by simp [hself]⟩

end Scan

namespace Matcher

open Scan

/-! ## The beginning of a row -/

variable {row : Bytes}

theorem taken_entered (family : Family) (scan : Scan φ) (row qualifier : Bytes) :
    ((ofScan family scan).entered row).columns.taken qualifier =
      if scan.wants qualifier then 0 else family.versionsFor scan.maxVersions := by
  unfold Scan.wants
  cases hcolumns : scan.columns with
  | nil =>
      simp [entered, reset, ofScan, hcolumns, ColumnProgress.start, ColumnProgress.reset,
        ColumnProgress.taken]
  | cons first rest =>
      simp [entered, reset, ofScan, hcolumns, ColumnProgress.start, ColumnProgress.reset,
        ColumnProgress.taken, ColumnProgress.takenListed_start]

theorem isExpired_entered (family : Family) (scan : Scan φ) (row : Bytes) (timestamp : Timestamp) :
    ((ofScan family scan).entered row).columns.rule.isExpired timestamp =
      family.hasExpired timestamp := by
  unfold Family.hasExpired VersionRule.isExpired
  simp only [entered, reset, ofScan, ColumnProgress.start, ColumnProgress.reset]
  cases family.oldestUnexpired <;> rfl

theorem rulesOut_entered (family : Family) (scan : Scan φ) (row : Bytes) (timestamp : Timestamp) :
    ((ofScan family scan).entered row).columns.rule.rulesOut timestamp =
      family.rulesOut timestamp := by
  rw [VersionRule.rulesOut, isExpired_entered]
  rfl

/-- The columns of a list of which no expired version is kept. -/
theorem not_hasExpired (hstrict : scan.columns = [] ∨ family.minVersions = 0 ∨ family.ttl = none)
    (hlisted : scan.columns ≠ []) {timestamp : Timestamp}
    (hage : family.rulesOut timestamp = false) : family.hasExpired timestamp = false := by
  rcases hstrict with hnone | hmin | httl
  · exact absurd hnone hlisted
  · simpa [Family.rulesOut, hmin] using hage
  · simp [Family.hasExpired, Family.oldestUnexpired, httl]

theorem isListed_entered (family : Family) (scan : Scan φ) (row : Bytes) :
    ((ofScan family scan).entered row).columns.isListed = !scan.columns.isEmpty := by
  have hreset : ((ofScan family scan).entered row).columns.isListed =
      (ColumnProgress.start (ofScan family scan).columns.rule scan.columns).isListed :=
    ColumnProgress.isListed_reset _
  rw [hreset, ColumnProgress.isListed, ColumnProgress.start]
  cases scan.columns <;> rfl

theorem grants_entered (hstrict : scan.columns = [] ∨ family.minVersions = 0 ∨ family.ttl = none)
    (row : Bytes) {qualifier : Bytes} (hwants : scan.wants qualifier = true) {timestamp : Timestamp}
    (hage : family.rulesOut timestamp = false) (newer : Nat) :
    ((ofScan family scan).entered row).columns.grants qualifier timestamp newer =
      (newer < min scan.maxVersions family.maxVersions &&
        (newer < family.minVersions || !family.hasExpired timestamp) : Bool) := by
  have hrule :
      ((ofScan family scan).entered row).columns.rule = (ofScan family scan).columns.rule := rfl
  rw [ColumnProgress.grants, taken_entered, if_pos hwants, isExpired_entered, Nat.zero_add,
    isListed_entered, hrule]
  by_cases hlisted : scan.columns = []
  · rw [hlisted]
    rfl
  · rw [not_hasExpired hstrict hlisted hage, Bool.not_false, Bool.or_true, Bool.or_true]
    rfl

theorem holds_entered (hstrict : scan.columns = [] ∨ family.minVersions = 0 ∨ family.ttl = none)
    (row : Bytes) {qualifier : Bytes} (hwants : scan.wants qualifier = true) {timestamp : Timestamp}
    (hage : family.rulesOut timestamp = false) (newer : Nat) :
    ((ofScan family scan).entered row).columns.holds qualifier timestamp newer =
      (newer + 1 < min scan.maxVersions family.maxVersions &&
        (newer < family.minVersions || !family.hasExpired timestamp) : Bool) := by
  have hrule :
      ((ofScan family scan).entered row).columns.rule = (ofScan family scan).columns.rule := rfl
  rw [ColumnProgress.holds, taken_entered, if_pos hwants, isExpired_entered, Nat.zero_add,
    isListed_entered, hrule]
  by_cases hlisted : scan.columns = []
  · rw [hlisted]
    rfl
  · rw [not_hasExpired hstrict hlisted hage, Bool.not_false, Bool.or_true, Bool.or_true]
    rfl

/-- What is found in a row is what the scan finds, as far as it has not expired. -/
theorem finds_entered (family : Family) (scan : Scan φ) (cells : List Cell)
    (hwants : scan.wants cell.qualifier = true)
    (hage : family.rulesOut cell.timestamp = false) :
    ((ofScan family scan).entered cell.row).finds (Cell.inRow cell.row cells) cell =
      scan.finds cells cell := by
  have hdeletes : ((ofScan family scan).entered cell.row).deletes (Cell.inRow cell.row cells) cell =
      cells.any fun marker => marker.row = cell.row && marker.masks cell := by
    rw [deletes, Cell.inRow, List.any_filter]
    rfl
  rw [finds, hdeletes, seeks, rulesOut_entered, hage, Scan.finds, hwants, Bool.not_false,
    Bool.and_true, Bool.and_true]
  rfl

theorem rulesOut_of_le {timestamp older : Timestamp} (holder : older ≤ timestamp)
    (hout : family.rulesOut timestamp = true) : family.rulesOut older = true := by
  rw [← rulesOut_entered family ({} : Scan Empty) []] at hout ⊢
  exact VersionRule.rulesOut_mono holder hout

/-- The newer versions of a value or marker that has not expired. -/
theorem mem_newer_entered (hwants : scan.wants cell.qualifier = true)
    (hage : family.rulesOut cell.timestamp = false) :
    other ∈ ((ofScan family scan).entered cell.row).newer (Cell.inRow cell.row cells) cell ↔
      other ∈ cells ∧ other.isNewer cell = true ∧ scan.finds cells other = true := by
  rw [mem_newer, Cell.mem_inRow, Cell.isNewer, Bool.and_eq_true, Bool.and_eq_true,
    decide_eq_true_eq, decide_eq_true_eq, decide_eq_true_eq]
  have hfinds (hrow : other.row = cell.row) (hcolumn : other.qualifier = cell.qualifier)
      (hlt : cell.timestamp < other.timestamp) :
      ((ofScan family scan).entered cell.row).finds (Cell.inRow cell.row cells) other =
        scan.finds cells other := by
    rw [← hrow]
    refine finds_entered family scan cells (hcolumn ▸ hwants) (Bool.eq_false_iff.mpr fun hout => ?_)
    rw [rulesOut_of_le (Std.le_of_lt hlt) hout] at hage
    cases hage
  constructor
  · rintro ⟨⟨hmem, hrow⟩, ⟨hcolumn, hlt⟩, hfound⟩
    exact ⟨hmem, ⟨⟨hrow, hcolumn⟩, hlt⟩, hfinds hrow hcolumn hlt ▸ hfound⟩
  · rintro ⟨hmem, ⟨⟨hrow, hcolumn⟩, hlt⟩, hfound⟩
    exact ⟨⟨hmem, hrow⟩, ⟨hcolumn, hlt⟩, (hfinds hrow hcolumn hlt).symm ▸ hfound⟩

theorem length_newer_entered (hwants : scan.wants cell.qualifier = true)
    (hage : family.rulesOut cell.timestamp = false) :
    (((ofScan family scan).entered cell.row).newer (Cell.inRow cell.row cells) cell).length =
      scan.rank cells cell := by
  rw [newer, Cell.inRow, List.filter_filter, ← List.countP_eq_length_filter, Scan.rank]
  refine List.countP_congr fun other hother => ?_
  have hiff : other ∈ ((ofScan family scan).entered cell.row).newer (Cell.inRow cell.row cells)
      cell ↔ _ := mem_newer_entered hwants hage
  rw [newer, Cell.inRow, List.filter_filter, List.mem_filter, and_iff_right hother,
    and_iff_right hother] at hiff
  rw [hiff, Bool.and_eq_true]

theorem keepsValue_entered
    (hstrict : scan.columns = [] ∨ family.minVersions = 0 ∨ family.ttl = none) (cells : List Cell)
    (hwants : scan.wants cell.qualifier = true) (hage : family.rulesOut cell.timestamp = false) :
    ((ofScan family scan).entered cell.row).keepsValue (Cell.inRow cell.row cells) cell =
      scan.shows family cells cell := by
  rw [keepsValue, finds_entered family scan cells hwants hage, length_newer_entered hwants hage,
    grants_entered hstrict _ hwants hage, shows, Bool.and_assoc]

/-- A column is not left before a cell if it is read on after each newer value. -/
theorem comesTo_entered
    (hstrict : scan.columns = [] ∨ family.minVersions = 0 ∨ family.ttl = none) (cells : List Cell)
    (hwants : scan.wants cell.qualifier = true) (hage : family.rulesOut cell.timestamp = false) :
    ((ofScan family scan).entered cell.row).comesTo (Cell.inRow cell.row cells) cell =
      cells.all fun other => !(other.isNewer cell && scan.finds cells other) ||
        scan.readsOn family cells other := by
  have hholds (other : Cell) (hmem : other ∈ cells) (hnewer : other.isNewer cell = true) :
      ((ofScan family scan).entered cell.row).columns.holds other.qualifier
        other.timestamp (((ofScan family scan).entered cell.row).newer
          (Cell.inRow cell.row cells) other).length = scan.readsOn family cells other := by
    simp only [Cell.isNewer, Bool.and_eq_true, decide_eq_true_eq] at hnewer
    have hyounger : family.rulesOut other.timestamp = false := by
      refine Bool.eq_false_iff.mpr fun hout => ?_
      rw [rulesOut_of_le (Std.le_of_lt hnewer.2) hout] at hage
      cases hage
    have hwants : scan.wants other.qualifier = true := hnewer.1.2 ▸ hwants
    rw [holds_entered hstrict _ hwants hyounger, ← hnewer.1.1,
      length_newer_entered hwants hyounger, readsOn]
  rw [comesTo, Bool.eq_iff_iff, List.all_eq_true, List.all_eq_true]
  constructor
  · intro hall other hother
    cases hnewer : other.isNewer cell && scan.finds cells other with
    | false => rfl
    | true =>
        rw [Bool.and_eq_true] at hnewer
        rw [← hholds other hother hnewer.1]
        exact hall other ((mem_newer_entered hwants hage).mpr ⟨hother, hnewer⟩)
  · intro hall other hother
    obtain ⟨hmem, hnewer, hfound⟩ := (mem_newer_entered hwants hage).mp hother
    rw [hholds other hmem hnewer]
    simpa [hnewer, hfound] using hall other hmem

/-- The column of what is shown is read on after each newer value, since those have been found
younger and after fewer others. -/
theorem readsOn_of_shows (hshows : scan.shows family cells cell = true) (hmem : other ∈ cells)
    (hnewer : other.isNewer cell = true) (hfound : scan.finds cells other = true) :
    scan.readsOn family cells other = true := by
  have hrank := rank_lt hmem hnewer hfound
  simp only [shows, readsOn, Bool.and_eq_true, Bool.or_eq_true, decide_eq_true_eq,
    Bool.not_eq_true', Cell.isNewer] at hshows hnewer ⊢
  refine ⟨by omega, hshows.2.imp (by omega) fun hyoung => ?_⟩
  rw [← isExpired_entered family scan []] at hyoung ⊢
  refine Bool.eq_false_iff.mpr fun hexpired => ?_
  rw [VersionRule.isExpired_mono (Std.le_of_lt hnewer.2) hexpired] at hyoung
  cases hyoung

/-- A scan that hands out values only hands out what it finds. -/
theorem finds_of_handsOut (hvalues : scan.retainDeletes = false)
    (hhands : (ofScan family scan).handsOut cells cell = true) :
    ((ofScan family scan).entered cell.row).finds (Cell.inRow cell.row cells) cell = true := by
  have hrow : (ofScan family scan).inRow cell.row = (ofScan family scan).entered cell.row := rfl
  have hretain : ((ofScan family scan).entered cell.row).retainDeletes = scan.retainDeletes := rfl
  rw [handsOut, hrow, keeps, keepsMarker, hretain, hvalues, keepsValue] at hhands
  simp only [Bool.false_and, Bool.or_false, Bool.and_eq_true] at hhands
  exact hhands.2.1

/-- A scan hands out the values that it shows and the markers that it carries. -/
theorem handsOut_ofScan (hregular : scan.Regular family) (cells : List Cell) (cell : Cell) :
    (ofScan family scan).handsOut cells cell =
      (scan.shows family cells cell || scan.carries family cells cell) := by
  have hrow : (ofScan family scan).inRow cell.row = (ofScan family scan).entered cell.row := rfl
  have hover : ((ofScan family scan).entered cell.row).rowOver = false := rfl
  have hmarker : ((ofScan family scan).entered cell.row).keepsMarker cell =
      (scan.retainDeletes && cell.isDelete && scan.rows.contains cell.row &&
        !family.rulesOut cell.timestamp) := by
    rw [keepsMarker, rulesOut_entered]
    rfl
  rw [handsOut, hrow, keeps, hover, hmarker, Bool.not_false, Bool.true_and]
  -- a column that is not wanted has nothing to give, and an expired cell is never sought
  cases hwants : scan.wants cell.qualifier with
  | false =>
      have hvalues : scan.retainDeletes = false := by
        refine Bool.eq_false_iff.mpr fun hretain => ?_
        simp [wants, hregular.every hretain] at hwants
      have hfull : ((ofScan family scan).entered cell.row).columns.taken cell.qualifier =
          ((ofScan family scan).entered cell.row).columns.rule.max := by
        rw [taken_entered, hwants]
        rfl
      simp [keepsValue, ColumnProgress.grants_of_full hfull, shows, Scan.finds, hwants, carries,
        hvalues]
  | true =>
      cases hage : family.rulesOut cell.timestamp with
      | true =>
          have hexpired := hage
          simp only [Family.rulesOut, Bool.and_eq_true, decide_eq_true_eq] at hexpired
          simp [keepsValue, finds, seeks, rulesOut_entered, hage, shows, carries, hexpired]
      | false =>
          rw [keepsValue_entered hregular.strict cells hwants hage,
            comesTo_entered hregular.strict cells hwants hage, carries, hage]
          cases hshows : scan.shows family cells cell with
          | false =>
              rw [Bool.false_or, Bool.false_or, Bool.and_comm]
          | true =>
              rw [Bool.true_or, Bool.true_or, Bool.and_true, List.all_eq_true]
              intro other hother
              cases hnewer : other.isNewer cell && scan.finds cells other with
              | false => rfl
              | true =>
                  rw [Bool.and_eq_true] at hnewer
                  rw [readsOn_of_shows hshows hother hnewer.1 hnewer.2]
                  rfl

end Matcher

/-! ## The beginning of the scan -/

namespace Scan

variable [CellFilter φ]

/-- What a scan hands out of a list with one cell at each place, which it begins to read at its
first key. -/
theorem Steady.output_skipTo (hsteady : scan.Steady family) (hname : family.name ≠ [])
    (hsingle : keys.StrictlySorted cells) (hstored : Cell.StoredIn family.name cells)
    (htagged : ∀ cell ∈ cells, cell.Tagged) :
    (Matcher.ofScan family scan).output
        (keys.skipTo (Matcher.ofScan family scan).startKey cells) =
      cells.filter ((Matcher.ofScan family scan).handsOut cells) := by
  have hfilter := skipTo_eq_filter hsingle.sorted (Matcher.ofScan family scan).startKey
  have hmem (cell : Cell)
      (hcell : cell ∈ keys.skipTo (Matcher.ofScan family scan).startKey cells) : cell ∈ cells :=
    (skipTo_sublist _ _).mem hcell
  have hlined := hsteady.lined hname (hsingle.skipTo (Matcher.ofScan family scan).startKey)
    (fun cell hcell => hstored cell (hmem cell hcell))
    fun cell hcell => htagged cell (hmem cell hcell)
  rw [hlined.output_eq_filter]
  conv => lhs; arg 2; rw [hfilter]
  rw [List.filter_filter]
  refine List.filter_congr fun cell hcell => ?_
  have hkey : Cell.compareKeys cell (Matcher.ofScan family scan).startKey = .lt ↔ _ :=
    lt_startKey_iff (hstored cell hcell)
  cases hstarts : scan.rows.startsAfter cell.row with
  | true =>
      have hout : (Matcher.ofScan family scan).rows.contains cell.row = false := by
        have hrows : (Matcher.ofScan family scan).rows = scan.rows := rfl
        rw [hrows, RowRange.contains, hstarts]
        rfl
      rw [Matcher.handsOut_of_not_contained hout, Matcher.handsOut_of_not_contained hout,
        Bool.false_and]
  | false =>
      -- the other cells of the row lie behind the first key as well
      have hsame : Cell.inRow cell.row (keys.skipTo (Matcher.ofScan family scan).startKey cells) =
          Cell.inRow cell.row cells := by
        rw [hfilter, Cell.inRow, Cell.inRow, List.filter_filter]
        refine List.filter_congr fun other hother => ?_
        have hother : Cell.compareKeys other (Matcher.ofScan family scan).startKey = .lt ↔ _ :=
          lt_startKey_iff (hstored other hother)
        by_cases hrow : other.row = cell.row
        · rw [hrow, hstarts] at hother
          simp [hrow, hother]
        · simp [hrow]
      rw [hstarts] at hkey
      simp [Matcher.handsOut, hsame, hkey]

theorem Regular.output_skipTo (hregular : scan.Regular family) (hname : family.name ≠ [])
    (hsingle : keys.StrictlySorted cells) (hstored : Cell.StoredIn family.name cells)
    (htagged : ∀ cell ∈ cells, cell.Tagged) :
    (Matcher.ofScan family scan).output
        (keys.skipTo (Matcher.ofScan family scan).startKey cells) =
      cells.filter fun cell => scan.shows family cells cell || scan.carries family cells cell := by
  rw [hregular.toSteady.output_skipTo hname hsingle hstored htagged]
  exact List.filter_congr fun cell _ => Matcher.handsOut_ofScan hregular cells cell

/-- What a scan hands out of a list, up to copies. -/
theorem Regular.dedupe_output_start (hregular : scan.Regular family) (hname : family.name ≠ [])
    (hsorted : keys.Sorted cells) (hstored : Cell.StoredIn family.name cells)
    (htagged : ∀ cell ∈ cells, cell.Tagged) :
    SortedRun.dedupe ((Reading.start family scan cells).output []) =
      (SortedRun.dedupe cells).filter fun cell => scan.shows family (SortedRun.dedupe cells) cell ||
        scan.carries family (SortedRun.dedupe cells) cell := by
  have hmem (cell : Cell) (hcell : cell ∈ SortedRun.dedupe cells) :=
    (SortedRun.dedupe_sublist cells).mem hcell
  have hprepared := hregular.toUnfiltered.prepared_start hsorted hstored
  rw [← hregular.output_skipTo hname (SortedRun.dedupe_strictlySorted hsorted)
    (fun cell hcell => hstored cell (hmem cell hcell))
    fun cell hcell => htagged cell (hmem cell hcell),
    ← SortedRun.dedupe_skipTo hsorted]
  exact hprepared.dedupe_output

omit [CellFilter φ] in
theorem carries_of_valuesOnly (hvalues : scan.retainDeletes = false) (cells : List Cell)
    (cell : Cell) : scan.carries family cells cell = false := by
  simp [carries, hvalues]

omit [CellFilter φ] in
/-- From its first key on, a scan has come to its rows. -/
theorem Unfiltered.arrived_start (hscan : scan.Unfiltered family) (hsorted : keys.Sorted cells)
    (hstored : Cell.StoredIn family.name cells) :
    (Matcher.ofScan family scan).Arrived family.name
      (keys.skipTo (Matcher.ofScan family scan).startKey cells) where
  toPrepared := hscan.prepared_start hsorted hstored
  begun cell hcell := by
    obtain ⟨hmem, hge⟩ := (mem_skipTo hsorted).mp hcell
    exact Bool.eq_false_iff.mpr (mt (lt_startKey_iff (hstored cell hmem)).mpr hge)

omit [CellFilter φ] in
theorem Plain.begun_start (hplain : scan.Plain family) (hsorted : keys.Sorted cells)
    (hstored : Cell.StoredIn family.name cells) :
    (Matcher.ofScan family scan).Begun family.name
      (keys.skipTo (Matcher.ofScan family scan).startKey cells) :=
  ⟨hplain.unfiltered.arrived_start hsorted hstored, hplain.retainDeletes⟩

/-- The same is handed out of lists that are alike. -/
theorem Plain.output_start_alike {left right : List Cell} (hplain : scan.Plain family)
    (hleft : keys.Sorted left) (hright : keys.Sorted right)
    (hleftStored : Cell.StoredIn family.name left) (hrightStored : Cell.StoredIn family.name right)
    (halike : Alike scan.rows False left right) :
    (Reading.start family scan left).output [] = (Reading.start family scan right).output [] :=
  (hplain.begun_start hleft hleftStored).output_alike (hplain.begun_start hright hrightStored)
    (halike.skipTo hleft hright _)

/-- Where values only are handed out, copies make no difference. -/
theorem Plain.output_start_dedupe (hplain : scan.Plain family) (hsorted : keys.Sorted cells)
    (hstored : Cell.StoredIn family.name cells) :
    (Reading.start family scan (SortedRun.dedupe cells)).output [] =
      (Reading.start family scan cells).output [] := by
  refine hplain.output_start_alike (SortedRun.dedupe_strictlySorted hsorted).sorted hsorted
    (fun cell hcell => hstored cell ((SortedRun.dedupe_sublist cells).mem hcell)) hstored
    ⟨fun place _ => ?_, nofun⟩
  rw [SortedRun.copies_dedupe hsorted, Option.head?_toList]

/-- None of the values that are handed out is deleted by a marker of the list. -/
theorem Plain.not_masks_of_mem (hplain : scan.Plain family) (hname : family.name ≠ [])
    (hsorted : keys.Sorted cells) (hstored : Cell.StoredIn family.name cells)
    (htagged : ∀ cell ∈ cells, cell.Tagged) {value marker : Cell}
    (hvalue : value ∈ (Reading.start family scan cells).output []) (hmarker : marker ∈ cells)
    (hrow : marker.row = value.row) : marker.masks value = false := by
  have hmem (cell : Cell) (hcell : cell ∈ SortedRun.dedupe cells) : cell ∈ cells :=
    (SortedRun.dedupe_sublist cells).mem hcell
  have houtput : (Reading.start family scan (SortedRun.dedupe cells)).output [] = _ :=
    hplain.steady.output_skipTo hname (SortedRun.dedupe_strictlySorted hsorted)
    (fun cell hcell => hstored cell (hmem cell hcell))
    fun cell hcell => htagged cell (hmem cell hcell)
  rw [← hplain.output_start_dedupe hsorted hstored, houtput, List.mem_filter] at hvalue
  have hfinds := Matcher.finds_of_handsOut hplain.retainDeletes hvalue.2
  have hfreshest : Cell.freshest cells = SortedRun.dedupe cells :=
    congrArg SortedRun.dedupe (sort_of_sorted hsorted)
  obtain ⟨copy, hcopy, hsame⟩ := Cell.exists_freshest hmarker
  rw [hfreshest] at hcopy
  obtain ⟨hrows, hmasks⟩ :=
    Cell.masks_copy (hstored copy (hmem copy hcopy)).1 (hstored marker hmarker).1 hsame value
  rw [← hmasks]
  refine Bool.eq_false_iff.mpr fun hdeletes => ?_
  simp only [Matcher.finds, Matcher.deletes, Bool.and_eq_true, Bool.not_eq_true',
    Bool.or_eq_false_iff, List.any_eq_false] at hfinds
  exact hfinds.2.2 copy (Cell.mem_inRow.mpr ⟨hcopy, hrows.trans hrow⟩) hdeletes

/-- Where values only are handed out, what a scan hands out of a list is its reference. -/
theorem Regular.output_start (hregular : scan.Regular family) (hname : family.name ≠ [])
    (hvalues : scan.retainDeletes = false) (hsorted : keys.Sorted cells)
    (hstored : Cell.StoredIn family.name cells) (htagged : ∀ cell ∈ cells, cell.Tagged) :
    (Reading.start family scan cells).output [] =
      scan.reference family (SortedRun.dedupe cells) := by
  have hmem (cell : Cell) (hcell : cell ∈ SortedRun.dedupe cells) : cell ∈ cells :=
    (SortedRun.dedupe_sublist cells).mem hcell
  have houtput := hregular.output_skipTo hname (SortedRun.dedupe_strictlySorted hsorted)
    (fun cell hcell => hstored cell (hmem cell hcell))
    fun cell hcell => htagged cell (hmem cell hcell)
  rw [← (hregular.plain hvalues).output_start_dedupe hsorted hstored, reference]
  refine houtput.trans (List.filter_congr fun cell _ => ?_)
  rw [carries_of_valuesOnly hvalues, Bool.or_false]

end Scan

/-- Whatever the sources are, a scan of them can be opened and read to the end, no read fails,
and the reads hand out together what they should: of the list that the sources make up, where
at each place the cell of the freshest source counts, the reference of the scan. -/
theorem Scanner.pages_reference {σ : Type} [Source σ] [LawfulSource σ keys] [CellFilter φ]
    (hplain : scan.Plain family)
    (hstrict : scan.columns = [] ∨ family.minVersions = 0 ∨ family.ttl = none)
    (hname : family.name ≠ []) {supply : Supply σ}
    (hsupply : supply.Sound family.name scan.request)
    (htagged : ∀ cell ∈ supply.cells scan.request, cell.Tagged) (subscription : Nat) :
    ∃ scanner, (Scanner.open family supply subscription scan).value = .ok scanner ∧
      ∀ limit count, (supply.cells scan.request).length < count →
        ∃ earlier last, (scanner.pages (some supply) limit count).value.1 =
            (earlier ++ [last]).map .ok ∧
          (∀ page ∈ earlier, page.more = true) ∧ last.more = false ∧
          (earlier ++ [last]).flatMap Page.cells =
            scan.reference family (SortedRun.dedupe (supply.cells scan.request)) := by
  obtain ⟨scanner, hopen, hreads⟩ := open_readsOut hplain.unfiltered hsupply subscription
  rw [(hplain.regular hstrict).output_start hname hplain.retainDeletes
    (supply.cells_sorted scan.request) hsupply.stored htagged] at hreads
  exact ⟨scanner, hopen, hreads⟩

/-- A marker in one run of a store deletes two of the versions in another run, and a third
version is there twice. -/
theorem Scanner.pages_reference_of_load :
    let family : Family := { name := [102], maxVersions := 2, clock := .manual .oldest }
    let scan : Scan AnyFilter := { maxVersions := 2 }
    let value (time : UInt64) (content : UInt8) := Cell.put [114] [102] [99] ⟨time⟩ [content]
    let before : Store := (Store.addRun { family } [value 3 1, value 2 1, value 1 1]).2
    let store : Store := (before.addRun [.deleteColumn [114] [102] [99] ⟨2⟩, value 3 2]).2
    (scan.Plain family ∧ family.name ≠ [] ∧ store.supply.Sound family.name scan.request ∧
      ∀ cell ∈ store.supply.cells scan.request, cell.Tagged) ∧
      ∃ scanner, (Scanner.open family store.supply 0 scan).value = .ok scanner ∧
        ∃ earlier last, (scanner.pages (some store.supply) (.own (some 1)) 6).value.1 =
            (earlier ++ [last]).map .ok ∧
          (∀ page ∈ earlier, page.more = true) ∧ last.more = false ∧
          (earlier ++ [last]).flatMap Page.cells = [value 3 2] := by
  intro family scan value before store
  have hplain : scan.Plain family := ⟨⟨List.Pairwise.nil, by decide⟩, Nat.le_succ 1, rfl, rfl, rfl⟩
  have hfirst : Cell.StoredIn family.name [value 3 1, value 2 1, value 1 1] := by decide
  have hsecond : Cell.StoredIn family.name [.deleteColumn [114] [102] [99] ⟨2⟩, value 3 2] := by
    decide
  have hsound : Store.Sound store := ((Store.fresh_sound family).addRun _).addRun _
  have hstored : Store.Stored store := ((Store.fresh_stored family).addRun hfirst).addRun hsecond
  have hsupply : store.supply.Sound family.name scan.request :=
    hsound.supply_sound hstored (by decide) _
  have htagged : ∀ cell ∈ store.supply.cells scan.request, cell.Tagged := by
    intro cell hcell
    rcases Store.mem_cells_addRun (hsound.mem_supply_cells hcell) with hnew | hold
    · exact (by decide : ∀ cell ∈ [_, value 3 2], cell.Tagged) cell hnew
    · exact (by decide : ∀ cell ∈ [value 3 1, value 2 1, value 1 1], cell.Tagged) cell
        ((Store.mem_cells_addRun hold).resolve_right nofun)
  have hlength : (store.supply.cells scan.request).length < 6 := by
    simp only [store, before, value, family, scan]
    decide_cbv
  have hshown : scan.reference family (SortedRun.dedupe (store.supply.cells scan.request)) =
      [value 3 2] := by
    simp only [store, before, value, family, scan]
    decide_cbv
  obtain ⟨scanner, hopen, hpages⟩ := Scanner.pages_reference hplain (.inl rfl) (by decide)
    hsupply htagged 0
  obtain ⟨earlier, last, hreads, hearlier, hlast, hcells⟩ := hpages (.own (some 1)) 6 hlength
  exact ⟨⟨hplain, by decide, hsupply, htagged⟩, scanner, hopen, earlier, last, hreads, hearlier,
    hlast, hcells.trans hshown⟩

end MergeScan
