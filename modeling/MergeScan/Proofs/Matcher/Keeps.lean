import MergeScan.Proofs.Matcher.Grants
import MergeScan.Proofs.Matcher.Masks

/-! # What is kept of a row

Of the cells of a row that are still ahead, the ones that a matcher will hand out can be
told from what it remembers and from those cells: a value is handed out if nothing deletes
it and its version is granted, a marker if its column is not left before it. A decision
takes the first cell off, and leaves this the same for the cells that it goes on with.
-/

namespace MergeScan

namespace Cell

variable {first second : Cell}

theorem Behind.ne (hbehind : Behind first second) : second ≠ first := by
  rintro rfl
  unfold Behind at hbehind
  grind

/-- What comes behind a value in its column is older. -/
theorem Behind.timestamp_lt (hbehind : Behind first second) (hvalue : first.kind = .put)
    (hreal : second.IsReal) (hcolumn : first.qualifier = second.qualifier) :
    second.timestamp < first.timestamp := by
  rcases hbehind with hlt | ⟨-, hlt | ⟨-, hcode⟩⟩
  · exact absurd hcolumn (Std.ne_of_lt hlt)
  · exact hlt
  · have hminimum := hreal.1
    rw [hvalue] at hcode
    cases hkind : second.kind <;> simp_all [CellKind.code]

end Cell

/-- What is older than a timestamp before a range lies before it as well. -/
theorem TimeRange.position_mono {range : TimeRange} {timestamp older : Timestamp}
    (holder : older ≤ timestamp) (hposition : range.position timestamp = .lt) :
    range.position older = .lt := by
  unfold position at hposition ⊢
  by_cases hlt : timestamp < range.start
  · rw [if_pos (Std.lt_of_le_of_lt holder hlt)]
  · rw [if_neg hlt] at hposition
    split at hposition <;> cases hposition

namespace Matcher

variable {φ : Type} {matcher next : Matcher φ} {cell other : Cell} {row left : List Cell}

/-- Whether a cell is a value that the scan asks for. -/
def seeks (matcher : Matcher φ) (value : Cell) : Bool :=
  value.kind = .put && matcher.rows.contains value.row &&
    matcher.timeRange.contains value.timestamp && !matcher.columns.rule.rulesOut value.timestamp

/-- Whether a value is deleted by a marker that was met or by one of the cells ahead. -/
def deletes (matcher : Matcher φ) (row : List Cell) (value : Cell) : Bool :=
  matcher.markers.hides value.qualifier value.timestamp || row.any (·.masks value)

/-- Whether a cell is a value that will be found in the cells of the row that are ahead. -/
def finds (matcher : Matcher φ) (row : List Cell) (value : Cell) : Bool :=
  matcher.seeks value && !matcher.deletes row value

/-- The values of the column of a cell that will be found before it. -/
def newer (matcher : Matcher φ) (row : List Cell) (cell : Cell) : List Cell :=
  row.filter fun other => other.qualifier = cell.qualifier && cell.timestamp < other.timestamp &&
    matcher.finds row other

/-- Whether the column of a cell will not be left before it. -/
def comesTo (matcher : Matcher φ) (row : List Cell) (cell : Cell) : Bool :=
  (matcher.newer row cell).all fun other =>
    matcher.columns.holds other.qualifier other.timestamp (matcher.newer row other).length

/-- Whether a cell is a value of the row that is handed out if its column is not left before. -/
def keepsValue (matcher : Matcher φ) (row : List Cell) (cell : Cell) : Bool :=
  matcher.finds row cell &&
    matcher.columns.grants cell.qualifier cell.timestamp (matcher.newer row cell).length

/-- Whether a cell is a marker that is handed out if its column is not left before. -/
def keepsMarker (matcher : Matcher φ) (cell : Cell) : Bool :=
  matcher.retainDeletes && cell.isDelete && matcher.rows.contains cell.row &&
    !matcher.columns.rule.rulesOut cell.timestamp

/-- Whether a cell of the row will be handed out. -/
def keeps (matcher : Matcher φ) (row : List Cell) (cell : Cell) : Bool :=
  !matcher.rowOver && matcher.comesTo row cell &&
    (matcher.keepsValue row cell || matcher.keepsMarker cell)

theorem mem_newer : other ∈ matcher.newer row cell ↔ other ∈ row ∧
    (other.qualifier = cell.qualifier ∧ cell.timestamp < other.timestamp) ∧
      matcher.finds row other = true := by
  simp [newer]

/-! ## The cells of a row that are ahead -/

/-- What holds of the matchers of a scan in every row. -/
structure Steady (matcher : Matcher φ) : Prop where
  versions : 1 ≤ matcher.columns.rule.max
  /-- Where markers are handed out, every column and every time is asked for. -/
  every : matcher.retainDeletes = true → ∃ current, matcher.columns.choice = .every current
  reaches timestamp : matcher.retainDeletes = true → matcher.timeRange.position timestamp ≠ .lt

/-- A matcher and the cells ahead of it in the row that it reads. Each place is there once. -/
structure Current (name : Bytes) (matcher : Matcher φ) (row : List Cell) : Prop where
  here cell : cell ∈ row → matcher.row = some cell.row
  stored : Cell.StoredIn name row
  tagged cell : cell ∈ row → cell.Tagged
  ordered : row.Pairwise Cell.Behind
  steady : Steady matcher
  room : matcher.columns.HasRoom
  fresh cell : cell ∈ row → matcher.columns.Fresh cell.qualifier cell.timestamp
  met cell : cell ∈ row → matcher.markers.Met cell

/-- What holds in every row depends only on what does not belong to a row. -/
theorem Steady.congr (hsteady : Steady matcher)
    (hcolumns : next.columns.reset = matcher.columns.reset)
    (htime : next.timeRange = matcher.timeRange)
    (hretains : next.retainDeletes = matcher.retainDeletes) : Steady next := by
  have hrule : next.columns.rule = matcher.columns.rule :=
    (congrArg ColumnProgress.rule hcolumns :)
  have hchoice : next.columns.reset.choice = matcher.columns.reset.choice :=
    congrArg ColumnProgress.choice hcolumns
  simp only [ColumnProgress.reset] at hchoice
  refine ⟨hrule ▸ hsteady.versions, fun hretain => ?_, fun timestamp hretain => ?_⟩
  · obtain ⟨current, hevery⟩ := hsteady.every (hretains ▸ hretain)
    rw [hevery] at hchoice
    cases hnext : next.columns.choice with
    | every current => exact ⟨current, rfl⟩
    | listed wanted ahead => simp [hnext] at hchoice
  · rw [htime]
    exact hsteady.reaches timestamp (hretains ▸ hretain)

theorem Steady.of_reset (hsteady : Steady matcher) (hreset : next.reset = matcher.reset) :
    Steady next :=
  hsteady.congr (congrArg columns hreset :) (timeRange_of_reset hreset)
    (retainDeletes_of_reset hreset)

/-- Whether a cell of the row lies behind the point at which a column is left. -/
def passes (next : Matcher φ) (cell other : Cell) : Bool :=
  match next.columns.next? with
  | some column => other.qualifier < column
  | none => other.qualifier ≤ cell.qualifier

/-- Whether a decision on a cell leaves another cell of the row ahead. -/
def leaves (next : Matcher φ) (cell : Cell) (decision : Decision) (other : Cell) : Bool :=
  match decision with
  | .emit | .skip | .seekTo _ => other ≠ cell
  | .nextColumn | .emitThenNextColumn => !next.passes cell other
  | .nextRow | .emitThenNextRow | .rowDone | .scanDone => false

/-! ## Frames -/

/-- What is found among the cells that are left, where the others delete nothing of it. -/
theorem deletes_filter {kept : Cell → Bool}
    (hhides : next.markers.hides cell.qualifier cell.timestamp =
      matcher.markers.hides cell.qualifier cell.timestamp)
    (hdropped : ∀ other ∈ row, kept other = false → other.masks cell = false) :
    next.deletes (row.filter kept) cell = matcher.deletes row cell := by
  rw [deletes, deletes, hhides, List.any_filter]
  congr 1
  rw [Bool.eq_iff_iff, List.any_eq_true, List.any_eq_true]
  refine exists_congr fun other => and_congr_right fun hother => ?_
  cases hkept : kept other with
  | true => simp
  | false => simp [hdropped other hother hkept]

theorem seeks_of_reset (hreset : next.reset = matcher.reset) (value : Cell) :
    next.seeks value = matcher.seeks value := by
  rw [seeks, seeks, rows_of_reset hreset, timeRange_of_reset hreset, rule_of_reset hreset]

theorem isListed_of_reset (hreset : next.reset = matcher.reset) :
    next.columns.isListed = matcher.columns.isListed := by
  rw [← ColumnProgress.isListed_reset next.columns, ← ColumnProgress.isListed_reset matcher.columns]
  exact congrArg (fun matcher : Matcher φ => matcher.columns.isListed) hreset

/-- Found values are counted in the same way where no other one of their column is dropped. -/
theorem newer_filter {kept : Cell → Bool}
    (hfinds : ∀ other ∈ row, kept other = true →
      next.finds (row.filter kept) other = matcher.finds row other)
    (hdropped : ∀ other ∈ row, kept other = false → other.qualifier = cell.qualifier →
      cell.timestamp < other.timestamp → matcher.finds row other = false) :
    next.newer (row.filter kept) cell = matcher.newer row cell := by
  rw [newer, newer, List.filter_filter]
  refine List.filter_congr fun other hother => ?_
  cases hkept : kept other with
  | true => rw [hfinds other hother hkept, Bool.and_true]
  | false => simpa using hdropped other hother hkept

/-- What is kept among the cells that are left, where found values are counted in the same way. -/
theorem keeps_of_newer (hreset : next.reset = matcher.reset)
    (hover : next.rowOver = matcher.rowOver)
    (hfinds : next.finds left cell = matcher.finds row cell)
    (hnewer : ∀ other ∈ left, other.qualifier = cell.qualifier →
      next.newer left other = matcher.newer row other) (hcell : cell ∈ left)
    (htaken : next.columns.taken cell.qualifier = matcher.columns.taken cell.qualifier) :
    next.keeps left cell = matcher.keeps row cell := by
  have hrule := rule_of_reset hreset
  have hlisted := isListed_of_reset hreset
  have hgrants (timestamp : Timestamp) (count : Nat) :
      next.columns.grants cell.qualifier timestamp count =
        matcher.columns.grants cell.qualifier timestamp count := by
    rw [ColumnProgress.grants, ColumnProgress.grants, htaken, hrule, hlisted]
  have hholds (timestamp : Timestamp) (count : Nat) :
      next.columns.holds cell.qualifier timestamp count =
        matcher.columns.holds cell.qualifier timestamp count := by
    rw [ColumnProgress.holds, ColumnProgress.holds, htaken, hrule, hlisted]
  have hcomes : next.comesTo left cell = matcher.comesTo row cell := by
    rw [comesTo, comesTo, ← hnewer cell hcell rfl, Bool.eq_iff_iff, List.all_eq_true,
      List.all_eq_true]
    refine forall_congr' fun other => imp_congr_right fun hother => ?_
    obtain ⟨hmem, ⟨hcolumn, -⟩, -⟩ := mem_newer.mp hother
    rw [hnewer other hmem hcolumn, hcolumn, hholds]
  rw [keeps, keeps, keepsValue, keepsValue, keepsMarker, keepsMarker, hover, hcomes, hfinds,
    retainDeletes_of_reset hreset, rows_of_reset hreset, hrule, hgrants, ← hnewer cell hcell rfl]

/-- What is found among the cells that are left, where the others delete nothing of it. -/
theorem finds_filter {kept : Cell → Bool} (hreset : next.reset = matcher.reset)
    (hhides : next.markers.hides cell.qualifier cell.timestamp =
      matcher.markers.hides cell.qualifier cell.timestamp)
    (hdropped : matcher.seeks cell = true →
      ∀ other ∈ row, kept other = false → other.masks cell = false) :
    next.finds (row.filter kept) cell = matcher.finds row cell := by
  rw [finds, finds, seeks_of_reset hreset]
  cases hseeks : matcher.seeks cell with
  | false => rfl
  | true => rw [deletes_filter hhides (hdropped hseeks)]

/-- What is kept among the cells that are left, where nothing found of their columns is
dropped. -/
theorem keeps_filter {kept : Cell → Bool} (hreset : next.reset = matcher.reset)
    (hover : next.rowOver = matcher.rowOver)
    (hfinds : ∀ other ∈ row, kept other = true →
      next.finds (row.filter kept) other = matcher.finds row other)
    (hdropped : ∀ other ∈ row, kept other = false → other.qualifier = cell.qualifier →
      matcher.finds row other = false)
    (htaken : next.columns.taken cell.qualifier = matcher.columns.taken cell.qualifier)
    (hcell : cell ∈ row) (hkept : kept cell = true) :
    next.keeps (row.filter kept) cell = matcher.keeps row cell := by
  refine keeps_of_newer hreset hover (hfinds cell hcell hkept) (fun other _ hcolumn => ?_)
    (List.mem_filter.mpr ⟨hcell, hkept⟩) htaken
  exact newer_filter hfinds fun third hthird hnot hsame _ =>
    hdropped third hthird hnot (hsame.trans hcolumn)

/-! ## Cells that are not kept -/

theorem keeps_of_not_contained (hrow : matcher.rows.contains cell.row = false) :
    matcher.keeps row cell = false := by
  simp [keeps, keepsValue, keepsMarker, finds, seeks, hrow]

theorem keeps_of_rulesOut (hout : matcher.columns.rule.rulesOut cell.timestamp = true) :
    matcher.keeps row cell = false := by
  simp [keeps, keepsValue, keepsMarker, finds, seeks, hout]

theorem keeps_of_not_finds (hfinds : matcher.finds row cell = false)
    (hvalue : cell.isDelete = false) : matcher.keeps row cell = false := by
  simp [keeps, keepsValue, keepsMarker, hfinds, hvalue]

/-- Where values only are handed out, nothing is kept of a column that is over. -/
theorem keeps_of_full (hfull : matcher.columns.taken cell.qualifier = matcher.columns.rule.max)
    (hvalues : matcher.retainDeletes = false) : matcher.keeps row cell = false := by
  simp [keeps, keepsValue, keepsMarker, hvalues, ColumnProgress.grants_of_full hfull]

section Row

variable {name : Bytes} {rest : List Cell} (hcurrent : Current name matcher (cell :: rest))
include hcurrent

theorem Current.behind (hother : other ∈ rest) : cell.Behind other :=
  (List.pairwise_cons.mp hcurrent.ordered).1 other hother

theorem Current.isReal (hother : other ∈ cell :: rest) : other.IsReal :=
  (hcurrent.stored other hother).1

/-- No value of the column of the first cell comes before it. -/
theorem Current.newer_first : matcher.newer (cell :: rest) cell = [] := by
  rw [newer, List.filter_eq_nil_iff]
  intro other hother
  simp only [Bool.and_eq_true, decide_eq_true_eq, not_and]
  rintro ⟨hcolumn, hlt⟩
  rcases List.mem_cons.mp hother with rfl | hmem
  · exact absurd hlt (Std.lt_irrefl)
  · have := (hcurrent.behind hmem).timestamp_le hcolumn.symm
    exact absurd hlt (Std.not_lt.mpr this)

/-- So its column is not left before it. -/
theorem Current.comesTo_first : matcher.comesTo (cell :: rest) cell = true := by
  rw [comesTo, hcurrent.newer_first, List.all_nil]

/-- No cell ahead deletes the first one if that is a value. -/
theorem Current.deletes_first (hvalue : cell.kind = .put) :
    matcher.deletes (cell :: rest) cell =
      matcher.markers.hides cell.qualifier cell.timestamp := by
  rw [deletes, Bool.or_eq_left_iff_imp, List.any_eq_true]
  rintro ⟨other, hother, hmasks⟩
  rcases List.mem_cons.mp hother with rfl | hmem
  · rw [Cell.masks_of_put hvalue] at hmasks
    cases hmasks
  · rw [(hcurrent.behind hmem).not_masks (hcurrent.tagged cell List.mem_cons_self)
      (hcurrent.tagged other hother) hvalue] at hmasks
    cases hmasks

theorem Current.filter_ne : (cell :: rest).filter (fun other => other ≠ cell) = rest := by
  rw [List.filter_cons_of_neg (by simp), List.filter_eq_self]
  intro other hother
  simpa using (hcurrent.behind hother).ne

end Row

end Matcher

end MergeScan
