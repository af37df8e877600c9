import MergeScan.Proofs.Scanner.Pass
import MergeScan.Proofs.Scanner.Sources
import MergeScan.Scanner.Read

/-! # Reading a list

A scanner over sources that keep their promises reads one sorted list, cell by cell,
and takes the list anew where its sources have changed. What it answers and where it
stands afterwards depends on its matcher and on that list only.
-/

namespace MergeScan

open CellOrder

/-- Where a reading has come to. -/
inductive Spot
  | before (ahead : List Cell)
  /-- The list has changed; reading goes on at a cell of it. -/
  | resuming (key : Cell)
  | closed

/-- A scan of a list under way. -/
structure Reading (φ : Type) where
  matcher : Matcher φ
  spot : Spot

namespace Passed

variable {φ : Type}

/-- Whether the scan has ended with a pass. -/
def isOver (passed : Passed φ) : Bool :=
  passed.ending = .scanDone || passed.ending = .exhausted && passed.cells.isEmpty

/-- What a reader gets of a pass, and where it leaves the reading. -/
def outcome (passed : Passed φ) : Page × Reading φ :=
  if passed.isOver then (⟨passed.cells, false⟩, ⟨passed.matcher, .closed⟩)
  else (⟨passed.cells, true⟩, ⟨passed.matcher, .before passed.ahead⟩)

@[simp] theorem cells_outcome (passed : Passed φ) : passed.outcome.1.cells = passed.cells := by
  unfold outcome
  split <;> rfl

end Passed

namespace Matcher

variable {φ : Type}

/-- The matcher at the beginning of a row. -/
def entered (matcher : Matcher φ) (row : Bytes) : Matcher φ :=
  { matcher.reset with row := some row }

/-- The matcher in a row, which it enters unless it is there already. -/
def inRow (matcher : Matcher φ) (row : Bytes) : Matcher φ :=
  if matcher.row = some row then matcher else matcher.entered row

variable {matcher : Matcher φ}

/-- The matcher at the beginning of a row depends only on what does not belong to a row. -/
theorem entered_of_reset {next : Matcher φ} (hreset : next.reset = matcher.reset) (row : Bytes) :
    next.entered row = matcher.entered row := by
  rw [entered, entered, hreset]

theorem entered_entered (matcher : Matcher φ) (first second : Bytes) :
    (matcher.entered first).entered second = matcher.entered second := by
  simp only [entered, reset, ColumnProgress.reset_reset]

theorem row_inRow (matcher : Matcher φ) (row : Bytes) : (matcher.inRow row).row = some row := by
  unfold inRow
  split
  next hrow => exact hrow
  next => rfl

theorem isSome_row_inRow (matcher : Matcher φ) (row : Bytes) :
    (matcher.inRow row).row.isSome = true := by
  rw [row_inRow]
  rfl

theorem rows_inRow (matcher : Matcher φ) (row : Bytes) :
    (matcher.inRow row).rows = matcher.rows := by
  unfold Matcher.inRow
  split <;> rfl

theorem retainDeletes_inRow (matcher : Matcher φ) (row : Bytes) :
    (matcher.inRow row).retainDeletes = matcher.retainDeletes := by
  unfold Matcher.inRow
  split <;> rfl

theorem inRow_inRow (matcher : Matcher φ) (row : Bytes) :
    (matcher.inRow row).inRow row = matcher.inRow row :=
  if_pos (row_inRow matcher row)

/-- A matcher that has not come to a row will enter it. -/
theorem inRow_eq_entered {row : Bytes} (hrow : ∀ current, matcher.row = some current →
    current < row) : matcher.inRow row = matcher.entered row :=
  if_neg fun heq => Std.lt_irrefl (hrow row heq)

/-- To enter a row on the way to a later one makes no difference. -/
theorem inRow_inRow_of_lt {first second : Bytes} (hlt : first < second)
    (hrow : ∀ current, matcher.row = some current → current ≤ first) :
    (matcher.inRow first).inRow second = matcher.inRow second := by
  have hentered : (matcher.inRow first).inRow second = (matcher.inRow first).entered second := by
    refine inRow_eq_entered fun current hcurrent => ?_
    rw [row_inRow] at hcurrent
    exact Option.some.inj hcurrent ▸ hlt
  rw [hentered,
    inRow_eq_entered fun current hcurrent => Std.lt_of_le_of_lt (hrow current hcurrent) hlt]
  unfold Matcher.inRow
  split
  · rfl
  · exact entered_entered matcher _ _

theorem Plain.entered (hplain : Plain matcher) (row : Bytes) : Plain (matcher.entered row) where
  filter := hplain.filter
  order := hplain.order
  columns := hplain.columns.reset

theorem Plain.inRow (hplain : Plain matcher) (row : Bytes) : Plain (matcher.inRow row) := by
  unfold Matcher.inRow
  split
  · exact hplain
  · exact hplain.entered row

/-- Without a filter, no limit is refused. -/
theorem refuses_unfiltered [CellFilter φ] (hfilter : matcher.filter = none) (limit : Option Nat) :
    matcher.refuses limit = none := by
  unfold refuses
  rw [hfilter]
  cases limit <;> rfl

/-- At the beginning of a row, no cell comes too early. -/
theorem fits_entered (matcher : Matcher φ) (row : Bytes) (cell : Cell) :
    Fits (matcher.entered row) cell where
  column column hcolumn := by
    simp only [Matcher.entered, reset, ColumnProgress.reset] at hcolumn
    split at hcolumn <;> cases hcolumn
  marker := nofun

variable {family : Bytes} {ahead : List Cell}

/-- A matcher gets ready for the cells ahead by entering the row of the first of them. -/
theorem Prepared.inRow (hprepared : Prepared family matcher ahead) {row : Bytes}
    (hrow : ∀ cell ∈ ahead, row ≤ cell.row) : Ready family (matcher.inRow row) ahead where
  plain := hprepared.plain.inRow row
  sorted := hprepared.sorted
  stored := hprepared.stored
  behind cell other hcell hother := by
    rw [row_inRow] at hother
    exact Option.some.inj hother ▸ hrow cell hcell
  fits cell hcell hother := by
    unfold Matcher.inRow at hother ⊢
    split
    next hsame =>
      rw [if_pos hsame] at hother
      exact hprepared.fits cell hcell hother
    next => exact fits_entered matcher row cell
  entered := isSome_row_inRow matcher row

theorem Prepared.inRow_first {first : Cell} {rest : List Cell}
    (hprepared : Prepared family matcher (first :: rest)) :
    Ready family (matcher.inRow first.row) (first :: rest) := by
  apply hprepared.inRow
  intro cell hcell
  rcases List.mem_cons.mp hcell with rfl | hmem
  · exact Std.le_refl _
  · exact Cell.row_le_of_isLE ((List.pairwise_cons.mp hprepared.sorted).1 cell hmem)

/-- A matcher that is prepared for one cell is prepared for all cells from it on. -/
theorem Prepared.skipTo {key : Cell} {data : List Cell} (hprepared : Prepared family matcher [key])
    (hsorted : keys.Sorted data) (hstored : Cell.StoredIn family data) :
    Prepared family matcher (keys.skipTo key data) := by
  have hkey := hprepared.stored key List.mem_cons_self
  have hge : ∀ cell ∈ keys.skipTo key data, (Cell.compareKeys key cell).isLE = true :=
    fun cell hcell => le_of_mem_skipTo hsorted hcell
  have hmem : ∀ cell ∈ keys.skipTo key data, cell ∈ data :=
    fun cell hcell => ((mem_skipTo hsorted).mp hcell).1
  refine ⟨hprepared.plain, hsorted.skipTo key, fun cell hcell => hstored cell (hmem cell hcell),
    ?_, ?_⟩
  · intro cell row hcell hrow
    exact Std.le_trans (hprepared.behind key row List.mem_cons_self hrow)
      (Cell.row_le_of_isLE (hge cell hcell))
  · intro cell hcell hrow
    have hle := hprepared.behind key cell.row List.mem_cons_self hrow
    have hsame : key.row = cell.row :=
      Std.le_antisymm (Cell.row_le_of_isLE (hge cell hcell)) hle
    have hcell' := hstored cell (hmem cell hcell)
    exact (hprepared.fits key List.mem_cons_self (hsame ▸ hrow)).mono
      (Cell.qualifier_le_of_isLE hkey.1.not_lastOnRow hcell'.1.not_lastOnRow hsame
        (hkey.2.trans hcell'.2.symm) (hge cell hcell))

end Matcher

namespace Reading

variable {φ : Type} [CellFilter φ]

/-- Read from a list. -/
def readFrom (matcher : Matcher φ) (limit : Option Nat) : List Cell → Page × Reading φ
  | [] => (⟨[], false⟩, ⟨matcher, .closed⟩)
  | first :: rest =>
    ((matcher.inRow first.row).passOver limit (first :: rest)).outcome

/-- Read on, where `data` is the list as it is now. -/
def read (data : List Cell) (limit : Option Nat) (reading : Reading φ) : Page × Reading φ :=
  match reading.spot with
  | .before ahead => readFrom reading.matcher limit ahead
  | .resuming key =>
    let ahead := keys.skipTo key data
    readFrom (reading.matcher.inRow (ahead.head?.getD key).row) limit ahead
  | .closed => (⟨[], false⟩, reading)

omit [CellFilter φ] in
/-- Learn that the list has changed. -/
def change (reading : Reading φ) : Reading φ :=
  match reading.spot with
  | .before (first :: _) => { reading with spot := .resuming first }
  | _ => reading

omit [CellFilter φ] in
/-- The cells that a reading will look at, as far as it knows them. -/
def known (reading : Reading φ) : List Cell :=
  match reading.spot with
  | .before ahead => ahead
  | .resuming key => [key]
  | .closed => []

omit [CellFilter φ] in
/-- A reading that can go on. -/
def Prepared (family : Bytes) (reading : Reading φ) : Prop :=
  reading.matcher.Prepared family reading.known

variable {family : Bytes} {reading : Reading φ} {limit : Option Nat} {data : List Cell}

theorem Prepared.readFrom {matcher : Matcher φ} {ahead : List Cell}
    (hprepared : matcher.Prepared family ahead) :
    Prepared family (readFrom matcher limit ahead).2 := by
  unfold Reading.readFrom
  split
  · exact hprepared.plain.prepared_nil
  next first rest =>
    have hready := hprepared.inRow_first
    unfold Passed.outcome
    split
    next => exact (hready.passed_plain limit).prepared_nil
    next hnot =>
      have hending : ((matcher.inRow first.row).passOver limit (first :: rest)).ending ≠
          .scanDone := by
        intro heq
        simp [Passed.isOver, heq] at hnot
      exact (hready.passed hending).toPrepared

omit [CellFilter φ] in
/-- Where a reading goes on in a list that has changed, it enters the row that is first there. -/
theorem Prepared.resume {key : Cell} (hprepared : reading.matcher.Prepared family [key])
    (hsorted : keys.Sorted data) (hstored : Cell.StoredIn family data) :
    (reading.matcher.inRow ((keys.skipTo key data).head?.getD key).row).Prepared family
      (keys.skipTo key data) := by
  have hahead := hprepared.skipTo hsorted hstored
  cases hcells : keys.skipTo key data with
  | nil => exact (hprepared.plain.inRow _).prepared_nil
  | cons first rest => exact (hcells ▸ hahead).inRow_first.toPrepared

/-- To read leaves a reading that can go on. -/
theorem Prepared.read (hprepared : Prepared family reading) (hsorted : keys.Sorted data)
    (hstored : Cell.StoredIn family data) : Prepared family (read data limit reading).2 := by
  unfold Reading.read
  unfold Reading.Prepared known at hprepared
  cases hspot : reading.spot with
  | before ahead =>
      rw [hspot] at hprepared
      exact Prepared.readFrom hprepared
  | resuming key =>
      rw [hspot] at hprepared
      exact Prepared.readFrom (Prepared.resume hprepared hsorted hstored)
  | closed =>
      rw [hspot] at hprepared
      simpa only [Reading.Prepared, known, hspot] using hprepared

omit [CellFilter φ] in
theorem Prepared.change (hprepared : Prepared family reading) :
    Prepared family reading.change := by
  unfold Reading.change
  split
  next first rest hspot =>
    rw [Reading.Prepared, known, hspot] at hprepared
    refine ⟨hprepared.plain, List.pairwise_singleton _ _, ?_, ?_, ?_⟩
    · intro cell hcell
      exact hprepared.stored cell (List.mem_singleton.mp hcell ▸ List.mem_cons_self)
    · intro cell row hcell
      exact hprepared.behind cell row (List.mem_singleton.mp hcell ▸ List.mem_cons_self)
    · intro cell hcell
      exact hprepared.fits cell (List.mem_singleton.mp hcell ▸ List.mem_cons_self)
  next => exact hprepared

end Reading

namespace Scanner

variable {σ φ : Type} [Source σ] [LawfulSource σ keys] [CellFilter φ]

/-- Whether a phase of a scanner is a spot of a reading. No source will fail. -/
def StandsAt (phase : Phase σ) : Spot → Prop
  | .before ahead => ∃ merge, phase = .active merge ∧ Merge.Sound keys merge ∧
      Merge.Reliable keys merge ∧ merge.stream = ahead
  | .resuming key => phase = .resync key
  | .closed => phase = .closed

/-- A scanner that does what a reading does. -/
structure Stands (scanner : Scanner σ φ) (reading : Reading φ) : Prop where
  matcher : scanner.matcher = reading.matcher
  order : scanner.order = keys
  phase : StandsAt scanner.phase reading.spot

/-- What stays the same of a scanner while it reads. -/
structure SameScan (first second : Scanner σ φ) : Prop where
  request : second.request = first.request
  order : second.order = first.order
  batch : second.batch = first.batch

omit [Source σ] [LawfulSource σ keys] [CellFilter φ] in
theorem SameScan.trans {first second third : Scanner σ φ} (hfirst : SameScan first second)
    (hsecond : SameScan second third) : SameScan first third :=
  ⟨hsecond.request.trans hfirst.request, hsecond.order.trans hfirst.order,
    hsecond.batch.trans hfirst.batch⟩

variable {scanner : Scanner σ φ} {family : Bytes} {limit : Option Nat}

omit [LawfulSource σ keys] [Source σ] in
theorem enterRow_eq (hfilter : scanner.matcher.filter = none) (row : Bytes) :
    (scanner.enterRow row).value = { scanner with matcher := scanner.matcher.inRow row } := by
  unfold enterRow Matcher.inRow
  split
  · rfl
  · simp only [Matcher.enterRow, hfilter, Noted.value_bind, Noted.value_pure]
    rfl

omit [CellFilter φ] [LawfulSource σ keys] in
/-- A scanner that was ended is closed, and is of the same scan. -/
theorem release_closed (scanner : Scanner σ φ) :
    (scanner.release.value.phase = .closed ∧ scanner.release.value.matcher = scanner.matcher) ∧
      SameScan scanner scanner.release.value := by
  have hclosed : (scanner.closeSources.value.phase = .closed ∧
      scanner.closeSources.value.matcher = scanner.matcher) ∧
      SameScan scanner scanner.closeSources.value := by
    unfold closeSources
    split <;> exact ⟨⟨rfl, rfl⟩, rfl, rfl, rfl⟩
  obtain ⟨⟨hphase, hmatcher⟩, hrequest, hsame, hbatch⟩ := hclosed
  simp only [release, unsubscribe, Noted.value_bind, Noted.value_pure]
  split <;> exact ⟨⟨hphase, hmatcher⟩, hrequest, hsame, hbatch⟩

omit [CellFilter φ] in
/-- A scanner that was ended stands where a reading is closed. -/
theorem release_stands (horder : scanner.order = keys) :
    Stands scanner.release.value ⟨scanner.matcher, .closed⟩ ∧
      SameScan scanner scanner.release.value := by
  obtain ⟨⟨hphase, hmatcher⟩, hsame⟩ := release_closed scanner
  exact ⟨⟨hmatcher, hsame.order.trans horder, hphase⟩, hsame⟩

/-- An answer of a scanner that is the one of a reading, and leaves it where the reading is. -/
def Answers (scanner : Scanner σ φ) (expected : Page × Reading φ)
    (outcome : Except ScanError Page × Scanner σ φ) : Prop :=
  outcome.1 = .ok expected.1 ∧ Stands outcome.2 expected.2 ∧ SameScan scanner outcome.2

omit [CellFilter φ] in
/-- The end of a pass: the scan is ended, or stands where the pass has come to. -/
theorem ended_answers {reached : Scanner σ φ} {passed : Passed φ} (hsame : SameScan scanner reached)
    (hstands : Stands reached ⟨passed.matcher, .before passed.ahead⟩) :
    Answers scanner passed.outcome
      (if passed.isOver then do
        let released ← reached.release
        pure (Except.ok ⟨passed.cells, false⟩, released)
      else pure (.ok ⟨passed.cells, true⟩, reached) : Noted _).value := by
  unfold Passed.outcome
  split
  · obtain ⟨hreleased, hsameRelease⟩ := release_stands hstands.order
    rw [hstands.matcher] at hreleased
    exact ⟨rfl, hreleased, hsame.trans hsameRelease⟩
  · exact ⟨rfl, hstands, hsame⟩

/-- To read from a merge is to read from its list. -/
theorem read_answers {merge : Merge σ} {first : Cell} {rest : List Cell}
    (hprepared : scanner.matcher.Prepared family (first :: rest)) (horder : scanner.order = keys)
    (hsound : Merge.Sound keys merge) (hreliable : Merge.Reliable keys merge)
    (hstream : merge.stream = first :: rest) :
    Answers scanner (Reading.readFrom scanner.matcher limit (first :: rest))
      (scanner.read merge first limit).value := by
  have hready := hprepared.inRow_first
  have hreads : ReadState.Reads ⟨merge, scanner.matcher.inRow first.row⟩
      (scanner.matcher.inRow first.row) (first :: rest) := ⟨rfl, hsound, hreliable, hstream⟩
  obtain ⟨state, hpass, hstate⟩ := hreads.pass hready limit
  have hplain := hready.passed_plain limit
  rw [← hstate.matcher] at hplain
  let reached : Scanner σ φ :=
    { scanner with phase := .active state.merge, matcher := state.matcher }
  have hended := @ended_answers _ _ _ _ scanner reached
    ((scanner.matcher.inRow first.row).passOver limit (first :: rest)) ⟨rfl, rfl, rfl⟩
    ⟨hstate.matcher, horder, state.merge, rfl, hstate.sound, hstate.reliable, hstate.stream⟩
  simp only [read, Noted.value_bind, enterRow_eq hprepared.plain.filter, hpass,
    Matcher.completeRow, hplain.filter, Noted.value_pure, ite_self]
  exact hended

variable {supply : Supply σ} {reading : Reading φ}

omit [CellFilter φ] in
/-- The sources that there are now, from a key on. -/
theorem rebuild_eq (hsupply : supply.Sound family scanner.request)
    (horder : scanner.order = keys) (key : Cell) :
    ∃ merge, (scanner.rebuild (some supply) (some key)).value = .ok merge ∧
      Merge.Sound keys merge ∧ Merge.Reliable keys merge ∧
      merge.stream = keys.skipTo key (supply.cells scanner.request) := by
  obtain ⟨placed, hplaced, hmerge⟩ := hsupply.placed Positioning.seek_lawful key
  refine ⟨_, ?_, hmerge⟩
  simp only [rebuild, Noted.value_bind, hsupply.askFor, hplaced, horder]
  rfl

/-- A scanner that was told of a change goes on with the sources as they are now. -/
theorem resync_stands {key : Cell} (hstands : Stands scanner reading)
    (hspot : reading.spot = .resuming key) (hfilter : scanner.matcher.filter = none)
    (hsupply : supply.Sound family scanner.request) :
    let ahead := keys.skipTo key (supply.cells scanner.request)
    (scanner.resync (some supply)).value.1 = .ok () ∧
      Stands (scanner.resync (some supply)).value.2
        ⟨reading.matcher.inRow (ahead.head?.getD key).row, .before ahead⟩ ∧
      SameScan scanner (scanner.resync (some supply)).value.2 := by
  have hphase := hstands.phase
  rw [hspot] at hphase
  have hphase : scanner.phase = .resync key := hphase
  obtain ⟨merge, hmerge, hsound, hreliable, hstream⟩ := rebuild_eq hsupply hstands.order key
  have hpeek : merge.peek = (keys.skipTo key (supply.cells scanner.request)).head? := by
    rw [hsound.peek_eq, hstream]
  simp only [resync, hphase, Noted.value_bind, hmerge, enterRow_eq hfilter, hpeek,
    Noted.value_pure, hstands.matcher]
  exact ⟨trivial, ⟨rfl, hstands.order, merge, rfl, hsound, hreliable, hstream⟩, rfl, rfl, rfl⟩

/-- What a scanner reads after it took new sources if there are any. -/
theorem fill_answers_of_resync {reached : Reading φ} {ahead : List Cell}
    (hresync : (scanner.resync (some supply)).value.1 = .ok ())
    (hstands : Stands (scanner.resync (some supply)).value.2 reached)
    (hsame : SameScan scanner (scanner.resync (some supply)).value.2)
    (hspot : reached.spot = .before ahead) (hprepared : reached.matcher.Prepared family ahead) :
    Answers scanner (Reading.readFrom reached.matcher limit ahead)
      (scanner.fill (some supply) limit).value := by
  have hphase := hstands.phase
  rw [hspot] at hphase
  obtain ⟨merge, hactive, hsound, hreliable, hstream⟩ := hphase
  have hpeek := hsound.peek_eq
  rw [hstream] at hpeek
  simp only [fill, Noted.value_bind, hresync, hactive, hpeek]
  cases ahead with
  | nil =>
      obtain ⟨hreleased, hsameRelease⟩ := release_stands hstands.order
      rw [hstands.matcher] at hreleased
      exact ⟨rfl, hreleased, hsame.trans hsameRelease⟩
  | cons first rest =>
      rw [← hstands.matcher] at hprepared ⊢
      obtain ⟨hpage, hreached, hsameRead⟩ :=
        @read_answers _ _ _ _ _ _ _ limit _ _ _ hprepared hstands.order hsound hreliable hstream
      exact ⟨hpage, hreached, hsame.trans hsameRead⟩

theorem fill_answers (hstands : Stands scanner reading) (hprepared : reading.Prepared family)
    (hsupply : supply.Sound family scanner.request) :
    Answers scanner (reading.read (supply.cells scanner.request) limit)
      (scanner.fill (some supply) limit).value := by
  have hphase := hstands.phase
  have hmatcher := hstands.matcher
  unfold Reading.Prepared Reading.known at hprepared
  unfold Reading.read
  cases hspot : reading.spot with
  | before ahead =>
      rw [hspot] at hphase hprepared
      obtain ⟨merge, hactive, -⟩ := hphase
      have hresync : (scanner.resync (some supply)).value = (.ok (), scanner) := by
        simp only [resync, hactive, Noted.value_pure]
      apply fill_answers_of_resync (congrArg Prod.fst hresync) _ _ hspot hprepared
      · rw [hresync]
        exact hstands
      · rw [hresync]
        exact ⟨rfl, rfl, rfl⟩
  | resuming key =>
      rw [hspot] at hprepared
      obtain ⟨hresync, hreached, hsame⟩ :=
        resync_stands hstands hspot (hmatcher ▸ hprepared.plain.filter) hsupply
      exact fill_answers_of_resync hresync hreached hsame rfl
        (Reading.Prepared.resume hprepared (supply.cells_sorted _) hsupply.stored)
  | closed =>
      rw [hspot] at hphase
      have hphase : scanner.phase = .closed := hphase
      have hresync : (scanner.resync (some supply)).value = (.ok (), scanner) := by
        simp only [resync, hphase, Noted.value_pure]
      simp only [fill, Noted.value_bind, hresync, hphase]
      exact ⟨rfl, hstands, rfl, rfl, rfl⟩

/-- A read of a scanner is a read of its list, and does not fail. -/
theorem next_answers (hstands : Stands scanner reading) (hprepared : reading.Prepared family)
    (hsupply : supply.Sound family scanner.request) (limit : ReadLimit) :
    Answers scanner (reading.read (supply.cells scanner.request) (scanner.limitOf limit))
      (scanner.next (some supply) limit).value := by
  have hanswers := @fill_answers _ _ _ _ _ _ _ (scanner.limitOf limit) _ _ hstands hprepared hsupply
  have hfilter : scanner.matcher.filter = none := hstands.matcher ▸ hprepared.plain.filter
  rw [next, Matcher.refuses_unfiltered hfilter]
  obtain ⟨hpage, hrest⟩ := hanswers
  simp only [Noted.value_bind]
  unfold concluding
  split
  next answer reached heq =>
    rw [heq] at hpage hrest
    exact ⟨hpage, hrest⟩
  next failure reached heq =>
    rw [heq] at hpage
    cases hpage

omit [CellFilter φ] in
/-- To learn of a change is to remember the cell that reading has come to. -/
theorem sourcesChanged_stands (hstands : Stands scanner reading) :
    Stands scanner.sourcesChanged.value reading.change ∧
      SameScan scanner scanner.sourcesChanged.value := by
  have hphase := hstands.phase
  unfold Reading.change
  cases hspot : reading.spot with
  | before ahead =>
      rw [hspot] at hphase
      obtain ⟨merge, hactive, hsound, hreliable, hstream⟩ := hphase
      have hpeek := hsound.peek_eq
      rw [hstream] at hpeek
      cases ahead with
      | nil =>
          simp only [sourcesChanged, hactive, hpeek, List.head?_nil]
          exact ⟨hstands, rfl, rfl, rfl⟩
      | cons first rest =>
          simp only [sourcesChanged, hactive, hpeek, List.head?_cons]
          exact ⟨⟨hstands.matcher, hstands.order, rfl⟩, rfl, rfl, rfl⟩
  | resuming key =>
      rw [hspot] at hphase
      have hphase : scanner.phase = .resync key := hphase
      simp only [sourcesChanged, hphase]
      exact ⟨hstands, rfl, rfl, rfl⟩
  | closed =>
      rw [hspot] at hphase
      have hphase : scanner.phase = .closed := hphase
      simp only [sourcesChanged, hphase]
      exact ⟨hstands, rfl, rfl, rfl⟩

end Scanner

end MergeScan
