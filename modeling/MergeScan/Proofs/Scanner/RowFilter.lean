import MergeScan.Proofs.Scanner.Anew
import MergeScan.Proofs.Scanner.Preserved
import MergeScan.Proofs.Scanner.WholeRows

/-! # Scans with a filter on complete rows

A scan with a filter on complete rows is read row by row, and goes on beside a scan without the
filter: after each read both have the same rows ahead of them, whatever became of the row that was
read. Between two rows nothing is lost if the sources are replaced by others that hold the same
cells. So the scan hands out the rows that the filter keeps, whole and in order, of those that the
scan without the filter hands out.
-/

namespace MergeScan

open CellOrder

variable {σ φ : Type} [Source σ] [LawfulSource σ keys]

/-! ## Sources of stored cells -/

/-- A provider that answers a request with fresh sources in order, no two of them equally fresh,
which hold stored cells, of one family or of several. -/
structure Supply.Real (supply : Supply σ) (request : SourceRequest) : Prop where
  answers : (supply request).isOk = true
  fresh source : source ∈ supply.sources request → ∃ held, LawfulSource.Fresh keys source held ∧
    keys.Sorted held ∧ ∀ cell ∈ held, cell.IsReal
  distinct : Part.Distinct (supply.stock request)

namespace Supply

variable {supply : Supply σ} {request : SourceRequest}

theorem Sound.real {family : Bytes} (hsupply : supply.Sound family request) :
    supply.Real request where
  answers := hsupply.answers
  fresh source hsource :=
    have ⟨held, hfresh, hsorted, hstored⟩ := hsupply.fresh source hsource
    ⟨held, hfresh, hsorted, fun cell hcell => (hstored cell hcell).1⟩
  distinct := hsupply.distinct

theorem Real.isReal (hsupply : supply.Real request) :
    ∀ cell ∈ supply.cells request, cell.IsReal := by
  intro cell hcell
  obtain ⟨part, hpart, hcell⟩ := mem_merged.mp hcell
  obtain ⟨source, hsource, rfl⟩ := List.mem_map.mp hpart
  obtain ⟨held, hfresh, -, hreal⟩ := hsupply.fresh source hsource
  exact hreal cell (hfresh.remaining ▸ hcell)

/-- The sources can be positioned on a key, and their merge goes through the cells from it on. -/
theorem Real.placed (hsupply : supply.Real request) {positioning : Positioning σ}
    (hpositioning : positioning.Lawful keys) (key : Cell) :
    ∃ placed, (placeAll positioning key (supply.sources request)).value = .ok placed ∧
      (Merge.ofSources keys placed).value.Offers keys (keys.skipTo key (supply.cells request)) :=
  supply.placed_of_fresh (fun source hsource =>
    have ⟨held, hfresh, hsorted, _⟩ := hsupply.fresh source hsource
    ⟨held, hfresh, hsorted⟩) hsupply.distinct hpositioning key

end Supply

variable [CellFilter φ]

namespace Scanner

/-! ## Two scanners beside each other -/

/-- Where two scanners of the same cells are: they have the same cells ahead of them, which begin
in a row that neither has read, or nothing is left for either. The second one may have been told of
a change, or may have ended one read earlier. -/
inductive Beside (data : List Cell) (rows : RowRange) : Phase σ → Phase σ → Prop
  | reading {first second : Merge σ} {ahead : List Cell} (key : Cell) :
      keys.skipTo key data = ahead → first.Offers keys ahead → second.Offers keys ahead →
      (∀ cell ∈ ahead, rows.startsAfter cell.row = false) →
      Beside data rows (.active first) (.active second)
  | told {first : Merge σ} {top : Cell} {rest : List Cell} :
      keys.skipTo top data = top :: rest → first.Offers keys (top :: rest) →
      (∀ cell ∈ top :: rest, rows.startsAfter cell.row = false) →
      Beside data rows (.active first) (.resync top)
  | spent {first : Merge σ} : first.Offers keys [] → Beside data rows (.active first) .closed
  | ended : Beside data rows .closed .closed

/-- A scanner without a filter and one of the same scan with a filter on complete rows, neither of
which reads in batches. -/
structure Paired (filter : φ) (request : SourceRequest) (plain judged : Scanner σ φ) : Prop where
  matchers : judged.matcher = plain.matcher.judging filter
  unfiltered : plain.matcher.Plain
  orders : judged.order = keys
  requests : judged.request = request
  batches : plain.batch = none ∧ judged.batch = none

/-- A pair of scanners that are beside each other in some cells. -/
structure KeepsStep (filter : φ) (request : SourceRequest) (data : List Cell)
    (plain judged : Scanner σ φ) : Prop extends Paired filter request plain judged where
  beside : Beside data plain.matcher.rows plain.phase judged.phase

variable {filter : φ} {drops : List Cell → Bool} {data : List Cell}
variable {plain judged : Scanner σ φ} {supply other : Supply σ} {request : SourceRequest}

omit [CellFilter φ] in
/-- A change of the sources leaves the scanners beside each other. -/
theorem KeepsStep.change (hstep : KeepsStep filter request data plain judged)
    (hsorted : keys.Sorted data) :
    KeepsStep filter request data plain judged.sourcesChanged.value := by
  have hbeside := hstep.beside
  unfold sourcesChanged
  generalize hfirst : plain.phase = first at hbeside
  cases hphase : judged.phase with
  | closed => exact hstep
  | resync top => exact hstep
  | active second =>
      rw [hphase] at hbeside
      cases hbeside with
      | @reading first _ ahead key hahead hoffers hsecond hstarted =>
          simp only [hsecond.peek_eq]
          cases ahead with
          | nil => exact hstep
          | cons top rest =>
              refine { hstep with beside := ?_ }
              rw [hfirst]
              exact .told (skipTo_first hsorted hahead) hoffers hstarted

/-! ## One read -/

/-- The cells that a scanner has ahead, if it is open. -/
def ahead (scanner : Scanner σ φ) : List Cell :=
  match scanner.phase with
  | .active merge => merge.stream
  | _ => []

/-- What a read without a limit hands out: cells of one row, and only later rows are left. -/
structure OneRow (scanner after : Scanner σ φ) (cells : List Cell) : Prop where
  ahead : cells ⊆ scanner.ahead
  left : after.ahead ⊆ scanner.ahead
  row : ∃ row, (∀ cell ∈ cells, cell.row = row) ∧ ∀ cell ∈ after.ahead, row < cell.row

/-- What a read without a limit comes to, with a filter on complete rows, where a read without the
filter hands out a page: the page, or nothing of it if the row is dropped. -/
structure ReadsRow (filter : φ) (drops : List Cell → Bool) (request : SourceRequest)
    (data : List Cell) (page : Page) (after : Scanner σ φ)
    (outcome : Except ScanError Page × Scanner σ φ) : Prop where
  page : ∃ more, outcome.1 = .ok ⟨if drops page.cells then [] else page.cells, more⟩ ∧
    (page.more = false → more = false) ∧ (more = false → outcome.2.phase = .closed)
  step : KeepsStep filter request data after outcome.2

theorem KeepsStep.enterRow (hjudges : CellFilter.JudgesRows drops filter)
    (hstep : KeepsStep filter request data plain judged) (row : Bytes) :
    (judged.enterRow row).value =
      { judged with matcher := (plain.matcher.inRow row).judging filter } := by
  have hrow : judged.matcher.row = plain.matcher.row := by
    rw [hstep.matchers]
    rfl
  unfold Scanner.enterRow Matcher.inRow
  rw [hrow]
  split
  next => rw [← hstep.matchers]; rfl
  next =>
    have hplain : (plain.matcher.enterRow row).value = plain.matcher.entered row := by
      rw [Matcher.enterRow, hstep.unfiltered.filter]
      rfl
    simp only [Noted.value_bind, Noted.value_pure]
    rw [hstep.matchers, Matcher.enterRow_judging hjudges hstep.unfiltered.filter, hplain]

omit [LawfulSource σ keys] [CellFilter φ] in
theorem ahead_of_closed {scanner : Scanner σ φ} (hclosed : scanner.phase = .closed) :
    scanner.ahead = [] := by
  unfold ahead
  rw [hclosed]

omit [LawfulSource σ keys] [CellFilter φ] in
theorem ahead_of_active {scanner : Scanner σ φ} {merge : Merge σ}
    (hactive : scanner.phase = .active merge) : scanner.ahead = merge.stream := by
  unfold ahead
  rw [hactive]

omit [LawfulSource σ keys] [CellFilter φ] in
theorem Paired.released (hpaired : Paired filter request plain judged) :
    Paired filter request plain judged.release.value := by
  obtain ⟨⟨-, hmatcher⟩, hsame⟩ := release_closed judged
  exact ⟨hmatcher.trans hpaired.matchers, hpaired.unfiltered, hsame.order.trans hpaired.orders,
    hsame.request.trans hpaired.requests, hpaired.batches.1, hsame.batch.trans hpaired.batches.2⟩

omit [CellFilter φ] in
/-- The first scanner ends where the second one has ended. -/
theorem Paired.ended (hpaired : Paired filter request plain judged)
    (hover : judged.phase = .closed) :
    KeepsStep filter request data plain.release.value judged := by
  obtain ⟨⟨hclosed, hmatcher⟩, hsame⟩ := release_closed plain
  refine { matchers := ?_, unfiltered := ?_, orders := hpaired.orders, requests := hpaired.requests,
           batches := ⟨hsame.batch.trans hpaired.batches.1, hpaired.batches.2⟩, beside := ?_ }
  · rw [hmatcher]
    exact hpaired.matchers
  · rw [hmatcher]
    exact hpaired.unfiltered
  · rw [hclosed, hover]
    exact .ended

omit [LawfulSource σ keys] [CellFilter φ] in
/-- A read that hands out cells of the first row, and leaves at most the rows after it. -/
theorem OneRow.of_rowAhead {rows : RowRange} {row : Bytes} {after : Scanner σ φ}
    {cells : List Cell} (hahead : Matcher.RowAhead rows row plain.ahead)
    (hcells : ∀ cell ∈ cells, cell ∈ plain.ahead ∧ cell.row = row)
    (hafter : after.ahead ⊆ keys.skipTo (Cell.lastOnRow row) plain.ahead) :
    OneRow plain after cells := by
  have hleft (cell : Cell) (hcell : cell ∈ after.ahead) : cell ∈ plain.ahead ∧ row < cell.row :=
    (mem_skipTo_lastOnRow hahead.sorted fun other hother => (hahead.real other hother).1).mp
      (hafter hcell)
  exact ⟨fun cell hcell => (hcells cell hcell).1, fun cell hcell => (hleft cell hcell).1,
    row, fun cell hcell => (hcells cell hcell).2, fun cell hcell => (hleft cell hcell).2⟩

omit [CellFilter φ] in
/-- Reads that have come to the same cells end beside each other, whether or not the row is
dropped. Where the row is dropped after which nothing is left, the second scanner has ended, and the
first one ends with the next read. -/
theorem Paired.handOut (hpaired : Paired filter request plain judged) {first second : Merge σ}
    (hactive : plain.phase = .active first) (hactiveJudged : judged.phase = .active second)
    {cells later : List Cell} {ending : PassEnd} {key : Cell} (hdata : keys.skipTo key data = later)
    (hstarted : ∀ cell ∈ later, plain.matcher.rows.startsAfter cell.row = false)
    (hleft : ending ≠ .scanDone → first.Offers keys later ∧ second.Offers keys later ∧
      (ending = .exhausted → later = []))
    {page : Page} {after : Scanner σ φ}
    (hended : (plain.handOut cells (ending = .scanDone || ending = .exhausted &&
      cells.isEmpty)).value = (.ok page, after)) :
    page.cells = cells ∧ after.ahead ⊆ later ∧
      ReadsRow filter drops request data page after
        (judged.handOut (if drops cells then [] else cells) (ending = .scanDone ||
          ending = .exhausted && (if drops cells then [] else cells).isEmpty)).value := by
  unfold Scanner.handOut at hended ⊢
  split at hended
  next hover =>
    cases hended
    -- a scan that ends with the row ends also if the row is dropped
    have hnothing : (ending = .scanDone || ending = .exhausted &&
        (if drops cells then [] else cells).isEmpty) = true := by
      cases hdrops : drops cells <;> cases cells <;> simp_all
    rw [if_pos hnothing]
    refine ⟨rfl, ?_, ⟨false, rfl, fun _ => rfl, fun _ => (release_closed judged).1.1⟩,
      hpaired.released.ended (release_closed judged).1.1⟩
    rw [ahead_of_closed (release_closed plain).1.1]
    exact List.nil_subset _
  next hmore =>
    cases hended
    have hending : ending ≠ .scanDone := by
      rintro rfl
      simp at hmore
    obtain ⟨hfirst, hsecond, hexhausted⟩ := hleft hending
    refine ⟨rfl, ?_, ?_⟩
    · rw [ahead_of_active hactive, hfirst.stream]
      exact List.Subset.refl _
    · by_cases hover : (ending = .scanDone || ending = .exhausted &&
          (if drops cells then [] else cells).isEmpty) = true
      -- the row is dropped and nothing is left: only the second scanner ends now
      · obtain rfl : later = [] := hexhausted (by simp_all)
        rw [if_pos hover]
        refine ⟨⟨false, rfl, nofun, fun _ => (release_closed judged).1.1⟩,
          { hpaired.released with beside := ?_ }⟩
        change Beside data plain.matcher.rows plain.phase judged.release.value.phase
        rw [hactive, (release_closed judged).1.1]
        exact .spent hfirst
      · rw [if_neg hover]
        refine ⟨⟨true, rfl, nofun, nofun⟩, { hpaired with beside := ?_ }⟩
        change Beside data plain.matcher.rows plain.phase judged.phase
        rw [hactive, hactiveJudged]
        exact .reading key hdata hfirst hsecond hstarted

/-- The scanners read the same row, and are beside each other again after it. -/
theorem KeepsStep.read (hjudges : CellFilter.JudgesRows drops filter)
    (hstep : KeepsStep filter request data plain judged) {first second : Merge σ} {top : Cell}
    {rest : List Cell} (hactive : plain.phase = .active first)
    (hfirst : first.Offers keys (top :: rest)) (hsecond : second.Offers keys (top :: rest))
    (hsorted : keys.Sorted data) (hreal : ∀ cell ∈ data, cell.IsReal)
    (hdata : keys.skipTo top data = top :: rest)
    (hahead : Matcher.RowAhead plain.matcher.rows top.row (top :: rest))
    {page : Page} {after : Scanner σ φ}
    (hread : (plain.read first top none).value = (.ok page, after)) :
    OneRow plain after page.cells ∧
      ReadsRow filter drops request data page after (judged.read second top none).value := by
  have hunfiltered := hstep.unfiltered
  have hlevel : ReadState.Level filter ⟨first, plain.matcher.inRow top.row⟩
      ⟨second, (plain.matcher.inRow top.row).judging filter⟩ (plain.matcher.inRow top.row)
      (top :: rest) :=
    ⟨.of_offers hfirst _, .of_offers hsecond _⟩
  have hrows := Matcher.rows_inRow plain.matcher top.row
  have hpass := hlevel.pass hjudges (hunfiltered.inRow top.row) (Matcher.row_inRow _ _)
    (hrows.symm ▸ hahead)
  -- both passes hand out the same cells, since the filter is asked only after them
  simp only [Scanner.read, Noted.value_bind, enterRow_eq hunfiltered.filter] at hread
  simp only [Scanner.read, Noted.value_bind, hstep.enterRow hjudges]
  generalize (ReadState.pass ⟨first, plain.matcher.inRow top.row⟩ none).value = passed at *
  generalize (ReadState.pass ⟨second, (plain.matcher.inRow top.row).judging filter⟩ none).value =
    passedJudged at *
  obtain ⟨result, next⟩ := passed
  obtain ⟨resultJudged, nextJudged⟩ := passedJudged
  obtain rfl : resultJudged = result := hpass.result
  cases resultJudged with
  | error failure => cases hread
  | ok found =>
      obtain ⟨cells, ending⟩ := found
      obtain ⟨hplain, hreset⟩ := hpass.same rfl
      have hnextRows : next.matcher.rows = plain.matcher.rows :=
        (Matcher.rows_of_reset hreset).trans hrows
      have hnone : next.matcher.completeRow cells = pure (cells, next.matcher) := by
        rw [Matcher.completeRow, hplain.filter]
      have hcomplete : (nextJudged.matcher.completeRow cells).value =
          (if drops cells then [] else cells, nextJudged.matcher) := by
        rw [show nextJudged.matcher = _ from hpass.matchers]
        exact Matcher.completeRow_judging hjudges cells
      simp only [Option.isNone_none, if_true, hnone, Noted.value_pure, Noted.value_bind] at hread
      simp only [Option.isNone_none, if_true, hcomplete, Noted.value_bind]
      have hpaired : Paired filter request
          { plain with phase := .active next.merge, matcher := next.matcher }
          { judged with phase := .active nextJudged.merge, matcher := nextJudged.matcher } :=
        ⟨hpass.matchers, hplain, hstep.orders, hstep.requests, hstep.batches⟩
      -- behind the row both have the same cells ahead
      have hlater : keys.skipTo (Cell.lastOnRow top.row) data =
          keys.skipTo (Cell.lastOnRow top.row) (top :: rest) := by
        rw [← hdata, skipTo_lastOnRow_skipTo hsorted fun cell hcell => (hreal cell hcell).1]
      have hsub := (@skipTo_sublist keys (Cell.lastOnRow top.row) (top :: rest)).subset
      have hleft (hending : ending ≠ .scanDone) :
          next.merge.Offers keys (keys.skipTo (Cell.lastOnRow top.row) (top :: rest)) ∧
            nextJudged.merge.Offers keys (keys.skipTo (Cell.lastOnRow top.row) (top :: rest)) ∧
              (ending = .exhausted →
                keys.skipTo (Cell.lastOnRow top.row) (top :: rest) = []) := by
        obtain ⟨hlevel, hexhausted⟩ := hpass.left cells ending rfl hending
        exact ⟨hlevel.plain.offers, hlevel.judged.offers, hexhausted⟩
      obtain ⟨hcells, hafter, hreads⟩ := hpaired.handOut rfl rfl hlater
        (fun cell hcell => hnextRows ▸ hahead.started cell (hsub hcell)) hleft hread
      refine ⟨?_, hreads⟩
      have hplainAhead : plain.ahead = top :: rest := (ahead_of_active hactive).trans hfirst.stream
      rw [hcells]
      rw [← hplainAhead] at hahead hafter hpass
      exact .of_rowAhead hahead (hpass.handed cells ending rfl) hafter

/-! ## Reads between changes -/

section

variable {provider : Option (Supply σ)} {limit : Option Nat}

omit [LawfulSource σ keys] in
theorem fill_of_active {merge : Merge σ} (hactive : plain.phase = .active merge) :
    (plain.fill provider limit).value =
      match merge.peek with
      | some first => (plain.read merge first limit).value
      | none => (.ok ⟨[], false⟩, plain.release.value) := by
  simp only [Scanner.fill, resync, hactive, Noted.value_bind, Noted.value_pure]
  cases merge.peek <;> rfl

omit [LawfulSource σ keys] in
theorem fill_of_closed (hclosed : plain.phase = .closed) :
    (plain.fill provider limit).value = (.ok ⟨[], false⟩, plain) := by
  simp only [Scanner.fill, resync, hclosed, Noted.value_bind, Noted.value_pure]

omit [LawfulSource σ keys] in
/-- A read without a limit is never refused, and a page ends no scan before its time. -/
theorem next_eq_ok_iff {limit : ReadLimit} (hlimit : plain.limitOf limit = none) {page : Page}
    {after : Scanner σ φ} :
    (plain.next provider limit).value = (.ok page, after) ↔
      (plain.fill provider none).value = (.ok page, after) := by
  have hrefuses : plain.matcher.refuses none = none := rfl
  rw [Scanner.next, hlimit, hrefuses]
  simp only [Noted.value_bind]
  generalize (plain.fill provider none).value = filled
  obtain ⟨_ | answer, reached⟩ := filled
  · refine ⟨fun hnext => ?_, fun hfill => ?_⟩
    · simp only [concluding, Noted.value_bind] at hnext
      cases hnext
    · cases hfill
  · rfl

end

/-- The second scanner takes new sources of the same cells, and enters the row that they begin
with. -/
theorem KeepsStep.resync (hjudges : CellFilter.JudgesRows drops filter)
    (hstep : KeepsStep filter request data plain judged) {first : Merge σ} {top : Cell}
    {rest : List Cell} (hactive : plain.phase = .active first)
    (hfirst : first.Offers keys (top :: rest)) (hdata : keys.skipTo top data = top :: rest)
    (htold : judged.phase = .resync top)
    (hstarted : ∀ cell ∈ top :: rest, plain.matcher.rows.startsAfter cell.row = false)
    (hsupply : supply.Real request) (hsame : supply.cells request = data) :
    ∃ second, second.Offers keys (top :: rest) ∧
      (judged.fill (some supply) none).value =
        (Scanner.read { judged with
            matcher := (plain.matcher.inRow top.row).judging filter, phase := .active second }
          second top none).value ∧
      KeepsStep filter request data { plain with matcher := plain.matcher.inRow top.row }
        { judged with
          matcher := (plain.matcher.inRow top.row).judging filter, phase := .active second } := by
  obtain ⟨placed, hplaced, hoffers⟩ := hsupply.placed Positioning.seek_lawful top
  rw [hsame, hdata] at hoffers
  have hpeek : (Merge.ofSources keys placed).value.peek = some top := hoffers.peek_eq
  have hrebuild : (judged.rebuild (some supply) (some top)).value =
      .ok (Merge.ofSources keys placed).value := by
    simp only [rebuild, Noted.value_bind, hstep.requests, askFor_of_isOk hsupply.answers,
      hplaced, hstep.orders]
    rfl
  refine ⟨_, hoffers, ?_, ?_⟩
  · simp only [Scanner.fill, Scanner.resync, htold, Noted.value_bind, hrebuild, hpeek,
      Option.getD_some, hstep.enterRow hjudges, Noted.value_pure]
  · refine ⟨⟨rfl, hstep.unfiltered.inRow _, hstep.orders, hstep.requests, hstep.batches⟩, ?_⟩
    change Beside data (plain.matcher.inRow top.row).rows plain.phase (.active _)
    rw [hactive, Matcher.rows_inRow]
    exact .reading top hdata hfirst hoffers hstarted

omit [LawfulSource σ keys] [CellFilter φ] in
theorem OneRow.nil {after : Scanner σ φ} (hclosed : after.phase = .closed) :
    OneRow plain after [] := by
  have hnone := ahead_of_closed hclosed
  refine ⟨List.nil_subset _, ?_, [], nofun, ?_⟩
  · rw [hnone]
    exact List.nil_subset _
  · rw [hnone]
    exact nofun

omit [CellFilter φ] in
/-- Where nothing is left, whether a row without any cells is dropped makes no difference. -/
theorem KeepsStep.readsRow_nil (hstep : KeepsStep filter request data plain judged)
    (hclosed : judged.phase = .closed) :
    ReadsRow filter drops request data ⟨[], false⟩ plain (.ok ⟨[], false⟩, judged) := by
  refine ⟨⟨false, ?_, fun _ => rfl, fun _ => hclosed⟩, hstep⟩
  rw [ite_self]

/-- A read without a limit, after a read of the scanner without a filter. -/
theorem KeepsStep.next (hjudges : CellFilter.JudgesRows drops filter)
    (hstep : KeepsStep filter request data plain judged) (hsorted : keys.Sorted data)
    (hreal : ∀ cell ∈ data, cell.IsReal) {limit : ReadLimit} (hlimit : limit.cells none = none)
    (hsupply : supply.Real request) (hsame : supply.cells request = data)
    {page : Page} {after : Scanner σ φ}
    (hnext : (plain.next (some other) .ofScan).value = (.ok page, after)) :
    OneRow plain after page.cells ∧
      ReadsRow filter drops request data page after (judged.next (some supply) limit).value := by
  have hunlimited : plain.limitOf .ofScan = none := hstep.batches.1
  have hfill := (next_eq_ok_iff hunlimited).mp hnext
  -- a read without a limit is not refused, so it is enough to look at what it fetches
  suffices hreads : OneRow plain after page.cells ∧
      ReadsRow filter drops request data page after (judged.fill (some supply) none).value by
    refine ⟨hreads.1, ?_⟩
    have ⟨more, hpage, _⟩ := hreads.2.page
    have hlimit : judged.limitOf limit = none := by
      rw [limitOf_eq, hstep.batches.2, hlimit]
    rw [(next_eq_ok_iff hlimit).mpr (Prod.ext hpage rfl)]
    exact hpage ▸ hreads.2
  have hbeside := hstep.beside
  generalize hphase : plain.phase = phase at hbeside
  generalize hjudged : judged.phase = phaseJudged at hbeside
  cases hbeside with
  | @reading first second ahead key hahead hfirst hsecond hstarted =>
      rw [fill_of_active hphase, hfirst.peek_eq] at hfill
      rw [fill_of_active hjudged, hsecond.peek_eq]
      cases ahead with
      | nil =>
          cases hfill
          have hover : judged.release.value.phase = .closed := (release_closed judged).1.1
          exact ⟨.nil (release_closed plain).1.1, (hstep.released.ended hover).readsRow_nil hover⟩
      | cons top rest =>
          have hdata := skipTo_first hsorted hahead
          exact hstep.read hjudges hphase hfirst hsecond hsorted hreal hdata
            (.of_skipTo hsorted hreal hdata hstarted) hfill
  | @told first top rest hdata hfirst hstarted =>
      rw [fill_of_active hphase, hfirst.peek_eq] at hfill
      obtain ⟨second, hsecond, hfilled, hnew⟩ :=
        hstep.resync hjudges hphase hfirst hdata hjudged hstarted hsupply hsame
      have hrows := Matcher.rows_inRow plain.matcher top.row
      have hunfiltered := hstep.unfiltered
      have hread : (Scanner.read { plain with matcher := plain.matcher.inRow top.row }
          first top none).value = (.ok page, after) := by
        rw [← hfill]
        simp only [List.head?_cons, Scanner.read, Noted.value_bind, enterRow_eq hunfiltered.filter,
          enterRow_eq hnew.unfiltered.filter, Matcher.inRow_inRow]
      rw [hfilled]
      obtain ⟨⟨hcells, hleft, hrow⟩, hreads⟩ :=
        hnew.read hjudges hphase hfirst hsecond hsorted hreal hdata
          (.of_skipTo hsorted hreal hdata (hrows.symm ▸ hstarted)) hread
      exact ⟨⟨hcells, hleft, hrow⟩, hreads⟩
  | @spent first hfirst =>
      rw [fill_of_active hphase, hfirst.peek_eq] at hfill
      rw [fill_of_closed hjudged]
      cases hfill
      exact ⟨.nil (release_closed plain).1.1, (hstep.ended hjudged).readsRow_nil hjudged⟩
  | ended =>
      rw [fill_of_closed hphase] at hfill
      rw [fill_of_closed hjudged]
      cases hfill
      exact ⟨.nil hphase, hstep.readsRow_nil hjudged⟩

end Scanner

end MergeScan
