import MergeScan.Filter.Any
import MergeScan.Proofs.Scanner.Kept
import MergeScan.Proofs.Scanner.RowFilter

/-! # The rows that a filter keeps

Read without a limit, and told of changes that leave the cells as they are, a scan with a filter on
complete rows hands out each row that the filter keeps, whole and in order, of those that the scan
without the filter hands out. It does not end before the last of them. A read with a limit is
refused, and leaves no trace.
-/

namespace MergeScan

open CellOrder

/-! ## Rows of a list -/

/-- The cells of the rows that are not dropped for their cells. -/
def Cell.keptRows (drops : List Cell → Bool) (total : List Cell) : List Cell :=
  total.filter fun cell => !drops (Cell.inRow cell.row total)

/-- The lists of those that are not dropped, one after the other. -/
def Cell.keptOf (drops : List Cell → Bool) (rows : List (List Cell)) : List Cell :=
  rows.flatMap fun cells => if drops cells then [] else cells

/-- Lists of cells that are rows in order: each has the cells of one row, and no row goes on in a
later list. -/
structure Cell.RowsApart (rows : List (List Cell)) : Prop where
  same cells : cells ∈ rows → ∀ first ∈ cells, ∀ second ∈ cells, first.row = second.row
  ascending : rows.Pairwise fun earlier later =>
    ∀ first ∈ earlier, ∀ second ∈ later, first.row < second.row

namespace Cell

variable {drops : List Cell → Bool} {cells total : List Cell} {rows rest : List (List Cell)}

theorem RowsApart.tail (hrows : RowsApart (cells :: rest)) : RowsApart rest :=
  ⟨fun other hother => hrows.same other (List.mem_cons_of_mem _ hother),
    (List.pairwise_cons.mp hrows.ascending).2⟩

theorem RowsApart.row_lt (hrows : RowsApart (cells :: rest)) {first second : Cell}
    (hfirst : first ∈ cells) (hsecond : second ∈ rest.flatten) : first.row < second.row := by
  obtain ⟨later, hlater, hsecond⟩ := List.mem_flatten.mp hsecond
  exact (List.pairwise_cons.mp hrows.ascending).1 later hlater first hfirst second hsecond

/-- The first of several rows is all that there is of its row. -/
theorem RowsApart.inRow_first (hrows : RowsApart (cells :: rest)) {cell : Cell}
    (hcell : cell ∈ cells) : inRow cell.row (cells :: rest).flatten = cells := by
  have hrow := hrows.same cells List.mem_cons_self
  rw [List.flatten_cons, inRow_append,
    inRow_of_forall fun other hother => hrow other hother cell hcell, inRow_of_forall_ne,
    List.append_nil]
  exact fun other hother heq => Std.lt_irrefl (heq ▸ hrows.row_lt hcell hother)

theorem RowsApart.inRow_later (hrows : RowsApart (cells :: rest)) {cell : Cell}
    (hcell : cell ∈ rest.flatten) :
    inRow cell.row (cells :: rest).flatten = inRow cell.row rest.flatten := by
  rw [List.flatten_cons, inRow_append, inRow_of_forall_ne, List.nil_append]
  exact fun other hother heq => Std.lt_irrefl (heq ▸ hrows.row_lt hother hcell)

theorem RowsApart.inRow_eq (hrows : RowsApart rows) {cell : Cell} (hcells : cells ∈ rows)
    (hcell : cell ∈ cells) : inRow cell.row rows.flatten = cells := by
  induction rows with
  | nil => cases hcells
  | cons first rest ih =>
      rcases List.mem_cons.mp hcells with rfl | hrest
      · exact hrows.inRow_first hcell
      · rw [hrows.inRow_later (List.mem_flatten.mpr ⟨cells, hrest, hcell⟩)]
        exact ih hrows.tail hrest

/-- A filter on the rows of a list keeps all of a row or nothing. -/
theorem RowsApart.keptRows_eq (hrows : RowsApart rows) :
    keptRows drops rows.flatten = keptOf drops rows := by
  induction rows with
  | nil => rfl
  | cons cells rest ih =>
      have hfirst : cells.filter (fun cell => !drops (inRow cell.row (cells :: rest).flatten)) =
          if drops cells then [] else cells := by
        have hsame : ∀ cell ∈ cells, (!drops (inRow cell.row (cells :: rest).flatten)) =
            !drops cells := fun cell hcell => by rw [hrows.inRow_first hcell]
        rw [List.filter_congr hsame]
        cases drops cells <;> simp
      have hlater : rest.flatten.filter
          (fun cell => !drops (inRow cell.row (cells :: rest).flatten)) =
            keptRows drops rest.flatten :=
        List.filter_congr fun cell hcell => by rw [hrows.inRow_later hcell]
      rw [keptRows, List.flatten_cons, List.filter_append, ← List.flatten_cons, hfirst, hlater,
        ih hrows.tail]
      rfl

end Cell

/-! ## The rows of a scan without a filter -/

namespace Scanner

variable {σ φ : Type} [Source σ] [CellFilter φ]

/-- What reads with the limit of the scan come to, until one says that there is no more. -/
inductive ReadsRows (supply : Supply σ) : Scanner σ φ → List (List Cell) → Prop
  | last {scanner after : Scanner σ φ} {cells : List Cell} :
      (scanner.next (some supply) .ofScan).value = (.ok ⟨cells, false⟩, after) →
      ReadsRows supply scanner [cells]
  | more {scanner after : Scanner σ φ} {cells : List Cell} {rows : List (List Cell)} :
      (scanner.next (some supply) .ofScan).value = (.ok ⟨cells, true⟩, after) →
      ReadsRows supply after rows → ReadsRows supply scanner (cells :: rows)

/-- What reads that do not fail hand out is a prefix of these cells, and all of them once a read has
said that there is no more, as one of `enough` reads does. -/
def HandsWithin (enough : Nat) (supply : Supply σ) (total : List Cell) (scanner : Scanner σ φ) :
    Prop :=
  ∀ (limits : List ReadLimit) (pages : List Page),
    scanner.run (limits.map .read) supply = pages.map .ok →
      (∃ later, total = pages.flatMap (·.cells) ++ later ∧
        ((∃ page ∈ pages, page.more = false) → later = [])) ∧
      (enough ≤ limits.length → ∃ page ∈ pages, page.more = false)

section

variable {supply : Supply σ} {scanner after : Scanner σ φ} {cells later total : List Cell}

theorem run_cons_of_next {result : Except ScanError Page}
    (hnext : (scanner.next (some supply) .ofScan).value = (result, after))
    (limits : List ReadLimit) :
    scanner.run ((ReadLimit.ofScan :: limits).map .read) supply =
      result :: after.run (limits.map .read) supply := by
  rw [List.map_cons, Scanner.run, hnext]

/-- After a page that may be followed by another one, there is one read less to come. -/
theorem HandsWithin.next {enough : Nat} (hhands : HandsWithin (enough + 1) supply total scanner)
    (hnext : (scanner.next (some supply) .ofScan).value = (.ok ⟨cells, true⟩, after))
    (htotal : total = cells ++ later) : HandsWithin enough supply later after := by
  intro limits pages hpages
  obtain ⟨⟨rest, hrest, hends⟩, hmany⟩ := hhands (.ofScan :: limits) (⟨cells, true⟩ :: pages)
    (by rw [run_cons_of_next hnext, hpages, List.map_cons])
  refine ⟨⟨rest, ?_, fun ⟨page, hpage, hmore⟩ =>
    hends ⟨page, List.mem_cons_of_mem _ hpage, hmore⟩⟩, fun hcount => ?_⟩
  · rw [htotal, List.flatMap_cons, List.append_assoc] at hrest
    exact List.append_cancel_left hrest
  · obtain ⟨page, hpage, hmore⟩ := hmany (Nat.succ_le_succ hcount)
    rcases List.mem_cons.mp hpage with rfl | hpage
    · cases hmore
    · exact ⟨page, hpage, hmore⟩

/-- A scan that can be read to its end is read row by row. -/
theorem ReadsTo.exists_rows (hreads : scanner.ReadsTo True supply total) :
    ∃ rows, scanner.ReadsRows supply rows ∧ rows.flatten = total := by
  obtain ⟨enough, hhands⟩ := hreads.hands
  have hsucceeds := hreads.succeeds trivial
  clear hreads
  change HandsWithin enough supply total scanner at hhands
  induction enough generalizing scanner total with
  | zero =>
      obtain ⟨page, hpage, -⟩ := (hhands [] [] rfl).2 (Nat.le_refl _)
      cases hpage
  | succ enough ih =>
      obtain ⟨pages, hpages⟩ := hsucceeds [.ofScan]
      obtain ⟨⟨cells, more⟩, rest, rfl, hpage, hrest⟩ := run_cons_eq hpages
      obtain rfl : rest = [] := List.map_eq_nil_iff.mp hrest.symm
      obtain ⟨⟨later, htotal, hends⟩, -⟩ := hhands [.ofScan] [⟨cells, more⟩] hpages
      rw [List.flatMap_singleton] at htotal
      obtain ⟨after, hnext⟩ : ∃ after,
          (scanner.next (some supply) .ofScan).value = (.ok ⟨cells, more⟩, after) :=
        ⟨_, Prod.ext hpage rfl⟩
      cases more with
      | false =>
          obtain rfl : later = [] := hends ⟨_, List.mem_singleton_self _, rfl⟩
          exact ⟨[cells], .last hnext, htotal.symm⟩
      | true =>
          obtain ⟨rows, hrows, hflatten⟩ := @ih after later (fun limits => by
            obtain ⟨pages, hpages⟩ := hsucceeds (.ofScan :: limits)
            obtain ⟨first, rest, rfl, -, hrest⟩ := run_cons_eq hpages
            rw [hnext] at hrest
            exact ⟨rest, hrest⟩) (HandsWithin.next hhands hnext htotal)
          exact ⟨cells :: rows, .more hnext hrows, by rw [List.flatten_cons, hflatten, htotal]⟩

theorem ReadsRows.unique {first second : List (List Cell)}
    (hfirst : scanner.ReadsRows supply first) (hsecond : scanner.ReadsRows supply second) :
    first = second := by
  induction hfirst generalizing second with
  | last hnext =>
      cases hsecond with
      | last hother => rw [hnext] at hother; cases hother; rfl
      | more hother => rw [hnext] at hother; cases hother
  | more hnext _ ih =>
      cases hsecond with
      | last hother => rw [hnext] at hother; cases hother
      | more hother hrest => rw [hnext] at hother; cases hother; rw [ih hrest]

end

/-! ## The rows of a scan with the filter -/

section

variable [LawfulSource σ keys] {filter : φ} {drops : List Cell → Bool} {data cells : List Cell}
variable {rows : List (List Cell)} {plain judged : Scanner σ φ} {supply other : Supply σ}
variable {request : SourceRequest}

/-- The rows that a scanner without a filter reads beside one with a filter on complete rows. -/
theorem KeepsStep.rowsApart (hjudges : CellFilter.JudgesRows drops filter)
    (hstep : KeepsStep filter request data plain judged) (hsorted : keys.Sorted data)
    (hreal : ∀ cell ∈ data, cell.IsReal) (hsupply : supply.Real request)
    (hsame : supply.cells request = data) (hrows : plain.ReadsRows other rows) :
    Cell.RowsApart rows ∧ ∀ cells ∈ rows, cells ⊆ plain.ahead := by
  have hunlimited : ReadLimit.cells none .ofScan = none := rfl
  induction hrows generalizing judged with
  | @last plain after cells hnext =>
      obtain ⟨⟨hcells, -, row, hrow, -⟩, -⟩ :=
        hstep.next hjudges hsorted hreal hunlimited hsupply hsame hnext
      refine ⟨⟨?_, List.pairwise_singleton _ _⟩, List.forall_mem_singleton.mpr hcells⟩
      refine List.forall_mem_singleton.mpr fun first hfirst second hsecond => ?_
      rw [hrow first hfirst, hrow second hsecond]
  | @more plain after cells rows hnext hrest ih =>
      obtain ⟨⟨hcells, hleft, row, hrow, hlater⟩, hreads⟩ :=
        hstep.next hjudges hsorted hreal hunlimited hsupply hsame hnext
      obtain ⟨hapart, hahead⟩ := ih hreads.step
      refine ⟨⟨List.forall_mem_cons.mpr ⟨fun first hfirst second hsecond => ?_, hapart.same⟩,
        List.pairwise_cons.mpr ⟨fun other hother first hfirst second hsecond => ?_,
          hapart.ascending⟩⟩, List.forall_mem_cons.mpr ⟨hcells, fun other hother => ?_⟩⟩
      · rw [hrow first hfirst, hrow second hsecond]
      · rw [hrow first hfirst]
        exact hlater second (hahead other hother hsecond)
      · exact List.Subset.trans (hahead other hother) hleft

/-- A scanner with a filter on complete rows, beside one without the filter that reads these
rows. -/
def ReadsBeside (filter : φ) (request : SourceRequest) (data : List Cell) (provider : Supply σ)
    (rows : List (List Cell)) (judged : Scanner σ φ) : Prop :=
  ∃ plain, KeepsStep filter request data plain judged ∧ plain.ReadsRows provider rows

/-- Where the scanner with the filter has ended, the other one has nothing left. -/
theorem KeepsStep.readsRows_of_closed (hstep : KeepsStep filter request data plain judged)
    (hclosed : judged.phase = .closed) : plain.ReadsRows other [[]] := by
  have hunlimited : plain.limitOf .ofScan = none := hstep.batches.1
  have hbeside := hstep.beside
  rw [hclosed] at hbeside
  generalize hphase : plain.phase = phase at hbeside
  cases hbeside with
  | spent hoffers =>
      have hfill : (plain.fill (some other) none).value =
          (.ok ⟨[], false⟩, plain.release.value) := by
        rw [fill_of_active hphase, hoffers.peek_eq]
        rfl
      exact .last ((next_eq_ok_iff hunlimited).mpr hfill)
  | ended => exact .last ((next_eq_ok_iff hunlimited).mpr (fill_of_closed hphase))

theorem ReadsBeside.rows_of_closed (hbeside : ReadsBeside filter request data other rows judged)
    (hclosed : judged.phase = .closed) : rows = [[]] :=
  have ⟨_, hstep, hrows⟩ := hbeside
  hrows.unique (hstep.readsRows_of_closed hclosed)

theorem ReadsBeside.ne_nil (hbeside : ReadsBeside filter request data other rows judged) :
    rows ≠ [] := by
  obtain ⟨plain, -, hrows⟩ := hbeside
  cases hrows
  · exact List.cons_ne_nil _ _
  · exact List.cons_ne_nil _ _

theorem keptOf_nil : Cell.keptOf drops [[]] = [] := by
  rw [Cell.keptOf, List.flatMap_singleton, ite_self]

/-- What one read without a limit does about the rows that are left: it hands out the first of them
or nothing of it, and says that there is no more only where nothing else is to be handed out. -/
structure ServesRow (drops : List Cell → Bool) (rows left : List (List Cell)) (page : Page) :
    Prop where
  whole : page.cells = [] ∨ page.cells ∈ rows ∧ drops page.cells = false
  kept : Cell.keptOf drops rows = page.cells ++ Cell.keptOf drops left
  among : left ⊆ [] :: rows
  last : page.more = false → Cell.keptOf drops left = []
  fewer : page.more = false ∨ left.length < rows.length

theorem ReadsBeside.next (hjudges : CellFilter.JudgesRows drops filter) (hsorted : keys.Sorted data)
    (hreal : ∀ cell ∈ data, cell.IsReal)
    (hbeside : ReadsBeside filter request data other rows judged) {limit : ReadLimit}
    (hlimit : limit.cells none = none) (hsupply : supply.Real request)
    (hsame : supply.cells request = data) :
    ∃ page after left, (judged.next (some supply) limit).value = (.ok page, after) ∧
      ReadsBeside filter request data other left after ∧ ServesRow drops rows left page := by
  obtain ⟨plain, hstep, hrows⟩ := hbeside
  have hwhole (cells : List Cell) (hcells : cells ∈ rows) :
      (if drops cells then [] else cells) = [] ∨ (if drops cells then [] else cells) ∈ rows ∧
        drops (if drops cells then [] else cells) = false := by
    cases hdrops : drops cells
    · exact .inr ⟨hcells, hdrops⟩
    · exact .inl rfl
  cases hrows with
  | @last _ after cells hnext =>
      obtain ⟨-, ⟨more, hpage, hmore, hends⟩, hstep⟩ :=
        hstep.next hjudges hsorted hreal hlimit hsupply hsame hnext
      obtain rfl : more = false := hmore rfl
      have hbeside : ReadsBeside filter request data other [[]] _ :=
        ⟨after, hstep, hstep.readsRows_of_closed (hends rfl)⟩
      refine ⟨_, _, [[]], Prod.ext hpage rfl, hbeside, hwhole cells List.mem_cons_self, ?_, by simp,
        fun _ => keptOf_nil, .inl rfl⟩
      rw [keptOf_nil, List.append_nil, Cell.keptOf, List.flatMap_singleton]
  | @more _ after cells left hnext hrest =>
      obtain ⟨-, ⟨more, hpage, -, hends⟩, hstep⟩ :=
        hstep.next hjudges hsorted hreal hlimit hsupply hsame hnext
      have hbeside : ReadsBeside filter request data other left _ := ⟨after, hstep, hrest⟩
      exact ⟨_, _, left, Prod.ext hpage rfl, hbeside, hwhole cells List.mem_cons_self, rfl,
        fun _ h => by simp [h], fun h => by rw [hbeside.rows_of_closed (hends h), keptOf_nil],
        .inr (Nat.lt_succ_self _)⟩

/-- A limit is refused, and that is all that happens. -/
theorem ReadsBeside.refused (hjudges : CellFilter.JudgesRows drops filter)
    (hbeside : ReadsBeside filter request data other rows judged) {limit : ReadLimit} {count : Nat}
    (hlimit : limit.cells none = some count) (provider : Option (Supply σ)) :
    (judged.next provider limit).value =
      (.error (.incompatibleFilter count (CellFilter.describe filter)), judged) := by
  obtain ⟨plain, hstep, -⟩ := hbeside
  rw [Scanner.next, limitOf_eq, hstep.batches.2, hlimit, hstep.matchers,
    Matcher.refuses_judging hjudges.needsWholeRow]
  rfl

theorem ReadsBeside.change (hsorted : keys.Sorted data)
    (hbeside : ReadsBeside filter request data other rows judged) :
    ReadsBeside filter request data other rows judged.sourcesChanged.value :=
  have ⟨plain, hstep, hrows⟩ := hbeside
  ⟨plain, hstep.change hsorted, hrows⟩

end

/-! ## Courses of events -/

end Scanner

/-- The answers over a course of events where reads with a limit are refused, and those without a
limit come to these pages. -/
def ScanEvent.replies {σ φ : Type} [CellFilter φ] (filter : φ) :
    List (ScanEvent (Supply σ)) → List Page → List (Except ScanError Page)
  | [], _ => []
  | .change _ :: events, pages => replies filter events pages
  | .read limit :: events, pages =>
    match limit.cells none with
    | some count =>
      .error (.incompatibleFilter count (CellFilter.describe filter)) :: replies filter events pages
    | none => (pages.take 1).map .ok ++ replies filter events (pages.drop 1)

/-- Whether an event is a read without a limit. -/
def ScanEvent.isWhole {α : Type} : ScanEvent α → Bool
  | .read limit => (limit.cells none).isNone
  | .change _ => false

namespace Scanner

variable {σ φ : Type} [Source σ] [CellFilter φ]

/-- The scanner after the course of events. -/
def reached : List (ScanEvent (Supply σ)) → Supply σ → Scanner σ φ → Scanner σ φ
  | [], _, scanner => scanner
  | .read limit :: rest, supply, scanner =>
    reached rest supply (scanner.next (some supply) limit).value.2
  | .change supply :: rest, _, scanner => reached rest supply scanner.sourcesChanged.value

section

variable [LawfulSource σ keys] {filter : φ} {drops : List Cell → Bool} {data : List Cell}
variable {rows left final : List (List Cell)} {judged : Scanner σ φ} {supply other : Supply σ}
variable {request : SourceRequest} {page : Page} {pages : List Page}

/-- What several reads without a limit do about the rows that are left. -/
structure ServesRows (drops : List Cell → Bool) (rows left : List (List Cell))
    (pages : List Page) : Prop where
  whole page : page ∈ pages → page.cells = [] ∨ page.cells ∈ rows ∧ drops page.cells = false
  kept : Cell.keptOf drops rows = pages.flatMap (·.cells) ++ Cell.keptOf drops left
  last : (∃ page ∈ pages, page.more = false) → Cell.keptOf drops left = []
  ends : rows.length ≤ pages.length → ∃ page ∈ pages, page.more = false

theorem ServesRows.nil (hrows : rows ≠ []) : ServesRows drops rows rows [] where
  whole page hpage := by cases hpage
  kept := rfl
  last := by
    rintro ⟨page, hpage, -⟩
    cases hpage
  ends hlength := absurd (List.length_eq_zero_iff.mp (Nat.le_zero.mp hlength)) hrows

theorem ServesRow.cons (hfirst : ServesRow drops rows left page)
    (hrest : ServesRows drops left final pages) : ServesRows drops rows final (page :: pages) where
  whole := by
    refine List.forall_mem_cons.mpr ⟨hfirst.whole, fun other hother => ?_⟩
    rcases hrest.whole other hother with hnothing | ⟨hmem, hkept⟩
    · exact .inl hnothing
    · exact (List.mem_cons.mp (hfirst.among hmem)).imp_right fun hmem => ⟨hmem, hkept⟩
  kept := by rw [hfirst.kept, hrest.kept, List.flatMap_cons, List.append_assoc]
  last := by
    rintro ⟨other, hother, hmore⟩
    rcases List.mem_cons.mp hother with rfl | hother
    · exact (List.append_eq_nil_iff.mp (hrest.kept.symm.trans (hfirst.last hmore))).2
    · exact hrest.last ⟨other, hother, hmore⟩
  ends hlength := by
    rw [List.length_cons] at hlength
    rcases hfirst.fewer with hmore | hfewer
    · exact ⟨page, List.mem_cons_self, hmore⟩
    · obtain ⟨other, hother, hmore⟩ := hrest.ends (by omega)
      exact ⟨other, List.mem_cons_of_mem _ hother, hmore⟩

/-- Over any course of events that leaves the cells as they are, the rows that are kept are handed
out one after the other. -/
theorem ReadsBeside.run (hjudges : CellFilter.JudgesRows drops filter) (hsorted : keys.Sorted data)
    (hreal : ∀ cell ∈ data, cell.IsReal)
    (hbeside : ReadsBeside filter request data other rows judged) (hsupply : supply.Real request)
    (hsame : supply.cells request = data) {events : List (ScanEvent (Supply σ))}
    (hevents : ∀ next, .change next ∈ events → next.Real request ∧ next.cells request = data) :
    ∃ pages left, judged.run events supply = ScanEvent.replies filter events pages ∧
      pages.length = (events.filter (·.isWhole)).length ∧
      ReadsBeside filter request data other left (judged.reached events supply) ∧
      ServesRows drops rows left pages := by
  induction events generalizing judged supply rows with
  | nil =>
      exact ⟨[], rows, rfl, rfl, hbeside, .nil hbeside.ne_nil⟩
  | cons event events ih =>
      have hlater := fun next hnext => hevents next (List.mem_cons_of_mem _ hnext)
      cases event with
      | change next =>
          obtain ⟨hnext, hcells⟩ := hevents next List.mem_cons_self
          exact ih (hbeside.change hsorted) hnext hcells hlater
      | read limit =>
          cases hlimit : limit.cells none with
          | some count =>
              -- a read with a limit is refused, and reading goes on where it was
              have hrefused := hbeside.refused hjudges hlimit (some supply)
              obtain ⟨pages, left, hrun, hlength, hleft, hserves⟩ := ih hbeside hsupply hsame hlater
              refine ⟨pages, left, ?_, ?_, ?_, hserves⟩
              · simp only [Scanner.run, ScanEvent.replies, hlimit, hrefused, hrun]
              · rw [hlength, List.filter_cons_of_neg]
                simp [ScanEvent.isWhole, hlimit]
              · rw [reached, hrefused]
                exact hleft
          | none =>
              obtain ⟨page, after, left, hnext, hleft, hserves⟩ :=
                hbeside.next hjudges hsorted hreal hlimit hsupply hsame
              obtain ⟨pages, final, hrun, hlength, hfinal, hrest⟩ := ih hleft hsupply hsame hlater
              refine ⟨page :: pages, final, ?_, ?_, ?_, hserves.cons hrest⟩
              · simp only [Scanner.run, ScanEvent.replies, hlimit, hnext, hrun]
                rfl
              · rw [List.filter_cons_of_pos, List.length_cons, List.length_cons, hlength]
                rw [ScanEvent.isWhole, hlimit]
                rfl
              · rw [reached, hnext]
                exact hfinal

/-- Where no source fails, a scan with a filter on complete rows can be opened, and begins beside
the scan without the filter. -/
theorem open_keepsStep {family : Family} {scan : Scan φ} (hscan : scan.WellFormed)
    (horder : family.order = keys) (hnone : scan.filter = none) (hbatch : scan.batch = none)
    (filter : φ) (hsupply : supply.Real scan.request) (subscription : Nat) :
    ∃ plain judged,
      (Scanner.open family supply subscription scan).value = .ok plain ∧
      (Scanner.open family supply subscription { scan with filter := some filter }).value =
        .ok judged ∧
      KeepsStep filter scan.request (supply.cells scan.request) plain judged := by
  -- the filter plays no part in how a scan without a batch is opened
  have hopens (sought : Scan φ) (hrequest : sought.request = scan.request)
      (hunlimited : sought.batch = none) (hrows : sought.rows = scan.rows) :
      ∃ merge : Merge σ, (Scanner.open family supply subscription sought).value =
          .ok (start (Matcher.ofScan family sought) sought keys merge (some subscription)) ∧
        merge.Offers keys (keys.skipTo (Matcher.ofScan family scan).startKey
          (supply.cells scan.request)) := by
    obtain ⟨placed, hplaced, hoffers⟩ := hsupply.placed
      (@opening_lawful σ φ _ keys _ (Matcher.ofScan family sought))
      (Matcher.ofScan family sought).startKey
    have hvalid : sought.validate = .ok () := by
      unfold Scan.validate
      rw [hunlimited]
    have hkey :
        (Matcher.ofScan family sought).startKey = (Matcher.ofScan family scan).startKey := by
      rw [Matcher.ofScan, hrows]
      rfl
    refine ⟨_, ?_, hkey ▸ hoffers⟩
    simp only [Scanner.open, hvalid, hrequest, Noted.value_bind, askFor_of_isOk hsupply.answers,
      hplaced, horder]
    rfl
  obtain ⟨first, hopen, hfirst⟩ := hopens scan rfl hbatch rfl
  obtain ⟨second, hopenJudged, hsecond⟩ :=
    hopens { scan with filter := some filter } rfl hbatch rfl
  refine ⟨_, _, hopen, hopenJudged, ⟨⟨Matcher.ofScan_judging family scan filter,
    ⟨hnone, horder, hscan.columns_ascending⟩, rfl, rfl, hbatch, hbatch⟩,
    .reading _ rfl hfirst hsecond fun cell hcell => ?_⟩⟩
  obtain ⟨hmem, hge⟩ := (mem_skipTo (supply.cells_sorted _)).mp hcell
  refine Bool.eq_false_iff.mpr fun hbefore => hge ?_
  rw [Cell.compare_keys]
  exact (Cell.lt_firstOnColumn_iff (hsupply.isReal cell hmem).1 _ _ _).mpr
    (.inl (RowRange.startsAfter_iff.mp hbefore))

/-- Whether each change in a course of events leaves the cells of a request as they are. -/
def LeavesCells (supply : Supply σ) (request : SourceRequest)
    (events : List (ScanEvent (Supply σ))) : Prop :=
  ∀ next, .change next ∈ events →
    next.Real request ∧ next.cells request = supply.cells request

/-- Whether a scanner hands out those of these cells that are in rows which are not dropped. Over
any course of events that leaves the cells as they are, a read with a limit is refused and leaves
the scanner as it is. A read without a limit hands out one of the rows whole, or nothing. What such
reads hand out is a prefix of the cells, and all of them once a read has said that there is no more,
as one of enough reads does. -/
structure KeepsRows (filter : φ) (drops : List Cell → Bool) (request : SourceRequest)
    (supply : Supply σ) (total : List Cell) (scanner : Scanner σ φ) : Prop where
  refuses events : LeavesCells supply request events → ∀ limit count,
    limit.cells none = some count → ∀ provider,
      ((scanner.reached events supply).next provider limit).value =
        (.error (.incompatibleFilter count (CellFilter.describe filter)),
          scanner.reached events supply)
  hands : ∃ enough, ∀ events, LeavesCells supply request events → ∃ pages,
    scanner.run events supply = ScanEvent.replies filter events pages ∧
    pages.length = (events.filter (·.isWhole)).length ∧
    (∀ page ∈ pages, page.cells = [] ∨ ∃ cell ∈ total,
      drops (Cell.inRow cell.row total) = false ∧ page.cells = Cell.inRow cell.row total) ∧
    (∃ later, Cell.keptRows drops total = pages.flatMap (·.cells) ++ later ∧
      ((∃ page ∈ pages, page.more = false) → later = [])) ∧
    (enough ≤ pages.length → ∃ page ∈ pages, page.more = false)

/-- A scanner with a filter on complete rows keeps rows of the cells that one without the filter
hands out. -/
theorem KeepsStep.keepsRows (hjudges : CellFilter.JudgesRows drops filter)
    (hstep : KeepsStep filter request (supply.cells request) plain judged)
    (hsupply : supply.Real request) {total : List Cell}
    (htotal : plain.ReadsTo True supply total) :
    judged.KeepsRows filter drops request supply total := by
  have hsorted := supply.cells_sorted request
  have hreal := hsupply.isReal
  obtain ⟨rows, hrows, rfl⟩ := htotal.exists_rows
  have hapart := (hstep.rowsApart hjudges hsorted hreal hsupply rfl hrows).1
  have hbeside : ReadsBeside filter request (supply.cells request) supply rows judged :=
    ⟨plain, hstep, hrows⟩
  refine ⟨fun events hevents limit count hlimit provider => ?_,
    rows.length, fun events hevents => ?_⟩
  · obtain ⟨pages, left, -, -, hleft, -⟩ := hbeside.run hjudges hsorted hreal hsupply rfl hevents
    exact hleft.refused hjudges hlimit provider
  · obtain ⟨pages, left, hrun, hlength, -, hserves⟩ :=
      hbeside.run hjudges hsorted hreal hsupply rfl hevents
    refine ⟨pages, hrun, hlength, fun page hpage => ?_, ⟨_, ?_, hserves.last⟩, hserves.ends⟩
    · rcases hserves.whole page hpage with hnothing | ⟨hmem, hkept⟩
      · exact .inl hnothing
      · cases hcells : page.cells with
        | nil => exact .inl rfl
        | cons cell rest =>
            have hcell : cell ∈ page.cells := hcells ▸ List.mem_cons_self
            have hrow := hapart.inRow_eq hmem hcell
            refine .inr ⟨cell, List.mem_flatten.mpr ⟨_, hmem, hcell⟩, ?_⟩
            rw [hrow]
            exact ⟨hkept, hcells.symm⟩
    · rw [hapart.keptRows_eq, hserves.kept]

/-- A scan that keeps rows for the newest value of one of their columns, and reads no batches, hands
out complete rows of what the scan without the filter hands out: each row whose first cell of the
column has the value, and, unless the filter drops them, each row that has no such cell. Dropped
rows end nothing before its time, at the end of the scan or before, and changes of the sources that
leave the cells as they are make no difference. The sources may hold cells of several families; if
all cells are of the family of the scan, the scan without the filter can be read. -/
theorem open_columnValue {family : Family} {scan : Scan AnyFilter} (hscan : scan.WellFormed)
    (horder : family.order = keys) (hnone : scan.filter = none) (hbatch : scan.batch = none)
    (filter : ColumnValue) (hsupply : supply.Real scan.request) (subscription : Nat) :
    ∃ plain judged : Scanner σ AnyFilter,
      (Scanner.open family supply subscription scan).value = .ok plain ∧
      (Scanner.open family supply subscription
        { scan with filter := some (.columnValue filter) }).value = .ok judged ∧
      (supply.Sound family.name scan.request → ∃ total, plain.ReadsTo True supply total) ∧
      ∀ total, plain.ReadsTo True supply total →
        judged.KeepsRows (.columnValue filter) filter.drops scan.request supply total := by
  obtain ⟨plain, judged, hopen, hopenJudged, hstep⟩ :=
    open_keepsStep hscan horder hnone hbatch (.columnValue filter) hsupply subscription
  refine ⟨plain, judged, hopen, hopenJudged, fun hsound => ?_,
    fun total htotal => hstep.keepsRows filter.judgesRows hsupply htotal⟩
  have hsteady : ∀ state ∈ scan.filter, CellFilter.Steady state := by simp [hnone]
  obtain ⟨-, howes⟩ := open_owes hscan horder hsteady hsound.orderly hopen
  have hunbatched : plain.batch ≠ some 0 := by simp [hstep.batches.1]
  have hreads : plain.ReadsTo _ supply _ := howes.readsTo hsteady hunbatched
  exact ⟨_, hreads.of_sure hsound True⟩

/-- A row is dropped in the middle for its value, and another one at the end for having none. -/
theorem open_columnValue_of_script :
    let family : Family := { name := [102], maxVersions := 1, clock := .manual .oldest }
    let scan : Scan AnyFilter := {}
    let filter : ColumnValue :=
      { family := [102], qualifier := [99], expected := [1], dropMissing := true }
    let first := Cell.put [114] [102] [99] ⟨1⟩ [1]
    let second := Cell.put [115] [102] [99] ⟨1⟩ [2]
    let third := Cell.put [116] [102] [99] ⟨1⟩ [1]
    let fourth := Cell.put [117] [102] [97] ⟨1⟩ [1]
    let script : SourceScript := { sequenceId := 1, cells := [first, second, third, fourth] }
    let supply : Supply ScriptedSource := fun _ => .ok [script.open .keys 0]
    (filter.drops [first] = false ∧ filter.drops [second] = true ∧ filter.drops [fourth] = true) ∧
    ∃ plain judged : Scanner ScriptedSource AnyFilter, ∃ total,
      (Scanner.open family supply 0 scan).value = .ok plain ∧
      (Scanner.open family supply 0 { scan with filter := some (.columnValue filter) }).value =
        .ok judged ∧
      plain.ReadsTo True supply total ∧
      judged.KeepsRows (.columnValue filter) filter.drops scan.request supply total := by
  intro family scan filter first second third fourth script supply
  have hsupply : supply.Sound family.name scan.request :=
    script.sound ⟨rfl, rfl⟩ (by decide) (by decide) _
  obtain ⟨plain, judged, hopen, hopenJudged, htotal, hkeeps⟩ :=
    @open_columnValue _ _ _ supply family scan ⟨List.Pairwise.nil, by decide⟩ rfl rfl rfl filter
      hsupply.real 0
  obtain ⟨total, htotal⟩ := htotal hsupply
  exact ⟨by decide, plain, judged, total, hopen, hopenJudged, htotal, hkeeps total htotal⟩

end

end Scanner

end MergeScan
