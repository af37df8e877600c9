import MergeScan.Proofs.Cell.Alike
import MergeScan.Proofs.Scan.WellFormed
import MergeScan.Proofs.Scanner.Reading

/-! # Runs of a scanner

An open scanner is read, and now and then told that its sources have changed. Over any
such course of events its answers are those of a reading of the lists that the
providers make up, so what is proved of readings holds of scanners.
-/

namespace MergeScan

open CellOrder

/-- What happens to a scan under way: it is read, or the data under it change. -/
inductive ScanEvent (α : Type)
  | read (limit : ReadLimit)
  | change (data : α)

/-- The number of cells that a read may hand out, where the scan has a limit of its own. -/
def ReadLimit.cells (batch : Option Nat) : ReadLimit → Option Nat
  | .ofScan => batch
  | .own limit => limit.filter (0 < ·)

/-- The same events over the lists that providers make up. -/
def ScanEvent.onCells {σ : Type} [Source σ] (request : SourceRequest) :
    ScanEvent (Supply σ) → ScanEvent (List Cell)
  | .read limit => .read limit
  | .change supply => .change (supply.cells request)

/-- What holds of the lists that all new providers make up holds of all new lists. -/
theorem ScanEvent.forall_onCells {σ : Type} [Source σ] {request : SourceRequest}
    {events : List (ScanEvent (Supply σ))} {holds : List Cell → Prop}
    (hevents : ∀ other, .change other ∈ events → holds (other.cells request)) :
    ∀ other, .change other ∈ events.map (onCells request) → holds other := by
  intro other hother
  obtain ⟨event, hevent, heq⟩ := List.mem_map.mp hother
  cases event with
  | read limit => cases heq
  | change next =>
      cases heq
      exact hevents next hevent

/-- Whether an event is a read. -/
def ScanEvent.isRead {α : Type} : ScanEvent α → Bool
  | .read _ => true
  | .change _ => false

/-- The pages of a reading over the course of events. -/
def Reading.run {φ : Type} [CellFilter φ] (batch : Option Nat) :
    List (ScanEvent (List Cell)) → List Cell → Reading φ → List Page
  | [], _, _ => []
  | .read limit :: rest, data, reading =>
    let outcome := reading.read data (limit.cells batch)
    outcome.1 :: Reading.run batch rest data outcome.2
  | .change data :: rest, _, reading => Reading.run batch rest data reading.change

/-- A scan without a filter, of a family with the usual order. -/
structure Scan.Unfiltered {φ : Type} (family : Family) (scan : Scan φ) : Prop where
  wellFormed : scan.WellFormed
  familyWellFormed : family.WellFormed
  order : family.order = .keys
  filter : scan.filter = none

/-- A scan without a filter that hands out values only, of a family with the usual order. -/
structure Scan.Plain {φ : Type} (family : Family) (scan : Scan φ) : Prop where
  wellFormed : scan.WellFormed
  familyWellFormed : family.WellFormed
  order : family.order = .keys
  filter : scan.filter = none
  retainDeletes : scan.retainDeletes = false

/-- The reading of a list as a scan begins with it. -/
def Reading.start {φ : Type} (family : Family) (scan : Scan φ) (data : List Cell) : Reading φ :=
  ⟨Matcher.ofScan family scan, .before (keys.skipTo (Matcher.ofScan family scan).startKey data)⟩

namespace Scan

variable {φ : Type} {family : Family} {scan : Scan φ} {data : List Cell}

theorem WellFormed.columns_ascending (hscan : scan.WellFormed) :
    (Matcher.ofScan family scan).columns.Ascending := by
  intro wanted ahead hchoice
  simp only [Matcher.ofScan, ColumnProgress.start] at hchoice
  split at hchoice
  · cases hchoice
  · cases hchoice
    exact ⟨hscan.columns, List.suffix_refl _⟩

/-- Before its first key a scan has the cells of earlier rows. -/
theorem lt_startKey_iff {cell : Cell} (hcell : cell.IsReal ∧ cell.family = family.name) :
    Cell.compareKeys cell (Matcher.ofScan family scan).startKey = .lt ↔
      scan.rows.startsAfter cell.row = true := by
  have hnot : ¬cell.qualifier < [] := Std.not_lt.mpr (List.nil_le _)
  have hkey : (Matcher.ofScan family scan).startKey =
      Cell.firstOnColumn scan.rows.start family.name [] := rfl
  rw [RowRange.startsAfter_iff, hkey, Cell.lt_firstOnColumn_iff hcell.1.1]
  simp [hcell.2, Std.lt_irrefl, hnot]

/-- Without a filter, no batch is refused. -/
theorem validate_unfiltered [CellFilter φ] (hfilter : scan.filter = none) :
    scan.validate = .ok () := by
  unfold validate
  rw [hfilter]
  cases scan.batch <;> rfl

theorem Unfiltered.matcher (hscan : scan.Unfiltered family) :
    (Matcher.ofScan family scan).Plain where
  filter := hscan.filter
  order := hscan.order
  columns := hscan.wellFormed.columns_ascending

theorem Unfiltered.prepared (hscan : scan.Unfiltered family) (hsorted : keys.Sorted data)
    (hstored : Cell.StoredIn family.name data) :
    (Matcher.ofScan family scan).Prepared family.name data where
  plain := hscan.matcher
  sorted := hsorted
  stored := hstored
  behind _ _ _ hrow := nomatch hrow
  fits _ _ hrow := nomatch hrow

theorem Unfiltered.prepared_start (hscan : scan.Unfiltered family) (hsorted : keys.Sorted data)
    (hstored : Cell.StoredIn family.name data) :
    (Reading.start family scan data).Prepared family.name :=
  hscan.prepared (hsorted.skipTo _) fun cell hcell =>
    hstored cell ((skipTo_sublist _ _).subset hcell)

theorem Plain.unfiltered (hplain : scan.Plain family) : scan.Unfiltered family :=
  ⟨hplain.wellFormed, hplain.familyWellFormed, hplain.order, hplain.filter⟩

theorem Plain.prepared (hplain : scan.Plain family) (hsorted : keys.Sorted data)
    (hstored : Cell.StoredIn family.name data) :
    (Reading.start family scan data).Prepared family.name :=
  hplain.unfiltered.prepared_start hsorted hstored

end Scan

namespace Scanner

variable {σ φ : Type} [Source σ] [CellFilter φ]

omit [Source σ] [CellFilter φ] in
theorem limitOf_eq (scanner : Scanner σ φ) (limit : ReadLimit) :
    scanner.limitOf limit = limit.cells scanner.batch := by
  cases limit <;> rfl

/-- The answers of a scanner over the course of events. -/
def run : List (ScanEvent (Supply σ)) → Supply σ → Scanner σ φ → List (Except ScanError Page)
  | [], _, _ => []
  | .read limit :: rest, supply, scanner =>
    let outcome := (scanner.next (some supply) limit).value
    outcome.1 :: run rest supply outcome.2
  | .change supply :: rest, _, scanner => run rest supply scanner.sourcesChanged.value

/-- The first of several reads that do not fail. -/
theorem run_cons_eq {scanner : Scanner σ φ} {supply : Supply σ} {limit : ReadLimit}
    {pages : List Page} {rest : List (ScanEvent (Supply σ))}
    (hrun : scanner.run (.read limit :: rest) supply = pages.map .ok) :
    ∃ page later, pages = page :: later ∧
      (scanner.next (some supply) limit).value.1 = .ok page ∧
      (scanner.next (some supply) limit).value.2.run rest supply = later.map .ok := by
  cases pages with
  | nil => cases hrun
  | cons page later =>
      obtain ⟨hpage, hlater⟩ := List.cons.inj hrun
      exact ⟨page, later, rfl, hpage, hlater⟩

/-- A scan that was opened reads from a merge of the sources of its provider, placed on its first
key. -/
theorem exists_placed_of_open {family : Family} {scan : Scan φ} {supply : Supply σ}
    {subscription : Nat} {scanner : Scanner σ φ}
    (hopen : (Scanner.open family supply subscription scan).value = .ok scanner) :
    ∃ placed, (placeAll (opening (Matcher.ofScan family scan)) (Matcher.ofScan family scan).startKey
        (supply.sources scan.request)).value = .ok placed ∧
      scanner = start (Matcher.ofScan family scan) scan family.order
        (Merge.ofSources family.order placed).value (some subscription) := by
  unfold Scanner.open at hopen
  cases hvalidate : scan.validate with
  | error failure =>
      rw [hvalidate] at hopen
      cases hopen
  | ok =>
      simp only [hvalidate, Noted.value_bind, askFor] at hopen
      cases hsupply : supply scan.request with
      | error failure =>
          rw [hsupply] at hopen
          cases hopen
      | ok sources =>
          have hsources : supply.sources scan.request = sources := by rw [Supply.sources, hsupply]
          rw [hsources]
          simp only [hsupply, Noted.value_bind, Noted.value_pure] at hopen
          cases hplace : (placeAll (opening (Matcher.ofScan family scan))
              (Matcher.ofScan family scan).startKey sources).value with
          | error failure =>
              rw [hplace] at hopen
              cases hopen
          | ok placed =>
              simp only [hplace, Noted.value_bind, Noted.value_pure] at hopen
              exact ⟨placed, rfl, (Except.ok.inj hopen).symm⟩

omit [CellFilter φ] in
/-- However the sources of a scan are positioned first, that is what happens to them. -/
theorem opening_lawful {order : CellOrder} [LawfulSource σ order] (matcher : Matcher φ) :
    (opening matcher : Positioning σ).Lawful order := by
  unfold opening
  split
  · exact Positioning.exactly_lawful
  · exact Positioning.seek_lawful

variable [LawfulSource σ keys] {scanner : Scanner σ φ} {reading : Reading φ} {family : Bytes}

/-- Over any course of events no read fails, and the pages are those of a reading. -/
theorem Stands.run {events : List (ScanEvent (Supply σ))} {supply : Supply σ}
    (hstands : Stands scanner reading) (hprepared : reading.Prepared family)
    (hsupply : supply.Sound family scanner.request)
    (hevents : ∀ other, .change other ∈ events → other.Sound family scanner.request) :
    scanner.run events supply =
      (reading.run scanner.batch (events.map (.onCells scanner.request))
        (supply.cells scanner.request)).map .ok := by
  induction events generalizing scanner reading supply with
  | nil => rfl
  | cons event rest ih =>
      have hrest : ∀ other, .change other ∈ rest → other.Sound family scanner.request :=
        fun other hother => hevents other (List.mem_cons_of_mem _ hother)
      cases event with
      | read limit =>
          obtain ⟨hpage, hnext, hrequest, -, hbatch⟩ := next_answers hstands hprepared hsupply limit
          rw [limitOf_eq] at hpage hnext
          have hprepared := @Reading.Prepared.read _ _ _ _ (limit.cells scanner.batch) _ hprepared
            (supply.cells_sorted scanner.request) hsupply.stored
          have hih := ih hnext hprepared (hrequest ▸ hsupply) (hrequest ▸ hrest)
          rw [hrequest, hbatch] at hih
          simp only [Scanner.run, List.map_cons, ScanEvent.onCells, Reading.run, hpage, hih]
      | change other =>
          obtain ⟨hnext, hrequest, -, hbatch⟩ := sourcesChanged_stands hstands
          have hother := hevents other List.mem_cons_self
          have hih := ih hnext hprepared.change (hrequest ▸ hother) (hrequest ▸ hrest)
          rw [hrequest, hbatch] at hih
          simp only [Scanner.run, List.map_cons, ScanEvent.onCells, Reading.run, hih]

/-- A scan can be opened, and then reads the list of its provider. -/
theorem open_stands {family : Family} {scan : Scan φ} (hscan : scan.Unfiltered family)
    {supply : Supply σ} (hsupply : supply.Sound family.name scan.request) (subscription : Nat) :
    ∃ scanner, (Scanner.open family supply subscription scan).value = .ok scanner ∧
      Stands scanner (Reading.start family scan (supply.cells scan.request)) ∧
      scanner.request = scan.request ∧ scanner.batch = scan.batch := by
  have hvalidate := Scan.validate_unfiltered hscan.filter
  obtain ⟨placed, hplaced, hsound, hreliable, hstream⟩ :=
    hsupply.placed (opening_lawful (Matcher.ofScan family scan))
      (Matcher.ofScan family scan).startKey
  refine ⟨start (Matcher.ofScan family scan) scan keys (Merge.ofSources keys placed).value
    (some subscription), ?_, ⟨rfl, rfl, _, rfl, hsound, hreliable, hstream⟩, rfl, rfl⟩
  simp only [Scanner.open, hvalidate, Noted.value_bind, hsupply.askFor, hplaced, hscan.order]
  rfl

/-- A scan can be opened, and over any course of events its pages are those of a reading. -/
theorem open_run {family : Family} {scan : Scan φ} (hplain : scan.Plain family)
    {supply : Supply σ} (hsupply : supply.Sound family.name scan.request) (subscription : Nat) :
    ∃ scanner, (Scanner.open family supply subscription scan).value = .ok scanner ∧
      ∀ events : List (ScanEvent (Supply σ)),
        (∀ other, .change other ∈ events → other.Sound family.name scan.request) →
        scanner.run events supply =
          ((Reading.start family scan (supply.cells scan.request)).run scan.batch
            (events.map (.onCells scan.request)) (supply.cells scan.request)).map .ok := by
  obtain ⟨scanner, hopen, hstands, hrequest, hbatch⟩ :=
    open_stands hplain.unfiltered hsupply subscription
  refine ⟨scanner, hopen, fun events hevents => ?_⟩
  rw [← hrequest] at hsupply hevents
  have hprepared := hplain.prepared (supply.cells_sorted scan.request) (hrequest ▸ hsupply.stored)
  rw [hstands.run hprepared hsupply hevents, hrequest, hbatch]

end Scanner

end MergeScan
