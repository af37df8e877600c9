import MergeScan.Proofs.Scanner.Batches
import MergeScan.Proofs.Scanner.Scanning

/-! # Reading a row anew

A read enters the row of the first cell, unless it is in that row already. What it has read
before of other rows is gone then: a scanner that was positioned on a row which it was not in
hands out what one does that was just opened on the cells.
-/

namespace MergeScan

open CellOrder

/-- A scan without a filter has none that could change its mind. -/
theorem Scan.Unfiltered.steady {φ : Type} [CellFilter φ] {family : Family} {scan : Scan φ}
    (hscan : scan.Unfiltered family) : ∀ state ∈ scan.filter, CellFilter.Steady state := by
  intro state hstate
  rw [hscan.filter] at hstate
  cases hstate

namespace Scanner

variable {σ φ : Type} [Source σ] [LawfulSource σ keys] [CellFilter φ]
variable {family : Family} {scan : Scan φ} {sure : Prop} {filter : Option φ} {stock : List Part}
variable {scanner : Scanner σ φ} {supply : Supply σ} {merge : Merge σ} {first : Cell}
variable {supplied total left ahead : List Cell} {reads : Nat}

/-- Whether reading a scanner to its end hands out these cells. What reads that do not fail hand
out is a prefix of them, and all of them once a read has said that there is no more, as one of
enough reads does. If `sure` holds, no read fails. -/
structure ReadsTo (sure : Prop) (supply : Supply σ) (total : List Cell) (scanner : Scanner σ φ) :
    Prop where
  succeeds : sure → ∀ limits : List ReadLimit,
    ∃ pages : List Page, scanner.run (limits.map .read) supply = pages.map .ok
  hands : ∃ enough : Nat, ∀ (limits : List ReadLimit) (pages : List Page),
    scanner.run (limits.map .read) supply = pages.map .ok →
      (∃ later, total = pages.flatMap (·.cells) ++ later ∧
        ((∃ page ∈ pages, page.more = false) → later = [])) ∧
      (enough ≤ limits.length → ∃ page ∈ pages, page.more = false)

/-- Only a scan that asks for no cells at a time reads none. -/
theorem cells_ne_zero {batch : Option Nat} (hbatch : batch ≠ some 0) (limit : ReadLimit) :
    limit.cells batch ≠ some 0 := by
  cases limit with
  | ofScan => exact hbatch
  | own limit =>
      intro hzero
      have hpos := (Option.filter_eq_some_iff.mp hzero).2
      exact absurd hpos (by decide)

/-- A scanner hands out what it owes. -/
theorem Owes.readsTo {name : Bytes} (howes : Owes sure name filter supplied scanner left reads)
    (hsteady : ∀ state ∈ filter, CellFilter.Steady state) (hbatch : scanner.batch ≠ some 0) :
    scanner.ReadsTo sure supply left where
  succeeds hsure limits :=
    howes.run_succeeds hsteady hsure fun limit _ => cells_ne_zero hbatch limit
  hands := by
    refine ⟨reads, fun limits pages hrun => ?_⟩
    have hpaid := howes.run hsteady (fun limit _ => cells_ne_zero hbatch limit) hrun
    exact ⟨hpaid.paid, hpaid.ends⟩

omit [LawfulSource σ keys] in
theorem ReadsTo.of_sure (hscanner : scanner.ReadsTo sure supply total) (hsure : sure)
    (certain : Prop) : scanner.ReadsTo certain supply total :=
  ⟨fun _ => hscanner.succeeds hsure, hscanner.hands⟩

omit [LawfulSource σ keys] in
theorem ReadsTo.of_run_eq {other : Scanner σ φ} (hother : other.ReadsTo sure supply total)
    (hrun : ∀ limits : List ReadLimit,
      scanner.run (limits.map .read) supply = other.run (limits.map .read) supply) :
    scanner.ReadsTo sure supply total where
  succeeds hsure limits := by
    rw [hrun]
    exact hother.succeeds hsure limits
  hands := by
    obtain ⟨enough, hhands⟩ := hother.hands
    refine ⟨enough, fun limits pages hpages => hhands limits pages ?_⟩
    rw [← hrun]
    exact hpages

/-! ## A row that was not read -/

section

variable (hactive : scanner.phase = .active merge) (hpeek : merge.peek = some first)
variable (hfilter : scanner.matcher.filter = none)
include hactive hpeek hfilter

omit [LawfulSource σ keys] in
theorem next_eq_read (provider : Option (Supply σ)) (limit : ReadLimit) :
    (scanner.next provider limit).value =
      (concluding (scanner.read merge first (limit.cells scanner.batch)).value).value := by
  have hrefuses (count : Option Nat) : scanner.matcher.refuses count = none := by
    unfold Matcher.refuses
    rw [hfilter]
    cases count <;> rfl
  simp only [Scanner.next, hrefuses, limitOf_eq, Scanner.fill, resync, hactive, hpeek,
    Noted.value_bind, Noted.value_pure]

omit [LawfulSource σ keys] in
/-- All that a read knows of what was read before is what the matcher does in the row that the
read begins in. -/
theorem next_congr {matcher : Matcher φ} (hnone : matcher.filter = none)
    (hrow : matcher.inRow first.row = scanner.matcher.inRow first.row)
    (provider : Option (Supply σ)) (limit : ReadLimit) :
    (scanner.next provider limit).value =
      (Scanner.next { scanner with matcher } provider limit).value := by
  let other : Scanner σ φ := { scanner with matcher }
  have hother : other.matcher.filter = none := hnone
  have hentered : { other with matcher := other.matcher.inRow first.row } =
      { scanner with matcher := scanner.matcher.inRow first.row } := by
    rw [← hrow]
  have hread (count : Option Nat) :
      (scanner.read merge first count).value = (other.read merge first count).value := by
    simp only [Scanner.read, Noted.value_bind, enterRow_eq hfilter, enterRow_eq hother, hentered]
  have hnext : (other.next provider limit).value =
      (concluding (other.read merge first (limit.cells scanner.batch)).value).value :=
    @next_eq_read _ _ _ _ other _ _ hactive hpeek hother provider limit
  rw [next_eq_read hactive hpeek hfilter, hnext, hread]

omit [LawfulSource σ keys] in
theorem run_congr {matcher : Matcher φ} (hnone : matcher.filter = none)
    (hrow : matcher.inRow first.row = scanner.matcher.inRow first.row) (limits : List ReadLimit) :
    scanner.run (limits.map .read) supply =
      Scanner.run (limits.map .read) supply { scanner with matcher } := by
  cases limits with
  | nil => rfl
  | cons limit limits =>
      simp only [List.map_cons, Scanner.run, next_congr hactive hpeek hfilter hnone hrow]

end

/-- Whether nothing of a row has been read: the scanner is in another row, or has entered this one
only. -/
def IsNewIn (family : Family) (scan : Scan φ) (row : Bytes) (scanner : Scanner σ φ) : Prop :=
  scanner.matcher.row ≠ some row ∨ scanner.matcher = (Matcher.ofScan family scan).inRow row

omit [LawfulSource σ keys] [CellFilter φ] [Source σ] in
theorem IsNewIn.inRow_eq {row : Bytes} (hnew : scanner.IsNewIn family scan row)
    (hmatcher : scanner.matcher.Of (.ofScan family scan)) (hscan : scan.WellFormed) :
    (Matcher.ofScan family scan).inRow row = scanner.matcher.inRow row := by
  have hbegun : (Matcher.ofScan family scan).inRow row =
      { Matcher.ofScan family scan with row := some row } :=
    (if_neg nofun).trans ((Matcher.of_ofScan hscan).entered_eq row)
  rcases hnew with hrow | hentered
  · rw [hbegun, Matcher.inRow, if_neg hrow, hmatcher.entered_eq]
  · rw [hentered, hbegun]
    exact (if_pos rfl).symm

omit [LawfulSource σ keys] [CellFilter φ] [Source σ] in
/-- To enter a row reads nothing of it, nor of any other row. -/
theorem IsNewIn.of_inRow {row entered : Bytes} (hnew : scanner.IsNewIn family scan row)
    (hmatcher : scanner.matcher.Of (.ofScan family scan)) (hscan : scan.WellFormed)
    {reached : Scanner σ φ} (hentered : reached.matcher = scanner.matcher.inRow entered) :
    reached.IsNewIn family scan row := by
  rw [IsNewIn, hentered]
  by_cases hsame : entered = row
  · exact .inr (hsame ▸ (hnew.inRow_eq hmatcher hscan).symm)
  · refine .inl fun hrow => hsame (Option.some.inj ?_)
    rw [← hrow, Matcher.row_inRow]

/-- A scan without a filter owes what its first matcher gathers of the cells ahead, whatever was
read before, unless it was of the row that they begin with. -/
theorem Draws.readsTo (hscanner : scanner.Draws family scan sure stock)
    (hscan : scan.Unfiltered family) (hbatch : scan.batch ≠ some 0)
    (hactive : scanner.phase = .active merge) (hstream : merge.stream = ahead)
    (hprimed : (Matcher.ofScan family scan).Primed family.name ahead)
    (hnew : ∀ first ∈ ahead.head?, scanner.IsNewIn family scan first.row) :
    scanner.ReadsTo sure supply ((Matcher.ofScan family scan).gather ahead) := by
  have hmerge := hscanner.merge merge hactive
  have hholds (matcher : Matcher φ) : ReadState.Holds sure ⟨merge, matcher⟩ matcher ahead :=
    ⟨rfl, hmerge.carries.sound, hstream, hmerge.reliable⟩
  have hnone : scanner.matcher.filter = none := hscanner.filter.trans hscan.filter
  have hsteady := hscan.steady
  cases ahead with
  | nil =>
      -- no row is entered any more, and whatever the matcher knows is of no use
      have horder : scanner.matcher.order = keys :=
        (congrArg Matcher.order hscanner.matcher.restarted).trans hscan.order
      have hplain : scanner.matcher.bare.Plain := ⟨rfl, horder, hscanner.matcher.columns⟩
      have howes : Owes sure family.name scan.filter [] scanner (scanner.matcher.gather []) 1 := by
        refine .active hactive (hholds _) ⟨hplain.prepared_nil, nofun, ?_⟩ ?_ (List.nil_subset _)
        · rw [hscanner.filter]
          exact hsteady
        · rw [hscanner.filter]
          exact .refl _
      rw [Matcher.gather_nil] at howes ⊢
      exact howes.readsTo hsteady (hscanner.batch ▸ hbatch)
  | cons first rest =>
      have hpeek : merge.peek = some first := (hholds scanner.matcher).peek_eq
      -- the matcher itself is not fit for what is ahead, which may lie behind its row; but all that
      -- is ever asked of it is to enter the row of the first cell, as one that begins would
      have howes : Owes sure family.name scan.filter (first :: rest)
          { scanner with matcher := Matcher.ofScan family scan }
          ((Matcher.ofScan family scan).gather (first :: rest)) ((first :: rest).length + 1) :=
        .active hactive (hholds _) hprimed (.refl _) (List.Subset.refl _)
      refine (howes.readsTo hsteady (hscanner.batch ▸ hbatch)).of_run_eq fun limits => ?_
      exact run_congr hactive hpeek hnone hscan.filter
        ((hnew first rfl).inRow_eq hscanner.matcher hscan.wellFormed) limits

end Scanner

/-! ## Scans -/

namespace Scan

variable {σ φ : Type} [Source σ] [LawfulSource σ keys] [CellFilter φ]
variable {family : Family} {scan : Scan φ} {supply : Supply σ}

/-- Whether a scan of a provider hands out these cells. Where no source fails, the scan can be
opened and read to its end. -/
structure Yields (family : Family) (supply : Supply σ) (scan : Scan φ) (total : List Cell) :
    Prop where
  opens : supply.Sound family.name scan.request → ∀ subscription, ∃ scanner,
    (Scanner.open family supply subscription scan).value = .ok scanner
  reads subscription scanner :
    (Scanner.open family supply subscription scan).value = .ok scanner →
      scanner.ReadsTo (supply.Sound family.name scan.request) supply total

/-- A scan hands out what it gathers from its first key on. -/
theorem WellFormed.yields_gather (hscan : scan.WellFormed) (horder : family.order = keys)
    (hsteady : ∀ state ∈ scan.filter, CellFilter.Steady state) (hbatch : scan.batch ≠ some 0)
    (hsupply : supply.Orderly family.name scan.request) :
    scan.Yields family supply ((Matcher.ofScan family scan).gather
      (keys.skipTo (Matcher.ofScan family scan).startKey (supply.cells scan.request))) where
  opens hsure subscription := Scanner.open_succeeds hsteady hsure subscription
  reads subscription scanner hopen := by
    obtain ⟨hunbatched, howes⟩ := Scanner.open_owes hscan horder hsteady hsupply hopen
    exact howes.readsTo hsteady (hunbatched ▸ hbatch)

end Scan

end MergeScan
