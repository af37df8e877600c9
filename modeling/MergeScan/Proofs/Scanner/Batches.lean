import MergeScan.Proofs.Scanner.Gathered
import MergeScan.Proofs.Scanner.Runs
import MergeScan.Proofs.Source.Scripted

/-! # Reading in batches

Whatever limits a scan is read with, the cells that it hands out are the same ones, one
after the other. Each read hands out cells of one row, and not more than wanted.
-/

namespace MergeScan

open CellOrder

/-- Whether a page is a piece of one row: its cells are ones of the row, as they are or as the
filter makes them, and there are not more of them than wanted. -/
structure Page.IsPiece {φ : Type} [CellFilter φ] (filter : Option φ) (cells : List Cell)
    (limit : Option Nat) (page : Page) : Prop where
  atMost count : limit = some count → page.cells.length ≤ count
  ofRow : ∃ row, ∀ shaped ∈ page.cells,
    ∃ cell ∈ cells, cell.row = row ∧ CellFilter.Shapes filter cell shaped

variable {σ φ : Type} [Source σ] [LawfulSource σ keys] [CellFilter φ]

namespace Matcher

variable {matcher : Matcher φ}

omit [LawfulSource σ keys] [Source σ] in
/-- A filter that does not decide on complete rows takes any limit. -/
theorem refuses_steady (hsteady : ∀ state ∈ matcher.filter, CellFilter.Steady state)
    (limit : Option Nat) : matcher.refuses limit = none := by
  unfold refuses
  split
  next limit filter hfilter =>
    rw [(hsteady filter hfilter).byCell filter .start]
    rfl
  next => rfl

omit [LawfulSource σ keys] [Source σ] in
/-- A filter that does not decide on complete rows leaves them as they are. -/
theorem completeRow_steady (hsteady : ∀ state ∈ matcher.filter, CellFilter.Steady state)
    (cells : List Cell) : matcher.completeRow cells = pure (cells, matcher) := by
  unfold completeRow
  split
  next filter hfilter =>
    rw [(hsteady filter hfilter).byCell filter .start]
    rfl
  next => rfl

end Matcher

omit [LawfulSource σ keys] [Source σ] in
theorem Scan.validate_steady {scan : Scan φ}
    (hsteady : ∀ state ∈ scan.filter, CellFilter.Steady state) : scan.validate = .ok () := by
  unfold validate
  split
  next size filter _ hfilter =>
    rw [(hsteady filter hfilter).byCell filter .start]
    rfl
  next => rfl

namespace Scanner

variable {sure : Prop} {family : Bytes} {filter : Option φ} {supplied left : List Cell}
variable {reads : Nat} {scanner : Scanner σ φ} {supply : Supply σ}

/-- What a scanner has still to hand out of a scan that began with a filter over some cells, and
how many reads will end it. -/
inductive Owes (sure : Prop) (family : Bytes) (filter : Option φ) (supplied : List Cell)
    (scanner : Scanner σ φ) : (left : List Cell) → (reads : Nat) → Prop
  | active {merge : Merge σ} {ahead : List Cell} : scanner.phase = .active merge →
      ReadState.Holds sure ⟨merge, scanner.matcher⟩ scanner.matcher ahead →
      scanner.matcher.Primed family ahead →
      CellFilter.ComesTo filter scanner.matcher.filter → ahead ⊆ supplied →
      Owes sure family filter supplied scanner (scanner.matcher.gather ahead) (ahead.length + 1)
  | closed : scanner.phase = .closed → CellFilter.ComesTo filter scanner.matcher.filter →
      Owes sure family filter supplied scanner [] 1

/-- What a read does that does not fail: it hands out a piece of what the scan owes, and ends the
scan or brings it nearer to its end. -/
structure Delivers (sure : Prop) (family : Bytes) (filter : Option φ) (supplied : List Cell)
    (scanner : Scanner σ φ) (limit : Option Nat) (left : List Cell) (reads : Nat) (page : Page)
    (after : Scanner σ φ) : Prop where
  sameScan : SameScan scanner after
  piece : page.IsPiece filter supplied limit
  owes : ∃ later fewer, Owes sure family filter supplied after later fewer ∧
    left = page.cells ++ later ∧ (page.more = false → later = []) ∧
      (page.more = true → fewer < reads)

/-- What comes of a read. It does not fail if `sure` holds. -/
structure Serves (sure : Prop) (family : Bytes) (filter : Option φ) (supplied : List Cell)
    (scanner : Scanner σ φ) (limit : Option Nat) (left : List Cell) (reads : Nat)
    (outcome : Except ScanError Page × Scanner σ φ) : Prop where
  succeeds : sure → outcome.1.isOk = true
  delivers page after : outcome = (.ok page, after) →
    Delivers sure family filter supplied scanner limit left reads page after

section

variable {limit : Option Nat}

theorem Serves.of_delivers {page : Page} {after : Scanner σ φ}
    (hdelivers : Delivers sure family filter supplied scanner limit left reads page after) :
    Serves sure family filter supplied scanner limit left reads (.ok page, after) where
  succeeds _ := rfl
  delivers _ _ houtcome := by
    cases houtcome
    exact hdelivers

theorem Serves.of_error (hfails : ¬sure) {failure : ScanError} {after : Scanner σ φ} :
    Serves sure family filter supplied scanner limit left reads (.error failure, after) where
  succeeds hsure := absurd hsure hfails
  delivers _ _ houtcome := by cases houtcome

end

omit [LawfulSource σ keys] [Source σ] in
theorem enterRow_atRow (scanner : Scanner σ φ) (row : Bytes) :
    (scanner.enterRow row).value = { scanner with matcher := scanner.matcher.atRow row } := by
  unfold enterRow Matcher.atRow
  split
  · rfl
  · rw [Noted.value_bind]
    rfl

/-- The last read of a scan: it hands out what the scan owes. -/
theorem release_delivers {cells : List Cell} {limit : Option Nat} {reached : Scanner σ φ}
    (hsame : SameScan scanner reached)
    (hcomes : CellFilter.ComesTo filter reached.matcher.filter)
    (hpiece : (Page.mk cells false).IsPiece filter supplied limit) :
    Delivers sure family filter supplied scanner limit cells reads ⟨cells, false⟩
      reached.release.value := by
  obtain ⟨⟨hclosed, hmatcher⟩, hreleased⟩ := release_closed reached
  exact ⟨hsame.trans hreleased, hpiece, [], 1, .closed hclosed (hmatcher ▸ hcomes),
    (List.append_nil _).symm, fun _ => rfl, nofun⟩

section

variable {matcher : Matcher φ} {ahead cells later : List Cell} {ending : PassEnd}
variable {next : ReadState σ φ}

/-- What a pass hands out is a piece of the row that is being read. -/
theorem isPiece_of_handed
    (hhanded : ReadState.Handed sure family matcher ahead cells ending next later) {row : Bytes}
    (hrow : matcher.row = some row) (hcomes : CellFilter.ComesTo filter matcher.filter)
    (hsub : ahead ⊆ supplied) {limit : Option Nat}
    (hmost : ∀ count, limit = some count → cells.length ≤ count) (more : Bool) :
    (Page.mk cells more).IsPiece filter supplied limit := by
  refine ⟨hmost, row, fun shaped hshaped => ?_⟩
  obtain ⟨cell, hcell, hcellRow, hshapes⟩ := hhanded.ofRow shaped hshaped
  exact ⟨cell, hsub hcell, Option.some.inj (hcellRow.symm.trans hrow), hcomes.shapes hshapes⟩

/-- A pass that comes to the end of the scan or of the cells hands out all that is left. -/
theorem gather_of_handed
    (hhanded : ReadState.Handed sure family matcher ahead cells ending next later)
    (hending : ending = .scanDone ∨ ending = .exhausted) : matcher.gather ahead = cells := by
  rw [hhanded.gathered]
  split
  next => exact List.append_nil cells
  next hnot =>
    rw [hhanded.exhausted (hending.resolve_left hnot), Matcher.gather_nil, List.append_nil]

end

/-- To read from a merge is to hand out a piece of what its list gives. -/
theorem read_serves {merge : Merge σ} {first : Cell} {rest : List Cell} {limit : Option Nat}
    (hholds : ReadState.Holds sure ⟨merge, scanner.matcher⟩ scanner.matcher (first :: rest))
    (hprimed : scanner.matcher.Primed family (first :: rest))
    (hcomes : CellFilter.ComesTo filter scanner.matcher.filter) (hsub : first :: rest ⊆ supplied)
    (hlimit : limit ≠ some 0) :
    Serves sure family filter supplied scanner limit (scanner.matcher.gather (first :: rest))
      ((first :: rest).length + 1) (scanner.read merge first limit).value := by
  have hentered := Matcher.row_atRow scanner.matcher first.row
  have hbegins : ReadState.Holds sure ⟨merge, scanner.matcher.atRow first.row⟩
      (scanner.matcher.atRow first.row) (first :: rest) :=
    ⟨rfl, hholds.sound, hholds.stream, hholds.reliable⟩
  have hhands := hbegins.pass hprimed.atRow hentered hlimit
  simp only [Scanner.read, Noted.value_bind, enterRow_atRow]
  cases hpass : (ReadState.pass ⟨merge, scanner.matcher.atRow first.row⟩ limit).value with
  | mk result next =>
      rw [hpass] at hhands
      cases result with
      | error failure => exact .of_error fun hsure => Bool.false_ne_true (hhands.succeeds hsure)
      | ok found =>
          obtain ⟨cells, ending⟩ := found
          obtain ⟨later, hhanded, hmost, hless⟩ := hhands.hands cells ending next rfl
          have hfirst := Matcher.atRow_comesTo scanner.matcher first.row
          have hsteady := hhanded.comesTo.steady hprimed.atRow.steady
          have hreached := hcomes.trans (hfirst.trans hhanded.comesTo)
          have hpiece := isPiece_of_handed hhanded hentered (hcomes.trans hfirst) hsub hmost
          have hgathered := hhanded.gathered
          rw [Matcher.gather_atRow] at hgathered
          simp only [Noted.value_bind, Matcher.completeRow_steady hsteady, Noted.value_pure,
            ite_self]
          -- the scan ends only if the piece is all that was left
          split
          next hover =>
            simp only [Bool.or_eq_true, Bool.and_eq_true, decide_eq_true_eq] at hover
            have hall := gather_of_handed hhanded (hover.imp_right And.left)
            rw [Matcher.gather_atRow] at hall
            rw [hall]
            exact .of_delivers (release_delivers ⟨rfl, rfl, rfl⟩ hreached (hpiece false))
          next hmore =>
            have hending : ending ≠ .scanDone := by
              rintro rfl
              simp at hmore
            rw [if_neg hending] at hgathered
            obtain ⟨hnext, hnextPrimed, hsuffix⟩ := hhanded.left hending
            refine .of_delivers ⟨⟨rfl, rfl, rfl⟩, hpiece true, _, _,
              .active rfl hnext hnextPrimed hreached ?_, hgathered, by simp, fun _ => ?_⟩
            · exact fun cell hcell => hsub (hsuffix.subset hcell)
            · have hshorter := (hless first rest rfl hentered hending).length_le
              rw [List.length_cons]
              omega

theorem Owes.comesTo (howes : Owes sure family filter supplied scanner left reads) :
    CellFilter.ComesTo filter scanner.matcher.filter := by
  cases howes with
  | active _ _ _ hcomes _ => exact hcomes
  | closed _ hcomes => exact hcomes

theorem Owes.fill (howes : Owes sure family filter supplied scanner left reads)
    (supply : Option (Supply σ)) {limit : Option Nat} (hlimit : limit ≠ some 0) :
    Serves sure family filter supplied scanner limit left reads
      (scanner.fill supply limit).value := by
  have hnothing : (Page.mk [] false).IsPiece filter supplied limit :=
    ⟨fun _ _ => Nat.zero_le _, [], by simp⟩
  cases howes with
  | closed hclosed hcomes =>
      simp only [Scanner.fill, resync, hclosed, Noted.value_bind, Noted.value_pure]
      exact .of_delivers ⟨⟨rfl, rfl, rfl⟩, hnothing, [], 1, .closed hclosed hcomes, rfl,
        fun _ => rfl, by simp⟩
  | @active merge ahead hactive hholds hprimed hcomes hsub =>
      have hpeek : merge.peek = ahead.head? := hholds.peek_eq
      simp only [Scanner.fill, resync, hactive, hpeek, Noted.value_bind, Noted.value_pure]
      cases ahead with
      | nil =>
          rw [Matcher.gather_nil]
          exact .of_delivers (release_delivers ⟨rfl, rfl, rfl⟩ hcomes hnothing)
      | cons first rest => exact read_serves hholds hprimed hcomes hsub hlimit

/-- A scanner can be read with any limit, and delivers. -/
theorem Owes.next (howes : Owes sure family filter supplied scanner left reads)
    (hsteady : ∀ state ∈ filter, CellFilter.Steady state) (supply : Option (Supply σ))
    {limit : ReadLimit} (hlimit : limit.cells scanner.batch ≠ some 0) :
    Serves sure family filter supplied scanner (limit.cells scanner.batch) left reads
      (scanner.next supply limit).value := by
  have hfill := howes.fill supply hlimit
  rw [Scanner.next, Matcher.refuses_steady (howes.comesTo.steady hsteady), limitOf_eq,
    Noted.value_bind]
  unfold concluding
  split
  next page reached heq =>
    rw [heq] at hfill
    exact hfill
  next failure reached heq =>
    rw [heq] at hfill
    rw [Noted.value_bind]
    exact .of_error fun hsure => Bool.false_ne_true (hfill.succeeds hsure)

theorem Owes.pos (howes : Owes sure family filter supplied scanner left reads) : 0 < reads := by
  cases howes <;> exact Nat.succ_pos _

/-- No read of several fails if `sure` holds. -/
theorem Owes.run_succeeds (howes : Owes sure family filter supplied scanner left reads)
    (hsteady : ∀ state ∈ filter, CellFilter.Steady state) (hsure : sure)
    {limits : List ReadLimit} (hlimits : ∀ limit ∈ limits, limit.cells scanner.batch ≠ some 0) :
    ∃ pages : List Page, scanner.run (limits.map .read) supply = pages.map .ok := by
  induction limits generalizing scanner left reads with
  | nil => exact ⟨[], rfl⟩
  | cons limit limits ih =>
      obtain ⟨hlimit, hlimits⟩ := List.forall_mem_cons.mp hlimits
      have hserves := howes.next hsteady (some supply) hlimit
      cases hnext : (scanner.next (some supply) limit).value with
      | mk result after =>
          rw [hnext] at hserves
          cases result with
          | error failure => exact absurd (hserves.succeeds hsure) Bool.false_ne_true
          | ok page =>
              have hdelivers := hserves.delivers page after rfl
              obtain ⟨later, fewer, hafter, -⟩ := hdelivers.owes
              rw [← hdelivers.sameScan.batch] at hlimits
              obtain ⟨pages, hrun⟩ := ih hafter hlimits
              exact ⟨page :: pages, by simp only [List.map_cons, Scanner.run, hnext, hrun]⟩

/-- A run of reads, by what a scanner owes: a piece of it by each read, and all of it once a read
says that there is no more. -/
structure Paid (filter : Option φ) (supplied : List Cell) (batch : Option Nat) (left : List Cell)
    (reads : Nat) (limits : List ReadLimit) (pages : List Page) : Prop where
  pieces read : read ∈ limits.zip pages → read.2.IsPiece filter supplied (read.1.cells batch)
  paid : ∃ later, left = pages.flatMap (·.cells) ++ later ∧
    ((∃ page ∈ pages, page.more = false) → later = [])
  ends : reads ≤ limits.length → ∃ page ∈ pages, page.more = false

theorem Owes.run (howes : Owes sure family filter supplied scanner left reads)
    (hsteady : ∀ state ∈ filter, CellFilter.Steady state) {limits : List ReadLimit}
    (hlimits : ∀ limit ∈ limits, limit.cells scanner.batch ≠ some 0) {pages : List Page}
    (hrun : scanner.run (limits.map .read) supply = pages.map .ok) :
    Paid filter supplied scanner.batch left reads limits pages := by
  induction limits generalizing scanner left reads pages with
  | nil =>
      obtain rfl := List.map_eq_nil_iff.mp hrun.symm
      refine ⟨nofun, ⟨left, rfl, nofun⟩, fun hreads => ?_⟩
      exact absurd howes.pos (Nat.not_lt.mpr hreads)
  | cons limit limits ih =>
      obtain ⟨hlimit, hlimits⟩ := List.forall_mem_cons.mp hlimits
      obtain ⟨page, others, rfl, hpage, hothers⟩ := run_cons_eq hrun
      have hdelivers := (howes.next hsteady (some supply) hlimit).delivers page _
        (Prod.ext hpage rfl)
      obtain ⟨later, fewer, hafter, rfl, hlast, hfewer⟩ := hdelivers.owes
      rw [← hdelivers.sameScan.batch] at hlimits
      have hpaid := ih hafter hlimits hothers
      obtain ⟨further, rfl, hover⟩ := hpaid.paid
      refine ⟨?_, ⟨further, ?_, ?_⟩, ?_⟩
      · intro read hread
        rcases List.mem_cons.mp hread with rfl | hmem
        · exact hdelivers.piece
        · exact hdelivers.sameScan.batch ▸ hpaid.pieces read hmem
      · rw [List.flatMap_cons, List.append_assoc]
      · rintro ⟨other, hother, hfalse⟩
        rcases List.mem_cons.mp hother with rfl | hmem
        · exact (List.append_eq_nil_iff.mp (hlast hfalse)).2
        · exact hover ⟨other, hmem, hfalse⟩
      · intro hreads
        -- a page after which there is more leaves fewer reads
        cases hmore : page.more with
        | false => exact ⟨page, List.mem_cons_self, hmore⟩
        | true =>
            have hless := hfewer hmore
            rw [List.length_cons] at hreads
            obtain ⟨other, hother, hfalse⟩ := hpaid.ends (by omega)
            exact ⟨other, List.mem_cons_of_mem _ hother, hfalse⟩

omit [LawfulSource σ keys] [Source σ] [CellFilter φ] in
/-- The first matcher of a scan would be ready without its filter for the cells from the first key
on, but that it has entered no row. -/
theorem prepared_ofScan {family : Family} {scan : Scan φ} (hscan : scan.WellFormed)
    (horder : family.order = keys) {cells : List Cell} (hsorted : keys.Sorted cells)
    (hstored : Cell.StoredIn family.name cells) :
    (Matcher.ofScan family scan).bare.Prepared family.name
      (keys.skipTo (Matcher.ofScan family scan).startKey cells) where
  plain := ⟨rfl, horder, hscan.columns_ascending⟩
  sorted := hsorted.skipTo _
  stored cell hcell := hstored cell ((mem_skipTo hsorted).mp hcell).1
  behind _ _ _ hrow := nomatch hrow
  fits _ _ hrow := nomatch hrow

omit [LawfulSource σ keys] [Source σ] in
/-- From the first key of a scan on, its matcher can look at all cells. -/
theorem primed_ofScan {family : Family} {scan : Scan φ} (hscan : scan.WellFormed)
    (horder : family.order = keys) (hsteady : ∀ state ∈ scan.filter, CellFilter.Steady state)
    {cells : List Cell} (hsorted : keys.Sorted cells)
    (hstored : Cell.StoredIn family.name cells) :
    (Matcher.ofScan family scan).Primed family.name
      (keys.skipTo (Matcher.ofScan family scan).startKey cells) where
  prepared := prepared_ofScan hscan horder hsorted hstored
  started cell hcell := by
    obtain ⟨hmem, hge⟩ := (mem_skipTo hsorted).mp hcell
    exact Bool.eq_false_iff.mpr (mt (Scan.lt_startKey_iff (hstored cell hmem)).mpr hge)
  steady := hsteady

/-- A scan that was opened merges the sources of its provider from its first key on. -/
theorem exists_merge_of_open {family : Family} {scan : Scan φ} (horder : family.order = keys)
    (hsupply : supply.Orderly family.name scan.request) {subscription : Nat}
    (hopen : (Scanner.open family supply subscription scan).value = .ok scanner) :
    ∃ merge, scanner.phase = .active merge ∧ Merge.Sound keys merge ∧
      (supply.Sound family.name scan.request → Merge.Reliable keys merge) ∧
      merge.stream =
        keys.skipTo (Matcher.ofScan family scan).startKey (supply.cells scan.request) ∧
      scanner.matcher = .ofScan family scan ∧ scanner.batch = scan.batch := by
  obtain ⟨placed, hplace, rfl⟩ := exists_placed_of_open hopen
  have hopening := @opening_lawful σ φ _ keys _ (Matcher.ofScan family scan)
  obtain ⟨hsound, hstream⟩ := hsupply.placed hopening hplace
  rw [horder]
  refine ⟨_, rfl, hsound, fun hsure => ?_, hstream, rfl, rfl⟩
  obtain ⟨others, hothers, -, hreliable, -⟩ :=
    hsure.placed hopening (Matcher.ofScan family scan).startKey
  cases hplace.symm.trans hothers
  exact hreliable

/-- A scan owes what it gathers from its first key on. -/
theorem open_owes {family : Family} {scan : Scan φ} (hscan : scan.WellFormed)
    (horder : family.order = keys) (hsteady : ∀ state ∈ scan.filter, CellFilter.Steady state)
    (hsupply : supply.Orderly family.name scan.request) {subscription : Nat}
    (hopen : (Scanner.open family supply subscription scan).value = .ok scanner) :
    let ahead := keys.skipTo (Matcher.ofScan family scan).startKey (supply.cells scan.request)
    scanner.batch = scan.batch ∧
      Owes (supply.Sound family.name scan.request) family.name scan.filter
        (supply.cells scan.request) scanner ((Matcher.ofScan family scan).gather ahead)
        (ahead.length + 1) := by
  obtain ⟨merge, hactive, hsound, hreliable, hstream, hmatcher, hbatch⟩ :=
    exists_merge_of_open horder hsupply hopen
  have hprimed := primed_ofScan hscan horder hsteady (supply.cells_sorted _) hsupply.stored_cells
  refine ⟨hbatch, ?_⟩
  rw [← hstream] at hprimed ⊢
  rw [← hmatcher] at hprimed ⊢
  refine .active hactive ⟨rfl, hsound, rfl, hreliable⟩ hprimed ?_ ?_
  · rw [hmatcher]
    exact .refl _
  · rw [hstream]
    exact (skipTo_sublist _ _).subset

/-- Where no source fails, a scan can be opened unless it is refused. -/
theorem open_of_validate {family : Family} {scan : Scan φ} (hvalid : scan.validate = .ok ())
    (hsupply : supply.Sound family.name scan.request) (subscription : Nat) :
    ∃ scanner, (Scanner.open family supply subscription scan).value = .ok scanner := by
  obtain ⟨placed, hplaced, -⟩ := hsupply.placed
    (@opening_lawful σ φ _ keys _ (Matcher.ofScan family scan))
    (Matcher.ofScan family scan).startKey
  simp only [Scanner.open, hvalid, Noted.value_bind, hsupply.askFor, hplaced]
  exact ⟨_, rfl⟩

/-- Where no source fails, a scan can be opened. -/
theorem open_succeeds {family : Family} {scan : Scan φ}
    (hsteady : ∀ state ∈ scan.filter, CellFilter.Steady state)
    (hsupply : supply.Sound family.name scan.request) (subscription : Nat) :
    ∃ scanner, (Scanner.open family supply subscription scan).value = .ok scanner :=
  open_of_validate (Scan.validate_steady hsteady) hsupply subscription

/-- Over sources in order, a scan whose filter does not decide on complete rows, nor take back
that it ends the scan, hands out the same cells whatever limits it is read with. What reads
that do not fail hand out is a prefix of these cells, and all of them once a read has said that
there is no more, as one does when there are more reads than cells. Each read hands out cells
of one row, and not more than wanted. Where no source fails, neither does a read. -/
theorem run_gathers_in_batches {family : Family} {scan : Scan φ} (hscan : scan.WellFormed)
    (horder : family.order = keys) (hsteady : ∀ state ∈ scan.filter, CellFilter.Steady state)
    (hsupply : supply.Orderly family.name scan.request) (subscription : Nat) :
    ∃ gathered : List Cell,
      (∀ scanner, (Scanner.open family supply subscription scan).value = .ok scanner →
        ∀ limits : List ReadLimit, (∀ limit ∈ limits, limit.cells scan.batch ≠ some 0) →
        ∀ pages : List Page, scanner.run (limits.map .read) supply = pages.map .ok →
          (∀ read ∈ limits.zip pages, read.2.IsPiece scan.filter (supply.cells scan.request)
            (read.1.cells scan.batch)) ∧
          (∃ later, gathered = pages.flatMap (·.cells) ++ later ∧
            ((∃ page ∈ pages, page.more = false) → later = [])) ∧
          ((supply.cells scan.request).length < limits.length →
            ∃ page ∈ pages, page.more = false)) ∧
      (supply.Sound family.name scan.request →
        ∃ scanner, (Scanner.open family supply subscription scan).value = .ok scanner ∧
          ∀ limits : List ReadLimit, (∀ limit ∈ limits, limit.cells scan.batch ≠ some 0) →
            ∃ pages : List Page, scanner.run (limits.map .read) supply = pages.map .ok) := by
  refine ⟨(Matcher.ofScan family scan).gather (keys.skipTo (Matcher.ofScan family scan).startKey
    (supply.cells scan.request)), fun scanner hopen limits hlimits pages hrun => ?_,
    fun hsure => ?_⟩
  · obtain ⟨hbatch, howes⟩ := open_owes hscan horder hsteady hsupply hopen
    have hfewer := @skipTo_length_le keys (Matcher.ofScan family scan).startKey
      (supply.cells scan.request)
    rw [← hbatch] at hlimits ⊢
    have hpaid := howes.run hsteady hlimits hrun
    exact ⟨hpaid.pieces, hpaid.paid, fun hmany => hpaid.ends (by omega)⟩
  · obtain ⟨scanner, hopen⟩ := open_succeeds hsteady hsure subscription
    obtain ⟨hbatch, howes⟩ := open_owes hscan horder hsteady hsupply hopen
    refine ⟨scanner, hopen, fun limits hlimits => ?_⟩
    rw [← hbatch] at hlimits
    exact howes.run_succeeds hsteady hsure hlimits

/-- A row that is read cell by cell and as a whole, under a filter that changes its cells and ends
the scan when it is asked about the next row. -/
theorem run_gathers_in_batches_of_script :
    let family : Family := { name := [102], maxVersions := 2, clock := .manual .oldest }
    let filter : FilterScript := ⟨[], .keep, .nowhere, [], some 1, some [9], none, 0⟩
    let scan : Scan AnyFilter := { maxVersions := 2, filter := some (.scripted filter) }
    let newer := Cell.put [114] [102] [99] ⟨2⟩ [1]
    let older := Cell.put [114] [102] [99] ⟨1⟩ [1]
    let next := Cell.put [115] [102] [99] ⟨1⟩ [1]
    let script : SourceScript := { sequenceId := 1, cells := [newer, older, next] }
    let supply : Supply ScriptedSource := fun _ => .ok [script.open .keys 0]
    let single := List.replicate 4 (ReadLimit.own (some 1))
    let whole := List.replicate 4 ReadLimit.ofScan
    ∃ scanner, (Scanner.open family supply 0 scan).value = .ok scanner ∧
      ∃ pieces rows : List Page, scanner.run (single.map .read) supply = pieces.map .ok ∧
        scanner.run (whole.map .read) supply = rows.map .ok ∧
        pieces.flatMap (·.cells) = rows.flatMap (·.cells) := by
  intro family filter scan newer older next script supply single whole
  have hwellFormed : scan.WellFormed := ⟨List.Pairwise.nil, by decide⟩
  have hsteady : ∀ state ∈ scan.filter, CellFilter.Steady state := by
    rintro _ ⟨⟩
    exact AnyFilter.steady rfl
  have hsupply : supply.Sound family.name scan.request :=
    script.sound ⟨rfl, rfl⟩ (by decide) (by decide) _
  obtain ⟨gathered, hruns, hsucceeds⟩ :=
    @run_gathers_in_batches _ _ _ _ _ supply family scan hwellFormed rfl hsteady hsupply.orderly 0
  obtain ⟨scanner, hopen, hrun⟩ := hsucceeds hsupply
  have hfew : (supply.cells scan.request).length < 4 := by
    rw [Supply.cells, length_merged]
    exact Nat.lt_succ_self 3
  obtain ⟨pieces, hpieces⟩ := hrun single (by decide)
  obtain ⟨rows, hrows⟩ := hrun whole (by decide)
  obtain ⟨-, ⟨later, rfl, hnone⟩, hends⟩ := hruns scanner hopen single (by decide) pieces hpieces
  obtain ⟨-, ⟨further, hsame, hnothing⟩, hover⟩ := hruns scanner hopen whole (by decide) rows hrows
  refine ⟨scanner, hopen, pieces, rows, hpieces, hrows, ?_⟩
  rw [hnone (hends hfew), hnothing (hover hfew), List.append_nil, List.append_nil] at hsame
  exact hsame

end Scanner

end MergeScan
