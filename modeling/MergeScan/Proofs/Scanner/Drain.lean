import MergeScan.Proofs.Scanner.Output

/-! # Reading until the end

A scan that is read again and again comes to its end, because every read but the last
leaves fewer cells ahead. What its reads hand out together is all that it hands out.
-/

namespace MergeScan

open CellOrder

namespace Matcher

variable {φ : Type} [CellFilter φ] {matcher : Matcher φ} {cell : Cell} {rest : List Cell}
variable {family : Bytes} {limit : Option Nat}

/-- What a pass leaves is a part of what was ahead. -/
theorem passOver_suffix (matcher : Matcher φ) (limit : Option Nat) (ahead : List Cell) :
    (matcher.passOver limit ahead).ahead <:+ ahead := by
  induction matcher, ahead using look_induction generalizing limit with
  | nil matcher =>
      rewrite [passOver_nil]
      exact List.suffix_refl _
  | ends matcher cell rest ending hcourse =>
      rewrite [passOver_cons_error hcourse]
      exact List.suffix_refl _
  | goOn matcher cell rest ahead hcourse ih =>
      have hsuffix := (goOn_suffix hcourse).trans (List.suffix_cons cell rest)
      rw [passOver_cons_ok hcourse]
      simp only
      split
      · exact hsuffix
      · exact (ih _).trans hsuffix

/-- A pass in the row of the first cell ahead leaves that cell behind, or ends the scan. -/
theorem Ready.passOver_shorter (hready : Ready family matcher (cell :: rest))
    (hrow : matcher.row = some cell.row)
    (hending : (matcher.passOver limit (cell :: rest)).ending ≠ .scanDone) :
    (matcher.passOver limit (cell :: rest)).ahead.length ≤ rest.length := by
  cases hcourse : (matcher.look cell rest).course with
  | error ending =>
      rcases goOn_error hcourse with ⟨rfl, hdecision⟩ | rfl
      · -- the row of the cell is being read, so it is not complete before it
        have hjudged := hready.judged.2
        rw [hdecision] at hjudged
        have hdecided := (hjudged.of_done (.inl rfl)).2
        have hsame : matcher.compareRow cell = .eq := by
          simp [compareRow, hrow, hready.plain.order]
        simp only [decideRow, hsame] at hdecided
        split at hdecided
        · cases hdecided
        · split at hdecided
          · cases hdecided
          · split at hdecided <;> cases hdecided
      · rw [passOver_cons_error hcourse] at hending
        exact absurd rfl hending
  | ok ahead =>
      have hshorter := (goOn_suffix hcourse).length_le
      rw [passOver_cons_ok hcourse]
      simp only
      split
      · exact hshorter
      · exact Nat.le_trans (passOver_suffix _ _ _).length_le hshorter

end Matcher

namespace Reading

variable {φ : Type} [CellFilter φ] {family : Bytes} {reading : Reading φ} {limit : Option Nat}

/-- A reading whose list has not changed. -/
def Settled (reading : Reading φ) : Prop :=
  ∀ key, reading.spot ≠ .resuming key

/-- Read again and again, at most `count` times, until the end. -/
def pages (limit : Option Nat) : (count : Nat) → Reading φ → List Page × Reading φ
  | 0, reading => ([], reading)
  | count + 1, reading =>
    let outcome := reading.read [] limit
    if outcome.1.more then (pages limit count outcome.2).map (outcome.1 :: ·) id
    else ([outcome.1], outcome.2)

theorem pages_of_more (count : Nat) (hmore : (reading.read [] limit).1.more = true) :
    reading.pages limit (count + 1) =
      ((reading.read [] limit).1 :: ((reading.read [] limit).2.pages limit count).1,
        ((reading.read [] limit).2.pages limit count).2) := by
  simp only [pages, hmore, if_true]
  rfl

theorem pages_of_end (count : Nat) (hmore : (reading.read [] limit).1.more = false) :
    reading.pages limit (count + 1) = ([(reading.read [] limit).1], (reading.read [] limit).2) := by
  simp only [pages, hmore, Bool.false_eq_true, if_false]

theorem Settled.read (hsettled : Settled reading) (data : List Cell) (limit : Option Nat) :
    reading.read data limit = reading.read [] limit := by
  unfold Reading.read
  split
  · rfl
  next key hspot => exact absurd hspot (hsettled key)
  · rfl

/-- A read that does not come to the end leaves fewer cells ahead. -/
theorem Prepared.read_shorter (hprepared : Prepared family reading) (hsettled : Settled reading)
    (hmore : (reading.read [] limit).1.more = true) :
    Settled (reading.read [] limit).2 ∧
      ((reading.read [] limit).2.ahead []).length < (reading.ahead []).length := by
  unfold Reading.Prepared known at hprepared
  unfold Reading.read at hmore ⊢
  cases hspot : reading.spot with
  | resuming key => exact absurd hspot (hsettled key)
  | closed =>
      rw [hspot] at hmore
      cases hmore
  | before ahead =>
      rw [hspot] at hmore hprepared
      cases ahead with
      | nil => cases hmore
      | cons cell rest =>
          have hready := hprepared.inRow_first
          simp only [Reading.ahead, hspot, Reading.readFrom, Passed.outcome] at hmore ⊢
          split at hmore
          · cases hmore
          next hnot =>
            rw [if_neg hnot]
            have hending : ((reading.matcher.inRow cell.row).passOver limit (cell :: rest)).ending ≠
                .scanDone := by
              intro heq
              simp [Passed.isOver, heq] at hnot
            refine ⟨by rintro _ ⟨⟩, Nat.lt_succ_of_le ?_⟩
            exact hready.passOver_shorter (Matcher.row_inRow _ _) hending

/-- Enough reads hand out all that is ahead, and come to the end with the last of them. -/
theorem Prepared.pages_output {count : Nat} (hprepared : Prepared family reading)
    (hsettled : Settled reading) (hcount : (reading.ahead []).length < count) :
    ∃ earlier last, (reading.pages limit count).1 = earlier ++ [last] ∧
      (∀ page ∈ earlier, page.more = true) ∧ last.more = false ∧
      (earlier ++ [last]).flatMap Page.cells = reading.output [] ∧
      (reading.pages limit count).2.spot = .closed := by
  induction count generalizing reading with
  | zero => exact absurd hcount (Nat.not_lt_zero _)
  | succ count ih =>
      have hpage := @Prepared.output_read _ _ _ _ limit _ hprepared List.Pairwise.nil nofun
      cases hmore : (reading.read [] limit).1.more with
      | false =>
          have hclosed := spot_read_of_end hmore
          have hnone : (reading.read [] limit).2.output [] = [] := by
            rw [output, ahead, hclosed, Matcher.output_nil]
          rw [hnone, List.append_nil] at hpage
          rw [pages_of_end count hmore]
          exact ⟨[], _, rfl, nofun, hmore, by simp [hpage], hclosed⟩
      | true =>
          obtain ⟨hnext, hshorter⟩ := hprepared.read_shorter hsettled hmore
          obtain ⟨earlier, last, hpages, hearlier, hlast, hcells, hspot⟩ :=
            ih (hprepared.read List.Pairwise.nil nofun) hnext (by omega)
          rw [pages_of_more count hmore, hpages]
          refine ⟨(reading.read [] limit).1 :: earlier, last, rfl,
            List.forall_mem_cons.mpr ⟨hmore, hearlier⟩, hlast, ?_, hspot⟩
          rw [hpage, List.cons_append, List.flatMap_cons, hcells]

end Reading

namespace Scanner

variable {σ φ : Type} [Source σ] [LawfulSource σ keys] [CellFilter φ]
variable {scanner : Scanner σ φ} {reading : Reading φ} {family : Bytes}

omit [LawfulSource σ keys] in
/-- As long as it was not told of a change, a scanner does not ask for sources. -/
theorem next_of_settled (hphase : ∀ key, scanner.phase ≠ .resync key)
    (first second : Option (Supply σ)) (limit : ReadLimit) :
    scanner.next first limit = scanner.next second limit := by
  have hresync (supply : Option (Supply σ)) : scanner.resync supply = pure (.ok (), scanner) := by
    unfold resync
    split
    next key hkey => exact absurd hkey (hphase key)
    next => rfl
  simp only [next, fill, hresync]

omit [CellFilter φ] in
theorem Stands.phase_ne (hstands : Stands scanner reading) (hsettled : reading.Settled)
    (key : Cell) : scanner.phase ≠ .resync key := by
  have hphase := hstands.phase
  cases hspot : reading.spot with
  | before ahead =>
      rw [hspot] at hphase
      obtain ⟨merge, hactive, -⟩ := hphase
      rw [hactive]
      nofun
  | resuming key => exact absurd hspot (hsettled key)
  | closed =>
      rw [hspot] at hphase
      have hphase : scanner.phase = .closed := hphase
      rw [hphase]
      nofun

/-- A read of a scanner that was not told of a change, wherever its sources are from. -/
theorem Stands.next (hstands : Stands scanner reading) (hprepared : reading.Prepared family)
    (hsettled : reading.Settled) (supply : Option (Supply σ)) (limit : ReadLimit) :
    Answers scanner (reading.read [] (scanner.limitOf limit))
      (scanner.next supply limit).value := by
  let none : Supply σ := fun _ => .ok []
  have hsound : none.Sound family scanner.request := ⟨rfl, nofun, List.Pairwise.nil⟩
  have hanswers := next_answers hstands hprepared hsound limit
  rw [hsettled.read] at hanswers
  rwa [next_of_settled (hstands.phase_ne hsettled) supply (some none)]

/-- To read a scanner to the end is to do so with its reading. -/
theorem Stands.pages (hstands : Stands scanner reading) (hprepared : reading.Prepared family)
    (hsettled : reading.Settled) (supply : Option (Supply σ)) (limit : ReadLimit) (count : Nat) :
    (Scanner.pages supply limit count scanner).value.1 =
        (reading.pages (scanner.limitOf limit) count).1.map .ok ∧
      Stands (Scanner.pages supply limit count scanner).value.2
        (reading.pages (scanner.limitOf limit) count).2 := by
  induction count generalizing scanner reading with
  | zero => exact ⟨rfl, hstands⟩
  | succ count ih =>
      obtain ⟨hpage, hnext, -, -, hbatch⟩ := hstands.next hprepared hsettled supply limit
      have hlimit : (scanner.next supply limit).value.2.limitOf limit = scanner.limitOf limit := by
        cases limit with
        | ofScan => exact hbatch
        | own limit => rfl
      simp only [Scanner.pages, Noted.value_bind, hpage]
      cases hmore : (reading.read [] (scanner.limitOf limit)).1.more with
      | false =>
          rw [Reading.pages_of_end count hmore]
          generalize reading.read [] (scanner.limitOf limit) = outcome at hmore hnext ⊢
          obtain ⟨⟨cells, more⟩, reached⟩ := outcome
          cases hmore
          exact ⟨rfl, hnext⟩
      | true =>
          -- after a read that goes on, the place is known again without the provider
          obtain ⟨hsettled, -⟩ := hprepared.read_shorter hsettled hmore
          obtain ⟨hpages, hstands⟩ := ih hnext (hprepared.read List.Pairwise.nil nofun) hsettled
          rw [hlimit] at hpages hstands
          rw [Reading.pages_of_more count hmore]
          generalize reading.read [] (scanner.limitOf limit) = outcome at hmore hpages hstands ⊢
          obtain ⟨⟨cells, more⟩, reached⟩ := outcome
          cases hmore
          simp only [Noted.value_bind, Noted.value_pure, hpages]
          exact ⟨rfl, hstands⟩

/-- Whether a scanner can be read to the end, whatever each of the reads is limited to. None of
them fails, and they hand out these cells together. -/
def ReadsOut (supply : Supply σ) (scanner : Scanner σ φ) (enough : Nat) (total : List Cell) :
    Prop :=
  ∀ limit count, enough < count →
    ∃ earlier last, (scanner.pages (some supply) limit count).value.1 =
        (earlier ++ [last]).map .ok ∧
      (∀ page ∈ earlier, page.more = true) ∧ last.more = false ∧
      (earlier ++ [last]).flatMap Page.cells = total

/-- A scan of any sources can be opened and read to the end. -/
theorem open_readsOut {family : Family} {scan : Scan φ} (hscan : scan.Unfiltered family)
    {supply : Supply σ} (hsupply : supply.Sound family.name scan.request) (subscription : Nat) :
    ∃ scanner, (Scanner.open family supply subscription scan).value = .ok scanner ∧
      scanner.ReadsOut supply (supply.cells scan.request).length
        ((Reading.start family scan (supply.cells scan.request)).output []) := by
  obtain ⟨scanner, hopen, hstands, -, -⟩ := open_stands hscan hsupply subscription
  refine ⟨scanner, hopen, fun limit count hcount => ?_⟩
  have hprepared := hscan.prepared_start (supply.cells_sorted scan.request) hsupply.stored
  have hsettled : (Reading.start family scan (supply.cells scan.request)).Settled := nofun
  have hahead : ((Reading.start family scan (supply.cells scan.request)).ahead []).length < count :=
    Nat.lt_of_le_of_lt (skipTo_length_le _ _) hcount
  obtain ⟨hpages, -⟩ := hstands.pages hprepared hsettled (some supply) limit count
  obtain ⟨earlier, last, hreads, hearlier, hlast, hcells, -⟩ :=
    hprepared.pages_output hsettled hahead
  exact ⟨earlier, last, by rw [hpages, hreads], hearlier, hlast, hcells⟩

end Scanner

/-- Whether a scan of some sources can be opened and read to the end, and hands out these cells
altogether. -/
def Supply.ScansTo {σ φ : Type} [Source σ] [CellFilter φ] (family : Family) (supply : Supply σ)
    (scan : Scan φ) (total : List Cell) : Prop :=
  ∀ subscription, ∃ scanner,
    (Scanner.open family supply subscription scan).value = .ok scanner ∧
      ∃ enough, scanner.ReadsOut supply enough total

theorem Supply.Sound.scansTo {σ φ : Type} [Source σ] [LawfulSource σ keys] [CellFilter φ]
    {family : Family} {supply : Supply σ} {scan : Scan φ}
    (hsupply : supply.Sound family.name scan.request) (hscan : scan.Unfiltered family) :
    supply.ScansTo family scan
      ((Reading.start family scan (supply.cells scan.request)).output []) := by
  intro subscription
  obtain ⟨scanner, hopen, hreads⟩ := Scanner.open_readsOut hscan hsupply subscription
  exact ⟨scanner, hopen, _, hreads⟩

/-- A scan hands out one list only. -/
theorem Supply.ScansTo.unique {σ φ : Type} [Source σ] [CellFilter φ] {family : Family}
    {supply : Supply σ} {scan : Scan φ} {total other : List Cell}
    (htotal : supply.ScansTo family scan total) (hother : supply.ScansTo family scan other) :
    total = other := by
  obtain ⟨scanner, hopen, enough, hreads⟩ := htotal 0
  obtain ⟨again, hopenAgain, otherEnough, hreadsAgain⟩ := hother 0
  obtain rfl : scanner = again := Except.ok.inj (hopen.symm.trans hopenAgain)
  obtain ⟨earlier, last, hpages, -, -, rfl⟩ :=
    hreads .ofScan (enough + otherEnough + 1) (by omega)
  obtain ⟨earlierAgain, lastAgain, hpagesAgain, -, -, rfl⟩ :=
    hreadsAgain .ofScan (enough + otherEnough + 1) (by omega)
  rw [hpages] at hpagesAgain
  have hsame : earlier ++ [last] = earlierAgain ++ [lastAgain] :=
    List.map_inj_right (fun _ _ => Except.ok.inj) |>.mp hpagesAgain
  rw [hsame]

/-- Two providers do not look alike to a scan that hands out different lists of them. -/
theorem Supply.ScansTo.unlike {σ φ : Type} [Source σ] [CellFilter φ] {family : Family}
    {supply other : Supply σ} {scan : Scan φ} {left right : List Cell}
    (hleft : supply.ScansTo family scan left) (hright : other.ScansTo family scan right)
    (hne : left ≠ right) :
    ¬∃ total, supply.ScansTo family scan total ∧ other.ScansTo family scan total := by
  rintro ⟨total, htotal, hsame⟩
  exact hne ((hleft.unique htotal).trans (hsame.unique hright))

end MergeScan
