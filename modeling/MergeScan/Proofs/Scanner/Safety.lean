import MergeScan.Filter.Any
import MergeScan.Proofs.Matcher.Counts
import MergeScan.Proofs.Scanner.Runs
import MergeScan.Proofs.Store.Supply

/-! # What a scan may hand out

Sources can be exchanged under a scan at any time, for ones with other data. Reading goes
on at the cell it had come to, so whatever the data are, nothing is handed out twice or
out of order, and nothing that the scan did not ask for. This rests on two facts alone:
what was handed out lies before the cells ahead, or at the first of them where the
matcher passes over it; and the matcher has counted the versions of the current row.
-/

namespace MergeScan

open CellOrder

/-- The versions of a column of a row. -/
def versionsOf (row qualifier : Bytes) (cells : List Cell) : List Cell :=
  cells.filter fun cell => cell.row = row && cell.qualifier = qualifier

/-- What a scan may hand out: values in ascending order that it asks for, of each column no
more versions than wanted, and nothing that had expired when the scan began unless the
family keeps such versions. -/
structure Scan.Admits {φ : Type} (family : Family) (scan : Scan φ) (cells : List Cell) : Prop where
  ascending : keys.StrictlySorted cells
  values cell : cell ∈ cells → cell.kind = .put
  rows cell : cell ∈ cells → scan.rows.contains cell.row = true
  times cell : cell ∈ cells → scan.timeRange.contains cell.timestamp = true
  columns cell : cell ∈ cells → scan.columns = [] ∨ cell.qualifier ∈ scan.columns
  versions row qualifier :
    (versionsOf row qualifier cells).length ≤ min scan.maxVersions family.maxVersions
  unexpired cell : cell ∈ cells → family.minVersions = 0 → ∀ ttl, family.ttl = some ttl →
    family.clock.now.subSaturating ttl ≤ cell.timestamp

namespace Matcher

variable {φ : Type} [CellFilter φ]

/-- The cells that were handed out and what is ahead of a matcher of a scan. -/
structure Safe (family : Family) (scan : Scan φ) (done : List Cell) (matcher : Matcher φ)
    (ahead : List Cell) : Prop where
  admits : scan.Admits family done
  sameScan row : matcher.entered row = (ofScan family scan).entered row
  values : scan.retainDeletes = false
  room : matcher.columns.HasRoom
  /-- What was handed out is not met again, except where it is passed over. -/
  past cell other : cell ∈ done → other ∈ ahead → Cell.compareKeys cell other = .lt ∨
    Cell.compareKeys cell other = .eq ∧ Settled matcher other
  begun cell : cell ∈ done → ∃ row, matcher.row = some row ∧ cell.row ≤ row
  counted row qualifier : matcher.row = some row →
    (versionsOf row qualifier done).length ≤ matcher.columns.taken qualifier

variable {family : Family} {scan : Scan φ} {done : List Cell} {matcher : Matcher φ}
variable {cell : Cell} {rest ahead : List Cell} {name : Bytes}

/-! ## What one look hands out -/

section SameScan

variable (hscan : ∀ row, matcher.entered row = (ofScan family scan).entered row)
include hscan

omit [CellFilter φ]

theorem rows_of_sameScan : matcher.rows = scan.rows := (congrArg rows (hscan []) :)

theorem timeRange_of_sameScan : matcher.timeRange = scan.timeRange :=
  (congrArg timeRange (hscan []) :)

theorem retainDeletes_of_sameScan : matcher.retainDeletes = scan.retainDeletes :=
  (congrArg Matcher.retainDeletes (hscan []) :)

theorem rule_of_sameScan : matcher.columns.rule =
    ⟨family.versionsFor scan.maxVersions, family.minVersions, family.oldestUnexpired⟩ :=
  (congrArg (fun matcher : Matcher φ => matcher.columns.rule) (hscan []) :)

theorem reset_of_sameScan : matcher.columns.reset = (ofScan family scan).columns.reset :=
  (congrArg Matcher.columns (hscan []) :)

theorem listed_of_sameScan (hcolumns : scan.columns ≠ []) :
    ∃ ahead, matcher.columns.choice = .listed scan.columns ahead := by
  have hreset := congrArg ColumnProgress.choice (reset_of_sameScan hscan)
  have hempty : scan.columns.isEmpty = false := by simpa using hcolumns
  simp only [ColumnProgress.reset, ofScan, ColumnProgress.start, hempty, Bool.false_eq_true,
    if_false] at hreset
  cases hchoice : matcher.columns.choice with
  | every current => rw [hchoice] at hreset; cases hreset
  | listed wanted ahead =>
      rw [hchoice] at hreset
      cases hreset
      exact ⟨ahead, rfl⟩

end SameScan

theorem Safe.valuesOnly (hsafe : Safe family scan done matcher ahead) :
    matcher.retainDeletes = false :=
  (retainDeletes_of_sameScan hsafe.sameScan).trans hsafe.values

/-- A cell that is handed out is one that the scan asks for. -/
theorem Safe.admits_cell (hsafe : Safe family scan done matcher (cell :: rest))
    (hready : Ready name matcher (cell :: rest)) (hemits : (matcher.judge cell).1.emits = true) :
    (cell.kind = .put ∧ scan.rows.contains cell.row = true) ∧
      scan.timeRange.contains cell.timestamp = true ∧
      (scan.columns = [] ∨ cell.qualifier ∈ scan.columns) ∧
      (family.minVersions = 0 → ∀ ttl, family.ttl = some ttl →
        family.clock.now.subSaturating ttl ≤ cell.timestamp) := by
  obtain ⟨hlive, hposition, columns, hchecked, -⟩ :=
    hready.judged.2.of_emits (.inr hsafe.valuesOnly) hemits
  have hrow := ((decideRow_eq_none_iff hready.plain).mp hlive.row).1
  refine ⟨⟨?_, ?_⟩, ?_, ?_, ?_⟩
  · have hvalue := hlive.value
    obtain ⟨hmin, hmax⟩ := hready.isReal
    cases hkind : cell.kind <;> simp_all [Cell.isDelete, CellKind.isDelete]
  · rw [← rows_of_sameScan hsafe.sameScan]
    simp [RowRange.contains, hrow.1, hrow.2]
  · rw [← timeRange_of_sameScan hsafe.sameScan, TimeRange.contains, hposition]
    rfl
  · by_cases hcolumns : scan.columns = []
    · exact .inl hcolumns
    · obtain ⟨ahead, hchoice⟩ := listed_of_sameScan hsafe.sameScan hcolumns
      exact .inr (hchecked.mem_wanted hready.plain.columns hemits hchoice)
  · intro hmin ttl httl
    have hage := hlive.age
    rw [rule_of_sameScan hsafe.sameScan] at hage
    simp only [VersionRule.rulesOut, VersionRule.isExpired, Family.oldestUnexpired, hmin, httl,
      decide_true, Bool.true_and, Option.map_some, decide_eq_false_iff_not] at hage
    exact Std.not_lt.mp hage

theorem versionsOf_append (row qualifier : Bytes) (left right : List Cell) :
    versionsOf row qualifier (left ++ right) =
      versionsOf row qualifier left ++ versionsOf row qualifier right :=
  List.filter_append left right

/-- A cell that is not settled lies after everything that was handed out. -/
theorem Safe.lt_of_emits (hsafe : Safe family scan done matcher (cell :: rest))
    (hready : Ready name matcher (cell :: rest)) (hemits : (matcher.judge cell).1.emits = true)
    {earlier : Cell} (hearlier : earlier ∈ done) : Cell.compareKeys earlier cell = .lt := by
  rcases hsafe.past earlier cell hearlier List.mem_cons_self with hlt | ⟨-, hsettled⟩
  · exact hlt
  · have hjudge := hready.judged.1
    rw [hsettled.skips cell hready.isReal Std.ReflCmp.compare_self] at hjudge
    have hskip : (matcher.judge cell).1 = .skip := (Except.ok.inj (congrArg Prod.fst hjudge)).symm
    rw [hskip] at hemits
    cases hemits

theorem versionsOf_emitted (decision : Decision) (row qualifier : Bytes) :
    versionsOf row qualifier (decision.emitted cell).toList =
      if decision.emits = true ∧ cell.row = row ∧ cell.qualifier = qualifier then [cell] else [] := by
  unfold Decision.emitted versionsOf
  by_cases hemits : decision.emits = true
  · simp only [hemits, if_true, Option.toList_some, true_and]
    by_cases hboth : cell.row = row ∧ cell.qualifier = qualifier
    · simp [hboth]
    · simp [hboth]
  · simp [hemits]

/-- With what one look hands out, the versions of the row are still counted. -/
theorem Safe.counted_look (hsafe : Safe family scan done matcher (cell :: rest))
    (hready : Ready name matcher (cell :: rest)) {row : Bytes} (qualifier : Bytes)
    (hrow : matcher.row = some row) :
    (versionsOf row qualifier (done ++ (matcher.look cell rest).emitted.toList)).length ≤
      (matcher.look cell rest).next.columns.taken qualifier := by
  have hcounted := hsafe.counted row qualifier hrow
  have htaken := hready.judged.2.taken_le hready.plain.columns hsafe.valuesOnly hsafe.room qualifier
  have hemitted := @versionsOf_emitted cell (matcher.judge cell).1 row qualifier
  have hle : (versionsOf row qualifier ((matcher.judge cell).1.emitted cell).toList).length ≤
      if (matcher.judge cell).1.emits = true ∧ qualifier = cell.qualifier then 1 else 0 := by
    rw [hemitted]
    split
    next hboth => rewrite [if_pos ⟨hboth.1, hboth.2.2.symm⟩]; exact Nat.le_refl 1
    next => exact Nat.zero_le _
  rw [versionsOf_append, List.length_append]
  exact Nat.le_trans (Nat.add_le_add hcounted hle) htaken

/-- With what one look hands out, no column has more versions than wanted. -/
theorem Safe.versions_look (hsafe : Safe family scan done matcher (cell :: rest))
    (hready : Ready name matcher (cell :: rest)) (hemits : (matcher.judge cell).1.emits = true)
    (row qualifier : Bytes) :
    (versionsOf row qualifier (done ++ (matcher.look cell rest).emitted.toList)).length ≤
      min scan.maxVersions family.maxVersions := by
  have hjudged := hready.judged.2
  obtain ⟨hlive, -⟩ := hjudged.of_emits (.inr hsafe.valuesOnly) hemits
  have hrow := row_eq_of_decideRow hready.plain hlive.row hready.entered
  by_cases hsame : cell.row = row
  · refine Nat.le_trans (hsafe.counted_look hready qualifier (hsame ▸ hrow)) ?_
    have hrule : (matcher.judge cell).2.columns.rule = _ :=
      (rule_of_reset hjudged.reset_eq).trans (rule_of_sameScan hsafe.sameScan)
    have hmax := (matcher.judge cell).2.columns.taken_le_max qualifier
    rw [hrule] at hmax
    exact hmax
  · have hnone : versionsOf row qualifier ((matcher.judge cell).1.emitted cell).toList = [] := by
      rw [versionsOf_emitted, if_neg fun hboth => hsame hboth.2.1]
    rw [versionsOf_append, List.length_append, Matcher.look, hnone]
    exact hsafe.admits.versions row qualifier

/-- What a look hands out is admitted along with what was handed out before. -/
theorem Safe.admits_look (hsafe : Safe family scan done matcher (cell :: rest))
    (hready : Ready name matcher (cell :: rest)) :
    scan.Admits family (done ++ (matcher.look cell rest).emitted.toList) := by
  have hadmits := hsafe.admits
  by_cases hemits : (matcher.judge cell).1.emits = true
  · have hemitted : (matcher.look cell rest).emitted.toList = [cell] := by
      rw [Matcher.look, Decision.emitted, if_pos hemits]
      rfl
    have hversions := @Safe.versions_look _ _ _ _ _ _ _ rest _ hsafe hready hemits
    rw [hemitted] at hversions ⊢
    obtain ⟨⟨hvalue, hrows⟩, htimes, hcolumns, hunexpired⟩ := hsafe.admits_cell hready hemits
    have hboth : ∀ {P : Cell → Prop}, (∀ other ∈ done, P other) → P cell →
        ∀ other ∈ done ++ [cell], P other := by
      intro P hdone hcell other hother
      rcases List.mem_append.mp hother with hmem | hmem
      · exact hdone other hmem
      · exact List.mem_singleton.mp hmem ▸ hcell
    exact
      { ascending := List.pairwise_append.mpr ⟨hadmits.ascending, List.pairwise_singleton _ _,
          fun earlier hearlier other hother => List.mem_singleton.mp hother ▸
            hsafe.lt_of_emits hready hemits hearlier⟩
        values := hboth hadmits.values hvalue
        rows := hboth hadmits.rows hrows
        times := hboth hadmits.times htimes
        columns := hboth hadmits.columns hcolumns
        versions := hversions
        unexpired := hboth hadmits.unexpired hunexpired }
  · have hemitted : (matcher.look cell rest).emitted.toList = [] := by
      rw [Matcher.look, Decision.emitted, if_neg hemits]
      rfl
    rw [hemitted, List.append_nil]
    exact hadmits

omit [CellFilter φ] in
theorem mem_emitted {decision : Decision} {other : Cell}
    (hother : other ∈ (decision.emitted cell).toList) : decision.emits = true ∧ other = cell := by
  rw [Option.mem_toList, Decision.emitted] at hother
  split at hother
  next hemits => exact ⟨hemits, (Option.some.inj hother).symm⟩
  next => cases hother

/-- What was handed out lies behind what a look leaves. -/
theorem Safe.past_look (hsafe : Safe family scan done matcher (cell :: rest))
    (hready : Ready name matcher (cell :: rest))
    (hcourse : (matcher.look cell rest).course = .ok ahead) {earlier other : Cell}
    (hearlier : earlier ∈ done ++ (matcher.look cell rest).emitted.toList)
    (hother : other ∈ ahead) : Cell.compareKeys earlier other = .lt ∨
      Cell.compareKeys earlier other = .eq ∧ Settled (matcher.look cell rest).next other := by
  have hpast := hready.past_look hsafe.valuesOnly hcourse hother
  rcases List.mem_append.mp hearlier with hdone | hemitted
  · rcases hsafe.past earlier cell hdone List.mem_cons_self with hlt | ⟨heq, hsettled⟩
    · have hle : (Cell.compareKeys cell other).isLE = true := by
        rcases hpast with hlt | ⟨heq, -⟩
        · simp [hlt]
        · simp [heq]
      exact .inl (Std.TransCmp.lt_of_lt_of_isLE hlt hle)
    · rw [Std.TransCmp.congr_left heq]
      exact hpast
  · exact (mem_emitted hemitted).2 ▸ hpast

/-- One look keeps the promise. -/
theorem Safe.look (hsafe : Safe family scan done matcher (cell :: rest))
    (hready : Ready name matcher (cell :: rest))
    (hcourse : (matcher.look cell rest).course = .ok ahead) :
    Safe family scan (done ++ (matcher.look cell rest).emitted.toList)
      (matcher.look cell rest).next ahead where
  admits := hsafe.admits_look hready
  sameScan row := (entered_of_reset hready.judged.2.reset_eq row).trans (hsafe.sameScan row)
  values := hsafe.values
  room := hready.judged.2.hasRoom hsafe.room
  past _ _ hearlier hother := hsafe.past_look hready hcourse hearlier hother
  begun earlier hearlier := by
    have hrow : (matcher.look cell rest).next.row = matcher.row :=
      row_of_reset hready.judged.2.reset_eq
    rw [hrow]
    rcases List.mem_append.mp hearlier with hdone | hemitted
    · exact hsafe.begun earlier hdone
    · obtain ⟨hemits, rfl⟩ := mem_emitted hemitted
      obtain ⟨hlive, -⟩ := hready.judged.2.of_emits (.inr hsafe.valuesOnly) hemits
      exact ⟨_, row_eq_of_decideRow hready.plain hlive.row hready.entered, Std.le_refl _⟩
  counted row qualifier hrow := by
    exact hsafe.counted_look hready qualifier
      ((row_of_reset hready.judged.2.reset_eq).symm.trans hrow)

/-- To enter the row of the first cell ahead keeps the promise: nothing was handed out of
that row if it is another one. -/
theorem Safe.inRow (hsafe : Safe family scan done matcher (cell :: rest))
    (hplain : scan.Plain family) (hprepared : Prepared name matcher (cell :: rest)) :
    Safe family scan done (matcher.inRow cell.row) (cell :: rest) := by
  unfold Matcher.inRow
  split
  · exact hsafe
  next hrow =>
    -- nothing of the row was handed out before, so its versions are counted from none on
    have hearlier : ∀ earlier ∈ done, earlier.row < cell.row := by
      intro earlier hmem
      obtain ⟨row, hcurrent, hle⟩ := hsafe.begun earlier hmem
      have hbehind := hprepared.behind cell row List.mem_cons_self hcurrent
      have hne : row ≠ cell.row := fun heq => hrow (heq ▸ hcurrent)
      grind
    refine ⟨hsafe.admits, fun row => ?_, hsafe.values, ?_, ?_, ?_, ?_⟩
    · rw [entered_entered, hsafe.sameScan]
    · apply ColumnProgress.hasRoom_reset
      rw [rule_of_sameScan hsafe.sameScan]
      exact Nat.le_min.mpr ⟨hplain.wellFormed.versions, hplain.familyWellFormed⟩
    · intro earlier other hmem hother
      have hle : cell.row ≤ other.row := by
        rcases List.mem_cons.mp hother with rfl | hother
        · exact Std.le_refl _
        · exact Cell.row_le_of_isLE ((List.pairwise_cons.mp hprepared.sorted).1 other hother)
      exact .inl (Cell.lt_of_row_lt (Std.lt_of_lt_of_le (hearlier earlier hmem) hle))
    · exact fun earlier hmem => ⟨cell.row, rfl, Std.le_of_lt (hearlier earlier hmem)⟩
    · rintro row qualifier ⟨⟩
      have hnone : versionsOf cell.row qualifier done = [] := by
        rw [versionsOf, List.filter_eq_nil_iff]
        intro earlier hmem
        have hne : earlier.row ≠ cell.row :=
          fun heq => Std.lt_irrefl (heq ▸ hearlier earlier hmem)
        simp [hne]
      rw [hnone]
      exact Nat.zero_le _

/-- Cells further ahead are behind what was handed out as well. -/
theorem Safe.of_past (hsafe : Safe family scan done matcher ahead) {further : List Cell}
    (hpast : ∀ earlier other, earlier ∈ done → other ∈ further →
      Cell.compareKeys earlier other = .lt ∨
        Cell.compareKeys earlier other = .eq ∧ Settled matcher other) :
    Safe family scan done matcher further :=
  ⟨hsafe.admits, hsafe.sameScan, hsafe.values, hsafe.room, hpast, hsafe.begun, hsafe.counted⟩

/-- In other data, whatever lies at the place of the cell where reading goes on is passed over
if that cell would be. -/
theorem Safe.skipTo {key : Cell} {data : List Cell} (hsafe : Safe family scan done matcher [key])
    (hkey : key.IsReal) (hsorted : keys.Sorted data) (hstored : Cell.StoredIn name data) :
    Safe family scan done matcher (keys.skipTo key data) := by
  apply hsafe.of_past
  intro earlier other hearlier hother
  have hle := le_of_mem_skipTo hsorted hother
  have hreal := (hstored other ((mem_skipTo hsorted).mp hother).1).1
  rw [Cell.compare_keys] at hle
  rcases hsafe.past earlier key hearlier List.mem_cons_self with hlt | ⟨heq, hsettled⟩
  · exact .inl (Std.TransCmp.lt_of_lt_of_isLE hlt hle)
  · rw [Std.TransCmp.congr_left heq]
    cases hcompare : Cell.compareKeys key other with
    | lt => exact .inl rfl
    | eq => exact .inr ⟨rfl, hsettled.congr hreal hkey (Std.OrientedCmp.eq_symm hcompare)⟩
    | gt => rw [hcompare] at hle; cases hle

end Matcher

/-! ## Over a whole run -/

namespace Reading

variable {φ : Type} [CellFilter φ] {family : Family} {scan : Scan φ} {done data : List Cell}
variable {reading : Reading φ} {limit : Option Nat}

/-- The promise that a reading keeps; once it is closed it hands out nothing more. -/
def Safe (family : Family) (scan : Scan φ) (done : List Cell) (reading : Reading φ) : Prop :=
  match reading.spot with
  | .closed => scan.Admits family done
  | _ => reading.matcher.Safe family scan done reading.known

theorem Safe.admits (hsafe : Safe family scan done reading) : scan.Admits family done := by
  unfold Safe at hsafe
  split at hsafe
  · exact hsafe
  · exact Matcher.Safe.admits hsafe

theorem safe_readFrom {matcher : Matcher φ} {ahead : List Cell} (hplain : scan.Plain family)
    (hsafe : matcher.Safe family scan done ahead)
    (hprepared : matcher.Prepared family.name ahead) :
    Safe family scan (done ++ (readFrom matcher limit ahead).1.cells)
      (readFrom matcher limit ahead).2 := by
  unfold readFrom
  cases ahead with
  | nil => simpa [Safe] using hsafe.admits
  | cons first rest =>
      have hready := hprepared.inRow_first
      have hleaves : Matcher.Leaves (Matcher.Safe family scan)
          (fun done _ => scan.Admits family done) done
          ((matcher.inRow first.row).passOver limit (first :: rest)) :=
        hready.passOver (fun hready hsafe hcourse => hsafe.look hready hcourse)
          (fun hready hsafe _ => hsafe.admits_look hready) (hsafe.inRow hplain hprepared)
      unfold Matcher.Leaves at hleaves
      simp only [Passed.outcome]
      split
      next hover =>
        simp only [Safe]
        split at hleaves
        · exact hleaves
        · exact hleaves.admits
      next hover =>
        rw [if_neg] at hleaves
        · exact hleaves
        · intro hending
          simp [Passed.isOver, hending] at hover

/-- A read keeps the promise, whatever the data are by now. -/
theorem Safe.read (hsafe : Safe family scan done reading) (hplain : scan.Plain family)
    (hprepared : reading.Prepared family.name) (hsorted : keys.Sorted data)
    (hstored : Cell.StoredIn family.name data) :
    Safe family scan (done ++ (read data limit reading).1.cells) (read data limit reading).2 := by
  unfold Reading.Prepared known at hprepared
  unfold Reading.Safe known at hsafe
  unfold Reading.read
  cases hspot : reading.spot with
  | before ahead =>
      rw [hspot] at hprepared hsafe
      exact safe_readFrom hplain hsafe hprepared
  | resuming key =>
      rw [hspot] at hprepared hsafe
      have hkey := (hprepared.stored key List.mem_cons_self).1
      have hahead := Matcher.Safe.skipTo hsafe hkey hsorted hstored
      have hresumed := hprepared.skipTo hsorted hstored
      simp only
      cases hcells : keys.skipTo key data with
      | nil => simpa [Safe, readFrom] using Matcher.Safe.admits hsafe
      | cons first rest =>
          rw [hcells] at hahead hresumed
          exact safe_readFrom hplain (hahead.inRow hplain hresumed) hresumed.inRow_first.toPrepared
  | closed =>
      rw [hspot] at hsafe
      simpa [Safe, hspot] using hsafe

theorem Safe.change (hsafe : Safe family scan done reading) :
    Safe family scan done reading.change := by
  unfold Reading.change
  split
  next first rest hspot =>
    simp only [Reading.Safe, hspot, known] at hsafe ⊢
    apply Matcher.Safe.of_past hsafe
    intro earlier other hearlier hother
    exact Matcher.Safe.past hsafe earlier other hearlier
      (List.mem_singleton.mp hother ▸ List.mem_cons_self)
  next => exact hsafe

/-- Over any course of events a reading hands out only what its scan admits. -/
theorem Safe.run {batch : Option Nat} {events : List (ScanEvent (List Cell))}
    (hsafe : Safe family scan done reading) (hplain : scan.Plain family)
    (hprepared : reading.Prepared family.name)
    (hdata : keys.Sorted data ∧ Cell.StoredIn family.name data)
    (hevents : ∀ other, .change other ∈ events →
      keys.Sorted other ∧ Cell.StoredIn family.name other) :
    scan.Admits family (done ++ (reading.run batch events data).flatMap Page.cells) := by
  induction events generalizing reading data done with
  | nil => simpa [Reading.run] using hsafe.admits
  | cons event rest ih =>
      have hrest := fun other hother => hevents other (List.mem_cons_of_mem event hother)
      cases event with
      | read limit =>
          have hread := @Safe.read _ _ _ _ _ _ _ (limit.cells batch) hsafe hplain hprepared
            hdata.1 hdata.2
          have hih := ih hread (hprepared.read hdata.1 hdata.2) hdata hrest
          rw [List.append_assoc] at hih
          exact hih
      | change other =>
          exact ih hsafe.change hprepared.change (hevents other List.mem_cons_self) hrest

theorem safe_start (hplain : scan.Plain family) (data : List Cell) :
    Safe family scan [] (Reading.start family scan data) where
  admits := ⟨List.Pairwise.nil, nofun, nofun, nofun, nofun, fun _ _ => Nat.zero_le _, nofun⟩
  sameScan _ := rfl
  values := hplain.retainDeletes
  room _ _ _ := Nat.le_min.mpr ⟨hplain.wellFormed.versions, hplain.familyWellFormed⟩
  past _ _ hmem := nomatch hmem
  begun _ hmem := nomatch hmem
  counted _ _ hrow := nomatch hrow

end Reading

/-- Whatever sources take the place of the ones that a scan began with, and however often,
no read fails, and what the reads hand out together is admitted by the scan. -/
theorem Scanner.run_admitted {σ φ : Type} [Source σ] [LawfulSource σ keys] [CellFilter φ]
    {family : Family} {scan : Scan φ} (hplain : scan.Plain family) {supply : Supply σ}
    (hsupply : supply.Sound family.name scan.request) (subscription : Nat) :
    ∃ scanner, (Scanner.open family supply subscription scan).value = .ok scanner ∧
      ∀ events : List (ScanEvent (Supply σ)),
        (∀ other, .change other ∈ events → other.Sound family.name scan.request) →
        ∃ pages : List Page, scanner.run events supply = pages.map .ok ∧
          scan.Admits family (pages.flatMap Page.cells) := by
  obtain ⟨scanner, hopen, hrun⟩ := open_run hplain hsupply subscription
  have hdata : keys.Sorted (supply.cells scan.request) ∧
      Cell.StoredIn family.name (supply.cells scan.request) :=
    ⟨supply.cells_sorted scan.request, hsupply.stored⟩
  refine ⟨scanner, hopen, fun events hevents => ⟨_, hrun events hevents, ?_⟩⟩
  refine (Reading.safe_start hplain _).run hplain (hplain.prepared hdata.1 hdata.2) hdata ?_
  intro other hother
  obtain ⟨event, hevent, heq⟩ := List.mem_map.mp hother
  cases event with
  | read limit => cases heq
  | change next =>
      cases heq
      exact ⟨next.cells_sorted scan.request, (hevents next hevent).stored⟩

/-- A store that is loaded between two reads, at the place that reading had come to among
others. -/
theorem Scanner.run_admitted_of_load :
    let family : Family := { name := [102], maxVersions := 2, clock := .manual .oldest }
    let scan : Scan AnyFilter := { maxVersions := 2 }
    let stale := Cell.put [114] [102] [99] ⟨2⟩ [1]
    let older := Cell.put [114] [102] [99] ⟨1⟩ [1]
    let before : Store := (Store.addRun { family } [stale, older]).2
    let after : Store := (before.addRun [stale.withValue [2], older.withValue [2]]).2
    let events := [.read (.own (some 1)), .change after.supply, .read .ofScan]
    (scan.Plain family ∧ before.supply.Sound family.name scan.request ∧
      after.supply.Sound family.name scan.request) ∧
      ∃ scanner, (Scanner.open family before.supply 0 scan).value = .ok scanner ∧
        ∃ pages : List Page, scanner.run events before.supply = pages.map .ok ∧
          scan.Admits family (pages.flatMap Page.cells) := by
  intro family scan stale older before after events
  have hplain : scan.Plain family := ⟨⟨List.Pairwise.nil, by decide⟩, Nat.le_succ 1, rfl, rfl, rfl⟩
  have hcells : Cell.StoredIn family.name [stale, older] := by decide
  have hothers : Cell.StoredIn family.name [stale.withValue [2], older.withValue [2]] := by decide
  have hsound := (Store.fresh_sound family).addRun [stale, older]
  have hstored := (Store.fresh_stored family).addRun hcells
  have hbefore : before.supply.Sound family.name scan.request :=
    hsound.supply_sound hstored (by decide) _
  have hafter : after.supply.Sound family.name scan.request :=
    (hsound.addRun _).supply_sound (hstored.addRun hothers) (by decide) _
  obtain ⟨scanner, hopen, hrun⟩ := Scanner.run_admitted hplain hbefore 0
  refine ⟨⟨hplain, hbefore, hafter⟩, scanner, hopen, hrun events ?_⟩
  intro other hother
  simp only [events, List.mem_cons, List.not_mem_nil, or_false, reduceCtorEq, false_or,
    ScanEvent.change.injEq] at hother
  exact hother ▸ hafter

end MergeScan
