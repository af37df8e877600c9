import MergeScan.Proofs.Scanner.Abreast

/-! # Changes that do not show

The sources of a scan can be exchanged for others with the same data: buffers become
runs, and runs are merged. Reading goes on at the cell it had come to, where the new
sources can hold copies of cells that were read already. Those are settled, so nothing
of the change is seen in what is handed out.
-/

namespace MergeScan

open CellOrder

namespace Matcher

variable {φ : Type} [CellFilter φ] {matcher : Matcher φ} {cell : Cell} {rest ahead data : List Cell}
variable {family : Bytes} {limit : Option Nat} {counted : Prop}

/-! ## Where a matcher stands in a list -/

/-- The cells ahead are the last ones of a list, and the ones before them lie behind, except
that there can be copies of a settled cell. -/
def Located (matcher : Matcher φ) (ahead data : List Cell) : Prop :=
  ∃ behind, data = behind ++ ahead ∧ ∀ earlier ∈ behind, ∀ cell ∈ ahead,
    Cell.compareKeys earlier cell = .lt ∨
      Cell.compareKeys earlier cell = .eq ∧ Settled matcher cell

theorem located_nil (matcher : Matcher φ) (data : List Cell) : Located matcher [] data :=
  ⟨data, (List.append_nil data).symm, fun _ _ _ hcell => absurd hcell List.not_mem_nil⟩

theorem located_skipTo (hsorted : keys.Sorted data) (key : Cell) :
    Located matcher (keys.skipTo key data) data := by
  obtain ⟨below, hdata, hbelow⟩ := exists_below keys key data
  exact ⟨below, hdata, fun earlier hearlier cell hcell =>
    .inl (Std.TransCmp.lt_of_lt_of_isLE (hbelow earlier hearlier) (le_of_mem_skipTo hsorted hcell))⟩

omit [CellFilter φ] in
theorem goOn_ok {decision : Decision} (hgoOn : matcher.goOn cell rest decision = .ok ahead) :
    ahead = rest ∨ ∃ key, ahead = keys.skipTo key rest := by
  cases onwards_of_goOn hgoOn with
  | next | seekTo => exact .inl rfl
  | column | row => exact .inr ⟨_, rfl⟩

theorem Located.look (hlocated : Located matcher (cell :: rest) data)
    (hready : Ready family matcher (cell :: rest)) (hvalues : matcher.retainDeletes = false)
    (hcourse : (matcher.look cell rest).course = .ok ahead) :
    Located (matcher.look cell rest).next ahead data := by
  obtain ⟨behind, rfl, hbehind⟩ := hlocated
  obtain ⟨hfirst, hrest⟩ := List.pairwise_cons.mp hready.sorted
  -- The cells that a seek passes over lie below its key.
  obtain ⟨skipped, hskipped, hbelow⟩ : ∃ skipped, rest = skipped ++ ahead ∧
      ∀ earlier ∈ skipped, ∀ later ∈ ahead, Cell.compareKeys earlier later = .lt := by
    rcases goOn_ok hcourse with rfl | ⟨key, rfl⟩
    · exact ⟨[], rfl, nofun⟩
    · obtain ⟨below, hdata, hbelow⟩ := exists_below keys key rest
      exact ⟨below, hdata, fun earlier hearlier later hlater =>
        Std.TransCmp.lt_of_lt_of_isLE (hbelow earlier hearlier) (le_of_mem_skipTo hrest hlater)⟩
  refine ⟨behind ++ cell :: skipped, by rw [hskipped]; simp, ?_⟩
  intro earlier hearlier later hlater
  have hmem : later ∈ rest := (goOn_suffix hcourse).subset hlater
  rcases List.mem_append.mp hearlier with hmemBehind | hmemSkipped
  · rcases hbehind earlier hmemBehind cell List.mem_cons_self with hlt | ⟨-, hsettled⟩
    · exact .inl (Std.TransCmp.lt_of_lt_of_isLE hlt (hfirst later hmem))
    · have hnext : (matcher.look cell rest).next = matcher := by
        rw [hsettled.look hready.isReal]
      rw [hnext]
      exact hbehind earlier hmemBehind later (List.mem_cons_of_mem _ hmem)
  · rcases List.mem_cons.mp hmemSkipped with rfl | hmemSkipped
    · exact hready.past_look hvalues hcourse hlater
    · exact .inl (hbelow earlier hmemSkipped later hlater)

omit [CellFilter φ] in
theorem Prepared.row_ne (hprepared : Prepared family matcher (cell :: rest))
    (hrow : matcher.row ≠ some cell.row) {later : Cell} (hlater : later ∈ cell :: rest) :
    matcher.row ≠ some later.row := by
  intro hsame
  have hbehind := hprepared.behind cell later.row List.mem_cons_self hsame
  have hle := Cell.row_le_of_isLE (hprepared.le_first later hlater)
  exact hrow (hsame.trans (congrArg some (Std.le_antisymm hbehind hle)))

/-- Nothing of a row is settled before it is entered. -/
theorem Located.inRow_first (hlocated : Located matcher (cell :: rest) data)
    (hprepared : Prepared family matcher (cell :: rest)) :
    Located (matcher.inRow cell.row) (cell :: rest) data := by
  unfold Matcher.inRow
  split
  · exact hlocated
  next hrow =>
    obtain ⟨behind, hdata, hbehind⟩ := hlocated
    refine ⟨behind, hdata, fun earlier hearlier later hlater => .inl ?_⟩
    rcases hbehind earlier hearlier later hlater with hlt | ⟨-, hsettled⟩
    · exact hlt
    · exact absurd hsettled.row (hprepared.row_ne hrow hlater)

theorem Located.passOver (hlocated : Located matcher ahead data)
    (hready : Ready family matcher ahead) (hvalues : matcher.retainDeletes = false)
    (hending : (matcher.passOver limit ahead).ending ≠ .scanDone) :
    Located (matcher.passOver limit ahead).matcher (matcher.passOver limit ahead).ahead data := by
  have hleaves : Leaves
      (fun _ matcher ahead => matcher.retainDeletes = false ∧ Located matcher ahead data)
      (fun _ _ => True) [] (matcher.passOver limit ahead) :=
    hready.passOver
      (fun hready ⟨hvalues, hlocated⟩ hcourse =>
        ⟨(retainDeletes_of_reset hready.judged.2.reset_eq).trans hvalues,
          hlocated.look hready hvalues hcourse⟩)
      (fun _ _ _ => trivial) ⟨hvalues, hlocated⟩
  rw [Leaves, if_neg hending] at hleaves
  exact hleaves.2

/-- Where the list is taken anew from the first cell ahead on, copies of it come again
that are settled. -/
theorem Located.skipTo_first (hlocated : Located matcher (cell :: rest) data)
    (hsorted : keys.Sorted data) :
    ∃ copies, keys.skipTo cell data = copies ++ cell :: rest ∧
      ∀ copy ∈ copies, Cell.compareKeys copy cell = .eq ∧ Settled matcher cell := by
  obtain ⟨behind, rfl, hbehind⟩ := hlocated
  have hahead : keys.skipTo cell (cell :: rest) = cell :: rest :=
    skipTo_cons_of_not_lt (by simp [Std.ReflCmp.compare_self]) rest
  rw [skipTo_eq_filter (hsorted.sublist (List.sublist_append_right _ _))] at hahead
  refine ⟨behind.filter fun earlier => keys.compare earlier cell ≠ .lt, ?_, ?_⟩
  · rw [skipTo_eq_filter hsorted, List.filter_append, hahead]
  · intro copy hcopy
    obtain ⟨hmem, hge⟩ := List.mem_filter.mp hcopy
    exact (hbehind copy hmem cell List.mem_cons_self).resolve_left (of_decide_eq_true hge)

theorem Begun.passed (hbegun : Begun family matcher ahead) (hentered : matcher.row.isSome = true)
    (hending : (matcher.passOver limit ahead).ending ≠ .scanDone) :
    Begun family (matcher.passOver limit ahead).matcher (matcher.passOver limit ahead).ahead := by
  have hready : Ready family matcher ahead := ⟨hbegun.toPrepared, hentered⟩
  have hleaves : Leaves (fun _ => Begun family) (fun _ _ => True) []
      (matcher.passOver limit ahead) :=
    hready.passOver (fun hready hbegun hcourse => hbegun.look hready.entered hcourse)
      (fun _ _ _ => trivial) hbegun
  rwa [Leaves, if_neg hending] at hleaves

/-- A pass changes only what belongs to a row. -/
theorem Ready.reset_passed (hready : Ready family matcher ahead) (limit : Option Nat) :
    (matcher.passOver limit ahead).matcher.reset = matcher.reset := by
  have hleaves : Leaves (fun _ next _ => next.reset = matcher.reset)
      (fun _ next => next.reset = matcher.reset) [] (matcher.passOver limit ahead) :=
    hready.passOver (fun hready hreset _ => hready.judged.2.reset_eq.trans hreset)
      (fun hready hreset _ => hready.judged.2.reset_eq.trans hreset) rfl
  unfold Leaves at hleaves
  split at hleaves <;> exact hleaves

omit [CellFilter φ] in
theorem Begun.skipTo {key : Cell} (hkey : Begun family matcher [key]) (hsorted : keys.Sorted data)
    (hstored : Cell.StoredIn family data) : Begun family matcher (keys.skipTo key data) where
  toPrepared := hkey.toPrepared.skipTo hsorted hstored
  values := hkey.values
  begun cell hcell := by
    have hstart := hkey.begun key List.mem_cons_self
    have hle := Cell.row_le_of_isLE (le_of_mem_skipTo hsorted hcell)
    rw [← Bool.not_eq_true, RowRange.startsAfter_iff] at hstart ⊢
    exact fun hlt => hstart (Std.lt_of_le_of_lt hle hlt)

end Matcher

/-! ## Readings -/

namespace Reading

variable {φ : Type} [CellFilter φ] {family : Bytes} {reading : Reading φ} {limit : Option Nat}
variable {data other : List Cell} {counted : Prop} {rows : RowRange}

/-- A reading of a list as it is now, which has come to the range of the scan. -/
structure Tracks (family : Bytes) (rows : RowRange) (data : List Cell) (reading : Reading φ) :
    Prop where
  sorted : keys.Sorted data
  stored : Cell.StoredIn family data
  rows : reading.matcher.rows = rows
  known : reading.matcher.Begun family reading.known
  located ahead : reading.spot = .before ahead → reading.matcher.Located ahead data

omit [CellFilter φ] in
theorem begun_nil {matcher : Matcher φ} (hplain : matcher.Plain)
    (hvalues : matcher.retainDeletes = false) : matcher.Begun family [] :=
  ⟨⟨hplain.prepared_nil, nofun⟩, hvalues⟩

theorem Tracks.begun (htracks : Tracks family rows data reading) :
    reading.matcher.Begun family (reading.ahead data) := by
  have hknown := htracks.known
  unfold Reading.known at hknown
  unfold ahead
  cases hspot : reading.spot with
  | before ahead =>
      rw [hspot] at hknown
      exact hknown
  | resuming key =>
      rw [hspot] at hknown
      exact hknown.skipTo htracks.sorted htracks.stored
  | closed => exact begun_nil hknown.plain hknown.values

theorem Tracks.readFrom {matcher : Matcher φ} {ahead : List Cell} (hsorted : keys.Sorted data)
    (hstored : Cell.StoredIn family data) (hbegun : matcher.Begun family ahead)
    (hlocated : matcher.Located ahead data) :
    Tracks family matcher.rows data (readFrom matcher limit ahead).2 := by
  unfold Reading.readFrom
  split
  · exact ⟨hsorted, hstored, rfl, hbegun, by rintro _ ⟨⟩⟩
  next first rest =>
    have hready := hbegun.inRow_first
    have hentered := Matcher.isSome_row_inRow matcher first.row
    have hreset := Matcher.Ready.reset_passed ⟨hready.toPrepared, hentered⟩ limit
    have hrows := (Matcher.rows_of_reset hreset).trans (Matcher.rows_inRow matcher first.row)
    unfold Passed.outcome
    split
    next =>
      exact ⟨hsorted, hstored, hrows,
        begun_nil (Matcher.Ready.passed_plain ⟨hready.toPrepared, hentered⟩ limit)
          ((Matcher.retainDeletes_of_reset hreset).trans hready.values), by rintro _ ⟨⟩⟩
    next hnot =>
      have hending : ((matcher.inRow first.row).passOver limit (first :: rest)).ending ≠
          .scanDone := by
        intro heq
        simp [Passed.isOver, heq] at hnot
      refine ⟨hsorted, hstored, hrows, hready.passed hentered hending, ?_⟩
      rintro _ ⟨⟩
      exact (hlocated.inRow_first hbegun.toPrepared).passOver ⟨hready.toPrepared, hentered⟩
        hready.values hending

theorem Tracks.read (htracks : Tracks family rows data reading) :
    Tracks family rows data (reading.read data limit).2 := by
  have hbegun := htracks.begun
  have hrows := htracks.rows
  unfold ahead at hbegun
  unfold Reading.read
  cases hspot : reading.spot with
  | before ahead =>
      rw [hspot] at hbegun
      rw [← hrows]
      exact Tracks.readFrom htracks.sorted htracks.stored hbegun (htracks.located ahead hspot)
  | resuming key =>
      rw [hspot] at hbegun
      have hlocated := @Matcher.located_skipTo _ _ reading.matcher _ htracks.sorted key
      simp only at hbegun ⊢
      cases hcells : keys.skipTo key data with
      | nil =>
          rw [← hrows, ← Matcher.rows_inRow reading.matcher key.row]
          exact Tracks.readFrom htracks.sorted htracks.stored (begun_nil (hbegun.plain.inRow _)
            ((Matcher.retainDeletes_inRow _ _).trans hbegun.values))
            (Matcher.located_nil _ data)
      | cons first rest =>
          rw [hcells] at hbegun hlocated
          rw [← hrows, ← Matcher.rows_inRow reading.matcher first.row]
          exact Tracks.readFrom htracks.sorted htracks.stored hbegun.inRow_first
            (hlocated.inRow_first hbegun.toPrepared)
  | closed => exact htracks

omit [CellFilter φ] in
theorem change_cases (reading : Reading φ) :
    (∃ first rest, reading.spot = .before (first :: rest) ∧
      reading.change = ⟨reading.matcher, .resuming first⟩) ∨
    reading.change = reading ∧ ∀ first rest, reading.spot ≠ .before (first :: rest) := by
  unfold change
  split
  next first rest hspot => exact .inl ⟨first, rest, hspot, rfl⟩
  next hnot => exact .inr ⟨rfl, hnot⟩

/-- A change leads to a reading of the new list. -/
theorem Tracks.change (htracks : Tracks family rows data reading) (hsorted : keys.Sorted other)
    (hstored : Cell.StoredIn family other) : Tracks family rows other reading.change := by
  rcases reading.change_cases with ⟨first, rest, hspot, hchange⟩ | ⟨hchange, hnot⟩
  · have hknown := htracks.known
    rw [Reading.known, hspot] at hknown
    rw [hchange]
    exact ⟨hsorted, hstored, htracks.rows,
      hknown.sublist (List.cons_sublist_cons.mpr (List.nil_sublist rest)), by rintro _ ⟨⟩⟩
  · rw [hchange]
    refine ⟨hsorted, hstored, htracks.rows, htracks.known, fun ahead hspot => ?_⟩
    cases ahead with
    | nil => exact Matcher.located_nil _ other
    | cons first rest => exact absurd hspot (hnot first rest)

/-- What a change adds to the cells ahead as long as the list stays the same: copies of the
first of them, if that one is settled. -/
theorem Tracks.ahead_change (htracks : Tracks family rows data reading) :
    reading.change.ahead data = reading.ahead data ∨
      ∃ first rest extra, reading.ahead data = first :: rest ∧
        reading.change.ahead data = extra ++ first :: rest ∧
        ∀ copy ∈ extra, Cell.compareKeys copy first = .eq ∧ reading.matcher.Settled first := by
  rcases reading.change_cases with ⟨first, rest, hspot, hchange⟩ | ⟨hchange, -⟩
  · obtain ⟨extra, hskip, hextra⟩ := (htracks.located _ hspot).skipTo_first htracks.sorted
    rw [hchange]
    exact .inr ⟨first, rest, extra, by rw [ahead, hspot], hskip, hextra⟩
  · exact .inl (by rw [hchange])

theorem Tracks.alike_change (htracks : Tracks family rows data reading)
    (hsorted : keys.Sorted other) (halike : Alike rows counted other data) :
    Alike rows counted (reading.change.ahead other) (reading.change.ahead data) := by
  have hskip : ∀ key, Alike rows counted (keys.skipTo key other)
      (keys.skipTo key data) := fun key => halike.skipTo hsorted htracks.sorted key
  rcases reading.change_cases with ⟨first, rest, hspot, hchange⟩ | ⟨hchange, -⟩
  · rw [hchange]
    exact hskip first
  · rw [hchange]
    unfold ahead
    cases reading.spot with
    | before ahead => exact .refl ahead
    | resuming key => exact hskip key
    | closed => exact .refl []

omit [CellFilter φ] in
theorem matcher_change (reading : Reading φ) : reading.change.matcher = reading.matcher := by
  rcases reading.change_cases with ⟨first, rest, hspot, hchange⟩ | ⟨hchange, -⟩ <;> rw [hchange]

/-- A change to a list that is alike does not change what is still handed out. -/
theorem Tracks.output_change (htracks : Tracks family rows data reading)
    (hsorted : keys.Sorted other) (hstored : Cell.StoredIn family other)
    (halike : Alike rows counted other data) :
    reading.change.output other = reading.output data := by
  have hbefore := (htracks.change htracks.sorted htracks.stored).begun
  have hafter := (htracks.change hsorted hstored).begun
  have hsame := htracks.alike_change hsorted halike
  rw [matcher_change] at hbefore hafter
  unfold output
  rw [matcher_change, hafter.output_alike hbefore (htracks.rows ▸ hsame)]
  rcases htracks.ahead_change with heq | ⟨first, rest, extra, hahead, hchange, hextra⟩
  · rw [heq]
  · rw [hchange] at hbefore
    have hreal : ∀ copy ∈ extra, copy.IsReal := fun copy hcopy =>
      (hbefore.stored copy (List.mem_append_left _ hcopy)).1
    have hfirst := (hbefore.stored first (List.mem_append_right _ List.mem_cons_self)).1
    rw [hchange, hahead, Matcher.output_append _ hreal]
    intro copy hcopy
    obtain ⟨hsame, hsettled⟩ := hextra copy hcopy
    exact hsettled.congr (hreal copy hcopy) hfirst hsame

/-- Over any course of changes to lists that are alike, the pages are pieces of what is
handed out without them, from its beginning on, and all of it once the end is reached. -/
theorem Tracks.run_output {batch : Option Nat} {events : List (ScanEvent (List Cell))}
    (htracks : Tracks family rows data reading)
    (hevents : ∀ other, .change other ∈ events → keys.Sorted other ∧
      Cell.StoredIn family other ∧ Alike rows counted other data) :
    let cells := (reading.run batch events data).flatMap Page.cells
    cells <+: reading.output data ∧
      ((∃ page ∈ reading.run batch events data, page.more = false) →
        cells = reading.output data) := by
  induction events generalizing reading data with
  | nil =>
      refine ⟨List.nil_prefix, ?_⟩
      rintro ⟨page, hpage, -⟩
      exact absurd hpage List.not_mem_nil
  | cons event events ih =>
      cases event with
      | read limit =>
          have hprepared : reading.Prepared family := htracks.known.toPrepared
          have houtput := @Prepared.output_read _ _ _ _ (limit.cells batch) _ hprepared
            htracks.sorted htracks.stored
          have hnext := @Tracks.read _ _ _ _ (limit.cells batch) _ _ htracks
          obtain ⟨hpages, hwhole⟩ := ih hnext fun other hother =>
            hevents other (List.mem_cons_of_mem _ hother)
          simp only [run, List.flatMap_cons]
          rw [houtput]
          refine ⟨(List.prefix_append_right_inj _).mpr hpages, ?_⟩
          rintro ⟨page, hpage, hmore⟩
          congr 1
          rcases List.mem_cons.mp hpage with rfl | hpage
          · have hclosed : (reading.read data (limit.cells batch)).2.output data = [] := by
              rw [output, ahead, spot_read_of_end hmore, Matcher.output_nil]
            rw [hclosed] at hpages ⊢
            exact List.prefix_nil.mp hpages
          · exact hwhole ⟨page, hpage, hmore⟩
      | change other =>
          obtain ⟨hsorted, hstored, halike⟩ := hevents other List.mem_cons_self
          have hih := ih (htracks.change hsorted hstored) fun third hthird =>
            (hevents third (List.mem_cons_of_mem _ hthird)).imp_right
              (And.imp_right fun hthird => hthird.trans halike.symm)
          rw [htracks.output_change hsorted hstored halike] at hih
          exact hih

end Reading

end MergeScan
