import MergeScan.Proofs.Scanner.Changes

/-! # Reads in step

If the lists that take the place of a list have copies at the same places as it has, then
even the single reads hand out the same as they would without any change: they are
interrupted at the same points. Two readings, of which one is told of changes and the
other is not, are followed here read by read.
-/

namespace MergeScan

open CellOrder

namespace Matcher

variable {φ : Type} [CellFilter φ] {matcher : Matcher φ} {cell : Cell} {rest : List Cell}
variable {left right other : List Cell} {family : Bytes} {counted : Prop}

omit [CellFilter φ] in
/-- Where neither list has a copy of the settled cell, both are alike as they are. -/
theorem level_of_no_copies {place : Cell} (hleft : Begun family matcher left)
    (hright : Begun family matcher right)
    (hbehind : ∀ cell ∈ left, (Cell.compareKeys place cell).isLE = true)
    (hbehind' : ∀ cell ∈ right, (Cell.compareKeys place cell).isLE = true)
    (hcopies : keys.copies place left = [] ↔ keys.copies place right = [])
    (halike : Alike matcher.rows counted (beyond place left) (beyond place right))
    (hnone : keys.copies place left = []) : Alike matcher.rows counted left right := by
  have hleftBeyond := hleft.sorted.copies_append_beyond hbehind
  have hrightBeyond := hright.sorted.copies_append_beyond hbehind'
  rw [hnone, List.nil_append] at hleftBeyond
  rw [hcopies.mp hnone, List.nil_append] at hrightBeyond
  rwa [hleftBeyond, hrightBeyond] at halike

theorem Abreast.symm (habreast : Abreast counted matcher left right) :
    Abreast counted matcher right left := by
  cases habreast with
  | level halike => exact .level halike.symm
  | past place hplace hsettled hbehind hbehind' hcopies halike =>
      exact .past place hplace hsettled hbehind' hbehind
        (fun hcounted => (hcopies hcounted).symm) halike.symm

/-- If one of two lists that are abreast has nothing left in the range, neither has the other. -/
theorem Abreast.none_contained (habreast : Abreast True matcher left right)
    (hleft : Begun family matcher left) (hright : Begun family matcher right)
    (hnone : ∀ cell ∈ left, matcher.rows.contains cell.row = false) :
    ∀ cell ∈ right, matcher.rows.contains cell.row = false := by
  cases habreast with
  | level halike => exact halike.none_contained hnone
  | past place hplace hsettled hbehind hbehind' hcopies halike =>
      have hrow := hsettled.contains hleft.plain hplace
      have hempty : keys.copies place left = [] := by
        refine copies_eq_nil fun cell hcell hsame => ?_
        have hcontained := hnone cell hcell
        rw [Cell.row_eq_of_eq hsame, hrow] at hcontained
        cases hcontained
      exact (level_of_no_copies hleft hright hbehind hbehind' (hcopies trivial) halike
        hempty).none_contained hnone

/-- A list can be exchanged for one that is alike. -/
theorem Abreast.exchange (habreast : Abreast True matcher left right)
    (hleft : Begun family matcher left) (hother : Begun family matcher other)
    (halike : Alike matcher.rows True other left) : Abreast True matcher other right := by
  cases habreast with
  | level hsame => exact .level (halike.trans hsame)
  | past place hplace hsettled hbehind hbehind' hcopies hsame =>
      have hrow := hsettled.contains hleft.plain hplace
      exact .past place hplace hsettled (halike.symm.le_of_mem hother.begun hrow hbehind) hbehind'
        (fun hcounted => (halike.copies_eq_nil_iff hrow).trans (hcopies hcounted))
        ((halike.beyond place).trans hsame)

/-- Where the first cell is settled, copies in front of it make no difference. -/
theorem Abreast.prepend (habreast : Abreast True matcher (cell :: rest) right)
    (hleft : Begun family matcher (cell :: rest)) (hright : Begun family matcher right)
    {extra : List Cell}
    (hextra : ∀ copy ∈ extra, Cell.compareKeys copy cell = .eq ∧ Settled matcher cell) :
    Abreast True matcher (extra ++ cell :: rest) right := by
  by_cases hnil : extra = []
  · rw [hnil]
    exact habreast
  obtain ⟨copy, hcopy⟩ := List.exists_mem_of_ne_nil _ hnil
  have hsettled := (hextra copy hcopy).2
  have hreal := (hleft.stored cell List.mem_cons_self).1
  have hrow := hsettled.contains hleft.plain hreal
  have hbehind : ∀ later ∈ extra ++ cell :: rest, (Cell.compareKeys cell later).isLE = true := by
    intro later hlater
    rcases List.mem_append.mp hlater with hcopy | hlater
    · rw [Std.OrientedCmp.eq_symm (hextra later hcopy).1]
      rfl
    · exact hleft.le_first later hlater
  have hne : ∀ place before, Cell.compareKeys cell place = .eq →
      keys.copies place (before ++ cell :: rest) ≠ [] := fun place before heq =>
    List.ne_nil_of_mem (mem_copies.mpr ⟨List.mem_append_right _ List.mem_cons_self, heq⟩)
  -- the copies are settled, and they lie where the other list has the cell itself
  have hlevel : Alike matcher.rows True (cell :: rest) right →
      Abreast True matcher (extra ++ cell :: rest) right := by
    intro halike
    refine .past cell hreal hsettled hbehind
      (halike.le_of_mem hright.begun hrow hleft.le_first) (fun _ => ?_) ?_
    · refine iff_of_false (hne cell extra Std.ReflCmp.compare_self) ?_
      exact mt (halike.copies_eq_nil_iff hrow).mpr (hne cell [] Std.ReflCmp.compare_self)
    · rw [beyond_append fun copy hcopy => Std.OrientedCmp.eq_symm (hextra copy hcopy).1]
      exact halike.beyond cell
  cases habreast with
  | level halike => exact hlevel halike
  | past place hplace hplaceSettled hfirst hfirst' hboth hsame =>
      by_cases heq : Cell.compareKeys cell place = .eq
      · have hextraPlace : ∀ copy ∈ extra, Cell.compareKeys place copy = .eq :=
          fun copy hcopy => Std.TransCmp.eq_trans (Std.OrientedCmp.eq_symm heq)
            (Std.OrientedCmp.eq_symm (hextra copy hcopy).1)
        refine .past place hplace hplaceSettled ?_ hfirst' (fun hcounted => ?_) ?_
        · intro later hlater
          rw [← Std.TransCmp.congr_left heq]
          exact hbehind later hlater
        · exact iff_of_false (hne place extra heq) (mt (hboth hcounted).mpr (hne place [] heq))
        · rwa [beyond_append hextraPlace]
      -- the place is in front of the cell then, so the list has no copy of it left
      · have hnone : keys.copies place (cell :: rest) = [] := by
          refine copies_eq_nil fun later hlater (hcopy : Cell.compareKeys later place = .eq) => ?_
          have hle := hleft.le_first later hlater
          rw [Std.TransCmp.congr_right hcopy] at hle
          exact heq (Std.OrientedCmp.isLE_antisymm hle (hfirst cell List.mem_cons_self))
        exact hlevel (level_of_no_copies hleft hright hfirst hfirst' (hboth trivial) hsame hnone)

end Matcher

namespace Reading

variable {φ : Type} [CellFilter φ] {family : Bytes} {first second : Reading φ} {rows : RowRange}
variable {data other third : List Cell} {limit : Option Nat}

/-- Whether a reading has come to the end, though its reader may not know yet. -/
def Idle (reading : Reading φ) : Prop :=
  reading.spot = .closed ∨ reading.spot = .before []

/-- Readings, each of its own list, that will hand out the same. -/
inductive InStep (data other : List Cell) (first second : Reading φ) : Prop
  | idle : Idle first → Idle second → InStep data other first second
  | abreast : second.matcher = first.matcher →
      first.matcher.Abreast True (first.ahead data) (second.ahead other) →
      InStep data other first second

/-- Where a pass has found the end, the reading is idle. -/
theorem idle_of_ended {matcher : Matcher φ} {ahead : List Cell}
    (hending : (matcher.passOver limit ahead).ending ≠ .more) :
    Idle (matcher.passOver limit ahead).outcome.2 := by
  unfold Passed.outcome
  split
  next => exact .inl rfl
  next hnot =>
    have hexhausted : (matcher.passOver limit ahead).ending = .exhausted := by
      cases hcase : (matcher.passOver limit ahead).ending with
      | more => exact absurd hcase hending
      | scanDone => simp [Passed.isOver, hcase] at hnot
      | exhausted => rfl
    exact .inr (congrArg Spot.before (Matcher.passOver_exhausted hexhausted))

/-- Reads that hand out the same cells and stay in step. -/
def ReadsInStep (data other : List Cell) (left right : Page × Reading φ) : Prop :=
  right.1.cells = left.1.cells ∧ InStep data other left.2 right.2

theorem inStep_of_passes {matcher : Matcher φ} {left right : List Cell}
    (hpasses : Matcher.PassAbreast True (matcher.passOver limit left)
      (matcher.passOver limit right)) :
    ReadsInStep data other (matcher.passOver limit left).outcome
      (matcher.passOver limit right).outcome := by
  obtain ⟨hcells, hboth | ⟨hleft, hright⟩⟩ := hpasses
  · obtain ⟨hleft, hright, hmatcher, habreast⟩ := hboth
    refine ⟨by rw [Passed.cells_outcome, Passed.cells_outcome, hcells], ?_⟩
    simp only [Passed.outcome, Passed.isOver, hleft, hright]
    exact .abreast hmatcher habreast
  · exact ⟨by rw [Passed.cells_outcome, Passed.cells_outcome, hcells],
      .idle (idle_of_ended hleft) (idle_of_ended hright)⟩

/-- Past the range there is nothing to read. -/
theorem readFrom_past {matcher : Matcher φ} {ahead : List Cell}
    (hbegun : matcher.Begun family ahead) (limit : Option Nat)
    (hnone : ∀ cell ∈ ahead, matcher.rows.contains cell.row = false) :
    (readFrom matcher limit ahead).1.cells = [] ∧ Idle (readFrom matcher limit ahead).2 := by
  cases ahead with
  | nil => exact ⟨rfl, .inl rfl⟩
  | cons first rest =>
      obtain ⟨hcells, hending⟩ := hbegun.inRow_first.toArrived.passOver_past limit
        (by rwa [Matcher.rows_inRow])
      exact ⟨(Passed.cells_outcome _).trans hcells, idle_of_ended hending⟩

/-- From a settled cell on, a read goes on in the row of that cell. -/
theorem readFrom_settled {matcher : Matcher φ} {ahead : List Cell}
    (hbegun : matcher.Begun family ahead) {place : Cell} (hplace : place.IsReal)
    (hsettled : matcher.Settled place)
    (hbehind : ∀ cell ∈ ahead, (Cell.compareKeys place cell).isLE = true)
    (hcopies : keys.copies place ahead ≠ []) :
    readFrom matcher limit ahead = (matcher.passOver limit (beyond place ahead)).outcome := by
  obtain ⟨copy, hcopy⟩ := List.exists_mem_of_ne_nil _ hcopies
  obtain ⟨hmem, hsame⟩ := mem_copies.mp hcopy
  cases ahead with
  | nil => cases hmem
  | cons first rest =>
      have hreal := (hbegun.stored first List.mem_cons_self).1
      have hle := hbegun.le_first copy hmem
      rw [Std.TransCmp.congr_right (show Cell.compareKeys copy place = .eq from hsame)] at hle
      have hfirst : Cell.compareKeys first place = .eq :=
        Std.OrientedCmp.isLE_antisymm hle (hbehind first List.mem_cons_self)
      have hrow := (hsettled.congr hreal hplace hfirst).row
      rw [hbegun.passOver_beyond hplace hsettled hbehind, readFrom, Matcher.inRow_of_row hrow]

/-- Reads of lists that are abreast stay in step. -/
theorem readFrom_inStep {matcher : Matcher φ} {left right : List Cell}
    (hleft : matcher.Begun family left) (hright : matcher.Begun family right)
    (habreast : matcher.Abreast True left right) :
    ReadsInStep data other (readFrom matcher limit left) (readFrom matcher limit right) := by
  -- where the lists are alike, the two reads look at the same cells
  have hlevel : Alike matcher.rows True left right →
      ReadsInStep data other (readFrom matcher limit left) (readFrom matcher limit right) := by
    intro halike
    rcases hleft.alike_cases hright halike with
      ⟨hnone, hnone'⟩ | ⟨cell, rest, others, rfl, rfl, hrow⟩
    · obtain ⟨hcells, hidle⟩ := readFrom_past hleft limit hnone
      obtain ⟨hcells', hidle'⟩ := readFrom_past hright limit hnone'
      exact ⟨hcells'.trans hcells.symm, .idle hidle hidle'⟩
    · exact inStep_of_passes (hleft.inRow_first.passOver_alike hright.inRow_first
        (matcher.isSome_row_inRow cell.row) (by rwa [Matcher.rows_inRow]))
  cases habreast with
  | level halike => exact hlevel halike
  | past place hplace hsettled hbehind hbehind' hcopies halike =>
      by_cases hnone : keys.copies place left = []
      · exact hlevel
          (Matcher.level_of_no_copies hleft hright hbehind hbehind' (hcopies trivial) halike hnone)
      -- both sides pass over the copies of the settled cell first
      · rw [readFrom_settled hleft hplace hsettled hbehind hnone,
          readFrom_settled hright hplace hsettled hbehind' (mt (hcopies trivial).mpr hnone)]
        exact inStep_of_passes ((hleft.sublist List.filter_sublist).passOver_alike
          (hright.sublist List.filter_sublist) (by rw [hsettled.row]; rfl) halike)

theorem Idle.read {reading : Reading φ} (hidle : Idle reading) (data : List Cell)
    (limit : Option Nat) :
    (reading.read data limit).1.cells = [] ∧ Idle (reading.read data limit).2 := by
  unfold Reading.read
  rcases hidle with hspot | hspot
  · simp only [hspot]
    exact ⟨trivial, .inl hspot⟩
  · simp only [hspot]
    exact ⟨rfl, .inl rfl⟩

omit [CellFilter φ] in
theorem Idle.change {reading : Reading φ} (hidle : Idle reading) : Idle reading.change := by
  unfold Reading.change
  rcases hidle with hspot | hspot
  · simp only [hspot]
    exact .inl hspot
  · simp only [hspot]
    exact .inr hspot

/-- A read starts from the cells ahead. -/
theorem read_eq_readFrom {reading : Reading φ} (hahead : reading.ahead data ≠ []) :
    reading.read data limit = readFrom reading.matcher limit (reading.ahead data) := by
  unfold Reading.read
  unfold ahead at hahead ⊢
  cases hspot : reading.spot with
  | before ahead => rfl
  | resuming key =>
      rw [hspot] at hahead
      simp only at hahead ⊢
      cases hcells : keys.skipTo key data with
      | nil => exact absurd hcells hahead
      | cons first rest =>
          show readFrom (reading.matcher.inRow first.row) limit (first :: rest) = _
          rw [readFrom, readFrom, Matcher.inRow_inRow]
  | closed =>
      rw [hspot] at hahead
      exact absurd rfl hahead

theorem Tracks.read_past {reading : Reading φ} (htracks : Tracks family rows data reading)
    (hnone : ∀ cell ∈ reading.ahead data, rows.contains cell.row = false) :
    (reading.read data limit).1.cells = [] ∧ Idle (reading.read data limit).2 := by
  by_cases hahead : reading.ahead data = []
  · unfold Reading.read
    unfold ahead at hahead
    cases hspot : reading.spot with
    | before ahead =>
        rw [hspot] at hahead
        simp only at hahead ⊢
        rw [hahead]
        exact ⟨rfl, .inl rfl⟩
    | resuming key =>
        rw [hspot] at hahead
        simp only at hahead ⊢
        rw [hahead]
        exact ⟨rfl, .inl rfl⟩
    | closed => exact ⟨rfl, .inl hspot⟩
  · rw [read_eq_readFrom hahead]
    exact readFrom_past htracks.begun limit (htracks.rows ▸ hnone)

/-- Readings in step stay so when both are read. -/
theorem InStep.read (hstep : InStep data other first second)
    (hfirst : Tracks family rows data first) (hsecond : Tracks family rows other second)
    (limit : Option Nat) :
    ReadsInStep data other (first.read data limit) (second.read other limit) := by
  cases hstep with
  | idle hidle hidle' =>
      obtain ⟨hcells, hnext⟩ := hidle.read data limit
      obtain ⟨hcells', hnext'⟩ := hidle'.read other limit
      exact ⟨hcells'.trans hcells.symm, .idle hnext hnext'⟩
  | abreast hmatcher habreast =>
      have hbegun := hsecond.begun
      rw [hmatcher] at hbegun
      have hleft : (∀ cell ∈ first.ahead data, rows.contains cell.row = false) →
          ∀ cell ∈ second.ahead other, rows.contains cell.row = false := by
        rw [← hfirst.rows]
        exact habreast.none_contained hfirst.begun hbegun
      have hright : (∀ cell ∈ second.ahead other, rows.contains cell.row = false) →
          ∀ cell ∈ first.ahead data, rows.contains cell.row = false := by
        rw [← hfirst.rows]
        exact habreast.symm.none_contained hbegun hfirst.begun
      by_cases hnone : ∀ cell ∈ first.ahead data, rows.contains cell.row = false
      · obtain ⟨hcells, hnext⟩ := @Tracks.read_past _ _ _ _ _ limit _ hfirst hnone
        obtain ⟨hcells', hnext'⟩ := @Tracks.read_past _ _ _ _ _ limit _ hsecond (hleft hnone)
        exact ⟨hcells'.trans hcells.symm, .idle hnext hnext'⟩
      · have hahead : first.ahead data ≠ [] := fun hnil => hnone (hnil ▸ nofun)
        have hahead' : second.ahead other ≠ [] := fun hnil => hnone (hright (hnil ▸ nofun))
        rw [read_eq_readFrom hahead, read_eq_readFrom hahead', hmatcher]
        exact readFrom_inStep hfirst.begun hbegun habreast

/-- A change to a list that is alike keeps readings in step. -/
theorem InStep.change (hstep : InStep data other first second)
    (hfirst : Tracks family rows data first) (hsecond : Tracks family rows other second)
    (hsorted : keys.Sorted third) (hstored : Cell.StoredIn family third)
    (halike : Alike rows True third data) : InStep third other first.change second := by
  cases hstep with
  | idle hidle hidle' => exact .idle hidle.change hidle'
  | abreast hmatcher habreast =>
      have hbegun := hsecond.begun
      have hbefore := (hfirst.change hfirst.sorted hfirst.stored).begun
      have hafter := (hfirst.change hsorted hstored).begun
      rw [hmatcher] at hbegun
      rw [matcher_change] at hbefore hafter
      refine .abreast (hmatcher.trans (matcher_change first).symm) ?_
      rw [matcher_change]
      refine Matcher.Abreast.exchange ?_ hbefore hafter
        (hfirst.rows ▸ hfirst.alike_change hsorted halike)
      rcases hfirst.ahead_change with heq | ⟨cell, rest, extra, hahead, hchange, hextra⟩
      · rwa [heq]
      · have hleft := hfirst.begun
        rw [hahead] at hleft habreast
        rw [hchange]
        exact habreast.prepend hleft hbegun hextra

/-- Over any course of events, the single reads hand out the same cells with the changes and
without them. -/
theorem InStep.run {batch : Option Nat} {events : List (ScanEvent (List Cell))}
    (hstep : InStep data other first second) (hfirst : Tracks family rows data first)
    (hsecond : Tracks family rows other second)
    (hevents : ∀ third, .change third ∈ events → keys.Sorted third ∧
      Cell.StoredIn family third ∧ Alike rows True third data) :
    (first.run batch events data).map Page.cells =
      (second.run batch (events.filter ScanEvent.isRead) other).map Page.cells := by
  induction events generalizing data first second with
  | nil => rfl
  | cons event events ih =>
      have hrest := fun third hthird => hevents third (List.mem_cons_of_mem event hthird)
      cases event with
      | read limit =>
          obtain ⟨hcells, hnext⟩ := hstep.read hfirst hsecond (limit.cells batch)
          have hih := ih hnext hfirst.read hsecond.read hrest
          rw [List.filter_cons_of_pos rfl, Reading.run, Reading.run, List.map_cons, List.map_cons,
            hcells, hih]
      | change third =>
          obtain ⟨hsorted, hstored, halike⟩ := hevents third List.mem_cons_self
          rw [List.filter_cons_of_neg (by simp [ScanEvent.isRead]), Reading.run]
          exact ih (hstep.change hfirst hsecond hsorted hstored halike)
            (hfirst.change hsorted hstored) hsecond fun fourth hfourth =>
              (hrest fourth hfourth).imp_right
                (And.imp_right fun hfourth => hfourth.trans halike.symm)

end Reading

end MergeScan
