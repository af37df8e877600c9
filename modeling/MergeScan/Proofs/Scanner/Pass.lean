import MergeScan.Proofs.Matcher.Sifted
import MergeScan.Proofs.Scanner.Looks

/-! # A pass over a list

A pass reads a merge, and a merge is a sorted list. So a pass can be said without
sources: it looks at the first cell of a list, and goes on with what a decision
leaves of the rest. The pass over the list of a merge is what the program does, as
long as no source fails.
-/

namespace MergeScan

open CellOrder

/-- What a pass over a list hands out, and where it ends. -/
structure Passed (φ : Type) where
  cells : List Cell
  ending : PassEnd
  matcher : Matcher φ
  ahead : List Cell

/-- The same pass with cells handed out before. -/
def Passed.prepend {φ : Type} (cells : List Cell) (passed : Passed φ) : Passed φ :=
  { passed with cells := cells ++ passed.cells }

namespace Matcher

variable {φ : Type} [CellFilter φ]

/-- Look at the first cell of a list. -/
def look (matcher : Matcher φ) (cell : Cell) (rest : List Cell) : Look φ :=
  let decision := (matcher.judge cell).1
  let next := (matcher.judge cell).2
  ⟨decision.emitted cell, next, next.goOn cell rest decision⟩

/-- A pass over a list. -/
def passOver (matcher : Matcher φ) (limit : Option Nat) : List Cell → Passed φ
  | [] => ⟨[], .exhausted, matcher, []⟩
  | cell :: rest =>
    let look := matcher.look cell rest
    let limit := ReadState.remainingLimit limit look.emitted
    match _hcourse : look.course with
    | .error ending => ⟨look.emitted.toList, ending, look.next, cell :: rest⟩
    | .ok ahead =>
      if look.emitted.isSome && limit = some 0 then ⟨look.emitted.toList, .more, look.next, ahead⟩
      else (passOver look.next limit ahead).prepend look.emitted.toList
termination_by cells => cells.length
decreasing_by
  have hle := (goOn_suffix _hcourse).length_le
  simp only [List.length_cons]
  omega

variable {matcher : Matcher φ} {limit : Option Nat} {cell : Cell} {rest ahead : List Cell}

@[simp] theorem passOver_nil (matcher : Matcher φ) (limit : Option Nat) :
    matcher.passOver limit [] = ⟨[], .exhausted, matcher, []⟩ := by
  rw [passOver]

theorem passOver_cons_error {ending : PassEnd}
    (hcourse : (matcher.look cell rest).course = .error ending) :
    matcher.passOver limit (cell :: rest) =
      ⟨(matcher.look cell rest).emitted.toList, ending, (matcher.look cell rest).next,
        cell :: rest⟩ := by
  rw [passOver]
  split
  next heq =>
    rw [hcourse] at heq
    cases heq
    rfl
  next heq =>
    rw [hcourse] at heq
    cases heq

theorem passOver_cons_ok (hcourse : (matcher.look cell rest).course = .ok ahead) :
    matcher.passOver limit (cell :: rest) =
      let look := matcher.look cell rest
      let limit := ReadState.remainingLimit limit look.emitted
      if look.emitted.isSome && limit = some 0 then
        ⟨look.emitted.toList, .more, look.next, ahead⟩
      else (look.next.passOver limit ahead).prepend look.emitted.toList := by
  rw [passOver]
  split
  next heq =>
    rw [hcourse] at heq
    cases heq
  next heq =>
    rw [hcourse] at heq
    cases heq
    rfl

/-- A matcher and the cells that are ahead of it: they are stored in one family and ascend,
and none comes before what the matcher remembers. -/
structure Prepared (family : Bytes) (matcher : Matcher φ) (ahead : List Cell) : Prop where
  plain : Plain matcher
  sorted : keys.Sorted ahead
  stored : Cell.StoredIn family ahead
  behind cell row : cell ∈ ahead → matcher.row = some row → row ≤ cell.row
  fits cell : cell ∈ ahead → matcher.row = some cell.row → Fits matcher cell

omit [CellFilter φ] in
theorem Plain.prepared_nil {family : Bytes} (hplain : Plain matcher) :
    Prepared family matcher [] where
  plain := hplain
  sorted := List.Pairwise.nil
  stored _ hcell := absurd hcell List.not_mem_nil
  behind _ _ hcell := absurd hcell List.not_mem_nil
  fits _ hcell := absurd hcell List.not_mem_nil

omit [CellFilter φ] in
theorem Prepared.sublist {family : Bytes} (hprepared : Prepared family matcher ahead)
    {further : List Cell} (hfurther : further.Sublist ahead) : Prepared family matcher further where
  plain := hprepared.plain
  sorted := hprepared.sorted.sublist hfurther
  stored cell hcell := hprepared.stored cell (hfurther.subset hcell)
  behind cell row hcell := hprepared.behind cell row (hfurther.subset hcell)
  fits cell hcell := hprepared.fits cell (hfurther.subset hcell)

/-- A matcher that can look at the cells ahead: it has entered a row. -/
structure Ready (family : Bytes) (matcher : Matcher φ) (ahead : List Cell) : Prop
    extends Prepared family matcher ahead where
  entered : matcher.row.isSome = true

variable {family : Bytes}

/-- A matcher that is ready decides on the next cell, on one of the grounds. -/
theorem Ready.judged (hready : Ready family matcher (cell :: rest)) :
    (matcher.decide cell).value = (.ok (matcher.judge cell).1, (matcher.judge cell).2) ∧
      Judged matcher cell (matcher.judge cell).1 (matcher.judge cell).2 := by
  obtain ⟨decision, next, hdecide, hjudged⟩ := exists_judged hready.plain fun hrow =>
    hready.fits cell List.mem_cons_self (row_eq_of_decideRow hready.plain hrow hready.entered)
  have hjudge : matcher.judge cell = (decision, next) := by rw [judge, hdecide]
  rw [hjudge]
  exact ⟨hdecide, hjudged⟩

omit [CellFilter φ] in
theorem Ready.isReal (hready : Ready family matcher (cell :: rest)) : cell.IsReal :=
  (hready.stored cell List.mem_cons_self).1

omit [CellFilter φ] in
/-- Where a matcher has decided on a cell, and remembers something of it only if it is one of the
current row, it is prepared for what comes after. -/
theorem Prepared.onwards {next : Matcher φ} (hprepared : Prepared family matcher (cell :: rest))
    (hplain : Plain next) (hrow : next.row = matcher.row)
    (hhere : matcher.row = some cell.row → Fits next cell)
    (helsewhere : matcher.row ≠ some cell.row → next = matcher) (hahead : ahead <:+ rest) :
    Prepared family next ahead := by
  obtain ⟨hfirst, hrest⟩ := List.pairwise_cons.mp hprepared.sorted
  have hmem (other : Cell) (hother : other ∈ ahead) : other ∈ cell :: rest :=
    List.mem_cons_of_mem _ (hahead.subset hother)
  refine ⟨hplain, hrest.sublist hahead.sublist,
    fun other hother => hprepared.stored other (hmem other hother), ?_, ?_⟩
  · intro other row hother hentered
    exact hprepared.behind other row (hmem other hother) (hrow.symm.trans hentered)
  · intro other hother hentered
    have hentered : matcher.row = some other.row := hrow.symm.trans hentered
    by_cases hsame : matcher.row = some cell.row
    · have hcell := hprepared.stored cell List.mem_cons_self
      have hstored := hprepared.stored other (hmem other hother)
      refine (hhere hsame).mono (Cell.qualifier_le_of_isLE hcell.1.not_lastOnRow
        hstored.1.not_lastOnRow ?_ (hcell.2.trans hstored.2.symm)
        (hfirst other (hahead.subset hother)))
      rw [hsame] at hentered
      exact Option.some.inj hentered
    · rw [helsewhere hsame]
      exact hprepared.fits other (hmem other hother) hentered

/-- A look leaves the matcher ready for what it goes on with. -/
theorem Ready.look (hready : Ready family matcher (cell :: rest))
    (hcourse : (matcher.look cell rest).course = .ok ahead) :
    Ready family (matcher.look cell rest).next ahead := by
  obtain ⟨-, hjudged⟩ := hready.judged
  have hrow := row_of_reset hjudged.reset_eq
  refine ⟨hready.onwards (hjudged.plain hready.plain) hrow ?_ ?_ (goOn_suffix hcourse), ?_⟩
  · exact fun hsame => hjudged.fits (hready.fits cell List.mem_cons_self hsame)
  · exact fun hother => (hjudged.of_row_ne hready.plain hready.entered hother).2
  · exact (congrArg _ hrow).trans hready.entered

/-- A settled cell is passed over, and nothing changes. -/
theorem Settled.look (hsettled : Settled matcher cell) (hreal : cell.IsReal) (rest : List Cell) :
    matcher.look cell rest = ⟨none, matcher, .ok rest⟩ := by
  have hdecide := hsettled.skips cell hreal Std.ReflCmp.compare_self
  have hjudge : matcher.judge cell = (.skip, matcher) := by rw [judge, hdecide]
  rw [Matcher.look, hjudge]
  rfl

/-- Where values only are handed out, a cell from which the pass goes on at the next one is
settled. -/
theorem Ready.settled (hready : Ready family matcher (cell :: rest))
    (hvalues : matcher.retainDeletes = false)
    (hstays : (matcher.judge cell).1 = .emit ∨ (matcher.judge cell).1 = .skip) :
    Settled (matcher.judge cell).2 cell := by
  have hjudged := hready.judged.2
  have hrow := row_eq_of_decideRow hready.plain (hjudged.looked_of_stays hstays) hready.entered
  exact hjudged.settled hready.plain hvalues (hready.fits cell List.mem_cons_self hrow)
    hready.isReal hrow hstays

/-- Where values only are handed out, a look leaves only later cells and copies of the cell,
which it has settled. -/
theorem Ready.past_look (hready : Ready family matcher (cell :: rest))
    (hvalues : matcher.retainDeletes = false)
    (hcourse : (matcher.look cell rest).course = .ok ahead) {other : Cell}
    (hother : other ∈ ahead) :
    Cell.compareKeys cell other = .lt ∨
      Cell.compareKeys cell other = .eq ∧ Settled (matcher.look cell rest).next other := by
  have hjudged := hready.judged.2
  obtain ⟨hfirst, hrest⟩ := List.pairwise_cons.mp hready.sorted
  simp only [Matcher.look] at hcourse ⊢
  rcases hjudged.goOn_cases hready.plain hready.isReal with
    ⟨hstays, hgoOn⟩ | ⟨key, hlt, hgoOn⟩ | ⟨ending, hgoOn⟩
  · -- what comes next may be a copy of the cell, which is settled now
    obtain rfl : rest = ahead := Except.ok.inj ((hgoOn rest).symm.trans hcourse)
    have hle := hfirst other hother
    rw [Cell.compare_keys] at hle
    cases hcompare : Cell.compareKeys cell other with
    | lt => exact .inl rfl
    | eq =>
        have hstored := hready.stored other (List.mem_cons_of_mem _ hother)
        exact .inr ⟨rfl, (hready.settled hvalues hstays).congr hstored.1 hready.isReal
          (Std.OrientedCmp.eq_symm hcompare)⟩
    | gt => rw [hcompare] at hle; cases hle
  · -- a seek leads behind the cell
    obtain rfl : keys.skipTo key rest = ahead :=
      Except.ok.inj ((hgoOn rest).symm.trans hcourse)
    exact .inl (Std.TransCmp.lt_of_lt_of_isLE hlt (le_of_mem_skipTo hrest hother))
  · cases (hgoOn rest).symm.trans hcourse

/-- Where a look ends the pass but not the scan, it found the row of the pass complete, and
nothing has changed. -/
theorem Ready.look_more (hready : Ready family matcher (cell :: rest))
    (hcourse : (matcher.look cell rest).course = .error .more) :
    (matcher.look cell rest).emitted = none ∧ (matcher.look cell rest).next = matcher := by
  rcases goOn_error hcourse with ⟨-, hdecision⟩ | hending
  · have hjudged := hready.judged.2
    rw [hdecision] at hjudged
    refine ⟨?_, (hjudged.of_done (.inl rfl)).1⟩
    simp only [Matcher.look, hdecision]
    rfl
  · cases hending

/-- Induction over the cells that a pass looks at. A look may lead past any number of cells. -/
@[elab_as_elim]
theorem look_induction {motive : Matcher φ → List Cell → Prop}
    (nil : ∀ matcher, motive matcher [])
    (ends : ∀ matcher cell rest ending, (matcher.look cell rest).course = .error ending →
      motive matcher (cell :: rest))
    (goOn : ∀ matcher cell rest ahead, (matcher.look cell rest).course = .ok ahead →
      motive (matcher.look cell rest).next ahead → motive matcher (cell :: rest))
    (matcher : Matcher φ) (ahead : List Cell) : motive matcher ahead := by
  induction hlength : ahead.length using Nat.strongRecOn generalizing matcher ahead with
  | ind length ih =>
      cases ahead with
      | nil => exact nil matcher
      | cons cell rest =>
          cases hcourse : (matcher.look cell rest).course with
          | error ending => exact ends matcher cell rest ending hcourse
          | ok ahead =>
              have hshorter := (goOn_suffix hcourse).length_le
              exact goOn matcher cell rest ahead hcourse
                (ih ahead.length (by rw [← hlength, List.length_cons]; omega) _ _ rfl)

/-- What is known after a pass, where `Over` is known if it has ended the scan and `Holds`
if it has not. Both are about the cells handed out so far. -/
def Leaves (Holds : List Cell → Matcher φ → List Cell → Prop)
    (Over : List Cell → Matcher φ → Prop) (done : List Cell) (passed : Passed φ) : Prop :=
  if passed.ending = .scanDone then Over (done ++ passed.cells) passed.matcher
  else Holds (done ++ passed.cells) passed.matcher passed.ahead

/-- What every look preserves is preserved by a pass. -/
theorem Ready.passOver {Holds : List Cell → Matcher φ → List Cell → Prop}
    {Over : List Cell → Matcher φ → Prop}
    (hlook : ∀ {done matcher cell rest ahead}, Ready family matcher (cell :: rest) →
      Holds done matcher (cell :: rest) → (matcher.look cell rest).course = .ok ahead →
      Holds (done ++ (matcher.look cell rest).emitted.toList) (matcher.look cell rest).next ahead)
    (hover : ∀ {done matcher cell rest}, Ready family matcher (cell :: rest) →
      Holds done matcher (cell :: rest) → (matcher.look cell rest).course = .error .scanDone →
      Over (done ++ (matcher.look cell rest).emitted.toList) (matcher.look cell rest).next)
    {done : List Cell} (hready : Ready family matcher ahead) (hholds : Holds done matcher ahead) :
    Leaves Holds Over done (matcher.passOver limit ahead) := by
  induction matcher, ahead using look_induction generalizing limit done with
  | nil matcher =>
      rw [passOver_nil, Leaves, if_neg (by simp)]
      simpa using hholds
  | ends matcher cell rest ending hcourse =>
      rw [passOver_cons_error hcourse, Leaves]
      rcases goOn_error hcourse with ⟨rfl, -⟩ | rfl
      · obtain ⟨hemitted, hnext⟩ := hready.look_more hcourse
        rw [if_neg (by simp)]
        simpa [hemitted, hnext] using hholds
      · rw [if_pos rfl]
        exact hover hready hholds hcourse
  | goOn matcher cell rest ahead hcourse ih =>
      have hnext := hlook hready hholds hcourse
      rw [passOver_cons_ok hcourse]
      simp only
      split
      · rw [Leaves, if_neg (by simp)]
        exact hnext
      · have hrest := @ih (ReadState.remainingLimit limit (matcher.look cell rest).emitted) _
          (hready.look hcourse) hnext
        rw [Leaves, List.append_assoc] at hrest
        exact hrest

/-- A pass leaves the matcher ready to go on where it ended. -/
theorem Ready.passed (hready : Ready family matcher ahead)
    (hending : (matcher.passOver limit ahead).ending ≠ .scanDone) :
    Ready family (matcher.passOver limit ahead).matcher (matcher.passOver limit ahead).ahead := by
  have hleaves : Leaves (fun _ => Ready family) (fun _ _ => True) []
      (matcher.passOver limit ahead) :=
    hready.passOver (fun hready _ hcourse => hready.look hcourse) (fun _ _ _ => trivial) hready
  rwa [Leaves, if_neg hending] at hleaves

theorem Ready.passed_plain (hready : Ready family matcher ahead) (limit : Option Nat) :
    Plain (matcher.passOver limit ahead).matcher := by
  have hleaves : Leaves (fun _ matcher _ => Plain matcher) (fun _ => Plain) []
      (matcher.passOver limit ahead) :=
    hready.passOver (fun hready hplain _ => hready.judged.2.plain hplain)
      (fun hready hplain _ => hready.judged.2.plain hplain) hready.plain
  unfold Leaves at hleaves
  split at hleaves <;> exact hleaves

end Matcher

namespace ReadState

variable {σ φ : Type} [Source σ] [LawfulSource σ keys] [CellFilter φ]

/-- A state that reads a list with a matcher, and in which no source will fail. -/
structure Reads (state : ReadState σ φ) (matcher : Matcher φ) (ahead : List Cell) : Prop where
  matcher : state.matcher = matcher
  sound : Merge.Sound keys state.merge
  reliable : Merge.Reliable keys state.merge
  stream : state.merge.stream = ahead

variable {state : ReadState σ φ} {matcher : Matcher φ} {cell key : Cell} {rest ahead : List Cell}
variable {family : Bytes}

omit [CellFilter φ] in
theorem Reads.holds (hreads : Reads state matcher ahead) : Holds True state matcher ahead :=
  ⟨hreads.matcher, hreads.sound, hreads.stream, fun _ => hreads.reliable⟩

/-- What becomes of a state when it follows a look. -/
def Follows (state : ReadState σ φ) (look : Look φ)
    (outcome : Except ScanError Turn × ReadState σ φ) : Prop :=
  match look.course with
  | .ok ahead => ∃ next, outcome = (.ok (.goOn look.emitted), next) ∧ Reads next look.next ahead
  | .error ending => outcome = (.ok (.stop look.emitted ending), state)

omit [CellFilter φ] in
/-- Where no source fails, a state follows a look. -/
theorem Goes.follows {look : Look φ} {outcome : Except ScanError Turn × ReadState σ φ}
    (hgoes : Goes True state look outcome) : Follows state look outcome := by
  have hok := hgoes.succeeds trivial
  obtain ⟨_ | turn, next⟩ := outcome
  · cases hok
  unfold Follows
  split
  next ahead hcourse =>
    obtain ⟨rfl, hholds⟩ := hgoes.goesOn turn next ahead rfl hcourse
    exact ⟨next, rfl, hholds.matcher, hholds.sound, hholds.reliable trivial, hholds.stream⟩
  next ending hcourse =>
    obtain ⟨rfl, rfl⟩ := hgoes.stops turn next ending rfl hcourse
    rfl

omit [CellFilter φ] in
theorem Reads.offers (hreads : Reads state matcher ahead) : state.merge.Offers keys ahead :=
  ⟨hreads.sound, hreads.reliable, hreads.stream⟩

omit [CellFilter φ] in
/-- With any matcher, a state reads what its merge offers. -/
theorem Reads.of_offers {merge : Merge σ} (hoffers : merge.Offers keys ahead)
    (matcher : Matcher φ) : Reads ⟨merge, matcher⟩ matcher ahead :=
  ⟨rfl, hoffers.sound, hoffers.reliable, hoffers.stream⟩

/-- The program does with the cell on top what a look at the list says. -/
theorem Reads.follow (hready : matcher.Ready family (cell :: rest))
    (hreads : Reads state (matcher.judge cell).2 (cell :: rest)) :
    Follows state (matcher.look cell rest)
      (state.follow cell (matcher.judge cell).1).value := by
  have hjudged := hready.judged.2
  have hreshape := Matcher.reshape_unfiltered (hjudged.plain hready.plain).filter cell
  have hfollow := hreads.holds.follow hready.isReal
    (hjudged.lt_nextColumnKey hready.plain hready.isReal) hjudged.ne_seekTo
  rw [hreshape] at hfollow
  exact hfollow.follows

/-- A turn is a look at the list. -/
theorem Reads.turn (hready : matcher.Ready family (cell :: rest))
    (hreads : Reads state matcher (cell :: rest)) {previous : Option Cell}
    (hprevious : ∀ last, previous = some last → (Cell.compareKeys last cell).isLE = true) :
    Follows { state with matcher := (matcher.judge cell).2 } (matcher.look cell rest)
      (state.turn previous cell).value := by
  rw [hreads.holds.turn_eq hprevious hready.judged.1]
  exact (Reads.of_offers hreads.offers (matcher.judge cell).2).follow hready

/-- The turns of a pass are the pass over the list of the merge, and end where it ends. -/
theorem Reads.turns {fuel : Nat} {limit : Option Nat} {previous : Option Cell}
    (hready : matcher.Ready family ahead) (hreads : Reads state matcher ahead)
    (hprevious : ∀ last, previous = some last →
      ∀ cell ∈ ahead, (Cell.compareKeys last cell).isLE = true)
    (hfuel : ahead.length < fuel) :
    let passed := matcher.passOver limit ahead
    ∃ next, (turns previous limit fuel state).value = (.ok (passed.cells, passed.ending), next) ∧
      Reads next passed.matcher passed.ahead := by
  induction fuel generalizing state matcher limit previous ahead with
  | zero => omega
  | succ fuel ih =>
      have hpeek := hreads.holds.peek_eq
      cases ahead with
      | nil =>
          simp only [ReadState.turns, hpeek, List.head?_nil, Matcher.passOver_nil]
          exact ⟨state, rfl, hreads⟩
      | cons cell rest =>
          have hturn := hreads.turn hready fun last hlast =>
            hprevious last hlast cell List.mem_cons_self
          simp only [ReadState.turns, hpeek, List.head?_cons, Noted.value_bind]
          unfold Follows at hturn
          cases hcourse : (matcher.look cell rest).course with
          | error ending =>
              simp only [hcourse] at hturn
              rw [Matcher.passOver_cons_error hcourse, hturn]
              exact ⟨_, rfl, .of_offers hreads.offers _⟩
          | ok ahead =>
              simp only [hcourse] at hturn
              obtain ⟨after, hafter, hnext⟩ := hturn
              rw [Matcher.passOver_cons_ok hcourse, hafter]
              simp only
              split
              · exact ⟨after, rfl, hnext⟩
              · obtain ⟨hfirst, -⟩ := List.pairwise_cons.mp hready.sorted
                have hsuffix : ahead <:+ rest := Matcher.goOn_suffix hcourse
                have hlength := hsuffix.length_le
                rw [List.length_cons] at hfuel
                obtain ⟨last, hlast, hreads⟩ := @ih after _ _
                  (remainingLimit limit (matcher.look cell rest).emitted) (some cell)
                  (hready.look hcourse) hnext
                  (by rintro _ ⟨⟩ other hother; exact hfirst other (hsuffix.subset hother))
                  (by omega)
                refine ⟨last, ?_, hreads⟩
                simp only [Noted.value_map, hlast]
                rfl

/-- A pass over a merge is the pass over its list. -/
theorem Reads.pass (hready : matcher.Ready family ahead) (hreads : Reads state matcher ahead)
    (limit : Option Nat) :
    let passed := matcher.passOver limit ahead
    ∃ next, (state.pass limit).value = (.ok (passed.cells, passed.ending), next) ∧
      Reads next passed.matcher passed.ahead := by
  have hfuel : ahead.length < 2 * state.merge.cellCount + 1 := by
    rw [Merge.cellCount_eq, hreads.stream]
    omega
  exact hreads.turns hready (by rintro _ ⟨⟩) hfuel

end ReadState

end MergeScan
