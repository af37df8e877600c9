import MergeScan.Proofs.Scanner.Released
import MergeScan.Session.Desk

/-! # What a desk still has to do

The sources that a store hands out can be closed at any time. So the scanners of a desk close
them without a failure, whatever is asked of them, and the journal balances: what was handed
out and is not closed is held by a scanner of the desk, and so is what goes on to be told of
changes.
-/

namespace MergeScan

/-! ## Journals that balance -/

/-- Whether nothing else is due than to report the failures that scans ended with. -/
def OnlyCauses (dues : Multiset Due) : Prop :=
  ∀ due ∈ dues, ∃ failure, due = .cause failure

namespace OnlyCauses

variable {first second : Multiset Due}

theorem zero : OnlyCauses 0 :=
  fun _ hdue => absurd hdue (Multiset.notMem_zero _)

theorem add (hfirst : OnlyCauses first) (hsecond : OnlyCauses second) :
    OnlyCauses (first + second) := by
  intro due hdue
  rcases Multiset.mem_add.mp hdue with hmem | hmem
  · exact hfirst due hmem
  · exact hsecond due hmem

theorem count_eq_zero (hcauses : OnlyCauses first) {due : Due}
    (hdue : ∀ failure, due ≠ .cause failure) : first.count due = 0 := by
  refine Multiset.count_eq_zero.mpr fun hmem => ?_
  obtain ⟨failure, rfl⟩ := hcauses due hmem
  exact hdue failure rfl

/-- An answer that reports no failure to close a source reports at most a cause. -/
theorem reported {α : Type} {answer : Except ScanError α} (hlone : ScanError.Lone answer) :
    OnlyCauses (ScanError.reported answer) := by
  cases answer with
  | ok => exact zero
  | error failure =>
      cases failure with
      | source failure suppressed =>
          obtain rfl : suppressed = [] := hlone
          intro due hdue
          exact ⟨failure, Multiset.mem_singleton.mp hdue⟩
      | close failures =>
          obtain rfl : failures = [] := hlone
          exact zero
      | _ => exact zero

end OnlyCauses

/-- How a journal leads from what was due to what is due, the failures that scans ended with
aside. -/
def Balances (before : Multiset Due) (notes : List Note) (after : Multiset Due) : Prop :=
  ∃ causes, OnlyCauses causes ∧ Settles before notes (after + causes)

namespace Balances

variable {before middle after : Multiset Due} {first second notes : List Note}

theorem of_settles (hsettles : Settles before notes after) : Balances before notes after :=
  ⟨0, .zero, by rwa [add_zero]⟩

theorem nil (dues : Multiset Due) : Balances dues [] dues :=
  .of_settles (.nil dues)

theorem trans (hfirst : Balances before first middle) (hsecond : Balances middle second after) :
    Balances before (first ++ second) after := by
  obtain ⟨causes, hcauses, hfirst⟩ := hfirst
  obtain ⟨others, hothers, hsecond⟩ := hsecond
  refine ⟨others + causes, hothers.add hcauses, ?_⟩
  rw [← add_assoc]
  exact hfirst.trans (hsecond.frame causes)

/-- What else is due stays so. -/
theorem frame (hnotes : Balances before notes after) (others : Multiset Due) :
    Balances (before + others) notes (after + others) := by
  obtain ⟨causes, hcauses, hnotes⟩ := hnotes
  refine ⟨causes, hcauses, ?_⟩
  rw [add_right_comm]
  exact hnotes.frame others

theorem bind {α β : Type} {first : Noted α} {next : α → Noted β}
    (hfirst : Balances before first.notes middle)
    (hnext : Balances middle (next first.value).notes after) :
    Balances before (first >>= next).notes after :=
  hfirst.trans hnext

theorem of_eq (hnotes : Balances middle notes after) (heq : before = middle) :
    Balances before notes after :=
  heq ▸ hnotes

theorem trans_eq (hnotes : Balances before notes middle) (heq : middle = after) :
    Balances before notes after :=
  heq ▸ hnotes

theorem raised (event : Event) (dues : Multiset Due) : Balances dues [.raised event] dues :=
  .of_settles (Noted.settles_raise event dues)

theorem count_source (hnotes : Balances before notes after) (origin : Origin) :
    after.count (.source origin) + notes.countP (Note.isCall origin .close) =
      before.count (.source origin) + notes.countP (· = .opened origin) := by
  obtain ⟨causes, hcauses, hnotes⟩ := hnotes
  have hcount := hnotes.count_source origin
  rwa [Multiset.count_add, hcauses.count_eq_zero fun _ => Due.noConfusion, add_zero] at hcount

theorem count_lost (hnotes : Balances before notes after) (origin : Origin) :
    after.count (.lost origin) =
      before.count (.lost origin) + notes.countP (· = .abandoned origin) := by
  obtain ⟨causes, hcauses, hnotes⟩ := hnotes
  have hcount := hnotes.count_lost origin
  rwa [Multiset.count_add, hcauses.count_eq_zero fun _ => Due.noConfusion, add_zero] at hcount

theorem count_closeFailure (hnotes : Balances before notes after) (failure : SourceError) :
    after.count (.closeFailure failure) =
      before.count (.closeFailure failure) + (closeFailures notes).count failure := by
  obtain ⟨causes, hcauses, hnotes⟩ := hnotes
  have hcount := hnotes.count_closeFailure failure
  rwa [Multiset.count_add, hcauses.count_eq_zero fun _ => Due.noConfusion, add_zero] at hcount

theorem count_subscription (hnotes : Balances before notes after) (number : Nat) :
    after.count (.subscription number) + (endedSubscriptions notes).count number =
      before.count (.subscription number) := by
  obtain ⟨causes, hcauses, hnotes⟩ := hnotes
  have hcount := hnotes.count_subscription number
  rw [Multiset.count_add, hcauses.count_eq_zero fun _ => Due.noConfusion, add_zero] at hcount
  rw [← hcount, count_endedSubscriptions]

end Balances

/-! ## Scanners -/

namespace Scanner

section

variable {φ : Type} [CellFilter φ] {scanner : Scanner AnySource φ}
variable {supply : Option (Supply AnySource)}

omit [CellFilter φ] in
/-- What is answered without a failure to close a source is off the books. -/
theorem balances_of_lone {α : Type} {before : Multiset Due}
    {outcome : Noted (Except ScanError α × Scanner AnySource φ)}
    (hlone : ScanError.Lone outcome.value.1) (hsettles : outcome.Settles before answeredDues) :
    Balances before outcome.notes outcome.value.2.dues :=
  ⟨_, .reported hlone, hsettles⟩

theorem Calm.pages_balances (hcalm : scanner.Calm AnySource.IsOpen)
    (hsupply : ∀ provider ∈ supply, provider.Holds AnySource.IsOpen) (limit : ReadLimit)
    (count : Nat) :
    Balances scanner.dues (Scanner.pages supply limit count scanner).notes
      (Scanner.pages supply limit count scanner).value.2.dues := by
  have hlone := (hcalm.pages AnySource.open_closable hsupply limit count).2
  refine ⟨_, ?_, pages_settles supply limit count scanner⟩
  generalize (Scanner.pages supply limit count scanner).value.1 = answers at hlone ⊢
  induction answers with
  | nil => exact .zero
  | cons answer rest ih =>
      obtain ⟨hanswer, hrest⟩ := List.forall_mem_cons.mp hlone
      rw [List.map_cons, List.sum_cons]
      exact .add (.reported hanswer) (ih hrest)

omit [CellFilter φ] in
/-- To drop a scanner whose sources can be closed leaves nothing to do. -/
theorem Calm.drop_balances (hcalm : scanner.Calm AnySource.IsOpen) :
    Balances scanner.dues scanner.drop.notes 0 := by
  have hsettles := scanner.drop_settles
  rw [(hcalm.release AnySource.open_closable).suppressed] at hsettles
  exact .of_settles hsettles

omit [CellFilter φ] in
theorem dues_of_ended (hended : scanner.Ended) (hsuppressed : scanner.suppressed = []) :
    scanner.dues = 0 := by
  rw [dues, keptDues, hended.1, hended.2, hsuppressed]
  rfl

omit [CellFilter φ] in
theorem Calm.close_balances (hcalm : scanner.Calm AnySource.IsOpen) :
    Balances scanner.dues scanner.close.notes 0 := by
  have hended : scanner.close.value.2.Ended := release_ended scanner
  have hsettles := scanner.close_settles
  rw [Noted.Settles, hcalm.close AnySource.open_closable, dues_of_ended hended rfl] at hsettles
  exact .of_settles hsettles

end

/-- A scanner over sources that can be closed, which is told of changes until it ends. -/
structure Tidy (scanner : DeskScanner) : Prop where
  calm : scanner.Calm AnySource.IsOpen
  subscribed : ∃ number, scanner.SubscribedAs (some number)

/-- What is asked of a scanner leaves it tidy, and the journal balances. -/
structure Tidies {α : Type} (scanner : DeskScanner) (outcome : Noted (α × DeskScanner)) :
    Prop where
  tidy : outcome.value.2.Tidy
  balances : Balances scanner.dues outcome.notes outcome.value.2.dues

variable {scanner : DeskScanner} {supply : Option (Supply AnySource)}

theorem Tidy.subscription_eq_none_iff (htidy : scanner.Tidy) :
    scanner.subscription = none ↔ scanner.isClosed = true := by
  obtain ⟨number, hsubscribed⟩ := htidy.subscribed
  constructor
  · intro hnone
    by_contra hopen
    have hlasting : scanner.phase ≠ .closed := fun hclosed => hopen (by rw [isClosed, hclosed])
    cases hnone.symm.trans (hsubscribed.lasting hlasting)
  · exact fun hclosed => hsubscribed.ended (phase_of_isClosed hclosed)

/-- A tidy scanner has to close its sources and to end its subscription, and nothing to report. -/
theorem Tidy.of_mem_dues (htidy : scanner.Tidy) {due : Due} (hdue : due ∈ scanner.dues) :
    (∃ origin, due = .source origin) ∨ ∃ number, due = .subscription number := by
  rcases Multiset.mem_add.mp hdue with hphase | hkept
  · left
    cases hactive : scanner.phase with
    | active merge =>
        rw [hactive, Phase.dues, Merge.dues, (htidy.calm.merge merge hactive).failures,
          Due.closeFailures_nil, add_zero] at hphase
        obtain ⟨source, -, rfl⟩ := List.mem_map.mp (Multiset.mem_coe.mp hphase)
        exact ⟨_, rfl⟩
    | resync key => rw [hactive] at hphase; cases hphase
    | closed => rw [hactive] at hphase; cases hphase
  · right
    rw [keptDues, htidy.calm.suppressed, Due.closeFailures_nil, zero_add] at hkept
    obtain ⟨number, -, rfl⟩ := List.mem_map.mp (Multiset.mem_coe.mp hkept)
    exact ⟨number, rfl⟩

theorem Tidy.unchanged {α : Type} (htidy : scanner.Tidy) (answer : α) :
    scanner.Tidies (pure (answer, scanner)) :=
  ⟨htidy, .nil scanner.dues⟩

theorem Tidies.answer {α β : Type} {outcome : Noted (α × DeskScanner)}
    (houtcome : scanner.Tidies outcome) (answer : α × DeskScanner → β) :
    scanner.Tidies (outcome >>= fun reached => pure (answer reached, reached.2)) :=
  ⟨houtcome.tidy, houtcome.balances.trans (.nil _)⟩

theorem CalmAnswer.tidies {α : Type} {number : Nat}
    {outcome : Noted (Except ScanError α × DeskScanner)}
    (hcalm : CalmAnswer AnySource.IsOpen outcome.value)
    (hsubscribed : outcome.value.2.SubscribedAs (some number))
    (hsettles : outcome.Settles scanner.dues answeredDues) : scanner.Tidies outcome :=
  ⟨⟨hcalm.calm, number, hsubscribed⟩, balances_of_lone hcalm.lone hsettles⟩

theorem Tidy.close (htidy : scanner.Tidy) : scanner.Tidies scanner.close := by
  have hreleased := htidy.calm.release AnySource.open_closable
  obtain ⟨number, -⟩ := htidy.subscribed
  have hended : scanner.close.value.2.Ended := release_ended scanner
  exact ⟨⟨⟨rfl, hreleased.merge⟩, number, hended.subscribedAs _⟩,
    htidy.calm.close_balances.trans_eq (dues_of_ended hended rfl).symm⟩

theorem Tidy.sourcesChanged (htidy : scanner.Tidy) :
    scanner.sourcesChanged.value.Tidy ∧
      Balances scanner.dues scanner.sourcesChanged.notes scanner.sourcesChanged.value.dues := by
  obtain ⟨number, hsubscribed⟩ := htidy.subscribed
  exact ⟨⟨htidy.calm.sourcesChanged AnySource.open_closable, number,
    subscribedAs_sourcesChanged hsubscribed⟩, .of_settles scanner.sourcesChanged_settles⟩

section

variable (htidy : scanner.Tidy) (hsupply : ∀ provider ∈ supply, provider.Holds AnySource.IsOpen)

include htidy hsupply

theorem Tidy.next (limit : ReadLimit) : scanner.Tidies (scanner.next supply limit) := by
  obtain ⟨number, hsubscribed⟩ := htidy.subscribed
  exact (htidy.calm.next AnySource.open_closable hsupply limit).tidies
    (subscribedAs_next hsubscribed supply limit) (scanner.next_settles supply limit)

theorem Tidy.seek (key : Cell) : scanner.Tidies (scanner.seek supply key) := by
  obtain ⟨number, hsubscribed⟩ := htidy.subscribed
  exact (htidy.calm.seek AnySource.open_closable hsupply key).tidies
    (subscribedAs_seek hsubscribed supply key) (scanner.seek_settles supply key)

theorem Tidy.reseek (key : Cell) : scanner.Tidies (scanner.reseek supply key) := by
  obtain ⟨number, hsubscribed⟩ := htidy.subscribed
  exact (htidy.calm.reseek AnySource.open_closable hsupply key).tidies
    (subscribedAs_reseek hsubscribed supply key) (scanner.reseek_settles supply key)

theorem Tidy.pages (limit : ReadLimit) (count : Nat) :
    scanner.Tidies (Scanner.pages supply limit count scanner) := by
  obtain ⟨number, hsubscribed⟩ := htidy.subscribed
  exact ⟨⟨(htidy.calm.pages AnySource.open_closable hsupply limit count).1, number,
    subscribedAs_pages hsubscribed supply limit count⟩,
    htidy.calm.pages_balances hsupply limit count⟩

end

/-- Whether a scanner holds no source. -/
def Resting (scanner : DeskScanner) : Prop :=
  ∀ merge, scanner.phase = .active merge → merge.entries = []

theorem resting_of_closed (hclosed : scanner.isClosed = true) : scanner.Resting := by
  intro merge hactive
  rw [phase_of_isClosed hclosed] at hactive
  cases hactive

/-- A scanner that was told of a change holds no source. -/
theorem Tidy.resting (htidy : scanner.Tidy) : scanner.sourcesChanged.value.Resting := by
  unfold Scanner.sourcesChanged
  split
  next merge hactive =>
    split
    next hpeek =>
      intro other hother
      obtain rfl : merge = other := by
        rw [Noted.value_pure, hactive] at hother
        exact Phase.active.inj hother
      have hidle : merge.current = none := Option.map_eq_none_iff.mp hpeek
      rw [Merge.entries, hidle, (htidy.calm.merge merge hactive).idle hidle]
      rfl
    next => rintro _ ⟨⟩
  next hactive => exact fun merge hmerge => absurd hmerge (hactive merge)

theorem Resting.count_dues (hresting : scanner.Resting) (origin : Origin) :
    scanner.dues.count (.source origin) = 0 := by
  have hphase : scanner.phase.dues.count (.source origin) = 0 := by
    cases hphase : scanner.phase with
    | active merge => simp [Phase.dues, Merge.dues, hresting merge hphase]
    | resync key => exact Multiset.count_zero _
    | closed => exact Multiset.count_zero _
  rw [dues, keptDues, Multiset.count_add, Multiset.count_add, hphase,
    Due.count_source_closeFailures]
  cases scanner.subscription <;> simp

section Refreshing

variable (generation : Nat) (written : Buffer)

/-- A source that is shown a write stays open, and the one it is. -/
theorem refresh_source (source : AnySource) :
    (source.IsOpen → (source.refresh generation written).IsOpen) ∧
      Source.due (source.refresh generation written) = Source.due source := by
  cases source with
  | run reader => exact ⟨id, rfl⟩
  | buffer cursor =>
      have hrefresh : (cursor.refresh generation written).closed = cursor.closed ∧
          (cursor.refresh generation written).generation = cursor.generation := by
        unfold BufferCursor.refresh
        split <;> exact ⟨rfl, rfl⟩
      exact ⟨hrefresh.1.trans, congrArg (Due.source ∘ Origin.buffer) hrefresh.2⟩
  | scripted source => exact ⟨id, rfl⟩

theorem entries_mapSources (merge : Merge AnySource) (change : AnySource → AnySource) :
    (merge.mapSources change).entries = merge.entries.map (MergeEntry.mapSource change) := by
  unfold Merge.mapSources Merge.entries PriorityQueue.toList
  cases merge.current <;> simp

/-- A write leaves scanners tidy, and changes nothing of what they have to do. -/
theorem Tidy.refresh (htidy : scanner.Tidy) :
    (scanner.mapSources (AnySource.refresh generation written)).Tidy ∧
      (scanner.mapSources (AnySource.refresh generation written)).dues = scanner.dues := by
  unfold mapSources
  split
  next merge hactive =>
    obtain ⟨number, hsubscribed⟩ := htidy.subscribed
    have hcalm := htidy.calm.merge merge hactive
    refine ⟨⟨⟨htidy.calm.suppressed, ?_⟩, number, ?_⟩, ?_⟩
    · rintro _ ⟨⟩
      refine ⟨⟨hcalm.failures, fun entry hentry => ?_⟩, fun hidle => ?_⟩
      · rw [entries_mapSources] at hentry
        obtain ⟨other, hother, rfl⟩ := List.mem_map.mp hentry
        exact (refresh_source generation written other.source).1 (hcalm.held other hother)
      · have hnone := hcalm.idle (Option.map_eq_none_iff.mp hidle)
        simpa [Merge.mapSources, PriorityQueue.toList] using hnone
    · exact subscribedAs_of_lasting (by simp) (hsubscribed.lasting (by simp [hactive]))
    · rw [dues_of_active hactive]
      refine congrArg (· + scanner.keptDues) (congrArg (· + _) ?_)
      rw [entries_mapSources, List.map_map, Source.dues, Source.dues, List.map_map, List.map_map]
      refine congrArg _ (List.map_congr_left fun entry _ => ?_)
      exact (refresh_source generation written entry.source).2
  next => exact ⟨htidy, rfl⟩

end Refreshing

end Scanner

/-! ## Desks -/

namespace Desk

/-- The scanners of a desk that were not given up. -/
def scanners (desk : Desk) : List DeskScanner :=
  desk.filterMap fun (_, slot) => slot.scanner

/-- What scanners have to do. -/
def duesOf (scanners : List DeskScanner) : Multiset Due :=
  (scanners.map Scanner.dues).sum

/-- What is due from the scanners of a desk. -/
def dues (desk : Desk) : Multiset Due :=
  duesOf desk.scanners

/-- A desk of tidy scanners. -/
def Tidy (desk : Desk) : Prop :=
  ∀ scanner ∈ desk.scanners, scanner.Tidy

variable {desk after : Desk} {name : String} {supply : Option (Supply AnySource)}
variable {notes : List Note} {olds news others : List DeskScanner} {incoming : Multiset Due}

theorem duesOf_append (first second : List DeskScanner) :
    duesOf (first ++ second) = duesOf first + duesOf second := by
  rw [duesOf, List.map_append, List.sum_append]
  rfl

theorem duesOf_singleton (scanner : DeskScanner) : duesOf [scanner] = scanner.dues :=
  add_zero _

theorem exists_of_mem_dues {due : Due} (hdue : due ∈ desk.dues) :
    ∃ scanner ∈ desk.scanners, due ∈ scanner.dues := by
  rw [dues, duesOf] at hdue
  generalize desk.scanners = scanners at hdue ⊢
  induction scanners with
  | nil => exact absurd hdue (Multiset.notMem_zero due)
  | cons scanner rest ih =>
      rw [List.map_cons, List.sum_cons] at hdue
      rcases Multiset.mem_add.mp hdue with hfirst | hlater
      · exact ⟨scanner, List.mem_cons_self, hfirst⟩
      · obtain ⟨other, hother, hmem⟩ := ih hlater
        exact ⟨other, List.mem_cons_of_mem _ hother, hmem⟩

theorem scanners_cons (name : String) (slot : Slot) (rest : Desk) :
    scanners ((name, slot) :: rest) = slot.scanner.toList ++ scanners rest := by
  obtain ⟨_ | scanner, scripted, notes⟩ := slot <;> rfl

/-- What is put under a name takes the place of the scanner of that name alone. -/
theorem scanners_put (desk : Desk) (name : String) : ∃ others,
    desk.scanners.Perm (((desk.get? name).bind Slot.scanner).toList ++ others) ∧
      ∀ slot, (scanners (desk.put name slot)).Perm (slot.scanner.toList ++ others) := by
  induction desk with
  | nil => exact ⟨[], .refl _, fun slot => .of_eq (scanners_cons name slot [])⟩
  | cons entry rest ih =>
      obtain ⟨other, old⟩ := entry
      by_cases hname : other = name
      · subst hname
        refine ⟨scanners rest, ?_, fun slot => ?_⟩
        · rw [Named.get?, List.lookup_cons, BEq.rfl]
          exact .of_eq (scanners_cons other old rest)
        · rw [Named.put, if_pos rfl]
          exact .of_eq (scanners_cons other slot rest)
      · obtain ⟨others, hbefore, hafter⟩ := ih
        refine ⟨old.scanner.toList ++ others, ?_, fun slot => ?_⟩
        · rw [Named.get?, List.lookup_cons, beq_eq_false_iff_ne.mpr (Ne.symm hname), scanners_cons]
          exact (hbefore.append_left _).trans (List.perm_append_comm_assoc ..)
        · rw [Named.put, if_neg hname, scanners_cons]
          exact ((hafter slot).append_left _).trans (List.perm_append_comm_assoc ..)

/-- Where scanners took the place of others, what is due is what is due from those. -/
theorem balances_of_perm (htidy : desk.Tidy) (hbefore : desk.scanners.Perm (olds ++ others))
    (hafter : after.scanners.Perm (news ++ others)) (hnews : ∀ scanner ∈ news, scanner.Tidy)
    (hnotes : Balances (duesOf olds + incoming) notes (duesOf news)) :
    after.Tidy ∧ Balances (desk.dues + incoming) notes after.dues := by
  have hdues {desk : Desk} {scanners : List DeskScanner} (hperm : desk.scanners.Perm scanners) :
      desk.dues = duesOf scanners :=
    (hperm.map Scanner.dues).foldr_op_eq
  constructor
  · intro scanner hscanner
    rcases List.mem_append.mp (hafter.mem_iff.mp hscanner) with hnew | hother
    · exact hnews scanner hnew
    · exact htidy scanner (hbefore.mem_iff.mpr (List.mem_append_right _ hother))
  · have hframed := hnotes.frame (duesOf others)
    rwa [hdues hbefore, hdues hafter, duesOf_append, duesOf_append, add_right_comm]

/-- Whatever is asked of a tidy scanner, it stays so and the journal balances. -/
theorem use_tidies {scanner : DeskScanner} (htidy : scanner.Tidy)
    (hsupply : ∀ provider ∈ supply, provider.Holds AnySource.IsOpen) (command : ScannerCommand) :
    scanner.Tidies (use supply scanner command) := by
  cases command with
  | next limit => exact (htidy.next hsupply limit).answer fun reached =>
      ScannerAnswer.page reached.1
  | drain limit =>
      exact (htidy.pages hsupply limit drainBound).answer fun reached =>
        ScannerAnswer.pages reached.1
  | seek key =>
      exact (htidy.seek hsupply key).answer fun reached =>
        ScannerAnswer.found (reached.1.map fun found => (found, reached.2.peek))
  | reseek key =>
      exact (htidy.reseek hsupply key).answer fun reached =>
        ScannerAnswer.found (reached.1.map fun found => (found, reached.2.peek))
  | close => exact htidy.close.answer fun reached => ScannerAnswer.closed reached.1
  | sourcesChanged =>
      obtain ⟨hchanged, hnotes⟩ := htidy.sourcesChanged
      exact ⟨hchanged, hnotes.trans (.nil _)⟩
  | _ => exact htidy.unchanged _

theorem dropSlot_balances {slot : Slot} (htidy : ∀ scanner ∈ slot.scanner, scanner.Tidy) :
    Balances (duesOf slot.scanner.toList) (dropSlot slot).notes 0 := by
  unfold dropSlot
  cases hscanner : slot.scanner with
  | none => exact .nil 0
  | some scanner =>
      rw [Option.toList_some, duesOf_singleton]
      exact (htidy scanner hscanner).calm.drop_balances

theorem Tidy.of_get? (htidy : desk.Tidy) {slot : Slot} (hslot : desk.get? name = some slot) :
    ∀ scanner ∈ slot.scanner, scanner.Tidy := by
  intro scanner hscanner
  obtain ⟨others, hbefore, -⟩ := scanners_put desk name
  refine htidy scanner (hbefore.mem_iff.mpr (List.mem_append_left _ ?_))
  rw [hslot]
  exact Option.mem_toList.mpr hscanner

/-- What is asked under a name changes nothing, or is asked of the scanner of that name. -/
theorem perform_cases (desk : Desk) (supply : Option (Supply AnySource)) (name : String)
    (command : ScannerCommand) :
    (∃ answer, desk.perform supply name command = pure (answer, desk) ∧
      (command = .filterUse ∨ (desk.get? name).bind Slot.scanner = none)) ∨
      ∃ slot scanner, desk.get? name = some slot ∧ slot.scanner = some scanner ∧
        (command = .drop ∧ desk.perform supply name command = (do
            scanner.drop
            pure (.done, desk.put name { slot with scanner := none })) ∨
          command ≠ .drop ∧ let outcome := use supply scanner command
          desk.perform supply name command = ⟨(outcome.value.1, desk.put name
            { slot with
              scanner := some outcome.value.2, notes := slot.notes ++ outcome.notes }),
            outcome.notes⟩) := by
  unfold perform
  split
  next hnone => exact .inl ⟨_, rfl, .inr (by rw [hnone]; rfl)⟩
  next slot hslot =>
    split
    next => exact .inl ⟨_, rfl, .inl rfl⟩
    next hgone => exact .inl ⟨_, rfl, .inr (by rw [hslot]; exact hgone)⟩
    next scanner hscanner => exact .inr ⟨slot, scanner, hslot, hscanner, .inl ⟨rfl, rfl⟩⟩
    next scanner _ hdrop hscanner =>
      exact .inr ⟨slot, scanner, hslot, hscanner, .inr ⟨hdrop, rfl⟩⟩

/-- The desk and the journal balance after anything that is asked of the scanner of a name. -/
theorem perform_balances (htidy : desk.Tidy)
    (hsupply : ∀ provider ∈ supply, provider.Holds AnySource.IsOpen) (name : String)
    (command : ScannerCommand) :
    (desk.perform supply name command).value.2.Tidy ∧
      Balances desk.dues (desk.perform supply name command).notes
        (desk.perform supply name command).value.2.dues := by
  obtain ⟨others, hbefore, hafter⟩ := scanners_put desk name
  rcases desk.perform_cases supply name command with
    ⟨answer, hperform, -⟩ | ⟨slot, scanner, hslot, hscanner, hperform⟩
  · rw [hperform]
    exact ⟨htidy, .nil desk.dues⟩
  · have hold : ((desk.get? name).bind Slot.scanner).toList = [scanner] := by
      rw [hslot, Option.bind_some, hscanner]
      rfl
    rw [hold] at hbefore
    have hscanner := htidy.of_get? hslot scanner hscanner
    rw [← add_zero desk.dues]
    rcases hperform with ⟨-, hperform⟩ | ⟨-, hperform⟩
    · rw [hperform]
      refine balances_of_perm htidy hbefore (hafter _) (List.forall_mem_nil _) ?_
      rw [duesOf_singleton, add_zero]
      exact hscanner.calm.drop_balances.trans (.nil 0)
    · obtain ⟨hreached, hnotes⟩ := use_tidies hscanner hsupply command
      rw [hperform]
      refine balances_of_perm htidy hbefore (hafter _) (List.forall_mem_singleton.mpr hreached) ?_
      rw [duesOf_singleton, add_zero]
      exact hnotes.trans_eq (duesOf_singleton _).symm

/-- A scanner that was opened is at the desk in place of the one of its name. -/
theorem place_balances (htidy : desk.Tidy) (name : String) (scan : Scan AnyFilter)
    {opened : Except ScanError DeskScanner}
    (hopened : ∀ scanner, opened = .ok scanner → scanner.Tidy) :
    (desk.place name scan opened).value.2.Tidy ∧
      Balances (desk.dues + duesOf opened.toOption.toList) (desk.place name scan opened).notes
        (desk.place name scan opened).value.2.dues := by
  obtain ⟨others, hbefore, hafter⟩ := scanners_put desk name
  have hnews : ∀ scanner ∈ opened.toOption.toList, scanner.Tidy := by
    intro scanner hscanner
    cases opened with
    | error failure => cases hscanner
    | ok scanner =>
        obtain rfl := List.mem_singleton.mp hscanner
        exact hopened scanner rfl
  have hplaced {notes : List Note}
      (hnotes : Balances (duesOf ((desk.get? name).bind Slot.scanner).toList) notes 0) :=
    balances_of_perm htidy hbefore
      (hafter { scanner := opened.toOption, scripted := scan.filter.any (·.isScripted) }) hnews
      ((hnotes.frame _).trans_eq (zero_add _))
  unfold place
  cases hslot : desk.get? name with
  | none =>
      rw [hslot] at hplaced
      exact hplaced (.nil 0)
  | some old =>
      rw [hslot] at hplaced
      exact hplaced ((dropSlot_balances (htidy.of_get? hslot)).trans (.nil 0))

/-- A scanner that was opened over open sources is tidy. What is due from it is what was
handed out to it, and its subscription. -/
theorem open_balances (family : Family) {supply : Supply AnySource}
    (hsupply : supply.Holds AnySource.IsOpen) (number : Nat) (scan : Scan AnyFilter) :
    let opened := Scanner.open family supply number scan
    (∀ scanner, opened.value = .ok scanner → scanner.Tidy) ∧
      Balances (if opened.value.isOk then {.subscription number} else 0) opened.notes
        (duesOf opened.value.toOption.toList) := by
  intro opened
  have hcalm := Scanner.open_calm AnySource.open_closable hsupply family number scan
  have hsettles := Scanner.open_settles family supply number scan
  have hbegun := @Beginning.begun_of_begin _ _ _ _ (.opened family supply number scan)
  change ScanError.LoneOr _ opened.value at hcalm
  change Settles 0 opened.notes _ at hsettles
  change ∀ {scanner}, opened.value = .ok scanner → _ at hbegun
  generalize opened.value = answer at hcalm hsettles hbegun ⊢
  cases answer with
  | error failure =>
      have hcauses : OnlyCauses failure.dues :=
        @OnlyCauses.reported Unit (.error failure) hcalm
      refine ⟨?_, failure.dues, hcauses, ?_⟩
      · rintro _ ⟨⟩
      · rw [show duesOf _ = 0 from rfl, zero_add]
        exact hsettles
  | ok scanner =>
      obtain ⟨⟨⟨merge, hactive⟩, hsuppressed⟩, hsubscription⟩ := hbegun rfl
      constructor
      · rintro _ ⟨⟩
        have hlasts : scanner.phase ≠ .closed := by simp [hactive]
        exact ⟨hcalm, number, Scanner.subscribedAs_of_lasting hlasts hsubscription⟩
      · have hframed := hsettles.frame {.subscription number}
        rw [zero_add] at hframed
        refine (Balances.of_settles hframed).trans_eq ?_
        rw [Except.toOption, Option.toList_some, duesOf_singleton, Scanner.dues,
          Scanner.keptDues_of_begun hsuppressed hsubscription]
        rfl

/-! ### News -/

/-- The numbers under which the scanners of a desk are told of changes. -/
def subscriptions (desk : Desk) : List Nat :=
  desk.scanners.filterMap Scanner.subscription

theorem count_subscription_dues (desk : Desk) (number : Nat) :
    desk.dues.count (.subscription number) = desk.subscriptions.count number := by
  rw [dues, subscriptions]
  induction desk.scanners with
  | nil => rfl
  | cons scanner rest ih =>
      have hphase : scanner.phase.dues.count (.subscription number) = 0 := by
        refine Multiset.count_eq_zero.mpr fun hmem => ?_
        cases hactive : scanner.phase with
        | active merge =>
            rw [hactive] at hmem
            rcases Multiset.mem_add.mp hmem with hsource | hfailure
            · obtain ⟨source, -, hdue⟩ := List.mem_map.mp (Multiset.mem_coe.mp hsource)
              cases hdue
            · obtain ⟨failure, hdue⟩ := Due.eq_of_mem_closeFailures hfailure
              cases hdue
        | resync key => rw [hactive] at hmem; cases hmem
        | closed => rw [hactive] at hmem; cases hmem
      rw [← List.singleton_append, duesOf_append, duesOf_singleton, Multiset.count_add, ih,
        Scanner.dues, Scanner.keptDues, Multiset.count_add, Multiset.count_add, hphase,
        Due.count_subscription_closeFailures, List.singleton_append, List.filterMap_cons]
      cases scanner.subscription with
      | none => simp
      | some other => by_cases hsame : number = other <;> simp [hsame, Ne.symm, add_comm]

/-- Of a change under a number no scanner is told, or the first that goes by that number. -/
theorem announce_cases (desk : Desk) (number : Nat) :
    (∀ scanner ∈ desk.scanners, scanner.subscription ≠ some number) ∧
        desk.announce number = pure desk ∨
      ∃ front told back after, told.subscription = some number ∧
        desk.scanners = front ++ told :: back ∧
        desk.announce number = ⟨after, told.sourcesChanged.notes⟩ ∧
        after.scanners = front ++ told.sourcesChanged.value :: back := by
  induction desk with
  | nil => exact .inl ⟨List.forall_mem_nil _, rfl⟩
  | cons entry rest ih =>
      obtain ⟨name, slot⟩ := entry
      by_cases hfirst : ∃ scanner ∈ slot.scanner, scanner.subscription = some number
      · obtain ⟨scanner, hscanner, hnumber⟩ := hfirst
        refine .inr ⟨[], scanner, scanners rest,
          (name, { slot with scanner := some scanner.sourcesChanged.value }) :: rest, hnumber,
          ?_, ?_, scanners_cons _ _ rest⟩
        · rw [scanners_cons, hscanner]
          rfl
        · rw [announce, hscanner]
          exact (if_pos hnumber).trans (Noted.ext rfl (List.append_nil _))
      · have hpassed : announce number ((name, slot) :: rest) = (do
            let rest ← announce number rest
            pure ((name, slot) :: rest)) := by
          rw [announce]
          split
          next scanner hscanner => exact if_neg fun hnumber => hfirst ⟨scanner, hscanner, hnumber⟩
          next => rfl
        rw [hpassed, scanners_cons]
        rcases ih with ⟨hnone, hrest⟩ | ⟨front, told, back, after, htold, hscanners, hrest, hafter⟩
        · refine .inl ⟨fun scanner hscanner hnumber => ?_, by rw [hrest, pure_bind]⟩
          rcases List.mem_append.mp hscanner with hslot | hother
          · exact hfirst ⟨scanner, Option.mem_toList.mp hslot, hnumber⟩
          · exact hnone scanner hother hnumber
        · -- a scanner of the first slot, if there is one, is in front of the one that is told
          refine .inr ⟨slot.scanner.toList ++ front, told, back, (name, slot) :: after, htold,
            ?_, ?_, ?_⟩
          · rw [hscanners, List.append_assoc]
          · rw [hrest]
            exact Noted.ext rfl (List.append_nil _)
          · rw [scanners_cons, hafter, List.append_assoc]

/-- The desk and the journal balance after a change was announced under a number. -/
theorem announce_balances (htidy : desk.Tidy) (number : Nat) :
    (desk.announce number).value.Tidy ∧
      Balances desk.dues (desk.announce number).notes (desk.announce number).value.dues := by
  rcases desk.announce_cases number with
    ⟨-, hannounce⟩ | ⟨front, told, back, after, -, hscanners, hannounce, hafter⟩
  · rw [hannounce]
    exact ⟨htidy, .nil _⟩
  · have htold := htidy told (by rw [hscanners]; exact List.mem_append_right _ List.mem_cons_self)
    obtain ⟨hchanged, hnotes⟩ := htold.sourcesChanged
    have hbefore : desk.scanners.Perm ([told] ++ (front ++ back)) := by
      rw [hscanners]
      exact List.perm_middle
    have hreached : after.scanners.Perm ([told.sourcesChanged.value] ++ (front ++ back)) := by
      rw [hafter]
      exact List.perm_middle
    rw [hannounce, ← add_zero desk.dues]
    refine balances_of_perm htidy hbefore hreached (List.forall_mem_singleton.mpr hchanged) ?_
    rw [duesOf_singleton, duesOf_singleton, add_zero]
    exact hnotes

/-- After a change was announced under a number, no scanner that goes by it holds a source. -/
theorem announce_resting (htidy : desk.Tidy) (hnodup : desk.subscriptions.Nodup) (number : Nat) :
    (desk.announce number).value.subscriptions = desk.subscriptions ∧
      ∀ scanner ∈ (desk.announce number).value.scanners,
        scanner.Resting ∨ scanner ∈ desk.scanners ∧ scanner.subscription ≠ some number := by
  rcases desk.announce_cases number with
    ⟨hnone, hannounce⟩ | ⟨front, told, back, after, htold, hscanners, hannounce, hafter⟩
  · rw [hannounce]
    exact ⟨rfl, fun scanner hscanner => .inr ⟨hscanner, hnone scanner hscanner⟩⟩
  · rw [subscriptions, hscanners, List.filterMap_append, List.filterMap_cons_some htold] at hnodup
    have hothers : ∀ scanner ∈ front ++ back, scanner.subscription ≠ some number := by
      intro scanner hscanner hnumber
      have hmem : number ∈ (front ++ back).filterMap Scanner.subscription :=
        List.mem_filterMap.mpr ⟨scanner, hscanner, hnumber⟩
      rw [List.filterMap_append] at hmem
      exact (List.nodup_cons.mp (List.perm_middle.nodup_iff.mp hnodup)).1 hmem
    rw [hannounce]
    constructor
    · have hsame := told.sourcesChanged_holds.2
      rw [subscriptions, subscriptions, hafter, hscanners, List.filterMap_append,
        List.filterMap_append, List.filterMap_cons, List.filterMap_cons, hsame]
    · intro scanner hscanner
      rw [hafter] at hscanner
      rcases List.mem_cons.mp (List.perm_middle.mem_iff.mp hscanner) with rfl | hother
      · refine .inl (htidy told ?_).resting
        rw [hscanners]
        exact List.mem_append_right _ List.mem_cons_self
      · refine .inr ⟨?_, hothers scanner hother⟩
        rw [hscanners]
        exact List.perm_middle.mem_iff.mpr (List.mem_cons_of_mem _ hother)

/-- A write leaves a desk tidy, and changes nothing of what is due. -/
theorem refresh_tidy (htidy : desk.Tidy) (generation : Nat) (written : Buffer) :
    Tidy (desk.mapSources (AnySource.refresh generation written)) ∧
      dues (desk.mapSources (AnySource.refresh generation written)) = desk.dues := by
  have hscanners : scanners (desk.mapSources (AnySource.refresh generation written)) =
      desk.scanners.map fun scanner =>
        scanner.mapSources (AnySource.refresh generation written) := by
    rw [scanners, scanners, mapSources, List.filterMap_map, List.map_filterMap]
    rfl
  rw [Tidy, dues, dues, duesOf, duesOf, hscanners, List.map_map]
  constructor
  · intro scanner hscanner
    obtain ⟨other, hother, rfl⟩ := List.mem_map.mp hscanner
    exact ((htidy other hother).refresh generation written).1
  · refine congrArg List.sum (List.map_congr_left fun scanner hscanner => ?_)
    exact ((htidy scanner hscanner).refresh generation written).2

end Desk

end MergeScan
