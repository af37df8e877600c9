import MergeScan.Proofs.Session.Live
import MergeScan.Proofs.Store.History

/-! # The readers and the subscribers of a store

Whatever is done with a store, the subscriptions it counts are those of the scanners that have
not ended, and no reader of a run is open but those that a scanner holds. After a change of the
runs no scanner holds any.
-/

namespace MergeScan

/-- What can be done with a store and with scanners on it. -/
inductive StoreUse
  | add (cell : Cell)
  | flush
  | bulkLoad (cells : List Cell)
  | compact (ids : List RunId) (major : Bool)
  | replaceRuns (removed : List RunId) (added : Option (Nat × List Cell))
  /-- Open a scan under a name. The scanner that stood there is dropped. -/
  | openScan (name : String) (scan : Scan AnyFilter)
  /-- Read, position, close or drop the scanner of a name. -/
  | ask (name : String) (command : ScannerCommand)
  /-- Read a whole scan through a scanner of its own. -/
  | readAll (scan : Scan AnyFilter)

namespace StoreSession

/-- Do something with a store. The answer is whether its runs have changed. -/
def use (session : StoreSession) : StoreUse → Bool × StoreSession
  | .add cell => (false, (session.add cell).2)
  | .flush => session.flush.map Option.isSome id
  | .bulkLoad cells => (session.bulkLoad cells).map Except.isOk id
  | .compact ids major => (session.compact ids major).map Except.isOk id
  | .replaceRuns removed added => (session.replaceRuns removed added).map Except.isOk id
  | .openScan name scan => (false, (session.open name scan).2)
  | .ask name command => (false, (session.perform name command).2)
  | .readAll scan => (false, (session.scan scan).2)

/-- Do one thing after the other. -/
def useAll (session : StoreSession) (uses : List StoreUse) : StoreSession :=
  uses.foldl (fun session use => (session.use use).2) session

end StoreSession

/-! ## Changes of the runs -/

namespace Store

variable {store : Store}

/-- Whether no subscription was made or ended between two states of a store. -/
structure SameSubscribers (store other : Store) : Prop where
  subscriptions : other.subscriptions = store.subscriptions
  next : other.nextSubscription = store.nextSubscription

/-- A store hands out open sources. -/
theorem supply_holds (store : Store) : store.supply.Holds AnySource.IsOpen := by
  rintro request _ ⟨⟩ source hsource
  rcases List.mem_append.mp hsource with hbuffer | hrun
  · unfold bufferSource at hbuffer
    split at hbuffer
    · obtain rfl := List.mem_singleton.mp hbuffer
      rfl
    · cases hbuffer
  · unfold runSources at hrun
    split at hrun
    · obtain ⟨run, -, rfl⟩ := List.mem_map.mp hrun
      rfl
    · cases hrun

/-- A merge of runs closes every reader that it opens, also where it fails. -/
theorem mergeCells_balances (store : Store) (inputs : List SortedRun) (major : Bool)
    (dues : Multiset Due) : Balances dues (store.mergeCells inputs major).notes dues := by
  let sources : List AnySource := inputs.map fun run => .run run.reader
  have hopen : ∀ source ∈ sources, source.IsOpen := by
    intro source hsource
    obtain ⟨run, -, rfl⟩ := List.mem_map.mp hsource
    rfl
  have hnone : ∀ provider ∈ (none : Option (Supply AnySource)), provider.Holds AnySource.IsOpen :=
    nofun
  have hopened : Balances 0 _ (Source.dues sources) := .of_settles (Noted.settles_opened sources)
  have hcalm := Scanner.ofSources_calm AnySource.open_closable store.family
    (store.compactionScan major) hopen
  have hsettles := Scanner.ofSources_settles store.family
    (show { store.compactionScan major with columns := [] }.validate = .ok () from rfl) sources
  -- what is due from others in the meantime takes no part in it, and is framed at the end
  have hbalances : Balances 0 (store.mergeCells inputs major).notes 0 := by
    unfold mergeCells
    refine hopened.bind ?_
    cases hvalue : (Scanner.ofSources store.family (store.compactionScan major) sources).value with
    | error failure =>
        rw [hvalue] at hcalm
        have hcauses : OnlyCauses failure.dues := @OnlyCauses.reported Unit (.error failure) hcalm
        rw [Noted.Settles, hvalue] at hsettles
        have hread : Balances (Source.dues sources) _ 0 :=
          ⟨failure.dues, hcauses, hsettles.trans_eq (zero_add _).symm⟩
        refine hread.bind ?_
        rw [hvalue]
        exact .nil 0
    | ok scanner =>
        rw [hvalue] at hcalm
        rw [Noted.Settles, hvalue] at hsettles
        refine (Balances.of_settles hsettles).bind ?_
        rw [hvalue]
        simp only [Scanner.drainInto_eq, bind_map_left]
        refine (hcalm.pages_balances hnone _ _).bind ?_
        have hread := (hcalm.pages AnySource.open_closable hnone .ofScan
          (2 * (inputs.flatMap SortedRun.toList).length + 2)).1
        split
        · exact hread.drop_balances.bind (.nil 0)
        · refine hread.close_balances.bind ?_
          split <;> exact .nil 0
  have hframed := hbalances.frame dues
  rwa [zero_add] at hframed

/-- What a change of the runs does to a store, and to the books. -/
structure Keeps (store other : Store) (notes : List Note) : Prop where
  same : SameSubscribers store other
  balances (dues : Multiset Due) : Balances dues notes dues

theorem flush_keeps {run : SortedRun} {other : Store} {notes : List Note}
    (hflush : store.flush = ⟨(some run, other), notes⟩) : Keeps store other notes := by
  unfold flush at hflush
  split at hflush
  · cases hflush
  · cases hflush
    exact ⟨⟨rfl, rfl⟩, .raised _⟩

theorem bulkLoad_keeps {cells : List Cell} {run : SortedRun} {other : Store} {notes : List Note}
    (hload : store.bulkLoad cells = ⟨.ok (run, other), notes⟩) : Keeps store other notes := by
  unfold bulkLoad at hload
  split at hload
  · cases hload
  · cases hload
    exact ⟨⟨rfl, rfl⟩, .raised _⟩

theorem replaceRuns_balances (store : Store) (removed : List RunId) (added : Option SortedRun) :
    (∀ dues, Balances dues (store.replaceRuns removed added).notes dues) ∧
      ∀ other, (store.replaceRuns removed added).value = .ok other →
        SameSubscribers store other := by
  unfold replaceRuns
  split
  · exact ⟨.nil, fun _ hok => nomatch hok⟩
  · refine ⟨.raised _, ?_⟩
    rintro _ ⟨⟩
    exact ⟨rfl, rfl⟩

theorem replaceRuns_keeps {removed : List RunId} {added : Option SortedRun} {other : Store}
    {notes : List Note} (hreplace : store.replaceRuns removed added = ⟨.ok other, notes⟩) :
    Keeps store other notes := by
  obtain ⟨hbalances, hsame⟩ := store.replaceRuns_balances removed added
  rw [hreplace] at hbalances hsame
  exact ⟨hsame other rfl, hbalances⟩

theorem mergeRuns_balances (store : Store) (ids : List RunId) (major : Bool)
    (dues : Multiset Due) : Balances dues (store.mergeRuns ids major).notes dues := by
  unfold mergeRuns
  split
  · exact .nil dues
  next inputs _ =>
    refine (Balances.raised _ dues).bind ((store.mergeCells_balances inputs major dues).bind ?_)
    split <;> exact .nil dues

/-- A compaction keeps the books, also where it fails. -/
theorem compact_keeps (store : Store) (ids : List RunId) (major : Bool) :
    (∀ dues, Balances dues (store.compact ids major).notes dues) ∧
      ∀ output other, (store.compact ids major).value = .ok (output, other) →
        SameSubscribers store other := by
  have hmerged := store.mergeRuns_balances ids major
  unfold compact
  rw [Noted.value_bind]
  cases hvalue : (store.mergeRuns ids major).value with
  | error failure =>
      refine ⟨fun dues => (hmerged dues).bind ?_, fun _ _ hok => nomatch hok⟩
      rw [hvalue]
      exact .nil dues
  | ok output =>
      have hreplaced := store.replaceRuns_balances ids output.run
      refine ⟨fun dues => (hmerged dues).bind ?_, fun output other hok => ?_⟩
      · rw [hvalue]
        exact (hreplaced.1 dues).bind (.nil dues)
      · dsimp only at hok
        rw [Noted.value_bind] at hok
        generalize (store.replaceRuns ids _).value = replaced at hok hreplaced
        obtain failure | replaced := replaced
        · cases hok
        · cases hok
          exact hreplaced.2 _ rfl

end Store

/-! ## The books of a session -/

/-- The subscriptions that were made so far. -/
def issued (next : Nat) : Multiset Due :=
  (List.range next).map Due.subscription

theorem issued_succ (next : Nat) : issued (next + 1) = issued next + {.subscription next} := by
  rw [issued, List.range_succ, List.map_append]
  rfl

theorem count_issued (next number : Nat) :
    (issued next).count (.subscription number) = (List.range next).count number := by
  rw [issued, Multiset.coe_count]
  exact List.count_map_of_injective _ _ (fun _ _ => Due.subscription.inj) number

theorem not_mem_issued {next : Nat} {due : Due} (hdue : ∀ number, due ≠ .subscription number) :
    (issued next).count due = 0 := by
  refine Multiset.count_eq_zero.mpr fun hmem => ?_
  obtain ⟨number, -, rfl⟩ := List.mem_map.mp (Multiset.mem_coe.mp hmem)
  exact hdue number rfl

namespace StoreSession

variable {session : StoreSession} {before after : Multiset Due} {notes : List Note}

/-- The journal of a session leads to what is due now, and the store counts the subscriptions
that were not ended. Only scanners have subscribed. -/
structure Ledger (session : StoreSession) (dues : Multiset Due) : Prop where
  unwatched : session.watchers = []
  balances : Balances (issued session.store.nextSubscription) session.journal dues
  subscriptions : session.store.subscriptions = (List.range session.store.nextSubscription).filter
    (· ∉ endedSubscriptions session.journal)

/-- A session with tidy scanners, from which is due what is due at all. -/
structure Tidy (session : StoreSession) : Prop where
  desk : session.desk.Tidy
  ledger : session.Ledger session.desk.dues

/-- Whether no scanner of a session holds a source. -/
def Resting (session : StoreSession) : Prop :=
  ∀ scanner ∈ session.desk.scanners, scanner.Resting

theorem unsubscribeAll (store : Store) (numbers : List Nat) :
    numbers.foldl Store.unsubscribe store =
      { store with subscriptions := store.subscriptions.filter (· ∉ numbers) } := by
  induction numbers generalizing store with
  | nil => simp
  | cons number rest ih =>
      rw [List.foldl_cons, ih, Store.unsubscribe, List.filter_filter]
      congr 1
      refine List.filter_congr fun other _ => ?_
      simp [not_or, Bool.and_comm]

theorem Ledger.absorb (hledger : session.Ledger before) (hnotes : Balances before notes after) :
    (session.absorb notes).Ledger after := by
  have hstore : (session.absorb notes).store = { session.store with
      subscriptions := session.store.subscriptions.filter (· ∉ endedSubscriptions notes) } :=
    unsubscribeAll _ _
  refine ⟨hledger.unwatched, ?_, ?_⟩
  · rw [hstore]
    exact hledger.balances.trans hnotes
  · have hended : endedSubscriptions (session.journal ++ notes) =
        endedSubscriptions session.journal ++ endedSubscriptions notes :=
      List.filterMap_append ..
    rw [hstore, hledger.subscriptions, List.filter_filter]
    refine List.filter_congr fun number _ => ?_
    show _ = decide (number ∉ endedSubscriptions (session.journal ++ notes))
    simp [hended, Bool.and_comm]

/-- What was subscribed to is due from the subscriber. -/
theorem Ledger.subscribe (hledger : session.Ledger before) :
    Ledger { session with store := session.store.subscribe.2 }
      (before + {.subscription session.store.nextSubscription}) := by
  let next := session.store.nextSubscription
  have hfresh : next ∉ endedSubscriptions session.journal := by
    have hcount := hledger.balances.count_subscription next
    have hissued : (List.range next).count next = 0 :=
      List.count_eq_zero.mpr List.not_mem_range_self
    rw [count_issued, hissued] at hcount
    exact List.count_eq_zero.mp (Nat.eq_zero_of_add_eq_zero_left hcount)
  refine ⟨hledger.unwatched, ?_, ?_⟩
  · show Balances (issued (next + 1)) session.journal _
    rw [issued_succ]
    exact hledger.balances.frame _
  · show session.store.subscriptions ++ [next] = (List.range (next + 1)).filter _
    rw [List.range_succ, List.filter_append, hledger.subscriptions]
    simp [hfresh, next]

/-- A change of the runs leaves the subscribers of a store alone. -/
theorem Ledger.of_same (hledger : session.Ledger before) {store : Store}
    (hsame : session.store.SameSubscribers store) (archive : List SortedRun) :
    Ledger { session with store, archive } before := by
  refine ⟨hledger.unwatched, ?_, ?_⟩
  · show Balances (issued store.nextSubscription) _ _
    rw [hsame.next]
    exact hledger.balances
  · show store.subscriptions = (List.range store.nextSubscription).filter _
    rw [hsame.next, hsame.subscriptions]
    exact hledger.subscriptions

theorem Ledger.nodup (hledger : session.Ledger before) : session.store.subscriptions.Nodup := by
  rw [hledger.subscriptions]
  exact List.nodup_range.filter _

/-- The subscriptions that a store counts are those that are to be ended. -/
theorem Ledger.count_subscriptions (hledger : session.Ledger before) (number : Nat) :
    session.store.subscriptions.count number = before.count (.subscription number) := by
  have hcount := hledger.balances.count_subscription number
  rw [count_issued, List.nodup_range.count] at hcount
  have hmem : number ∈ session.store.subscriptions ↔
      number ∈ List.range session.store.nextSubscription ∧
        (endedSubscriptions session.journal).count number = 0 := by
    rw [hledger.subscriptions, List.mem_filter, decide_eq_true_iff, List.count_eq_zero]
  rw [hledger.nodup.count]
  by_cases hissued : number ∈ List.range session.store.nextSubscription
  · rw [if_pos hissued] at hcount
    by_cases hended : (endedSubscriptions session.journal).count number = 0
    · rw [if_pos (hmem.mpr ⟨hissued, hended⟩)]
      omega
    · rw [if_neg fun hcounted => hended (hmem.mp hcounted).2]
      omega
  · rw [if_neg hissued] at hcount
    rw [if_neg fun hcounted => hissued (hmem.mp hcounted).1]
    omega

theorem Tidy.subscriptions_perm (htidy : session.Tidy) :
    session.desk.subscriptions.Perm session.store.subscriptions := by
  refine List.perm_iff_count.mpr fun number => ?_
  rw [htidy.ledger.count_subscriptions, Desk.count_subscription_dues]

/-- A store counts as many subscribers as there are scanners that have not ended. -/
theorem Tidy.length_subscriptions (htidy : session.Tidy) : session.store.subscriptions.length =
    session.desk.scanners.countP fun scanner => !scanner.isClosed := by
  rw [← htidy.subscriptions_perm.length_eq, Desk.subscriptions]
  have hdesk := htidy.desk
  unfold Desk.Tidy at hdesk
  generalize session.desk.scanners = scanners at hdesk
  induction scanners with
  | nil => rfl
  | cons scanner rest ih =>
      obtain ⟨hscanner, hrest⟩ := List.forall_mem_cons.mp hdesk
      have hended := hscanner.subscription_eq_none_iff
      rw [List.filterMap_cons, List.countP_cons, ← ih hrest]
      cases hsubscription : scanner.subscription with
      | none => simp [hended.mp hsubscription]
      | some number => simp [mt hended.mpr (by simp [hsubscription])]

theorem Tidy.absorb (htidy : session.Tidy) {desk : Desk} (hdesk : desk.Tidy)
    (hnotes : Balances session.desk.dues notes desk.dues) :
    ({ session with desk }.absorb notes).Tidy := by
  have hledger : Ledger { session with desk } session.desk.dues :=
    ⟨htidy.ledger.unwatched, htidy.ledger.balances, htidy.ledger.subscriptions⟩
  exact ⟨hdesk, hledger.absorb hnotes⟩

/-! ### Announcements -/

theorem Tidy.announceTo (htidy : session.Tidy) (number : Nat) :
    (session.announceTo number).Tidy := by
  obtain ⟨hdesk, hnotes⟩ := Desk.announce_balances htidy.desk number
  have hledger : Ledger { session with
      desk := (session.desk.announce number).value
      watchers := countChange number session.watchers } session.desk.dues := by
    refine ⟨?_, htidy.ledger.balances, htidy.ledger.subscriptions⟩
    show countChange number session.watchers = []
    rw [htidy.ledger.unwatched]
    rfl
  exact ⟨hdesk, hledger.absorb hnotes⟩

theorem Tidy.announceEach (htidy : session.Tidy) {numbers : List Nat}
    (htold : ∀ scanner ∈ session.desk.scanners,
      scanner.Resting ∨ ∃ number ∈ numbers, scanner.subscription = some number) :
    (numbers.foldl StoreSession.announceTo session).Tidy ∧
      (numbers.foldl StoreSession.announceTo session).Resting := by
  induction numbers generalizing session with
  | nil =>
      refine ⟨htidy, fun scanner hscanner => (htold scanner hscanner).resolve_right ?_⟩
      rintro ⟨number, hnone, -⟩
      cases hnone
  | cons number rest ih =>
      have hnodup := htidy.subscriptions_perm.nodup_iff.mpr htidy.ledger.nodup
      refine ih (htidy.announceTo number) fun scanner hscanner => ?_
      rcases (Desk.announce_resting htidy.desk hnodup number).2 scanner hscanner with
        hresting | ⟨hbefore, hother⟩
      · exact .inl hresting
      · refine (htold scanner hbefore).imp_right ?_
        rintro ⟨told, hmem, hsubscription⟩
        rcases List.mem_cons.mp hmem with rfl | hlater
        · exact absurd hsubscription hother
        · exact ⟨told, hlater, hsubscription⟩

/-- After an announcement no scanner holds a source. -/
theorem Tidy.announce (htidy : session.Tidy) :
    session.announce.Tidy ∧ session.announce.Resting := by
  have halive : session.store.subscriptions.filter session.isAlive =
      session.store.subscriptions := by
    refine List.filter_eq_self.mpr fun number hnumber => ?_
    obtain ⟨scanner, hscanner, hsubscription⟩ :=
      List.mem_filterMap.mp (htidy.subscriptions_perm.mem_iff.mpr hnumber)
    obtain ⟨⟨name, slot⟩, hslot, hheld⟩ := List.mem_filterMap.mp hscanner
    have hheld : slot.scanner = some scanner := hheld
    have hsubscribes : session.desk.subscribes number = true :=
      List.any_eq_true.mpr ⟨(name, slot), hslot, by simp [hheld, hsubscription]⟩
    rw [isAlive, hsubscribes, Bool.true_or]
  have htold : ∀ scanner ∈ session.desk.scanners, scanner.Resting ∨
      ∃ number ∈ session.store.subscriptions, scanner.subscription = some number := by
    intro scanner hscanner
    have hended := (htidy.desk scanner hscanner).subscription_eq_none_iff
    cases hsubscription : scanner.subscription with
    | none => exact .inl (Scanner.resting_of_closed (hended.mp hsubscription))
    | some number =>
        refine .inr ⟨number, htidy.subscriptions_perm.mem_iff.mp ?_, rfl⟩
        exact List.mem_filterMap.mpr ⟨scanner, hscanner, hsubscription⟩
  unfold StoreSession.announce
  rw [halive]
  exact (htidy.absorb htidy.desk (.raised _ _)).announceEach htold

theorem Tidy.adopt (htidy : session.Tidy) {store : Store}
    (hkeeps : session.store.Keeps store notes) (added : Option SortedRun) :
    (session.adopt store added notes).Tidy ∧ (session.adopt store added notes).Resting := by
  have hledger := htidy.ledger.of_same hkeeps.same (session.archive ++ added.toList)
  exact Tidy.announce ⟨htidy.desk, hledger.absorb (hkeeps.balances _)⟩

/-! ### What is done with a session -/

theorem Tidy.add (htidy : session.Tidy) (cell : Cell) : (session.add cell).2.Tidy := by
  rw [add_eq]
  split
  · obtain ⟨hdesk, hdues⟩ := Desk.refresh_tidy htidy.desk session.store.generation
      (session.store.buffer.insert cell)
    refine ⟨hdesk, htidy.ledger.unwatched, ?_, htidy.ledger.subscriptions⟩
    exact htidy.ledger.balances.trans_eq hdues.symm
  · exact htidy

theorem Tidy.flush (htidy : session.Tidy) : session.flush.2.Tidy ∧
    (session.flush.1.isSome = true → session.flush.2.Resting) := by
  unfold StoreSession.flush
  split
  next => exact ⟨htidy, fun hsome => nomatch hsome⟩
  next run store notes hflush =>
    obtain ⟨hadopted, hresting⟩ := htidy.adopt (Store.flush_keeps hflush) (some run)
    exact ⟨hadopted, fun _ => hresting⟩

theorem Tidy.bulkLoad (htidy : session.Tidy) (cells : List Cell) :
    (session.bulkLoad cells).2.Tidy ∧
      ((session.bulkLoad cells).1.isOk = true → (session.bulkLoad cells).2.Resting) := by
  unfold StoreSession.bulkLoad
  split
  next => exact ⟨htidy, fun hok => nomatch hok⟩
  next run store notes hload =>
    obtain ⟨hadopted, hresting⟩ := htidy.adopt (Store.bulkLoad_keeps hload) (some run)
    exact ⟨hadopted, fun _ => hresting⟩

theorem Tidy.replaceRuns (htidy : session.Tidy) (removed : List RunId)
    (added : Option (Nat × List Cell)) :
    (session.replaceRuns removed added).2.Tidy ∧
      ((session.replaceRuns removed added).1.isOk = true →
        (session.replaceRuns removed added).2.Resting) := by
  unfold StoreSession.replaceRuns
  dsimp only
  split
  next => exact ⟨htidy, fun hok => nomatch hok⟩
  next store notes hreplace =>
    obtain ⟨hadopted, hresting⟩ := htidy.adopt (Store.replaceRuns_keeps hreplace) _
    exact ⟨hadopted, fun _ => hresting⟩

theorem Tidy.compact (htidy : session.Tidy) (ids : List RunId) (major : Bool) :
    (session.compact ids major).2.Tidy ∧
      ((session.compact ids major).1.isOk = true → (session.compact ids major).2.Resting) := by
  obtain ⟨hbalances, hsame⟩ := session.store.compact_keeps ids major
  unfold StoreSession.compact
  split
  next failure notes hcompact =>
    rw [hcompact] at hbalances
    exact ⟨htidy.absorb htidy.desk (hbalances _), fun hok => nomatch hok⟩
  next output store notes hcompact =>
    rw [hcompact] at hbalances hsame
    obtain ⟨hadopted, hresting⟩ := htidy.adopt ⟨hsame output store rfl, hbalances⟩ output.run
    exact ⟨hadopted.absorb hadopted.desk (.raised _ _), fun _ => hresting⟩

theorem supply_holds (session : StoreSession) :
    ∀ provider ∈ some session.store.supply, provider.Holds AnySource.IsOpen := by
  rintro _ ⟨⟩
  exact session.store.supply_holds

theorem Tidy.perform (htidy : session.Tidy) (name : String) (command : ScannerCommand) :
    (session.perform name command).2.Tidy := by
  obtain ⟨hdesk, hnotes⟩ := Desk.perform_balances htidy.desk
    (supply_holds session) name command
  exact htidy.absorb hdesk hnotes

theorem Tidy.open (htidy : session.Tidy) (name : String) (scan : Scan AnyFilter) :
    (session.open name scan).2.Tidy := by
  obtain ⟨hopened, hbalances⟩ := Desk.open_balances session.store.family session.store.supply_holds
    session.store.nextSubscription scan
  unfold StoreSession.open
  dsimp only [Store.subscribe]
  generalize Scanner.open session.store.family session.store.supply
    session.store.nextSubscription scan = opened at hopened hbalances ⊢
  obtain ⟨hdesk, hplaced⟩ := Desk.place_balances htidy.desk name scan hopened
  have hframed := hbalances.frame session.desk.dues
  rw [add_comm, add_comm (Desk.duesOf _)] at hframed
  have hnotes := hframed.trans hplaced
  obtain ⟨_ | scanner, notes⟩ := opened
  · rw [show ite _ _ _ = (0 : Multiset Due) from rfl, add_zero] at hnotes
    have hledger := htidy.ledger
    exact ⟨hdesk, Ledger.absorb ⟨hledger.unwatched, hledger.balances, hledger.subscriptions⟩ hnotes⟩
  · have hledger := htidy.ledger.subscribe
    exact ⟨hdesk, Ledger.absorb ⟨hledger.unwatched, hledger.balances, hledger.subscriptions⟩ hnotes⟩

/-- A scanner that is used for nothing but to read a whole scan is gone afterwards. -/
theorem Tidy.scan (htidy : session.Tidy) (scan : Scan AnyFilter) : (session.scan scan).2.Tidy := by
  obtain ⟨hopened, hbalances⟩ := Desk.open_balances session.store.family session.store.supply_holds
    session.store.nextSubscription scan
  unfold StoreSession.scan
  dsimp only [Store.subscribe]
  generalize Scanner.open session.store.family session.store.supply
    session.store.nextSubscription scan = opened at hopened hbalances ⊢
  obtain ⟨_ | scanner, notes⟩ := opened
  · have hnotes := hbalances.frame session.desk.dues
    rw [show ite _ _ _ = (0 : Multiset Due) from rfl, show Desk.duesOf _ = 0 from rfl,
      zero_add] at hnotes
    exact htidy.absorb htidy.desk hnotes
  · have hread := (hopened scanner rfl).pages (supply_holds session) .ofScan Desk.drainBound
    have hdropped := hread.balances.trans (hread.tidy.calm.drop_balances.trans (.nil 0))
    have hnotes := (hbalances.trans (hdropped.of_eq (Desk.duesOf_singleton scanner))).frame
      session.desk.dues
    rw [add_comm, zero_add] at hnotes
    exact ⟨htidy.desk, htidy.ledger.subscribe.absorb hnotes⟩

/-- Whatever is done with a store, its books stay in order, and a change of its runs leaves no
scanner with a source. -/
theorem Tidy.use (htidy : session.Tidy) (use : StoreUse) :
    (session.use use).2.Tidy ∧ ((session.use use).1 = true → (session.use use).2.Resting) := by
  cases use with
  | add cell => exact ⟨htidy.add cell, nofun⟩
  | flush => exact htidy.flush
  | bulkLoad cells => exact htidy.bulkLoad cells
  | compact ids major => exact htidy.compact ids major
  | replaceRuns removed added => exact htidy.replaceRuns removed added
  | openScan name scan => exact ⟨htidy.open name scan, nofun⟩
  | ask name command => exact ⟨htidy.perform name command, nofun⟩
  | readAll scan => exact ⟨htidy.scan scan, nofun⟩

theorem fresh_tidy (family : Family) : (fresh family).Tidy :=
  ⟨List.forall_mem_nil _, rfl, .nil _, rfl⟩

theorem Tidy.useAll (htidy : session.Tidy) (uses : List StoreUse) : (session.useAll uses).Tidy := by
  induction uses generalizing session with
  | nil => exact htidy
  | cons use rest ih => exact ih (htidy.use use).1

/-! ## Readers -/

theorem Tidy.count_dues (htidy : session.Tidy) {due : Due}
    (hsource : ∀ origin, due ≠ .source origin)
    (hsubscription : ∀ number, due ≠ .subscription number) :
    session.desk.dues.count due = 0 := by
  refine Multiset.count_eq_zero.mpr fun hmem => ?_
  obtain ⟨scanner, hscanner, hdue⟩ := Desk.exists_of_mem_dues hmem
  rcases (htidy.desk scanner hscanner).of_mem_dues hdue with ⟨origin, rfl⟩ | ⟨number, rfl⟩
  · exact hsource origin rfl
  · exact hsubscription number rfl

/-- Where no scanner holds a source, every reader that was opened was closed without a failure. -/
theorem Tidy.closed_of_resting (htidy : session.Tidy) (hresting : session.Resting)
    (origin : Origin) :
    session.journal.countP (Note.isSuccess origin .close) =
        session.journal.countP (· = .opened origin) ∧
      session.journal.countP (· = .abandoned origin) = 0 := by
  have hbalances := htidy.ledger.balances
  have hissued {due : Due} (hdue : ∀ number, due ≠ .subscription number) :=
    @not_mem_issued session.store.nextSubscription due hdue
  constructor
  · have hnone : session.desk.dues.count (.source origin) = 0 := by
      refine Multiset.count_eq_zero.mpr fun hmem => ?_
      obtain ⟨scanner, hscanner, hdue⟩ := Desk.exists_of_mem_dues hmem
      exact Multiset.count_eq_zero.mp ((hresting scanner hscanner).count_dues origin) hdue
    have hcount := hbalances.count_source origin
    rw [hnone, hissued fun _ => Due.noConfusion, zero_add, zero_add] at hcount
    rw [← hcount]
    refine List.countP_congr fun note hnote => ?_
    -- A failed close would still have to be reported.
    have hfailures : note.closeFailure? = none := by
      cases hfailure : note.closeFailure? with
      | none => rfl
      | some failure =>
          have hreported := hbalances.count_closeFailure failure
          rw [htidy.count_dues (fun _ => Due.noConfusion) fun _ => Due.noConfusion,
            hissued fun _ => Due.noConfusion, zero_add] at hreported
          exact absurd (List.mem_filterMap.mpr ⟨note, hnote, hfailure⟩)
            (List.count_eq_zero.mp hreported.symm)
    cases note with
    | called used call failure =>
        cases failure with
        | none => rfl
        | some failure => cases call <;> simp_all [Note.isSuccess, Note.isCall, Note.closeFailure?]
    | _ => rfl
  · have hlost := hbalances.count_lost origin
    rw [htidy.count_dues (fun _ => Due.noConfusion) fun _ => Due.noConfusion,
      hissued fun _ => Due.noConfusion, zero_add] at hlost
    exact hlost.symm

/-- Where no scanner holds a source, the open readers of a run are those that others opened. -/
theorem Tidy.openReaders_eq (htidy : session.Tidy) (hresting : session.Resting) (id : RunId)
    {own all : List Note} (hall : all.Perm (session.journal ++ own)) :
    openReaders all id = openReaders own id := by
  obtain ⟨hclosed, hlost⟩ := htidy.closed_of_resting hresting (.run id)
  simp only [openReaders, hall.countP_eq, List.countP_append, hclosed, hlost]
  omega

/-- Whether no scanner holds a reader of a run. Then the readers that are open, whatever else is
in the journal, are those of others. -/
def HoldsNoReader (session : StoreSession) : Prop :=
  session.Resting ∧ ∀ (id : RunId) (own all : List Note), all.Perm (session.journal ++ own) →
    openReaders all id = openReaders own id

theorem Tidy.holdsNoReader (htidy : session.Tidy) (hresting : session.Resting) :
    session.HoldsNoReader :=
  ⟨hresting, fun id _ _ hall => htidy.openReaders_eq hresting id hall⟩

/-- After anything that was done with a store, the store counts as many subscribers as there are
scanners on it that have not ended and were not dropped. When something changes its runs, no
scanner holds a reader afterwards, and neither does any once all of them have ended. A scanner
ends just when it is closed or dropped, hands out its last page, or fails for another reason
than that a limit was refused. -/
theorem readers_and_subscribers (family : Family) (uses : List StoreUse) :
    let session := (fresh family).useAll uses
    (session.store.subscriptions.length =
      session.desk.scanners.countP fun scanner => !scanner.isClosed) ∧
    (∀ change, (session.use change).1 = true → (session.use change).2.HoldsNoReader) ∧
    ((∀ scanner ∈ session.desk.scanners, scanner.isClosed = true) → session.HoldsNoReader) ∧
    ∀ name command other, (session.perform name command).2.desk.isLive other =
      (session.desk.isLive other &&
        !(other = name && command.ends (session.perform name command).1)) := by
  intro session
  have htidy : session.Tidy := (fresh_tidy family).useAll uses
  refine ⟨htidy.length_subscriptions, fun change hchange => ?_, fun hclosed => ?_,
    session.desk.isLive_perform⟩
  · obtain ⟨hchanged, hresting⟩ := htidy.use change
    exact hchanged.holdsNoReader (hresting hchange)
  · exact htidy.holdsNoReader fun scanner hscanner =>
      Scanner.resting_of_closed (hclosed scanner hscanner)

/-- Two scans of a store, one of them at its first cell, when a run is loaded and when that one
is closed. -/
theorem readers_and_subscribers_of_load :
    let family : Family := { name := [102], clock := .manual .oldest }
    let cell := Cell.put [114] [102] [99] ⟨1⟩ [1]
    let uses : List StoreUse :=
      [.add cell, .openScan "a" {}, .openScan "b" {}, .ask "a" (.next .ofScan)]
    ((fresh family).useAll uses).store.subscriptions.length = 2 ∧
      (((fresh family).useAll uses).use (.bulkLoad [cell])).1 = true ∧
      (((fresh family).useAll uses).use (.bulkLoad [cell])).2.HoldsNoReader ∧
      (((fresh family).useAll uses).perform "a" .close).2.desk.isLive "a" = false ∧
      (((fresh family).useAll uses).perform "a" .close).2.desk.isLive "b" = true := by
  intro family cell uses
  have hload : (((fresh family).useAll uses).use (.bulkLoad [cell])).1 = true := by decide
  have hcount : (((fresh family).useAll uses).desk.scanners.countP
      fun scanner => !scanner.isClosed) = 2 := by decide
  have hlive : ((fresh family).useAll uses).desk.isLive "b" = true := by decide
  obtain ⟨hlength, hchanged, -, hasked⟩ := readers_and_subscribers family uses
  refine ⟨hlength.trans hcount, hload, hchanged (.bulkLoad [cell]) hload, ?_, ?_⟩
  · rw [hasked]
    simp [ScannerCommand.ends]
  · rw [hasked, hlive]
    rfl

end StoreSession

end MergeScan
