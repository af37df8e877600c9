import MergeScan.Proofs.Scanner.Lockstep
import MergeScan.Proofs.Session.Subscriptions
import MergeScan.Proofs.Store.Flush

/-! # Scans of a store in use

A scan of a store that is flushed between the reads is told of each flush that makes a run,
and takes its sources from the store as it is then. So what a session answers is what a
scanner answers over a course of changes.
-/

namespace MergeScan

open CellOrder

/-- What is done while a scan of a store is open. -/
inductive StoreStep
  | next (limit : ReadLimit)
  | flush
deriving DecidableEq

/-- The limit of a step that is a read. -/
def StoreStep.limit? : StoreStep → Option ReadLimit
  | next limit => some limit
  | flush => none

/-- The limit of an event that is a read. -/
def ScanEvent.limit? {α : Type} : ScanEvent α → Option ReadLimit
  | read limit => some limit
  | change _ => none

theorem ScanEvent.filter_isRead {α : Type} (events : List (ScanEvent α)) :
    events.filter isRead = (events.filterMap limit?).map .read := by
  induction events with
  | nil => rfl
  | cons event rest ih =>
      cases event with
      | read limit => exact congrArg (.read limit :: ·) ih
      | change _ => exact ih

namespace StoreSession

/-- What the scan of a name answers when it is read, step by step. -/
def answers (name : String) : List StoreStep → StoreSession → List ScannerAnswer
  | [], _ => []
  | .next limit :: rest, session =>
    let outcome := session.perform name (.next limit)
    outcome.1 :: answers name rest outcome.2
  | .flush :: rest, session => answers name rest session.flush.2

/-- A session with one scanner, which is told about changes as long as its scan has not
ended. -/
structure Scans (session : StoreSession) (name : String) (scanner : DeskScanner) : Prop where
  desk : ∃ slot, session.desk = [(name, slot)] ∧ slot.scanner = some scanner
  told : scanner.phase = .closed ∨
    ∃ number ∈ session.store.subscriptions, scanner.subscription = some number

variable {session : StoreSession} {name : String} {scanner : DeskScanner} {notes : List Note}

theorem store_absorb (session : StoreSession) (notes : List Note) :
    ∃ subscriptions, (session.absorb notes).store = { session.store with subscriptions } := by
  unfold absorb
  generalize session.store = store
  induction endedSubscriptions notes generalizing store with
  | nil => exact ⟨store.subscriptions, rfl⟩
  | cons number rest ih => exact ih (store.unsubscribe number)

theorem absorb_of_quiet (hquiet : endedSubscriptions notes = []) :
    session.absorb notes = { session with journal := session.journal ++ notes } := by
  rw [absorb, hquiet]
  rfl

end StoreSession

/-- To be told of a change twice is to be told once. -/
theorem Scanner.sourcesChanged_again (scanner : DeskScanner) :
    scanner.sourcesChanged.value.sourcesChanged.value = scanner.sourcesChanged.value := by
  have hcases : scanner.sourcesChanged.value = scanner ∨
      ∃ key, scanner.sourcesChanged.value.phase = .resync key := by
    unfold sourcesChanged
    split
    · split
      · exact .inl rfl
      · exact .inr ⟨_, rfl⟩
    · exact .inl rfl
  rcases hcases with hsame | ⟨key, hphase⟩
  · rw [hsame, hsame]
  · rw [sourcesChanged, hphase]
    rfl

namespace StoreSession

variable {session : StoreSession} {name : String} {scanner : DeskScanner}

/-- Of a change the scanner is told if it goes by its number. -/
theorem Scans.announceTo (hscans : session.Scans name scanner) (number : Nat) :
    (session.announceTo number).store = session.store ∧
      (session.announceTo number).Scans name
        (if scanner.subscription = some number then scanner.sourcesChanged.value else scanner) := by
  obtain ⟨⟨slot, hdesk, hscanner⟩, htold⟩ := hscans
  obtain ⟨hquiet, hsame⟩ := scanner.sourcesChanged_holds
  by_cases hnumber : scanner.subscription = some number
  · have hannounce : (session.desk.announce number).Quiet ∧
        (session.desk.announce number).value =
          [(name, { slot with scanner := some scanner.sourcesChanged.value })] := by
      rw [hdesk]
      simp only [Desk.announce, hscanner, if_pos hnumber]
      exact ⟨.bind hquiet fun _ => rfl, rfl⟩
    rw [if_pos hnumber, StoreSession.announceTo, absorb_of_quiet hannounce.1]
    refine ⟨rfl, ⟨_, hannounce.2, rfl⟩, ?_⟩
    rcases htold with hclosed | htold
    · left
      simp [Scanner.sourcesChanged, hclosed]
    · exact .inr (hsame ▸ htold)
  · have hannounce : (session.desk.announce number).Quiet ∧
        (session.desk.announce number).value = session.desk := by
      rw [hdesk]
      simp only [Desk.announce, hscanner, if_neg hnumber]
      exact ⟨.bind rfl fun _ => rfl, rfl⟩
    rw [if_neg hnumber, StoreSession.announceTo, absorb_of_quiet hannounce.1]
    exact ⟨rfl, ⟨slot, hannounce.2.trans hdesk, hscanner⟩, htold⟩

theorem Scans.announceEach_of_told (hscans : session.Scans name scanner)
    (htold : scanner.sourcesChanged.value = scanner) (numbers : List Nat) :
    (numbers.foldl StoreSession.announceTo session).store = session.store ∧
      (numbers.foldl StoreSession.announceTo session).Scans name scanner := by
  induction numbers generalizing session with
  | nil => exact ⟨rfl, hscans⟩
  | cons number rest ih =>
      obtain ⟨hstore, hfirst⟩ := hscans.announceTo number
      rw [htold, ite_self] at hfirst
      obtain ⟨hstore', hrest⟩ := ih hfirst
      exact ⟨hstore'.trans hstore, hrest⟩

theorem Scans.announceEach (hscans : session.Scans name scanner) {numbers : List Nat}
    (hnumber : ∃ number ∈ numbers, scanner.subscription = some number) :
    (numbers.foldl StoreSession.announceTo session).store = session.store ∧
      (numbers.foldl StoreSession.announceTo session).Scans name scanner.sourcesChanged.value := by
  induction numbers generalizing session with
  | nil =>
      obtain ⟨number, hmem, -⟩ := hnumber
      cases hmem
  | cons first rest ih =>
      obtain ⟨hstore, hfirst⟩ := hscans.announceTo first
      by_cases hsame : scanner.subscription = some first
      · rw [if_pos hsame] at hfirst
        obtain ⟨hstore', hrest⟩ := hfirst.announceEach_of_told scanner.sourcesChanged_again rest
        exact ⟨hstore'.trans hstore, hrest⟩
      · rw [if_neg hsame] at hfirst
        obtain ⟨number, hmem, hnumber⟩ := hnumber
        have hmem : number ∈ rest := by
          rcases List.mem_cons.mp hmem with rfl | hmem
          · exact absurd hnumber hsame
          · exact hmem
        obtain ⟨hstore', hrest⟩ := ih hfirst ⟨number, hmem, hnumber⟩
        exact ⟨hstore'.trans hstore, hrest⟩

/-- A scanner that has not ended is told of every change. -/
theorem Scans.announce (hscans : session.Scans name scanner) :
    (∃ subscriptions, session.announce.store = { session.store with subscriptions }) ∧
      session.announce.Scans name scanner.sourcesChanged.value := by
  obtain ⟨⟨slot, hdesk, hscanner⟩, htold⟩ := hscans
  let alive := session.store.subscriptions.filter session.isAlive
  let before : StoreSession :=
    { session with
      store := { session.store with subscriptions := alive }
      journal := session.journal ++ [.raised (.observersNotified alive.length)] }
  have hannounce : session.announce = alive.foldl StoreSession.announceTo before := rfl
  have halive : ∀ number ∈ session.store.subscriptions, scanner.subscription = some number →
      number ∈ alive := by
    intro number hmem hnumber
    refine List.mem_filter.mpr ⟨hmem, ?_⟩
    simp [isAlive, Desk.subscribes, hdesk, hscanner, hnumber]
  have hbefore : before.Scans name scanner :=
    ⟨⟨slot, hdesk, hscanner⟩, htold.imp_right fun ⟨number, hmem, hnumber⟩ =>
      ⟨number, halive number hmem hnumber, hnumber⟩⟩
  rw [hannounce]
  rcases hbefore.told with hclosed | htold
  · have hsame : scanner.sourcesChanged.value = scanner := by
      simp [Scanner.sourcesChanged, hclosed]
    obtain ⟨hstore, hrest⟩ := hbefore.announceEach_of_told hsame alive
    exact ⟨⟨alive, hstore⟩, hsame.symm ▸ hrest⟩
  · obtain ⟨hstore, hrest⟩ := hbefore.announceEach htold
    exact ⟨⟨alive, hstore⟩, hrest⟩

/-- A flush that makes a run is a change to the flushed store. -/
theorem Scans.flush (hscans : session.Scans name scanner)
    (hbuffer : session.store.buffer.isEmpty = false) :
    (∃ subscriptions, session.flush.2.store =
        { session.store.flush.value.2 with subscriptions }) ∧
      session.flush.2.Scans name scanner.sourcesChanged.value := by
  let added := session.store.addRun session.store.buffer.cells
  let flushed : StoreSession :=
    { session with
      store := session.store.flush.value.2
      archive := session.archive ++ [added.1]
      journal := session.journal ++ [.raised (.storeFlushed added.1.size added.1.sequenceId)] }
  have hflush : session.flush.2 = flushed.announce := by
    rw [StoreSession.flush, Store.flush, hbuffer]
    simp only [flushed, Store.flush_of_nonempty hbuffer]
    rfl
  have hflushed : flushed.Scans name scanner := by
    refine ⟨hscans.desk, hscans.told.imp_right (Exists.imp fun _ => And.imp_left ?_)⟩
    simp only [flushed, Store.flush_of_nonempty hbuffer]
    exact id
  rw [hflush]
  exact hflushed.announce

/-- A read is a read of the scanner, with the store as it is as the provider. -/
theorem Scans.next (hscans : session.Scans name scanner) (limit : ReadLimit) :
    let outcome := (scanner.next (some session.store.supply) limit).value
    (session.perform name (.next limit)).1 = .page outcome.1 ∧
      (∃ subscriptions, (session.perform name (.next limit)).2.store =
        { session.store with subscriptions }) ∧
      (session.perform name (.next limit)).2.Scans name outcome.2 := by
  obtain ⟨⟨slot, hdesk, hscanner⟩, htold⟩ := hscans
  have hholds := scanner.next_holds (some session.store.supply) limit
  let outcome := scanner.next (some session.store.supply) limit
  let read : StoreSession :=
    { session with desk := [(name, { slot with
        scanner := some outcome.value.2
        notes := slot.notes ++ outcome.notes })] }
  have hperform : session.perform name (.next limit) =
      (.page outcome.value.1, read.absorb outcome.notes) := by
    simp [perform, hdesk, Desk.perform, Named.get?, hscanner, Desk.use, Named.put, outcome, read]
  rw [hperform]
  refine ⟨rfl, store_absorb read outcome.notes, ⟨_, rfl, rfl⟩, ?_⟩
  rcases hholds with ⟨hquiet, hsame⟩ | hended
  · rw [absorb_of_quiet hquiet]
    rcases htold with hclosed | ⟨number, hmem, hnumber⟩
    · rw [Scanner.next_of_ended hclosed]
      exact .inl hclosed
    · exact .inr ⟨number, hmem, hsame.trans hnumber⟩
  · exact .inl hended.1

/-- A scan opened in a session without others is told about changes. -/
theorem open_scans (hdesk : session.desk = []) {scan : Scan AnyFilter}
    (hopen : (Scanner.open session.store.family session.store.supply
      session.store.nextSubscription scan).value = .ok scanner) (name : String) :
    (session.open name scan).1 = .ok () ∧ (session.open name scan).2.Scans name scanner ∧
      (session.open name scan).2.store.data = session.store.data ∧
      (session.open name scan).2.store.supply = session.store.supply := by
  have hquiet := Scanner.open_quiet session.store.family session.store.supply
    session.store.nextSubscription scan
  let opened : StoreSession :=
    { session with
      store := session.store.subscribe.2
      desk := [(name, { scanner := some scanner, scripted := scan.filter.any (·.isScripted) })] }
  have hsession : session.open name scan = (.ok (), opened.absorb
      (Scanner.open session.store.family session.store.supply
        session.store.nextSubscription scan).notes) := by
    simp [StoreSession.open, Store.subscribe, hopen, Except.isOk, Except.toBool, Desk.place, hdesk,
      Named.get?, Named.put, Except.map, Except.toOption, opened]
  rw [hsession, absorb_of_quiet hquiet]
  refine ⟨rfl, ⟨⟨_, rfl, rfl⟩, .inr ⟨session.store.nextSubscription, ?_, ?_⟩⟩, rfl, rfl⟩
  · exact List.mem_append_right _ List.mem_cons_self
  · exact Scanner.subscription_of_open hopen

/-- What a session answers is what its scanner answers over a course of changes, each of them
to a store in which a scan finds the same. -/
theorem Scans.answers (hscans : session.Scans name scanner) (hkept : session.store.Kept)
    (hroom : session.store.nextSequence ≤ Store.bufferSequence)
    (hflush : session.store.buffer.isEmpty = false →
      session.store.nextSequence < Store.bufferSequence)
    {request : SourceRequest} (hselection : request.selection = .all) (steps : List StoreStep) :
    ∃ events : List (ScanEvent (Supply AnySource)),
      session.answers name steps = (scanner.run events session.store.supply).map .page ∧
      events.filterMap ScanEvent.limit? = steps.filterMap StoreStep.limit? ∧
      ∀ other, .change other ∈ events → other.Sound session.store.family.name request ∧
        Alike request.rows True (other.cells request) (session.store.supply.cells request) := by
  induction steps generalizing session scanner with
  | nil => exact ⟨[], rfl, rfl, nofun⟩
  | cons step rest ih =>
      cases step with
      | next limit =>
          obtain ⟨hpage, ⟨subscriptions, hstore⟩, hnext⟩ := hscans.next limit
          have hih := @ih (session.perform name (.next limit)).2 _ hnext
          rw [hstore] at hih
          obtain ⟨events, hanswers, hlimits, hevents⟩ := hih (hkept.of_data rfl) hroom hflush
          refine ⟨.read limit :: events, ?_, congrArg (limit :: ·) hlimits, ?_⟩
          · rw [StoreSession.answers, hpage, hanswers]
            rfl
          · intro other hother
            exact hevents other (by simpa using hother)
      | flush =>
          cases hbuffer : session.store.buffer.isEmpty with
          -- there is nothing to flush: no scan is told
          | true =>
              have hsame : session.flush.2 = session := by
                rw [StoreSession.flush, Store.flush, hbuffer]
                rfl
              obtain ⟨events, hanswers, hlimits, hevents⟩ := ih hscans hkept hroom hflush
              refine ⟨events, ?_, hlimits, hevents⟩
              rw [StoreSession.answers, hsame, hanswers]
          | false =>
              obtain ⟨⟨subscriptions, hstore⟩, hnext⟩ := hscans.flush hbuffer
              -- the scan finds the same in the store as it is then
              have halike := @Store.Sound.flush_alike _ request hkept.sound (hflush hbuffer)
                hkept.bounded hselection
              have hkept := hkept.flush
              have hroom : session.store.flush.value.2.nextSequence ≤ Store.bufferSequence := by
                rw [Store.nextSequence_flush, hbuffer]
                exact hflush hbuffer
              have hsound := hkept.sound.supply_sound hkept.stored hroom request
              have hih := @ih session.flush.2 _ hnext
              rw [hstore] at hih
              obtain ⟨events, hanswers, hlimits, hevents⟩ := hih (hkept.of_data rfl) hroom
                fun hnot => absurd hnot (by simp [Store.isEmpty_flush])
              rw [Store.family_flush] at hevents hsound
              refine ⟨.change session.store.flush.value.2.supply :: events, hanswers, hlimits, ?_⟩
              intro other hother
              rcases List.mem_cons.mp hother with heq | hmem
              · cases heq
                exact ⟨hsound, halike⟩
              · obtain ⟨hother, hsame⟩ := hevents other hmem
                exact ⟨hother, hsame.trans halike⟩

end StoreSession

end MergeScan
