import MergeScan.Proofs.Scanner.Dues
import MergeScan.Proofs.Session.Subscriptions

/-! # The life of a scanner

A scanner is opened, or given sources to merge. Then it is read, positioned, told of changes
and closed in any order and any number of times, while its provider may hand out what it
likes, and in the end it may be dropped. It is told of changes until it has ended, not longer.
-/

namespace MergeScan

/-- What can be asked of a scanner, with what the provider has to hand out at that time. -/
inductive ScannerCall (σ : Type)
  | next (supply : Option (Supply σ)) (limit : ReadLimit)
  | seek (supply : Option (Supply σ)) (key : Cell)
  | reseek (supply : Option (Supply σ)) (key : Cell)
  | sourcesChanged
  | close

/-- What a scanner replies. -/
inductive ScannerReply
  | page (result : Except ScanError Page)
  | found (result : Except ScanError Bool)
  | told
  | closed (failures : List SourceError)

/-- How a scanner comes about. -/
inductive Beginning (σ φ : Type)
  /-- Over the sources of a provider. -/
  | opened (family : Family) (supply : Supply σ) (subscription : Nat) (scan : Scan φ)
  /-- Over sources that were handed out before. -/
  | given (family : Family) (scan : Scan φ) (sources : List σ)

/-- What became of a scanner. -/
inductive Fate (σ φ : Type)
  /-- It was not even opened. -/
  | failed (failure : ScanError)
  | kept (replies : List ScannerReply) (scanner : Scanner σ φ)
  | dropped (replies : List ScannerReply)

/-! ## Failures in replies -/

namespace ScanError

/-- The failure of a source or a provider that a scan ended with. -/
def cause? : ScanError → Option SourceError
  | source failure _ => some failure
  | _ => none

end ScanError

namespace ScannerReply

/-- The failure that is replied, if it is one. -/
def failure? : ScannerReply → Option ScanError
  | page result => failureOf result
  | found result => failureOf result
  | told | closed _ => none

/-- The failures to close sources that are reported. -/
def closeFailures : ScannerReply → List SourceError
  | closed failures => failures
  | reply => (reply.failure?.map ScanError.suppressed).getD []

/-- The failure of a source or a provider that is reported. -/
def cause? (reply : ScannerReply) : Option SourceError :=
  reply.failure?.bind ScanError.cause?

end ScannerReply

/-! ## Running -/

section

variable {σ φ : Type} [Source σ] [CellFilter φ]

namespace Scanner

/-- Ask something of a scanner. -/
def call (scanner : Scanner σ φ) : ScannerCall σ → Noted (ScannerReply × Scanner σ φ)
  | .next supply limit => do
    let (result, scanner) ← scanner.next supply limit
    pure (.page result, scanner)
  | .seek supply key => do
    let (result, scanner) ← scanner.seek supply key
    pure (.found result, scanner)
  | .reseek supply key => do
    let (result, scanner) ← scanner.reseek supply key
    pure (.found result, scanner)
  | .sourcesChanged => do
    let scanner ← scanner.sourcesChanged
    pure (.told, scanner)
  | .close => do
    let (failures, scanner) ← scanner.close
    pure (.closed failures, scanner)

/-- Ask one thing after the other. -/
def calls : List (ScannerCall σ) → Scanner σ φ → Noted (List ScannerReply × Scanner σ φ)
  | [], scanner => pure ([], scanner)
  | call :: rest, scanner => do
    let (reply, scanner) ← scanner.call call
    let (replies, scanner) ← calls rest scanner
    pure (reply :: replies, scanner)

end Scanner

namespace Beginning

/-- Open a scan. Sources that are given were handed out to whoever gives them. -/
def begin : Beginning σ φ → Noted (Except ScanError (Scanner σ φ))
  | opened family supply subscription scan => Scanner.open family supply subscription scan
  | given family scan sources => do
    Noted.noteAll (sources.map fun source => .opened (Source.origin source))
    Scanner.ofSources family scan sources

/-- Whether the scan is not refused for its filter while it was given sources. -/
def Accepted : Beginning σ φ → Prop
  | opened .. => True
  | given _ scan _ => scan.validate = .ok ()

/-- Open a scan, ask things of the scanner, and perhaps drop it. -/
def live (beginning : Beginning σ φ) (calls : List (ScannerCall σ)) (dropped : Bool) :
    Noted (Fate σ φ) := do
  let begun ← beginning.begin
  match begun with
  | .error failure => pure (.failed failure)
  | .ok scanner => do
    let (replies, scanner) ← scanner.calls calls
    if dropped then do
      scanner.drop
      pure (.dropped replies)
    else pure (.kept replies scanner)

end Beginning

end

/-! ## Subscribed until the end -/

section

variable {σ φ : Type} [Source σ] [CellFilter φ]

namespace Scanner

variable {scanner : Scanner σ φ}

/-- Whether a scanner is told about changes under a number, if under any, until it ends. -/
structure SubscribedAs (scanner : Scanner σ φ) (number : Option Nat) : Prop where
  ended : scanner.phase = .closed → scanner.subscription = none
  lasting : scanner.phase ≠ .closed → scanner.subscription = number

variable {number : Option Nat}

omit [Source σ] [CellFilter φ] in
theorem Ended.subscribedAs (hended : scanner.Ended) (number : Option Nat) :
    scanner.SubscribedAs number :=
  ⟨fun _ => hended.2, fun hlasting => absurd hended.1 hlasting⟩

omit [Source σ] [CellFilter φ] in
theorem subscribedAs_of_lasting (hphase : scanner.phase ≠ .closed)
    (hsubscription : scanner.subscription = number) : scanner.SubscribedAs number :=
  ⟨fun hclosed => absurd hclosed hphase, fun _ => hsubscription⟩

omit [CellFilter φ] in
/-- What concludes an operation ends the scan after a failure. -/
theorem subscribedAs_concluding {α : Type} {outcome : Except ScanError α × Scanner σ φ}
    (hok : ∀ answer, outcome.1 = .ok answer → outcome.2.SubscribedAs number) :
    (concluding outcome).value.2.SubscribedAs number := by
  obtain ⟨failure | answer, reached⟩ := outcome
  · refine Ended.subscribedAs ?_ number
    exact release_ended reached
  · exact hok answer rfl

omit [CellFilter φ] in
theorem subscribedAs_refreshSources (hsubscribed : scanner.SubscribedAs number)
    (supply : Option (Supply σ)) :
    (scanner.refreshSources supply).value.2.SubscribedAs number := by
  unfold refreshSources
  split
  next key hphase =>
    have hsame := hsubscribed.lasting (by rw [hphase]; nofun)
    rw [Noted.value_bind]
    split
    · exact hsubscribed
    · exact subscribedAs_of_lasting nofun hsame
  next => exact hsubscribed

theorem subscribedAs_resync (hsubscribed : scanner.SubscribedAs number)
    (supply : Option (Supply σ)) : (scanner.resync supply).value.1 = .ok () →
      (scanner.resync supply).value.2.SubscribedAs number := by
  unfold resync
  split
  next key hphase =>
    have hsame := hsubscribed.lasting (by rw [hphase]; nofun)
    rw [Noted.value_bind]
    split
    · nofun
    · exact fun _ => subscribedAs_of_lasting nofun ((scanner.enterRow_quiet _).2.trans hsame)
  next => exact fun _ => hsubscribed

omit [CellFilter φ] in
theorem subscribedAs_handOut (hsubscribed : scanner.SubscribedAs number) (cells : List Cell)
    (ended : Bool) : (scanner.handOut cells ended).value.2.SubscribedAs number := by
  unfold handOut
  split
  · exact (release_ended scanner).subscribedAs number
  · exact hsubscribed

theorem subscribedAs_read (hnumber : scanner.subscription = number) (merge : Merge σ)
    (first : Cell) (limit : Option Nat) (page : Page) :
    (scanner.read merge first limit).value.1 = .ok page →
      (scanner.read merge first limit).value.2.SubscribedAs number := by
  have hentered := (scanner.enterRow_quiet first.row).2.trans hnumber
  unfold read
  rw [Noted.value_bind]
  generalize (scanner.enterRow first.row).value = entered at hentered ⊢
  rw [Noted.value_bind]
  generalize (ReadState.pass ⟨merge, entered.matcher⟩ limit).value = passed
  obtain ⟨failure | ⟨cells, ending⟩, state⟩ := passed
  · nofun
  · intro _
    let reached (matcher : Matcher φ) : Scanner σ φ :=
      { entered with phase := .active state.merge, matcher }
    have hreached (matcher : Matcher φ) : (reached matcher).SubscribedAs number :=
      subscribedAs_of_lasting (by simp [reached]) hentered
    dsimp only
    split
    · exact subscribedAs_handOut (hreached _) _ _
    · exact subscribedAs_handOut (hreached _) _ _

theorem subscribedAs_next (hsubscribed : scanner.SubscribedAs number)
    (supply : Option (Supply σ)) (limit : ReadLimit) :
    (scanner.next supply limit).value.2.SubscribedAs number := by
  unfold next
  split
  · exact hsubscribed
  · refine subscribedAs_concluding fun page => ?_
    have hresync := subscribedAs_resync hsubscribed supply
    unfold fill
    rw [Noted.value_bind]
    generalize (scanner.resync supply).value = resynced at hresync ⊢
    obtain ⟨failure | _, reached⟩ := resynced
    · nofun
    · dsimp only
      split
      next merge hactive =>
        split
        · exact subscribedAs_read ((hresync rfl).lasting (by simp [hactive])) _ _ _ page
        · exact fun _ => (release_ended reached).subscribedAs number
      next => exact fun _ => hresync rfl

omit [CellFilter φ] in
/-- A scanner whose merge was moved is subscribed as before, unless that failed. -/
theorem subscribedAs_moved (hnumber : scanner.subscription = number)
    (moved : Noted (Except SourceError Bool × Merge σ)) :
    (moved >>= fun outcome =>
      concluding (scanner.ofMerge outcome)).value.2.SubscribedAs number :=
  subscribedAs_concluding fun _ _ => subscribedAs_of_lasting nofun hnumber

omit [CellFilter φ] in
theorem subscribedAs_seek (hsubscribed : scanner.SubscribedAs number)
    (supply : Option (Supply σ)) (key : Cell) :
    (scanner.seek supply key).value.2.SubscribedAs number := by
  have hrefreshed := subscribedAs_refreshSources hsubscribed supply
  unfold seek
  rw [Noted.value_bind]
  generalize (scanner.refreshSources supply).value = refreshed at hrefreshed ⊢
  obtain ⟨failure | _, reached⟩ := refreshed
  · exact subscribedAs_concluding nofun
  · dsimp only
    split
    next merge hactive => exact subscribedAs_moved (hrefreshed.lasting (by rw [hactive]; nofun)) _
    next => exact hrefreshed

theorem subscribedAs_reseek (hsubscribed : scanner.SubscribedAs number)
    (supply : Option (Supply σ)) (key : Cell) :
    (scanner.reseek supply key).value.2.SubscribedAs number := by
  have hresync := subscribedAs_resync hsubscribed supply
  unfold reseek
  rw [Noted.value_bind]
  generalize (scanner.resync supply).value = resynced at hresync ⊢
  obtain ⟨failure | _, reached⟩ := resynced
  · exact subscribedAs_concluding nofun
  · dsimp only
    split
    next merge hactive =>
      have hnumber := (hresync rfl).lasting (by rw [hactive]; nofun)
      split <;> exact subscribedAs_moved hnumber _
    next => exact hresync rfl

omit [CellFilter φ] in
theorem subscribedAs_sourcesChanged (hsubscribed : scanner.SubscribedAs number) :
    scanner.sourcesChanged.value.SubscribedAs number := by
  unfold sourcesChanged
  split
  next merge hactive =>
    split
    · exact hsubscribed
    · exact subscribedAs_of_lasting nofun (hsubscribed.lasting (by rw [hactive]; nofun))
  next => exact hsubscribed

theorem subscribedAs_pages (hsubscribed : scanner.SubscribedAs number)
    (supply : Option (Supply σ)) (limit : ReadLimit) (count : Nat) :
    (Scanner.pages supply limit count scanner).value.2.SubscribedAs number := by
  induction count generalizing scanner with
  | zero => exact hsubscribed
  | succ count ih =>
      have hnext := subscribedAs_next hsubscribed supply limit
      rw [pages, Noted.value_bind]
      generalize (scanner.next supply limit).value = read at hnext ⊢
      obtain ⟨_ | ⟨cells, _ | _⟩, reached⟩ := read
      · exact hnext
      · exact hnext
      · exact ih hnext

/-- Whatever is asked of a scanner, it stays subscribed until it ends, and not longer. -/
theorem subscribedAs_call (hsubscribed : scanner.SubscribedAs number) (call : ScannerCall σ) :
    (scanner.call call).value.2.SubscribedAs number := by
  cases call with
  | next supply limit => exact subscribedAs_next hsubscribed supply limit
  | seek supply key => exact subscribedAs_seek hsubscribed supply key
  | reseek supply key => exact subscribedAs_reseek hsubscribed supply key
  | sourcesChanged => exact subscribedAs_sourcesChanged hsubscribed
  | close =>
      refine Ended.subscribedAs ?_ number
      exact release_ended scanner

theorem subscribedAs_calls (hsubscribed : scanner.SubscribedAs number)
    (calls : List (ScannerCall σ)) :
    (Scanner.calls calls scanner).value.2.SubscribedAs number := by
  induction calls generalizing scanner with
  | nil => exact hsubscribed
  | cons call rest ih => exact ih (subscribedAs_call hsubscribed call)

end Scanner

end

/-! ## The beginning -/

section

variable {σ φ : Type} [Source σ] [CellFilter φ]

/-- A scanner as it is right after it was opened. -/
structure Scanner.Begun (scanner : Scanner σ φ) : Prop where
  active : ∃ merge, scanner.phase = .active merge
  suppressed : scanner.suppressed = []

namespace Beginning

/-- The number under which a scanner is to be told about changes. -/
def subscription? : Beginning σ φ → Option Nat
  | opened _ _ subscription _ => some subscription
  | given .. => none

/-- The number under which a scanner is told about changes, if opening it succeeds. -/
def subscribed? (beginning : Beginning σ φ) : Option Nat :=
  match beginning.begin.value with
  | .ok _ => beginning.subscription?
  | .error _ => none

variable {beginning : Beginning σ φ} {scanner : Scanner σ φ}

theorem begun_of_begin (hbegin : beginning.begin.value = .ok scanner) :
    scanner.Begun ∧ scanner.subscription = beginning.subscription? := by
  cases beginning with
  | opened family supply subscription scan =>
      simp only [begin, Scanner.open] at hbegin
      split at hbegin
      · cases hbegin
      · rw [Noted.value_bind] at hbegin
        split at hbegin
        · cases hbegin
        · rw [Noted.value_bind] at hbegin
          split at hbegin
          · cases hbegin
          · cases hbegin
            exact ⟨⟨⟨_, rfl⟩, rfl⟩, rfl⟩
  | given family scan sources =>
      simp only [begin, Scanner.ofSources, Noted.value_bind] at hbegin
      split at hbegin
      · cases hbegin
      · rw [Noted.value_bind] at hbegin
        split at hbegin
        · cases hbegin
        · cases hbegin
          exact ⟨⟨⟨_, rfl⟩, rfl⟩, rfl⟩

theorem subscribedAs_begin (hbegin : beginning.begin.value = .ok scanner) :
    scanner.SubscribedAs beginning.subscription? := by
  obtain ⟨⟨⟨merge, hactive⟩, -⟩, hsubscription⟩ := begun_of_begin hbegin
  exact Scanner.subscribedAs_of_lasting (by rw [hactive]; nofun) hsubscription

variable [TraceableSource σ]

/-- From the beginning a scanner is to close what was handed out to it. -/
theorem begin_settles (haccepted : beginning.Accepted) :
    beginning.begin.Settles (beginning.subscribed?.toList.map Due.subscription)
      (ScanError.duesOr Scanner.dues) := by
  have hbegun := @begun_of_begin _ _ _ _ beginning
  cases beginning with
  | opened family supply subscription scan =>
      have hopen := Scanner.open_settles family supply subscription scan
      rw [begin] at hbegun ⊢
      rw [Noted.Settles] at hopen ⊢
      rw [subscribed?, begin]
      cases hvalue : (Scanner.open family supply subscription scan).value with
      | error failure =>
          rw [hvalue] at hopen
          exact hopen
      | ok scanner =>
          obtain ⟨⟨-, hsuppressed⟩, hsubscription⟩ := hbegun hvalue
          have hframed := hopen.frame {.subscription subscription}
          rw [hvalue, zero_add] at hframed
          rw [ScanError.duesOr, Scanner.dues,
            Scanner.keptDues_of_begun hsuppressed hsubscription]
          exact hframed
  | given family scan sources =>
      have hnone : (given family scan sources).subscribed? = none := by
        unfold subscribed?
        split <;> rfl
      rw [hnone]
      exact (Noted.settles_opened sources).bind fun _ =>
        Scanner.ofSources_settles family haccepted sources

end Beginning

/-! ## What replies report -/

/-- What a reply reports. -/
def ScannerReply.dues : ScannerReply → Multiset Due
  | page result => ScanError.reported result
  | found result => ScanError.reported result
  | told => 0
  | closed failures => Due.closeFailures failures

/-- What has to be done after all: what the scanner has to do, and what its replies report. -/
def Fate.dues : Fate σ φ → Multiset Due
  | failed failure => failure.dues
  | kept replies scanner => scanner.dues + (replies.map ScannerReply.dues).sum
  | dropped replies => (replies.map ScannerReply.dues).sum

variable [TraceableSource σ]

namespace Scanner

theorem call_settles (scanner : Scanner σ φ) (call : ScannerCall σ) :
    (scanner.call call).Settles scanner.dues fun outcome => outcome.2.dues + outcome.1.dues := by
  cases call with
  | next supply limit =>
      exact (scanner.next_settles supply limit).bind fun _ => Noted.settles_pure rfl
  | seek supply key => exact (scanner.seek_settles supply key).bind fun _ => Noted.settles_pure rfl
  | reseek supply key =>
      exact (scanner.reseek_settles supply key).bind fun _ => Noted.settles_pure rfl
  | sourcesChanged =>
      exact scanner.sourcesChanged_settles.bind fun _ => Noted.settles_pure (add_zero _).symm
  | close => exact scanner.close_settles.bind fun _ => Noted.settles_pure rfl

theorem calls_settles (calls : List (ScannerCall σ)) (scanner : Scanner σ φ) :
    (Scanner.calls calls scanner).Settles scanner.dues
      fun outcome => outcome.2.dues + (outcome.1.map ScannerReply.dues).sum := by
  induction calls generalizing scanner with
  | nil => exact Noted.settles_pure (add_zero _).symm
  | cons call rest ih =>
      refine (scanner.call_settles call).bind fun first => ((ih first.2).frame _).bind
        fun later => Noted.settles_pure ?_
      rw [List.map_cons, List.sum_cons]
      abel

omit [CellFilter φ] [TraceableSource σ] in
/-- A scanner that is dropped closes its sources and ends its subscription. Failures that were
not reported stay so. -/
theorem drop_settles (scanner : Scanner σ φ) : scanner.drop.Settles scanner.dues
    fun _ => Due.closeFailures scanner.release.value.suppressed := by
  obtain ⟨hclosed, hunsubscribed⟩ := release_ended scanner
  refine scanner.release_settles.bind_value ?_
  have hdues : scanner.release.value.dues =
      Due.closeFailures scanner.release.value.suppressed := by
    rw [dues, keptDues, hclosed, hunsubscribed]
    exact (zero_add _).trans (add_zero _)
  rw [hdues]
  split
  · exact Noted.settles_pure rfl
  · exact Noted.settles_raise _ _

end Scanner

/-- What is still to be done in the end, of what there was to do over a whole life. -/
theorem Beginning.live_settles {beginning : Beginning σ φ} (haccepted : beginning.Accepted)
    (calls : List (ScannerCall σ)) (dropped : Bool) :
    ∃ unreported, (beginning.live calls dropped).Settles
      (beginning.subscribed?.toList.map Due.subscription)
      (fun fate => fate.dues + Due.closeFailures unreported) ∧
      (dropped = false → unreported = []) := by
  have hbegin := beginning.begin_settles haccepted
  cases hvalue : beginning.begin.value with
  | error failure =>
      refine ⟨[], hbegin.bind_value ?_, fun _ => rfl⟩
      rw [hvalue]
      exact Noted.settles_pure (add_zero _).symm
  | ok scanner =>
      have hcalls := scanner.calls_settles calls
      cases dropped with
      | false =>
          refine ⟨[], hbegin.bind_value ?_, fun _ => rfl⟩
          rw [hvalue]
          exact hcalls.bind fun _ => Noted.settles_pure (add_zero _).symm
      | true =>
          have hdrop := (Scanner.calls calls scanner).value.2.drop_settles
          refine ⟨(Scanner.calls calls scanner).value.2.release.value.suppressed,
            hbegin.bind_value ?_, nofun⟩
          rw [hvalue]
          exact hcalls.bind_value <| (hdrop.frame _).bind fun _ =>
            Noted.settles_pure (add_comm _ _)

end

end MergeScan
