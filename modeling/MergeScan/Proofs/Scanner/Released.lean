import MergeScan.Filter.Any
import MergeScan.Proofs.Scanner.Buffered
import MergeScan.Proofs.Scanner.Ending

/-! # Every source is released once

Over its whole life a scanner closes every source that was handed out to it exactly once, and
does not use it afterwards, whatever fails in between. It has closed all of them as soon as it
says that the scan has ended, and does nothing any more from then on. The one exception is a
scan that is refused for its filter after sources were given to it.
-/

namespace MergeScan

/-! ## What is over -/

/-- Whether something due is only to be reported. -/
def Due.IsReport : Due → Prop
  | closeFailure _ | cause _ => True
  | _ => False

/-- Whether nothing is to be done any more but to report. -/
def OnlyReports (dues : Multiset Due) : Prop :=
  ∀ due ∈ dues, due.IsReport

namespace OnlyReports

variable {first second : Multiset Due}

theorem zero : OnlyReports 0 :=
  fun _ hdue => absurd hdue (Multiset.notMem_zero _)

theorem add (hfirst : OnlyReports first) (hsecond : OnlyReports second) :
    OnlyReports (first + second) := by
  intro due hdue
  rcases Multiset.mem_add.mp hdue with hmem | hmem
  · exact hfirst due hmem
  · exact hsecond due hmem

theorem count_eq_zero (hreports : OnlyReports first) {due : Due} (hdue : ¬due.IsReport) :
    first.count due = 0 :=
  Multiset.count_eq_zero.mpr fun hmem => hdue (hreports due hmem)

theorem closeFailures (failures : List SourceError) : OnlyReports (Due.closeFailures failures) := by
  intro due hdue
  obtain ⟨failure, rfl⟩ := Due.eq_of_mem_closeFailures hdue
  trivial

theorem scanError (failure : ScanError) : OnlyReports failure.dues := by
  cases failure with
  | source failure suppressed =>
      refine .add (fun due hdue => ?_) (closeFailures suppressed)
      obtain rfl := Multiset.mem_singleton.mp hdue
      trivial
  | close failures => exact closeFailures failures
  | _ => exact zero

theorem reported {α : Type} (result : Except ScanError α) :
    OnlyReports (ScanError.reported result) := by
  cases result with
  | ok value => exact zero
  | error failure => exact scanError failure

theorem replies (replies : List ScannerReply) :
    OnlyReports (replies.map ScannerReply.dues).sum := by
  induction replies with
  | nil => exact zero
  | cons reply rest ih =>
      rw [List.map_cons, List.sum_cons]
      refine .add ?_ ih
      cases reply with
      | page result => exact reported result
      | found result => exact reported result
      | told => exact zero
      | closed failures => exact closeFailures failures

end OnlyReports

variable {σ φ : Type} [Source σ]

/-- Whether nothing can be asked any more. -/
def Fate.isOver : Fate σ φ → Bool
  | failed _ => true
  | kept _ scanner => scanner.isClosed
  | dropped _ => true

namespace Scanner

variable {scanner : Scanner σ φ}

theorem Ended.onlyReports (hended : scanner.Ended) : OnlyReports scanner.dues := by
  rw [dues, keptDues, hended.1, hended.2]
  exact .add .zero (.add (.closeFailures _) .zero)

end Scanner

variable [CellFilter φ] {beginning : Beginning σ φ}

namespace Beginning

section

variable {calls : List (ScannerCall σ)} {dropped : Bool} {replies : List ScannerReply}
variable {scanner : Scanner σ φ}

/-- A scanner that was kept was opened and was asked one thing after the other. -/
theorem exists_begun (hkept : (beginning.live calls dropped).value = .kept replies scanner) :
    ∃ begun, beginning.begin.value = .ok begun ∧
      (Scanner.calls calls begun).value = (replies, scanner) := by
  rw [live, Noted.value_bind] at hkept
  split at hkept
  next => cases hkept
  next begun hbegin =>
    rw [Noted.value_bind] at hkept
    cases dropped with
    | true => cases hkept
    | false =>
        cases hkept
        exact ⟨begun, hbegin, rfl⟩

theorem subscribedAs_live (hkept : (beginning.live calls dropped).value = .kept replies scanner) :
    scanner.SubscribedAs beginning.subscription? := by
  obtain ⟨begun, hbegin, hcalls⟩ := exists_begun hkept
  have hsubscribed := Scanner.subscribedAs_calls (subscribedAs_begin hbegin) calls
  rwa [hcalls] at hsubscribed

/-- A scanner is open until a reply says that the scan has ended. -/
theorem isClosed_live (hkept : (beginning.live calls dropped).value = .kept replies scanner) :
    scanner.isClosed = replies.any ScannerReply.ends := by
  obtain ⟨begun, hbegin, hcalls⟩ := exists_begun hkept
  obtain ⟨⟨⟨merge, hactive⟩, -⟩, -⟩ := begun_of_begin hbegin
  have hopen : begun.isClosed = false := by rw [Scanner.isClosed, hactive]
  have hclosed := Scanner.isClosed_calls calls begun
  rwa [hcalls, hopen, Bool.false_or] at hclosed

end

/-- In the end there is nothing left to do but to report. -/
theorem onlyReports_live {calls : List (ScannerCall σ)} {dropped : Bool}
    (hover : (beginning.live calls dropped).value.isOver = true) :
    OnlyReports (beginning.live calls dropped).value.dues := by
  cases hvalue : (beginning.live calls dropped).value with
  | failed failure => exact .scanError failure
  | kept replies scanner =>
      rw [hvalue] at hover
      have hphase := Scanner.phase_of_isClosed hover
      exact .add (Scanner.Ended.onlyReports ⟨hphase, (subscribedAs_live hvalue).ended hphase⟩)
        (.replies replies)
  | dropped replies => exact .replies replies

theorem count_subscribed_eq_zero {due : Due} (hdue : ∀ number, due ≠ .subscription number) :
    Multiset.count due (beginning.subscribed?.toList.map Due.subscription) = 0 := by
  refine Multiset.count_eq_zero.mpr fun hmem => ?_
  obtain ⟨number, -, rfl⟩ := List.mem_map.mp (Multiset.mem_coe.mp hmem)
  exact hdue number rfl

variable [TraceableSource σ]

theorem closed_of_isOver (haccepted : beginning.Accepted) {calls : List (ScannerCall σ)}
    {dropped : Bool} (hover : (beginning.live calls dropped).value.isOver = true)
    (origin : Origin) :
    (beginning.live calls dropped).notes.countP (Note.isCall origin .close) =
      (beginning.live calls dropped).notes.countP (· = .opened origin) := by
  obtain ⟨unreported, hsettles, -⟩ := live_settles haccepted calls dropped
  have hcount := hsettles.count_source origin
  have hreports := (onlyReports_live hover).add (.closeFailures unreported)
  rwa [hreports.count_eq_zero id, count_subscribed_eq_zero fun _ => Due.noConfusion, zero_add,
    zero_add] at hcount

theorem ended_of_isOver (haccepted : beginning.Accepted) {calls : List (ScannerCall σ)}
    {dropped : Bool} (hover : (beginning.live calls dropped).value.isOver = true) :
    endedSubscriptions (beginning.live calls dropped).notes = beginning.subscribed?.toList := by
  obtain ⟨unreported, hsettles, -⟩ := live_settles haccepted calls dropped
  have hreports := (onlyReports_live hover).add (.closeFailures unreported)
  have hperm : (endedSubscriptions (beginning.live calls dropped).notes).Perm
      beginning.subscribed?.toList := by
    refine List.perm_iff_count.mpr fun number => ?_
    have hcount := hsettles.count_subscription number
    rw [hreports.count_eq_zero id, zero_add, Multiset.coe_count,
      List.count_map_of_injective _ _ fun _ _ => Due.subscription.inj] at hcount
    rw [← hcount, count_endedSubscriptions]
  -- There is one subscription at most, so that the order does not matter.
  cases hsubscribed : beginning.subscribed? with
  | none =>
      rw [hsubscribed] at hperm
      exact List.perm_nil.mp hperm
  | some number =>
      rw [hsubscribed] at hperm
      exact List.perm_singleton.mp hperm

/-- Over its whole life, a scanner uses a source only as long as it has closed it less often
than it was handed out; that is, a source that is handed out once is closed at most once and
not used after that. As soon as opening has failed, or the scan has ended or was dropped, every
source has been closed as often as it was handed out, and the subscription has been ended once.

A scan has ended just if a reply says so: the last page was read, something failed for another
reason than that a limit was refused, or the scanner was closed. From then on nothing happens
any more, whatever is asked of the scanner, and it stays ended. A read at any time puts its
cells behind those that its caller has, and none if it fails. -/
theorem released_once (haccepted : beginning.Accepted) (calls : List (ScannerCall σ))
    (dropped : Bool) :
    let life := beginning.live calls dropped
    (∀ past origin call failure future,
      life.notes = past ++ .called origin call failure :: future →
        past.countP (Note.isCall origin .close) < past.countP (· = .opened origin)) ∧
    (∀ past origin failure future, life.notes.countP (· = .opened origin) = 1 →
      life.notes = past ++ .called origin .close failure :: future →
        ∀ call failure, .called origin call failure ∉ future) ∧
    (life.value.isOver = true →
      (∀ origin, life.notes.countP (Note.isCall origin .close) =
        life.notes.countP (· = .opened origin)) ∧
      endedSubscriptions life.notes = beginning.subscribed?.toList) ∧
    ∀ replies scanner, life.value = .kept replies scanner →
      (scanner.isClosed = true ↔ ∃ reply ∈ replies, reply.ends = true) ∧
      (scanner.isClosed = true → ∀ later, (Scanner.calls later scanner).notes = [] ∧
        (Scanner.calls later scanner).value.2.Terminal) ∧
      ∀ supply limit out,
        (∀ page, (scanner.next supply limit).value.1 = .ok page →
          (scanner.nextInto supply limit out).value.2.1 = out ++ page.cells) ∧
        ∀ failure, (scanner.nextInto supply limit out).value.1 = .error failure →
          (scanner.nextInto supply limit out).value.2.1 = out := by
  intro life
  have hattended (past : List Note) (origin call failure future)
      (hnotes : life.notes = past ++ .called origin call failure :: future) :
      past.countP (Note.isCall origin .close) < past.countP (· = .opened origin) := by
    obtain ⟨unreported, hsettles, -⟩ := live_settles haccepted calls dropped
    rw [Noted.Settles, hnotes] at hsettles
    have hlt := hsettles.closed_lt_opened
    rwa [count_subscribed_eq_zero fun _ => Due.noConfusion, zero_add] at hlt
  refine ⟨hattended, ?_, fun hover => ⟨closed_of_isOver haccepted hover, ?_⟩, ?_⟩
  · intro past origin failure future honce hnotes call later hmem
    obtain ⟨between, rest, rfl⟩ := List.append_of_mem hmem
    have hlt := hattended (past ++ .called origin .close failure :: between) origin call later rest
      (by rw [hnotes]; simp)
    rw [hnotes] at honce
    simp [Note.isCall] at hlt honce
    omega
  · exact ended_of_isOver haccepted hover
  · intro replies scanner hkept
    refine ⟨?_, fun hclosed later => ?_, fun supply limit out => ?_⟩
    · rw [isClosed_live hkept, List.any_eq_true]
    · have hphase := Scanner.phase_of_isClosed hclosed
      have hended : scanner.Ended := ⟨hphase, (subscribedAs_live hkept).ended hphase⟩
      exact hended.terminal.calls later
    · exact ⟨fun _ hread => Scanner.nextInto_of_ok hread out, fun _ => Scanner.nextInto_of_error⟩

/-- Two sources of which the first cannot be moved on and neither can be closed without a failure.
The first read ends the scan, and its reply says so. -/
theorem released_once_of_scripts :
    let family : Family := { name := [102], clock := .manual .oldest }
    let script : SourceScript :=
      { sequenceId := 1, cells := [Cell.put [114] [102] [99] ⟨1⟩ [1]],
        failSeekAfter := some 1, failClose := true }
    let other : SourceScript :=
      { sequenceId := 2, cells := [Cell.put [115] [102] [99] ⟨1⟩ [1]], failClose := true }
    let supply : Supply ScriptedSource := fun _ => .ok [script.open .keys 0, other.open .keys 1]
    let beginning : Beginning ScriptedSource AnyFilter := .opened family supply 0 {}
    let life := beginning.live [.next (some supply) .ofScan] false
    beginning.Accepted ∧ life.value.isOver = true ∧
      (∀ origin, life.notes.countP (Note.isCall origin .close) =
        life.notes.countP (· = .opened origin)) ∧
      endedSubscriptions life.notes = [0] ∧
      ∃ replies scanner, life.value = .kept replies scanner ∧
        (∃ reply ∈ replies, reply.ends = true) ∧ scanner.Terminal := by
  intro family script other supply beginning life
  have hover : life.value.isOver = true := by decide
  obtain ⟨replies, scanner, hlife⟩ : ∃ replies scanner, life.value = .kept replies scanner :=
    ⟨_, _, rfl⟩
  have hend : scanner.isClosed = true := by rwa [hlife] at hover
  obtain ⟨-, -, hdone, hkept⟩ := released_once (show beginning.Accepted from trivial)
    [.next (some supply) .ofScan] false
  obtain ⟨hclosed, hended⟩ := hdone hover
  obtain ⟨hreplied, hterminal, -⟩ := hkept replies scanner hlife
  exact ⟨trivial, hover, hclosed, hended, replies, scanner, hlife, hreplied.mp hend,
    (hterminal hend []).2⟩

/-- A scan over given sources that is refused for its filter leaves them open. -/
theorem refused_sources_stay_open :
    let family : Family := { name := [102], clock := .manual .oldest }
    let scan : Scan AnyFilter :=
      { batch := some 1, filter := some (.columnValue ⟨[102], [99], [49], false⟩) }
    let script : SourceScript :=
      { sequenceId := 1, cells := [Cell.put [114] [102] [99] ⟨1⟩ [49]] }
    let beginning : Beginning ScriptedSource AnyFilter :=
      .given family scan [script.open .keys 0]
    let life := beginning.live [] false
    life.value.isOver = true ∧
      life.notes.countP (· = .opened (.scripted 0)) = 1 ∧
      life.notes.countP (Note.isCall (.scripted 0) .close) = 0 := by
  decide

end Beginning

end MergeScan
