import MergeScan.Proofs.Scanner.Released

/-! # Every failure is reported once

When sources fail to close, the caller gets to know of each of these failures once: along with
the failure that ended the scan, or when the scanner is closed. The failure that ended the scan
is reported itself, and there is no other of its kind before or after it.
-/

namespace MergeScan

/-! ## What was reported -/

namespace ScanError

theorem count_closeFailure_dues (error : SourceError) (failure : ScanError) :
    failure.dues.count (.closeFailure error) = failure.suppressed.count error := by
  cases failure <;> simp [dues, suppressed]

theorem count_cause_dues (error : SourceError) (failure : ScanError) :
    failure.dues.count (.cause error) = failure.cause?.toList.count error := by
  cases failure with
  | source met suppressed =>
      by_cases hmet : error = met <;> simp [dues, cause?, hmet, Ne.symm]
  | _ => simp [dues, cause?]

end ScanError

namespace ScannerReply

theorem count_closeFailure_dues (error : SourceError) (reply : ScannerReply) :
    reply.dues.count (.closeFailure error) = reply.closeFailures.count error := by
  cases reply with
  | page result | found result =>
      cases result with
      | error failure => exact failure.count_closeFailure_dues error
      | ok answer => rfl
  | told => rfl
  | closed failures => exact Due.count_closeFailures error failures

theorem count_cause_dues (error : SourceError) (reply : ScannerReply) :
    reply.dues.count (.cause error) = reply.cause?.toList.count error := by
  cases reply with
  | page result | found result =>
      cases result with
      | error failure => exact failure.count_cause_dues error
      | ok answer => rfl
  | told => rfl
  | closed failures => exact Due.count_cause_closeFailures error failures

end ScannerReply

namespace Fate

variable {σ φ : Type}

/-- The failures to close sources that were reported, one after the other. -/
def closeFailures : Fate σ φ → List SourceError
  | failed failure => failure.suppressed
  | kept replies _ | dropped replies => replies.flatMap ScannerReply.closeFailures

/-- The failures of sources and providers that scans ended with. -/
def causes : Fate σ φ → List SourceError
  | failed failure => failure.cause?.toList
  | kept replies _ | dropped replies => replies.flatMap fun reply => reply.cause?.toList

end Fate

/-- Counting in replies is counting in each of them. -/
theorem count_replies {due : Due} {error : SourceError} {reports : ScannerReply → List SourceError}
    (hreply : ∀ reply : ScannerReply, reply.dues.count due = (reports reply).count error)
    (replies : List ScannerReply) :
    (replies.map ScannerReply.dues).sum.count due = (replies.flatMap reports).count error := by
  induction replies with
  | nil => rfl
  | cons reply rest ih =>
      rw [List.map_cons, List.sum_cons, Multiset.count_add, List.flatMap_cons, List.count_append,
        hreply, ih]

/-- When nothing is left to do, what was reported is all that was due. -/
theorem Fate.count_dues {σ φ : Type} [Source σ] {fate : Fate σ φ}
    (hdone : ∀ replies scanner, fate = .kept replies scanner → scanner.dues = 0)
    (error : SourceError) :
    fate.dues.count (.closeFailure error) = fate.closeFailures.count error ∧
      fate.dues.count (.cause error) = fate.causes.count error := by
  have hreplies (replies : List ScannerReply) :=
    And.intro (count_replies (ScannerReply.count_closeFailure_dues error) replies)
      (count_replies (ScannerReply.count_cause_dues error) replies)
  cases fate with
  | failed failure =>
      exact ⟨failure.count_closeFailure_dues error, failure.count_cause_dues error⟩
  | kept replies scanner =>
      rw [dues, hdone replies scanner rfl, zero_add]
      exact hreplies replies
  | dropped replies => exact hreplies replies

/-! ## One cause -/

/-- A scan ends with the failure of a source. -/
theorem ScannerReply.ends_of_cause {reply : ScannerReply} (hcause : reply.cause?.isSome = true) :
    reply.ends = true := by
  cases reply with
  | page result | found result =>
      obtain failure | answer := result
      · cases failure with
        | incompatibleFilter => cases hcause
        | _ => rfl
      · cases hcause
  | told | closed => cases hcause

section

variable {σ φ : Type} [Source σ] [CellFilter φ] {scanner : Scanner σ φ}

namespace Scanner

/-- A scan that has ended replies with no such failure. -/
theorem cause_of_closed (hclosed : scanner.isClosed = true) (call : ScannerCall σ) :
    (scanner.call call).value.1.cause? = none := by
  have hphase := phase_of_isClosed hclosed
  cases call with
  | next supply limit =>
      rw [Scanner.call, next_of_ended hphase]
      cases hrefused : scanner.matcher.refuses (scanner.limitOf limit) with
      | none => rfl
      | some failure =>
          obtain ⟨size, filter, rfl⟩ := incompatible_of_refuses hrefused
          rfl
  | seek supply key =>
      rw [Scanner.call, seek_of_ended hphase]
      rfl
  | reseek supply key =>
      rw [Scanner.call, reseek_of_ended hphase]
      rfl
  | sourcesChanged | close => rfl

theorem causes_of_closed (hclosed : scanner.isClosed = true) (calls : List (ScannerCall σ)) :
    ((Scanner.calls calls scanner).value.1.flatMap fun reply => reply.cause?.toList) = [] := by
  induction calls generalizing scanner with
  | nil => rfl
  | cons call rest ih =>
      have hcalled : (scanner.call call).value.2.isClosed = true := by
        rw [isClosed_call, hclosed, Bool.true_or]
      simp only [calls, Noted.value_bind, Noted.value_pure, List.flatMap_cons,
        cause_of_closed hclosed call]
      exact ih hcalled

/-- A scan ends with one failure of a source at most. -/
theorem length_causes_le (calls : List (ScannerCall σ)) (scanner : Scanner σ φ) :
    ((Scanner.calls calls scanner).value.1.flatMap
      fun reply => reply.cause?.toList).length ≤ 1 := by
  induction calls generalizing scanner with
  | nil => exact Nat.zero_le _
  | cons call rest ih =>
      simp only [calls, Noted.value_bind, Noted.value_pure, List.flatMap_cons]
      cases hcause : (scanner.call call).value.1.cause? with
      | none => exact ih _
      | some failure =>
          have hends := ScannerReply.ends_of_cause (Option.isSome_of_eq_some hcause)
          have hclosed : (scanner.call call).value.2.isClosed = true := by
            rw [isClosed_call, hends, Bool.or_true]
          rw [causes_of_closed hclosed rest]
          exact le_rfl

end Scanner

namespace Beginning

variable {beginning : Beginning σ φ}

theorem length_causes_le (calls : List (ScannerCall σ)) (dropped : Bool) :
    (beginning.live calls dropped).value.causes.length ≤ 1 := by
  rw [live, Noted.value_bind]
  cases beginning.begin.value with
  | error failure => exact Option.length_toList_le
  | ok scanner =>
      have hlength := Scanner.length_causes_le calls scanner
      cases dropped <;> exact hlength

/-- When a scanner was closed in the end, all that was due was reported. -/
theorem dues_live_close (beginning : Beginning σ φ) (calls : List (ScannerCall σ))
    (replies : List ScannerReply) (scanner : Scanner σ φ)
    (hkept : (beginning.live (calls ++ [.close]) false).value = .kept replies scanner) :
    scanner.dues = 0 := by
  have hlast (calls : List (ScannerCall σ)) (first : Scanner σ φ) :
      (Scanner.calls (calls ++ [.close]) first).value.2.dues = 0 := by
    induction calls generalizing first with
    | nil =>
        obtain ⟨hclosed, hunsubscribed⟩ := Scanner.release_ended first
        show Phase.dues first.release.value.phase +
          (0 + (first.release.value.subscription.toList.map Due.subscription : Multiset Due)) = 0
        rw [hclosed, hunsubscribed]
        rfl
    | cons call rest ih => exact ih _
  obtain ⟨begun, -, hcalls⟩ := exists_begun hkept
  have hdone := hlast calls begun
  rwa [hcalls] at hdone

variable [TraceableSource σ]

omit [TraceableSource σ] in
/-- Where given sources were refused, nothing was done to them. -/
theorem live_of_not_accepted (hrefused : ¬beginning.Accepted) (calls : List (ScannerCall σ)) :
    ∃ limit filter, ∃ sources : List σ, beginning.live calls false =
      ⟨.failed (.incompatibleFilter limit filter),
        sources.map fun source => .opened (Source.origin source)⟩ := by
  cases beginning with
  | opened family supply subscription scan => exact absurd trivial hrefused
  | given family scan sources =>
      cases hscan : scan.validate with
      | ok => exact absurd hscan hrefused
      | error failure =>
          obtain ⟨limit, filter, rfl⟩ := Scanner.incompatible_of_validate hscan
          refine ⟨limit, filter, sources, ?_⟩
          rw [live, begin, Scanner.ofSources_of_refused family hscan]
          exact Noted.ext rfl (by simp [Noted.noteAll])

/-- Over a life that ends with a failed opening or with a call of close, the failures of sources
to close are, each as often as it was met, the ones reported: along with other failures, or as
the answer of a close. The first failure to move a source is reported as well, as the only one
of its kind. -/
theorem failures_reported_once (beginning : Beginning σ φ) (calls : List (ScannerCall σ)) :
    let life := beginning.live (calls ++ [.close]) false
    (closeFailures life.notes).Perm life.value.closeFailures ∧
      ∀ failure rest, moveFailures life.notes = failure :: rest →
        life.value.causes = [failure] := by
  intro life
  by_cases haccepted : beginning.Accepted
  · obtain ⟨unreported, hsettles, hnone⟩ := live_settles haccepted (calls ++ [.close]) false
    rw [hnone rfl, Noted.Settles, Due.closeFailures_nil, add_zero] at hsettles
    have hreported := Fate.count_dues (dues_live_close beginning calls)
    constructor
    · refine List.perm_iff_count.mpr fun error => ?_
      have hcount := hsettles.count_closeFailure error
      rw [count_subscribed_eq_zero fun _ => Due.noConfusion, zero_add,
        (hreported error).1] at hcount
      exact hcount.symm
    · intro failure rest hmoves
      have hcount := hsettles.count_moveFailures_le failure
      rw [(hreported failure).2, hmoves, List.count_cons_self] at hcount
      have hpos : 0 < (beginning.live (calls ++ [.close]) false).value.causes.count failure := by
        omega
      have hmem := List.count_pos_iff.mp hpos
      obtain ⟨cause, hcause⟩ := List.length_eq_one_iff.mp
        (le_antisymm (length_causes_le _ _) (List.length_pos_of_mem hmem))
      rw [hcause] at hmem
      rw [List.eq_of_mem_singleton hmem]
      exact hcause
  · obtain ⟨limit, filter, sources, hlife⟩ := live_of_not_accepted haccepted (calls ++ [.close])
    change life = _ at hlife
    have hopened {read : Note → Option SourceError}
        (hread : ∀ origin, read (.opened origin) = none) :
        life.notes.filterMap read = [] := by
      rw [hlife, List.filterMap_eq_nil_iff]
      intro note hnote
      obtain ⟨source, -, rfl⟩ := List.mem_map.mp hnote
      exact hread _
    constructor
    · rw [closeFailures, hopened fun _ => rfl, hlife]
      exact .nil
    · rw [moveFailures, hopened fun _ => rfl]
      rintro _ _ ⟨⟩

/-- Two sources that cannot be closed without a failure, of which the first cannot be moved on
either. That ends the first read, which reports both failures to close. -/
theorem failures_reported_once_of_scripts :
    let family : Family := { name := [102], clock := .manual .oldest }
    let script : SourceScript :=
      { sequenceId := 1, cells := [Cell.put [114] [102] [99] ⟨1⟩ [1]],
        failSeekAfter := some 1, failClose := true }
    let other : SourceScript :=
      { sequenceId := 2, cells := [Cell.put [115] [102] [99] ⟨1⟩ [1]], failClose := true }
    let supply : Supply ScriptedSource := fun _ => .ok [script.open .keys 0, other.open .keys 1]
    let beginning : Beginning ScriptedSource AnyFilter := .opened family supply 0 {}
    let life := beginning.live [.next (some supply) .ofScan, .close] false
    let injected := ScriptedSource.injectedFailure
    (closeFailures life.notes).Perm [injected, injected] ∧
      moveFailures life.notes = [injected] ∧ life.value.causes = [injected] := by
  intro family script other supply beginning life injected
  obtain ⟨hclosing, hmoving⟩ := failures_reported_once beginning [.next (some supply) .ofScan]
  have hclosed : life.value.closeFailures = [injected, injected] := by decide
  have hmoved : moveFailures life.notes = [injected] := by decide
  exact ⟨hclosed ▸ hclosing, hmoved, hmoving injected [] hmoved⟩

end Beginning

end

end MergeScan
