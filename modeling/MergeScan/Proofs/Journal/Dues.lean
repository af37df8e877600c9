import Mathlib.Algebra.Order.Group.Multiset
import Mathlib.Tactic.Abel
import MergeScan.Ledger

/-! # What is still to be done

A source that was handed out has to be closed, a failure has to be reported, and a
subscription has to be ended. What of that is due changes with each note of a journal, and a
note is only in its place where what it settles is due: no source is used that is not open.
So the notes of a journal can be counted by what was due before it and what is due after it.
-/

namespace MergeScan

/-- Something that has to be done. -/
inductive Due
  /-- To close a source. -/
  | source (origin : Origin)
  /-- To report that a source failed to close. -/
  | closeFailure (failure : SourceError)
  /-- To end with the failure of a source to move, or of a provider to hand out sources. -/
  | cause (failure : SourceError)
  /-- To end a subscription. -/
  | subscription (number : Nat)
  /-- To close a source that was dropped, which cannot be done any more. -/
  | lost (origin : Origin)
deriving DecidableEq

namespace Due

/-- Failures to close sources, all of which are to be reported. -/
def closeFailures (failures : List SourceError) : Multiset Due :=
  failures.map closeFailure

@[simp] theorem closeFailures_nil : closeFailures [] = 0 := rfl

@[simp] theorem closeFailures_append (first second : List SourceError) :
    closeFailures (first ++ second) = closeFailures first + closeFailures second := by
  simp [closeFailures]

@[simp] theorem count_closeFailures (failure : SourceError) (failures : List SourceError) :
    (closeFailures failures).count (closeFailure failure) = failures.count failure := by
  rw [closeFailures, Multiset.coe_count]
  exact List.count_map_of_injective failures closeFailure (fun _ _ => closeFailure.inj) failure

theorem eq_of_mem_closeFailures {due : Due} {failures : List SourceError}
    (hmem : due ∈ closeFailures failures) : ∃ failure, due = closeFailure failure := by
  obtain ⟨failure, -, rfl⟩ := List.mem_map.mp (Multiset.mem_coe.mp hmem)
  exact ⟨failure, rfl⟩

@[simp] theorem count_source_closeFailures (origin : Origin) (failures : List SourceError) :
    (closeFailures failures).count (source origin) = 0 :=
  Multiset.count_eq_zero.mpr fun hmem => nomatch eq_of_mem_closeFailures hmem

@[simp] theorem count_cause_closeFailures (cause : SourceError) (failures : List SourceError) :
    (closeFailures failures).count (.cause cause) = 0 :=
  Multiset.count_eq_zero.mpr fun hmem => nomatch eq_of_mem_closeFailures hmem

@[simp] theorem count_subscription_closeFailures (number : Nat) (failures : List SourceError) :
    (closeFailures failures).count (subscription number) = 0 :=
  Multiset.count_eq_zero.mpr fun hmem => nomatch eq_of_mem_closeFailures hmem

@[simp] theorem count_lost_closeFailures (origin : Origin) (failures : List SourceError) :
    (closeFailures failures).count (lost origin) = 0 :=
  Multiset.count_eq_zero.mpr fun hmem => nomatch eq_of_mem_closeFailures hmem

/-- What is due after a movement, if it failed. -/
def causeOf : Option SourceError → Multiset Due
  | some failure => {cause failure}
  | none => 0

end Due

namespace Note

/-- What a note settles. -/
def settled : Note → Multiset Due
  | called origin _ _ => {.source origin}
  | unsubscribed subscription => {.subscription subscription}
  | _ => 0

/-- What is due for a note. A source that was used is still to be closed, unless it was used
for just that. -/
def owed : Note → Multiset Due
  | opened origin => {.source origin}
  | called origin call failure =>
    if call = .close then Due.closeFailures failure.toList
    else .source origin ::ₘ Due.causeOf failure
  | abandoned origin => {.lost origin}
  | _ => 0

/-- Whether a note is about nothing that is due. -/
def IsIdle (note : Note) : Prop :=
  note.settled = 0 ∧ note.owed = 0

/-- The failure to close a source that a note is about. -/
def closeFailure? : Note → Option SourceError
  | called _ .close failure => failure
  | _ => none

/-- The failure to move a source that a note is about. -/
def moveFailure? : Note → Option SourceError
  | called _ .close _ => none
  | called _ _ failure => failure
  | _ => none

end Note

/-- The failures to close sources that a journal has a note of. -/
def closeFailures (notes : List Note) : List SourceError :=
  notes.filterMap Note.closeFailure?

/-- The failures to move sources that a journal has a note of. -/
def moveFailures (notes : List Note) : List SourceError :=
  notes.filterMap Note.moveFailure?

/-- How a journal leads from what was due to what is due. The refusal of a request is not noted
apart from the request. -/
inductive Settles : Multiset Due → List Note → Multiset Due → Prop
  | nil (dues : Multiset Due) : Settles dues [] dues
  | cons {notes : List Note} {after : Multiset Due} (note : Note) (others : Multiset Due) :
      Settles (note.owed + others) notes after →
        Settles (note.settled + others) (note :: notes) after
  | refused {dues after : Multiset Due} {notes : List Note} (request : SourceRequest)
      (failure : SourceError) :
      Settles (.cause failure ::ₘ dues) notes after →
        Settles dues (.requested request :: notes) after

namespace Settles

variable {before middle after : Multiset Due} {first second notes : List Note}

theorem trans (hfirst : Settles before first middle) (hsecond : Settles middle second after) :
    Settles before (first ++ second) after := by
  induction hfirst with
  | nil => exact hsecond
  | cons note others _ ih => exact .cons note others (ih hsecond)
  | refused request failure _ ih => exact .refused request failure (ih hsecond)

theorem trans_eq (hnotes : Settles before notes middle) (heq : middle = after) :
    Settles before notes after :=
  heq ▸ hnotes

/-- What else is due stays so. -/
theorem frame (hnotes : Settles before notes after) (others : Multiset Due) :
    Settles (before + others) notes (after + others) := by
  induction hnotes with
  | nil => exact .nil _
  | cons note kept _ ih =>
      rw [add_assoc] at ih ⊢
      exact .cons note _ ih
  | refused request failure _ ih =>
      rw [Multiset.cons_add] at ih
      exact .refused request failure ih

theorem split (hnotes : Settles before (first ++ second) after) :
    ∃ middle, Settles before first middle ∧ Settles middle second after := by
  induction first generalizing before with
  | nil => exact ⟨before, .nil before, hnotes⟩
  | cons note rest ih =>
      cases hnotes with
      | cons _ others hrest =>
          obtain ⟨middle, hfirst, hsecond⟩ := ih hrest
          exact ⟨middle, .cons note others hfirst, hsecond⟩
      | refused request failure hrest =>
          obtain ⟨middle, hfirst, hsecond⟩ := ih hrest
          exact ⟨middle, .refused request failure hfirst, hsecond⟩

theorem single (note : Note) : Settles note.settled [note] note.owed := by
  have hnote := Settles.cons note 0 (.nil (note.owed + 0))
  rwa [add_zero, add_zero] at hnote

theorem idle (hidle : ∀ note ∈ notes, note.IsIdle) (dues : Multiset Due) :
    Settles dues notes dues := by
  induction notes with
  | nil => exact .nil dues
  | cons note rest ih =>
      obtain ⟨⟨hsettled, howed⟩, hrest⟩ := List.forall_mem_cons.mp hidle
      have hafter : Settles (note.owed + dues) rest dues := by
        rw [howed, zero_add]
        exact ih hrest
      have hnote := hafter.cons note dues
      rwa [hsettled, zero_add] at hnote

section Counts

variable {due : Due} (settling owing : Note → Bool)
  (hnote : ∀ note : Note, note.owed.count due + (if settling note then 1 else 0) =
    note.settled.count due + if owing note then 1 else 0)

include hnote in
/-- Of one kind of due there are at least as many as there were and became due since, less
those that were settled. -/
theorem count_le (hnotes : Settles before notes after) :
    before.count due + notes.countP owing ≤ after.count due + notes.countP settling := by
  induction hnotes with
  | nil => exact le_rfl
  | cons note others _ ih =>
      have hstep := hnote note
      rw [Multiset.count_add] at ih ⊢
      rw [List.countP_cons, List.countP_cons]
      omega
  | @refused dues _ _ request failure _ ih =>
      have hstep := hnote (.requested request)
      have hrefusal : dues.count due ≤ (.cause failure ::ₘ dues).count due :=
        Multiset.count_le_count_cons due _ dues
      rw [List.countP_cons, List.countP_cons]
      simp only [Note.owed, Note.settled, Multiset.count_zero] at hstep
      omega

include hnote in
/-- There are as many, if no refusal of a provider can be among them. -/
theorem count_eq (hdue : ∀ failure, due ≠ .cause failure) (hnotes : Settles before notes after) :
    after.count due + notes.countP settling = before.count due + notes.countP owing := by
  induction hnotes with
  | nil => rfl
  | cons note others _ ih =>
      have hstep := hnote note
      rw [Multiset.count_add] at ih ⊢
      rw [List.countP_cons, List.countP_cons]
      omega
  | refused request failure _ ih =>
      have hstep := hnote (.requested request)
      rw [Multiset.count_cons_of_ne (hdue failure)] at ih
      rw [List.countP_cons, List.countP_cons]
      simp only [Note.owed, Note.settled, Multiset.count_zero] at hstep
      omega

end Counts

/-- A source is as often still to be closed as it was and was handed out since, less the times
it was closed. -/
theorem count_source (hnotes : Settles before notes after) (origin : Origin) :
    after.count (.source origin) + notes.countP (Note.isCall origin .close) =
      before.count (.source origin) + notes.countP (· = .opened origin) := by
  refine count_eq _ _ (fun note => ?_) (fun _ => Due.noConfusion) hnotes
  cases note with
  | called used call failure =>
      by_cases hcall : call = .close <;> by_cases hused : origin = used <;>
        cases failure <;>
        simp [Note.owed, Note.settled, Note.isCall, Due.causeOf, hcall, hused, Ne.symm]
  | opened used =>
      by_cases hused : used = origin <;>
        simp_all [Note.owed, Note.settled, Note.isCall, eq_comm]
  | _ => simp [Note.owed, Note.settled, Note.isCall]

/-- Whatever source is used was handed out more often than it was closed. -/
theorem closed_lt_opened {past future : List Note} {origin : Origin} {call : SourceCall}
    {failure : Option SourceError}
    (hnotes : Settles before (past ++ .called origin call failure :: future) after) :
    past.countP (Note.isCall origin .close) <
      before.count (.source origin) + past.countP (· = .opened origin) := by
  obtain ⟨middle, hpast, hrest⟩ := hnotes.split
  have hcount := hpast.count_source origin
  have hdue : 0 < middle.count (.source origin) := by
    cases hrest with
    | cons _ others _ => simp [Note.settled]
  omega

theorem count_lost (hnotes : Settles before notes after) (origin : Origin) :
    after.count (.lost origin) =
      before.count (.lost origin) + notes.countP (· = .abandoned origin) := by
  rw [← count_eq (fun _ => false) _ (fun note => ?_) (fun _ => Due.noConfusion) hnotes]
  · simp
  · cases note with
    | called used call failure =>
        cases failure <;> by_cases hcall : call = .close <;>
          simp [Note.owed, Note.settled, Due.causeOf, hcall]
    | abandoned used =>
        by_cases hused : used = origin <;> simp_all [Note.owed, Note.settled, eq_comm]
    | _ => simp [Note.owed, Note.settled]

/-- The failures to close that are to be reported are those that were and those noted since. -/
theorem count_closeFailure (hnotes : Settles before notes after) (failure : SourceError) :
    after.count (.closeFailure failure) =
      before.count (.closeFailure failure) + (closeFailures notes).count failure := by
  rw [closeFailures, List.count, List.countP_filterMap]
  rw [← count_eq (fun _ => false) _ (fun note => ?_) (fun _ => Due.noConfusion) hnotes]
  · simp
  · cases note with
    | called used call met =>
        cases call <;> cases met <;>
          simp [Note.owed, Note.settled, Note.closeFailure?, Due.causeOf, List.count_singleton]
    | _ => simp [Note.owed, Note.settled, Note.closeFailure?]

theorem count_subscription (hnotes : Settles before notes after) (number : Nat) :
    after.count (.subscription number) + notes.countP (· = .unsubscribed number) =
      before.count (.subscription number) := by
  rw [count_eq _ (fun _ => false) (fun note => ?_) (fun _ => Due.noConfusion) hnotes]
  · simp
  · cases note with
    | called used call failure =>
        cases failure <;> by_cases hcall : call = .close <;>
          simp [Note.owed, Note.settled, Due.causeOf, hcall]
    | unsubscribed used =>
        by_cases hused : used = number <;> simp_all [Note.owed, Note.settled, eq_comm]
    | _ => simp [Note.owed, Note.settled]

/-- Every failure to move is there to end with, unless the journal went on without it. -/
theorem count_moveFailures_le (hnotes : Settles before notes after) (failure : SourceError) :
    before.count (.cause failure) + (moveFailures notes).count failure ≤
      after.count (.cause failure) := by
  rw [moveFailures, List.count, List.countP_filterMap]
  refine le_of_le_of_eq (count_le (fun _ => false) _ (fun note => ?_) hnotes) (by simp)
  cases note with
  | called used call met =>
      cases met with
      | none => cases call <;> simp [Note.owed, Note.settled, Note.moveFailure?, Due.causeOf]
      | some met =>
          by_cases hmet : failure = met <;> cases call <;>
            simp [Note.owed, Note.settled, Note.moveFailure?, Due.causeOf, hmet, Ne.symm]
  | _ => simp [Note.owed, Note.settled, Note.moveFailure?]

end Settles

/-- What is due before and after something is done, by its journal. What is due afterwards may
depend on the result. -/
def Noted.Settles {α : Type} (noted : Noted α) (before : Multiset Due)
    (after : α → Multiset Due) : Prop :=
  MergeScan.Settles before noted.notes (after noted.value)

namespace Noted

variable {α β : Type} {before : Multiset Due} {middle : α → Multiset Due}
  {after : β → Multiset Due}

theorem settles_pure {value : β} (hbefore : before = after value) :
    (pure value : Noted β).Settles before after :=
  hbefore ▸ .nil before

theorem settles_note (entry : Note) : (note entry).Settles entry.settled fun _ => entry.owed :=
  .single entry

/-- What notes say that is about nothing due leaves everything as it was. -/
theorem settles_of_idle {noted : Noted α} (hidle : ∀ note ∈ noted.notes, note.IsIdle)
    (dues : Multiset Due) : noted.Settles dues fun _ => dues :=
  .idle hidle dues

theorem settles_raise (event : Event) (dues : Multiset Due) :
    (raise event).Settles dues fun _ => dues := by
  refine settles_of_idle (fun entry hentry => ?_) dues
  obtain rfl := List.mem_singleton.mp hentry
  exact ⟨rfl, rfl⟩

theorem Settles.bind_value {first : Noted α} {next : α → Noted β}
    (hfirst : first.Settles before middle)
    (hnext : (next first.value).Settles (middle first.value) after) :
    (first >>= next).Settles before after :=
  hfirst.trans hnext

theorem Settles.bind {first : Noted α} {next : α → Noted β} (hfirst : first.Settles before middle)
    (hnext : ∀ value, (next value).Settles (middle value) after) :
    (first >>= next).Settles before after :=
  hfirst.bind_value (hnext first.value)

/-- What else is due stays so. -/
theorem Settles.frame {noted : Noted α} (hnoted : noted.Settles before middle)
    (others : Multiset Due) :
    noted.Settles (before + others) fun value => middle value + others :=
  MergeScan.Settles.frame hnoted others

theorem Settles.map {noted : Noted α} {change : α → β} (hnoted : noted.Settles before middle)
    (hchange : ∀ value, after (change value) = middle value) :
    (change <$> noted).Settles before after := by
  rw [Settles, notes_map, value_map, hchange]
  exact hnoted

theorem Settles.of_eq {noted : Noted β} {earlier : Multiset Due}
    (hnoted : noted.Settles before after) (hbefore : earlier = before) :
    noted.Settles earlier after :=
  hbefore ▸ hnoted

end Noted

end MergeScan
