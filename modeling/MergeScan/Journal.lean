import MergeScan.Filter.Basic
import MergeScan.Scan.Request
import MergeScan.Source.Basic

/-! # Journals

Operations report what they did to sources, filters and subscriptions, and the
events they raised. The report never has an influence on a result: it is only
ever written, and read by whoever called the operation.
-/

namespace MergeScan

/-- The operations of a source. -/
inductive SourceCall
  | advance
  | seek
  | reseek
  | seekExactly
  | close
deriving DecidableEq

/-- The weight of an event. -/
inductive Level
  | debug
  | info
  | warn
  | error
deriving DecidableEq

/-- What a scan or a store raises for an observer of the system. -/
inductive Event
  | sourceCloseFailed (kind : SourceKind) (sequenceId : Nat) (error : SourceError)
  | scannerOpened (family : Bytes) (sources : Nat) (exactColumn get : Bool)
  | compactionScannerOpened (family : Bytes) (sources : Nat) (retainDeletes : Bool)
  | resyncRequested (resumeAt : Cell)
  | resyncCompleted (sources : Nat) (rowReset : Bool)
  | orderingViolation (previous next : Cell)
  | scanAborted (error : String) (suppressed : Option Nat)
  | scannerClosed (closeErrors : Nat)
  | scannerDroppedWithErrors (errors : Nat)
  | storeFlushed (cells sequenceId : Nat)
  | runLoaded (cells : Nat)
  | runsReplaced (removed runs : Nat)
  | observersNotified (observers : Nat)
  | compactionStarted (runs cells : Nat) (major : Bool)
  | compactionFinished (runs inputCells outputCells : Nat) (major : Bool)
deriving DecidableEq

/-- One entry of a journal. -/
inductive Note
  /-- A provider was asked for sources. -/
  | requested (request : SourceRequest)
  /-- A source was handed out. -/
  | opened (origin : Origin)
  /-- A source was used, with the failure if there was one. -/
  | called (origin : Origin) (call : SourceCall) (failure : Option SourceError)
  /-- An open source was dropped without being closed. -/
  | abandoned (origin : Origin)
  /-- A filter was asked. -/
  | consulted (call : FilterCall)
  /-- A scanner asked to be told about changes no longer. -/
  | unsubscribed (subscription : Nat)
  | raised (event : Event)
deriving DecidableEq

/-- A value together with the journal of how it came about. -/
@[ext]
structure Noted (α : Type) where
  value : α
  notes : List Note

namespace Noted

variable {α β : Type}

instance : Monad Noted where
  pure value := ⟨value, []⟩
  bind first next :=
    let second := next first.value
    ⟨second.value, first.notes ++ second.notes⟩

@[simp] theorem value_pure (value : α) : (pure value : Noted α).value = value := rfl

@[simp] theorem notes_pure (value : α) : (pure value : Noted α).notes = [] := rfl

@[simp] theorem value_bind (first : Noted α) (next : α → Noted β) :
    (first >>= next).value = (next first.value).value := rfl

@[simp] theorem notes_bind (first : Noted α) (next : α → Noted β) :
    (first >>= next).notes = first.notes ++ (next first.value).notes := rfl

@[simp] theorem value_map (change : α → β) (noted : Noted α) :
    (change <$> noted).value = change noted.value := rfl

@[simp] theorem notes_map (change : α → β) (noted : Noted α) :
    (change <$> noted).notes = noted.notes :=
  List.append_nil noted.notes

instance : LawfulMonad Noted :=
  LawfulMonad.mk' Noted
    (fun noted => Noted.ext rfl (by simp))
    (fun _ _ => Noted.ext rfl (by simp))
    (fun _ _ _ => Noted.ext rfl (by simp [List.append_assoc]))

/-- Write one entry. -/
def note (entry : Note) : Noted Unit := ⟨(), [entry]⟩

/-- Write several entries. -/
def noteAll (entries : List Note) : Noted Unit := ⟨(), entries⟩

/-- Write an event. -/
def raise (event : Event) : Noted Unit := note (.raised event)

end Noted

end MergeScan
