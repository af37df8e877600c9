import MergeScan.Journal

/-! # Reading a journal

How often a source was used, how many readers of a run are open, and how often
a filter was asked are not kept anywhere: they are counted in the journal.
-/

namespace MergeScan

/-- How often a source was used in each way. -/
structure SourceUse where
  seeks : Nat
  reseeks : Nat
  exactSeeks : Nat
  advances : Nat
  closes : Nat
deriving DecidableEq

/-- How often the readers of a run were positioned in each way. -/
structure ReadStats where
  seeks : Nat
  reseeks : Nat
  exactSeeks : Nat
deriving DecidableEq

/-- How often a filter was asked each question. -/
structure FilterUse where
  resets : Nat
  rows : Nat
  cells : Nat
  hints : Nat
  reshapes : Nat
  wholeRows : Nat
deriving DecidableEq

namespace Note

/-- Whether a note is of a call to a source, failed or not. -/
def isCall (origin : Origin) (call : SourceCall) : Note → Bool
  | called usedOrigin usedCall _ => usedOrigin = origin && usedCall = call
  | _ => false

/-- Whether a note is of a call to a source that succeeded. -/
def isSuccess (origin : Origin) (call : SourceCall) : Note → Bool
  | called usedOrigin usedCall none => usedOrigin = origin && usedCall = call
  | _ => false

/-- Whether a note is of a question to a filter. -/
def isQuestion (call : FilterCall) : Note → Bool
  | consulted asked => asked = call
  | _ => false

/-- The event that a note is about. -/
def event? : Note → Option Event
  | raised event => some event
  | _ => none

/-- The request that a note is about. -/
def request? : Note → Option SourceRequest
  | requested request => some request
  | _ => none

end Note

/-- The use of a scripted source. Attempts to position or close it count also
when they failed, advances only when they succeeded. -/
def sourceUse (notes : List Note) (serial : Nat) : SourceUse where
  seeks := notes.countP (Note.isCall (.scripted serial) .seek)
  reseeks := notes.countP (Note.isCall (.scripted serial) .reseek)
  exactSeeks := notes.countP (Note.isCall (.scripted serial) .seekExactly)
  advances := notes.countP (Note.isSuccess (.scripted serial) .advance)
  closes := notes.countP (Note.isCall (.scripted serial) .close)

/-- How the readers of a run were positioned. Only an open reader can be. -/
def readStats (notes : List Note) (id : RunId) : ReadStats where
  seeks := notes.countP (Note.isSuccess (.run id) .seek)
  reseeks := notes.countP (Note.isSuccess (.run id) .reseek)
  exactSeeks := notes.countP (Note.isSuccess (.run id) .seekExactly)

/-- The readers of a run that are open: those that were handed out and have
been neither closed nor dropped. -/
def openReaders (notes : List Note) (id : RunId) : Nat :=
  notes.countP (· = .opened (.run id)) -
    (notes.countP (Note.isSuccess (.run id) .close) + notes.countP (· = .abandoned (.run id)))

/-- The questions to a filter. -/
def filterUse (notes : List Note) : FilterUse where
  resets := notes.countP (Note.isQuestion .reset)
  rows := notes.countP (Note.isQuestion .judgeRow)
  cells := notes.countP (Note.isQuestion .judgeCell)
  hints := notes.countP (Note.isQuestion .hint)
  reshapes := notes.countP (Note.isQuestion .reshape)
  wholeRows := notes.countP (Note.isQuestion .judgeWholeRow)

/-- The events of a journal in the order they were raised. -/
def events (notes : List Note) : List Event :=
  notes.filterMap Note.event?

/-- The requests of a journal in the order they were made. -/
def requests (notes : List Note) : List SourceRequest :=
  notes.filterMap Note.request?

end MergeScan
