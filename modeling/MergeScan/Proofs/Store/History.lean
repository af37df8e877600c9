import MergeScan.Proofs.Store.Sound
import MergeScan.Session.Store

/-! # Which write counts

A store is written to by adding cells to its buffer and by loading runs, and the
buffer is turned into a run now and then. Of the cells written at one place, the
one that a merge over the store hands out first is the one that was written last,
if an added cell counts as written when its buffer is flushed, and after everything
else as long as it is not.
-/

namespace MergeScan

open CellOrder

/-- A call that can change the cells of a store. -/
inductive StoreCall
  | add (cell : Cell)
  | flush
  | bulkLoad (cells : List Cell)
deriving DecidableEq

namespace StoreCall

/-- The cells that a call is to write. Of those at one place the first one counts. -/
def cells : StoreCall → List Cell
  | add cell => [cell]
  | flush => []
  | bulkLoad cells => cells

/-- The cell for which a call is refused. -/
def refused? (family : Family) (call : StoreCall) : Option Cell :=
  call.cells.find? (·.family ≠ family.name)

/-- The cells that a call writes: all of them, or none if one is refused. -/
def accepted (family : Family) (call : StoreCall) : List Cell :=
  if (call.refused? family).isNone then call.cells else []

/-- The cells that a history of calls writes, the ones written last in front. -/
def writes (family : Family) (calls : List StoreCall) : List Cell :=
  calls.reverse.flatMap (accepted family)

end StoreCall

namespace StoreSession

/-- Make a call. -/
def call (session : StoreSession) : StoreCall → Except StoreError Unit × StoreSession
  | .add cell => session.add cell
  | .flush => (.ok (), session.flush.2)
  | .bulkLoad cells => (session.bulkLoad cells).map (·.map fun _ => ()) id

/-- Make calls one after the other. -/
def callAll (session : StoreSession) (calls : List StoreCall) : StoreSession :=
  calls.foldl (fun session call => (session.call call).2) session

/-- The session on a store without data. -/
def fresh (family : Family) : StoreSession :=
  { store := { family } }

end StoreSession

/-- The writes of a history in the order in which they count. -/
structure Written where
  /-- The cells added since the buffer was flushed, the last one in front. -/
  pending : List Cell := []
  /-- The other cells, the ones that count most in front. -/
  settled : List Cell := []

namespace Written

/-- What is written after one more call. A flush settles what was added. -/
def after (family : Family) (written : Written) (call : StoreCall) : Written :=
  match call with
  | .add _ => { written with pending := call.accepted family ++ written.pending }
  | .flush => ⟨[], written.pending ++ written.settled⟩
  | .bulkLoad _ => { written with settled := call.accepted family ++ written.settled }

/-- What a history of calls has written. -/
def ofCalls (family : Family) (calls : List StoreCall) : Written :=
  calls.foldl (after family) {}

/-- All that was written, the cells that count most in front. -/
def cells (written : Written) : List Cell :=
  written.pending ++ written.settled

end Written

theorem StoreCall.writes_concat (family : Family) (calls : List StoreCall) (call : StoreCall) :
    writes family (calls ++ [call]) = call.accepted family ++ writes family calls := by
  rw [writes, List.reverse_append, List.reverse_singleton, List.flatMap_append, writes,
    List.flatMap_singleton]

namespace Written

theorem ofCalls_concat (family : Family) (calls : List StoreCall) (call : StoreCall) :
    ofCalls family (calls ++ [call]) = (ofCalls family calls).after family call := by
  rw [ofCalls, List.foldl_append, ofCalls]
  rfl

theorem after_perm (family : Family) (written : Written) (call : StoreCall) :
    (written.after family call).cells.Perm (call.accepted family ++ written.cells) := by
  cases call with
  | add cell => exact .of_eq (List.append_assoc _ _ _)
  | flush => exact .refl _
  | bulkLoad loaded =>
      simp only [cells, after, ← List.append_assoc]
      exact List.perm_append_comm.append_right _

/-- Only a run that is loaded over added cells counts less than they do. -/
theorem copies_after {family : Family} {written : Written} {call : StoreCall} {place : Cell}
    (hload : ∀ cells, call = .bulkLoad cells → keys.copies place (call.accepted family) ≠ [] →
      keys.copies place written.pending = []) :
    keys.copies place (written.after family call).cells =
      keys.copies place (call.accepted family ++ written.cells) := by
  cases call with
  | add cell => exact congrArg _ (List.append_assoc _ _ _)
  | flush => rfl
  | bulkLoad loaded =>
      simp only [cells, after, copies_append]
      by_cases hnone : keys.copies place ((StoreCall.bulkLoad loaded).accepted family) = []
      · rw [hnone, List.nil_append, List.nil_append]
      · rw [hload loaded rfl hnone, List.nil_append, List.nil_append]

end Written

/-- The store after a call. -/
def Store.after (store : Store) (call : StoreCall) : Store :=
  if (call.refused? store.family).isSome then store
  else
    match call with
    | .add cell => { store with buffer := store.buffer.insert cell }
    | .flush => store.flush.value.2
    | .bulkLoad cells => (store.addRun cells).2

/-- The cells that a merge over all sources of a store hands out, and the failure
that it ends with. -/
def Store.drained (store : Store) : List Cell × Option SourceError :=
  (Merge.ofSources .keys (store.sources (.all .all)) >>= Merge.drain).value.1

/-! ## The store after each call -/

namespace Store

/-- What is said of a store in terms of what was written. -/
structure Reflects (family : Family) (written : Written) (store : Store) : Prop where
  sameFamily : store.family = family
  sound : Sound store
  pending place : keys.copies place store.buffer.cells =
    (keys.copies place written.pending).head?.toList
  settled place : (keys.copies place (store.runs.flatMap SortedRun.toList)).head? =
    (keys.copies place written.settled).head?

variable {family : Family} {written : Written} {store : Store}

theorem fresh_reflects (family : Family) : Reflects family {} { family } :=
  ⟨rfl, fresh_sound family, fun _ => rfl, fun _ => rfl⟩

theorem Reflects.insert (hstore : Reflects family written store) (cell : Cell) :
    Reflects family { written with pending := cell :: written.pending }
      { store with buffer := store.buffer.insert cell } where
  sameFamily := hstore.sameFamily
  sound := ⟨Buffer.insertCell_strictlySorted hstore.sound.buffer cell, hstore.sound.runs,
    hstore.sound.ranked, hstore.sound.recent⟩
  pending place := by
    refine (Buffer.copies_insertCell hstore.sound.buffer cell place).trans ?_
    split
    next heq => rw [copies_cons_of_eq heq]; rfl
    next hne => rw [copies_cons_of_ne hne]; exact hstore.pending place
  settled := hstore.settled

theorem Reflects.addRun (hstore : Reflects family written store) (cells : List Cell) :
    Reflects family { written with settled := cells ++ written.settled }
      (store.addRun cells).2 where
  sameFamily := hstore.sameFamily
  sound := hstore.sound.addRun cells
  pending := hstore.pending
  settled place := by
    have hruns : (store.addRun cells).2.runs.flatMap SortedRun.toList =
        (store.addRun cells).1.toList ++ store.runs.flatMap SortedRun.toList := rfl
    rw [hruns, copies_append, copies_append, List.head?_append, List.head?_append,
      hstore.settled place]
    congr 1
    rw [Store.addRun, SortedRun.copies_ofCells]
    cases keys.copies place cells <;> rfl

/-- What is not in the buffer was not added since it was flushed. -/
theorem Reflects.pending_of_buffer (hstore : Reflects family written store) {place : Cell}
    (hempty : keys.copies place store.buffer.cells = []) :
    keys.copies place written.pending = [] := by
  have hnone := hstore.pending place
  rw [hempty] at hnone
  cases hpending : keys.copies place written.pending with
  | nil => rfl
  | cons cell rest =>
      rw [hpending] at hnone
      cases hnone

theorem Reflects.flush (hstore : Reflects family written store) :
    Reflects family ⟨[], written.pending ++ written.settled⟩ store.flush.value.2 := by
  unfold Store.flush
  split
  next hempty =>
    have hcells : store.buffer.cells = [] := List.isEmpty_iff.mp hempty
    refine ⟨hstore.sameFamily, hstore.sound, fun place => ?_, fun place => ?_⟩
    · rw [Noted.value_pure, hcells]
      rfl
    · rw [copies_append, hstore.pending_of_buffer (by rw [hcells]; rfl)]
      exact hstore.settled place
  next =>
    have hadded := hstore.addRun store.buffer.cells
    refine ⟨hadded.sameFamily, ?_, fun _ => rfl, fun place => ?_⟩
    · exact ⟨List.Pairwise.nil, hadded.sound.runs, hadded.sound.ranked, hadded.sound.recent⟩
    · refine (hadded.settled place).trans ?_
      rw [copies_append, copies_append, List.head?_append, List.head?_append,
        hstore.pending place]
      congr 1
      cases keys.copies place written.pending <;> rfl

/-- What a call writes is what is written afterwards. -/
theorem Reflects.after (hstore : Reflects family written store) (call : StoreCall) :
    Reflects family (written.after family call) (store.after call) := by
  have hsame := hstore.sameFamily
  subst hsame
  unfold Store.after
  split
  next hrefused =>
    have hnothing : call.accepted store.family = [] := by
      rw [StoreCall.accepted, if_neg (by simpa using Option.ne_none_iff_isSome.mpr hrefused)]
    cases call with
    | flush => cases hrefused
    | add _ => simpa only [Written.after, hnothing, List.nil_append] using hstore
    | bulkLoad _ => simpa only [Written.after, hnothing, List.nil_append] using hstore
  next haccepted =>
    have hall : call.accepted store.family = call.cells := by
      rw [StoreCall.accepted, if_pos (by simpa using haccepted)]
    cases call with
    | add cell =>
        simp only [Written.after, hall]
        exact hstore.insert cell
    | flush => exact hstore.flush
    | bulkLoad cells =>
        simp only [Written.after, hall]
        exact hstore.addRun cells

theorem nextSequence_after (store : Store) (call : StoreCall) :
    (store.after call).nextSequence ≤ store.nextSequence + 1 := by
  unfold Store.after
  split
  · exact Nat.le_succ _
  · cases call with
    | add cell => exact Nat.le_succ _
    | flush =>
        simp only [flush]
        split
        · exact Nat.le_succ _
        · exact Nat.le_refl _
    | bulkLoad cells => exact Nat.le_refl _

/-- What a merge over a store hands out first at a place is what counts there. -/
theorem Reflects.drained_eq (hstore : Reflects family written store)
    (hroom : store.nextSequence ≤ bufferSequence) :
    store.drained = (keys.sort store.cells, none) ∧
      ∀ place, (keys.copies place (keys.sort store.cells)).head? =
        (keys.copies place written.cells).head? := by
  constructor
  · have hranked := hstore.sound.sources_ranked hroom (.all .all)
    have hdistinct : Part.Distinct ((store.sources (.all .all)).map Source.part) :=
      hranked.imp fun hlt => Ne.symm (Nat.ne_of_lt hlt)
    have hsound : ∀ source ∈ store.sources (.all .all), LawfulSource.Sound keys source := by
      intro source hsource
      obtain ⟨cells, hcells, hstrict, -⟩ := hstore.sound.sources_fresh hsource
      exact ⟨cells, hcells.holds, hstrict.sorted⟩
    have hreliable : ∀ source ∈ store.sources (.all .all), LawfulSource.Reliable keys source := by
      intro source hsource
      obtain ⟨cells, hcells, -⟩ := hstore.sound.sources_fresh hsource
      exact hcells.reliable
    obtain ⟨hmerge, hstream⟩ := Merge.ofSources_sound hsound hdistinct
    have hdrained := hmerge.drain_eq (Merge.ofSources_reliable hreliable)
    rw [hstream, merged_ranked hranked, hstore.sound.sources_all] at hdrained
    exact hdrained
  · intro place
    rw [copies_sort, cells, copies_append, Written.cells, copies_append, List.head?_append,
      List.head?_append, hstore.settled place, hstore.pending place]
    congr 1
    cases keys.copies place written.pending <;> rfl

end Store

/-! ## Histories -/

namespace Store

/-- The part of a store that subscriptions and notifications leave alone. -/
def data (store : Store) : Family × Buffer × List SortedRun × Nat :=
  (store.family, store.buffer, store.runs, store.nextSequence)

theorem Reflects.of_data {family : Family} {written : Written} {store other : Store}
    (hstore : Reflects family written store) (hdata : other.data = store.data) :
    Reflects family written other := by
  simp only [data, Prod.mk.injEq] at hdata
  obtain ⟨hfamily, hbuffer, hruns, hnext⟩ := hdata
  refine ⟨hfamily.trans hstore.sameFamily, ⟨?_, ?_, ?_, ?_⟩, ?_, ?_⟩
  · exact hbuffer ▸ hstore.sound.buffer
  · exact hruns ▸ hstore.sound.runs
  · exact hruns ▸ hstore.sound.ranked
  · exact hruns ▸ hnext ▸ hstore.sound.recent
  · exact hbuffer ▸ hstore.pending
  · exact hruns ▸ hstore.settled

/-- The first cell of another family is the one that is refused. -/
theorem forM_checkFamily (store : Store) (cells : List Cell) :
    cells.forM store.checkFamily =
      match cells.find? (·.family ≠ store.family.name) with
      | some cell => .error (.wrongFamily store.family.name cell.family)
      | none => .ok () := by
  induction cells with
  | nil => rfl
  | cons cell rest ih =>
      have hcons : (cell :: rest).forM store.checkFamily =
          store.checkFamily cell >>= fun _ => rest.forM store.checkFamily := rfl
      rw [hcons, List.find?_cons, ih]
      by_cases hfamily : cell.family = store.family.name
      · simp only [checkFamily, hfamily, if_true, ne_eq, not_true_eq_false, decide_false]
        rfl
      · simp only [checkFamily, hfamily, if_false, ne_eq, not_false_eq_true, decide_true]
        rfl

end Store

namespace StoreSession

theorem data_absorb (session : StoreSession) (notes : List Note) :
    (session.absorb notes).store.data = session.store.data := by
  have hended : ∀ (subscriptions : List Nat) (store : Store),
      (subscriptions.foldl Store.unsubscribe store).data = store.data := by
    intro subscriptions
    induction subscriptions with
    | nil => exact fun _ => rfl
    | cons subscription rest ih => exact fun store => ih (store.unsubscribe subscription)
  exact hended _ _

theorem data_announce (session : StoreSession) :
    session.announce.store.data = session.store.data := by
  have htold : ∀ (subscriptions : List Nat) (session : StoreSession),
      (subscriptions.foldl announceTo session).store.data = session.store.data := by
    intro subscriptions
    induction subscriptions with
    | nil => exact fun _ => rfl
    | cons subscription rest ih =>
        exact fun session => (ih (session.announceTo subscription)).trans (data_absorb _ _)
  exact (htold _ _).trans (data_absorb _ _)

theorem data_adopt (session : StoreSession) (store : Store) (added : Option SortedRun)
    (notes : List Note) : (session.adopt store added notes).store.data = store.data :=
  (data_announce _).trans (data_absorb _ _)

variable {session : StoreSession} {family : Family} {written : Written}

theorem add_eq (session : StoreSession) (cell : Cell) :
    session.add cell =
      if cell.family = session.store.family.name then
        (.ok (), { session with
          store := { session.store with
            buffer := session.store.buffer.insert cell } }.shareBuffer)
      else (.error (.wrongFamily session.store.family.name cell.family), session) := by
  unfold add Store.add Store.checkFamily
  by_cases hfamily : cell.family = session.store.family.name
  · simp only [hfamily, if_true]
    rfl
  · simp only [hfamily, if_false]
    rfl

theorem bulkLoad_eq (session : StoreSession) (cells : List Cell) :
    (session.bulkLoad cells).map (·.map fun _ => ()) id =
      match cells.find? (·.family ≠ session.store.family.name) with
      | some cell => (.error (.wrongFamily session.store.family.name cell.family), session)
      | none =>
        let run := (session.store.addRun cells).1
        (.ok (), session.adopt (session.store.addRun cells).2 (some run)
          [.raised (.runLoaded run.size)]) := by
  unfold bulkLoad Store.bulkLoad
  rw [Store.forM_checkFamily]
  cases cells.find? (·.family ≠ session.store.family.name) <;> rfl

/-- A call that is refused leaves everything as it is. -/
theorem call_refused {call : StoreCall} {cell : Cell}
    (hrefused : call.refused? session.store.family = some cell) :
    session.call call =
      (.error (.wrongFamily session.store.family.name cell.family), session) := by
  cases call with
  | add written =>
      simp only [StoreCall.refused?, StoreCall.cells, List.find?_cons, List.find?_nil] at hrefused
      split at hrefused
      next hfamily =>
        obtain rfl := Option.some.inj hrefused
        rw [call, add_eq, if_neg (of_decide_eq_true hfamily)]
      next => cases hrefused
  | flush => cases hrefused
  | bulkLoad cells =>
      have hfound : cells.find? (·.family ≠ session.store.family.name) = some cell := hrefused
      rw [call, bulkLoad_eq, hfound]

theorem call_accepted {call : StoreCall}
    (haccepted : call.refused? session.store.family = none) :
    (session.call call).1 = .ok () := by
  cases call with
  | add written =>
      have hfamily : written.family = session.store.family.name := by
        simpa [StoreCall.refused?, StoreCall.cells] using haccepted
      rw [call, add_eq, if_pos hfamily]
  | flush => rfl
  | bulkLoad cells =>
      have hnone : cells.find? (·.family ≠ session.store.family.name) = none := haccepted
      rw [call, bulkLoad_eq, hnone]

/-- Only the store matters for what a call does to it. -/
theorem data_call (session : StoreSession) (call : StoreCall) :
    (session.call call).2.store.data = (session.store.after call).data := by
  unfold Store.after
  cases hrefused : call.refused? session.store.family with
  | some cell => rw [call_refused hrefused]; rfl
  | none =>
      cases call with
      | add cell =>
          have hfamily : cell.family = session.store.family.name := by
            simpa [StoreCall.refused?, StoreCall.cells] using hrefused
          rw [StoreSession.call, add_eq, if_pos hfamily]
          rfl
      | flush =>
          simp only [StoreSession.call, flush, Store.flush, Option.isSome_none]
          by_cases hempty : session.store.buffer.isEmpty = true
          · rw [if_pos hempty]
            rfl
          · rw [if_neg hempty]
            exact data_adopt session _ _ _
      | bulkLoad cells =>
          have hnone : cells.find? (·.family ≠ session.store.family.name) = none := hrefused
          rw [StoreSession.call, bulkLoad_eq, hnone]
          exact data_adopt session _ _ _

theorem callAll_reflects (family : Family) (calls : List StoreCall) :
    ((fresh family).callAll calls).store.Reflects family (Written.ofCalls family calls) := by
  have hall : ∀ (calls : List StoreCall) (session : StoreSession) (written : Written),
      session.store.Reflects family written →
        (session.callAll calls).store.Reflects family
          (calls.foldl (Written.after family) written) := by
    intro calls
    induction calls with
    | nil => exact fun _ _ hsession => hsession
    | cons call rest ih =>
        intro session written hsession
        exact ih _ _ ((hsession.after call).of_data (data_call session call))
  exact hall calls _ _ (Store.fresh_reflects family)

theorem nextSequence_callAll (family : Family) (calls : List StoreCall) :
    ((fresh family).callAll calls).store.nextSequence ≤ calls.length + 1 := by
  have hall : ∀ (calls : List StoreCall) (session : StoreSession),
      (session.callAll calls).store.nextSequence ≤ session.store.nextSequence + calls.length := by
    intro calls
    induction calls with
    | nil => exact fun _ => Nat.le_refl _
    | cons call rest ih =>
        intro session
        have hfirst := Store.nextSequence_after session.store call
        have hcall : (session.call call).2.store.nextSequence =
            (session.store.after call).nextSequence :=
          congrArg (fun data => data.2.2.2) (data_call session call)
        have hrest := ih (session.call call).2
        rw [List.length_cons]
        exact Nat.le_trans hrest (by omega)
  have hbound := hall calls (fresh family)
  have hstart : (fresh family).store.nextSequence = 1 := rfl
  omega

/-- Where no run is loaded over cells that the buffer holds, what counts is what was
written last. -/
theorem copies_ofCalls {family : Family} {calls : List StoreCall} {place : Cell}
    (hloads : ∀ earlier cells later, calls = earlier ++ .bulkLoad cells :: later →
      keys.copies place ((StoreCall.bulkLoad cells).accepted family) ≠ [] →
        keys.copies place ((fresh family).callAll earlier).store.buffer.cells = []) :
    keys.copies place (Written.ofCalls family calls).cells =
      keys.copies place (StoreCall.writes family calls) := by
  have hall : ∀ rest earlier, calls = earlier ++ rest →
      keys.copies place (Written.ofCalls family earlier).cells =
        keys.copies place (StoreCall.writes family earlier) →
      keys.copies place (Written.ofCalls family calls).cells =
        keys.copies place (StoreCall.writes family calls) := by
    intro rest
    induction rest with
    | nil =>
        intro earlier hcalls hsame
        rw [List.append_nil] at hcalls
        rwa [hcalls]
    | cons call rest ih =>
        intro earlier hcalls hsame
        apply ih (earlier ++ [call]) (by rw [hcalls, List.append_assoc]; rfl)
        rw [Written.ofCalls_concat, StoreCall.writes_concat, Written.copies_after, copies_append,
          copies_append, hsame]
        rintro cells rfl hwritten
        have hbuffer := hloads earlier cells rest hcalls hwritten
        exact (callAll_reflects family earlier).pending_of_buffer hbuffer
  exact hall calls [] rfl rfl

theorem ofCalls_perm (family : Family) (calls : List StoreCall) :
    (Written.ofCalls family calls).cells.Perm (StoreCall.writes family calls) := by
  have hall : ∀ rest earlier,
      (Written.ofCalls family earlier).cells.Perm (StoreCall.writes family earlier) →
      (Written.ofCalls family (earlier ++ rest)).cells.Perm
        (StoreCall.writes family (earlier ++ rest)) := by
    intro rest
    induction rest with
    | nil =>
        intro earlier hperm
        rwa [List.append_nil]
    | cons call rest ih =>
        intro earlier hperm
        have hnext := ih (earlier ++ [call]) (by
          rw [Written.ofCalls_concat, StoreCall.writes_concat]
          exact (Written.after_perm family _ call).trans (hperm.append_left _))
        rwa [List.append_assoc] at hnext
  exact hall calls [] (List.Perm.refl _)

/-- Of the cells written at a place, a merge over the store hands out the one first
that counts: the one added last since the buffer was flushed, or else the one that
was the last to be flushed or loaded. A refused call changes nothing. -/
theorem drained_of_history (family : Family) (calls : List StoreCall)
    (hcalls : calls.length < Store.bufferSequence) :
    ∃ cells, ((fresh family).callAll calls).store.drained = (cells, none) ∧ keys.Sorted cells ∧
      (∀ place, keys.copies place cells = [] ↔
        keys.copies place (StoreCall.writes family calls) = []) ∧
      (∀ place, (keys.copies place cells).head? =
        (keys.copies place (Written.ofCalls family calls).cells).head?) ∧
      (∀ place, (∀ earlier loaded later, calls = earlier ++ .bulkLoad loaded :: later →
          keys.copies place ((StoreCall.bulkLoad loaded).accepted family) ≠ [] →
            keys.copies place ((fresh family).callAll earlier).store.buffer.cells = []) →
        (keys.copies place cells).head? =
          (keys.copies place (StoreCall.writes family calls)).head?) ∧
      ∀ (session : StoreSession) (call : StoreCall),
        match call.refused? session.store.family with
        | some cell => session.call call =
            (.error (.wrongFamily session.store.family.name cell.family), session)
        | none => (session.call call).1 = .ok () := by
  have hreflects := callAll_reflects family calls
  have hsequence := nextSequence_callAll family calls
  obtain ⟨hdrained, hfirst⟩ := hreflects.drained_eq (by omega)
  have hsorted : keys.Sorted (keys.sort ((fresh family).callAll calls).store.cells) :=
    sort_sorted _
  refine ⟨_, hdrained, hsorted, fun place => ?_, hfirst, fun place hloads => ?_, ?_⟩
  · have hwritten : keys.copies place (Written.ofCalls family calls).cells = [] ↔
        keys.copies place (StoreCall.writes family calls) = [] := by
      have hperm : (keys.copies place (Written.ofCalls family calls).cells).Perm
          (keys.copies place (StoreCall.writes family calls)) :=
        (ofCalls_perm family calls).filter _
      exact ⟨fun hnil => (hnil ▸ hperm).symm.eq_nil, fun hnil => (hnil ▸ hperm).eq_nil⟩
    rw [← hwritten, ← List.head?_eq_none_iff, hfirst place, List.head?_eq_none_iff]
  · rw [hfirst place, copies_ofCalls hloads]
  · intro session call
    split
    next cell hrefused => exact call_refused hrefused
    next haccepted => exact call_accepted haccepted

/-- A cell that is written over another one after a flush is the one handed out first. -/
theorem drained_of_rewrite :
    let family : Family := { name := [102], clock := .manual .oldest }
    let first := Cell.put [114] [102] [99] ⟨5⟩ [1]
    let second := Cell.put [114] [102] [99] ⟨5⟩ [2]
    let calls := [StoreCall.bulkLoad [first], .add first, .flush, .add second]
    calls.length < Store.bufferSequence ∧
      ∃ cells, ((fresh family).callAll calls).store.drained = (cells, none) ∧
        keys.Sorted cells ∧ (keys.copies first cells).head? = some second := by
  intro family first second calls
  obtain ⟨cells, hdrained, hsorted, -, hfirst, -⟩ :=
    drained_of_history family calls (by decide)
  refine ⟨by decide, cells, hdrained, hsorted, ?_⟩
  rw [hfirst first]
  decide

/-- A run that is loaded over a cell of the buffer counts less than that cell, although
it is written later. -/
theorem added_hides_loaded :
    let family : Family := { name := [102], clock := .manual .oldest }
    let added := Cell.put [114] [102] [99] ⟨5⟩ [1]
    let loaded := Cell.put [114] [102] [99] ⟨5⟩ [2]
    let calls := [StoreCall.add added, StoreCall.bulkLoad [loaded]]
    (keys.copies added ((fresh family).callAll calls).store.drained.1).head? = some added ∧
      (keys.copies added (StoreCall.writes family calls)).head? = some loaded ∧
      added ≠ loaded := by
  intro family added loaded calls
  have hreflects := callAll_reflects family calls
  obtain ⟨hdrained, hfirst⟩ := hreflects.drained_eq (by decide)
  refine ⟨?_, by decide, by decide⟩
  rw [hdrained, hfirst added]
  decide

end StoreSession

end MergeScan
