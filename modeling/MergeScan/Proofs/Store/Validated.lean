import Mathlib.Data.List.Dedup
import MergeScan.Proofs.Store.Compaction
import MergeScan.Session.Store

/-! # Compactions are validated first

A compaction looks at the ids that it is given before it does anything else, and nothing else
makes it fail. What it then makes takes the place of the window that the ids name: the runs
are put back by their ranks, and the store has kept those in the order of the positions that
were looked at.
-/

namespace MergeScan

theorem StoreSession.absorb_nil (session : StoreSession) : session.absorb [] = session := by
  rw [absorb, List.append_nil]
  rfl

namespace Store

variable {store : Store} {ids : List RunId} {newer window older : List SortedRun} {major : Bool}

/-- The freshest run that ids skip: one that they do not name, between two that they name. -/
def skipped? (store : Store) (ids : List RunId) : Option SortedRun :=
  match (store.runs.dropWhile (·.id ∉ ids)).dropWhile (·.id ∈ ids) with
  | [] => none
  | run :: older => if older.any (·.id ∈ ids) then some run else none

/-- Why a compaction is refused: for the first id of no run, or else for a run that is
skipped, or else because it has to be complete and a run is left out. -/
def refusal? (store : Store) (ids : List RunId) (major : Bool) : Option StoreError :=
  match ids.find? fun id => store.runs.all (·.id ≠ id) with
  | some id => some (.unknownRun id)
  | none =>
    match store.skipped? ids with
    | some run => some (.skippedRun run.id)
    | none =>
      if major && store.runs.any (·.id ∉ ids) then
        some (.partialSelection ids.dedup.length store.runs.length)
      else none

/-! ## Gaps -/

/-- Behind the runs of a window none is named. -/
theorem Window.skipped?_eq_none (hwindow : Window store ids newer window older)
    (hnodup : (store.runs.map SortedRun.id).Nodup) : store.skipped? ids = none := by
  obtain ⟨hnewer, hchosen, holder⟩ := hwindow.mem_ids hnodup
  unfold skipped?
  rw [hwindow.runs, List.append_assoc, List.dropWhile_append_of_pos (by simpa using hnewer)]
  cases window with
  | nil =>
      have hnone : older.dropWhile (·.id ∉ ids) = [] :=
        List.dropWhile_eq_nil_iff.mpr (by simpa using holder)
      rw [List.nil_append, hnone]
      rfl
  | cons first rest =>
      rw [List.cons_append, List.dropWhile_cons_of_neg (by simpa using hchosen first),
        ← List.cons_append, List.dropWhile_append_of_pos (by simpa using hchosen)]
      cases older with
      | nil => rfl
      | cons run others =>
          rw [List.dropWhile_cons_of_neg (by simpa using holder run List.mem_cons_self)]
          have hothers : others.any (·.id ∈ ids) = false := by
            simpa using fun other hother => holder other (List.mem_cons_of_mem run hother)
          simp only [hothers, Bool.false_eq_true, if_false]

theorem skipped?_eq_some {chosen : List SortedRun} {run : SortedRun}
    (hruns : store.runs = newer ++ chosen ++ run :: older) (hnewer : ∀ run ∈ newer, run.id ∉ ids)
    (hsome : chosen ≠ []) (hchosen : ∀ run ∈ chosen, run.id ∈ ids) (hrun : run.id ∉ ids)
    (holder : ∃ run ∈ older, run.id ∈ ids) : store.skipped? ids = some run := by
  obtain ⟨first, rest, rfl⟩ := List.exists_cons_of_ne_nil hsome
  have hany : older.any (·.id ∈ ids) = true := by simpa using holder
  unfold skipped?
  rw [hruns, List.append_assoc, List.dropWhile_append_of_pos (by simpa using hnewer),
    List.cons_append, List.dropWhile_cons_of_neg (by simpa using hchosen first List.mem_cons_self),
    ← List.cons_append, List.dropWhile_append_of_pos (by simpa using hchosen),
    List.dropWhile_cons_of_neg (by simpa using hrun)]
  simp only [hany, if_true]

/-- The first gap between the positions that ids name is at the run that they skip. -/
theorem firstGap?_positionsOf (hnodup : (store.runs.map SortedRun.id).Nodup)
    (hids : ∀ id ∈ ids, ∃ run ∈ store.runs, run.id = id) :
    firstGap? (store.positionsOf ids) store.runs = store.skipped? ids := by
  have hpositions : ids.mapM store.position = .ok (store.positionsOf ids) := by
    rw [mapM_position, find?_unknown_eq_none hids]
  cases hgap : firstGap? (store.positionsOf ids) store.runs with
  | none =>
      obtain ⟨newer, window, older, hwindow⟩ := Window.of_positions hpositions hgap
      exact (hwindow.skipped?_eq_none hnodup).symm
  | some run =>
      obtain ⟨first, last, position, hfirst, hlast, hge, hle, hrun, hout, hbetween⟩ :=
        of_firstGap?_eq_some hgap
      have hnamed {index : Nat} {other : SortedRun} (hother : store.runs[index]? = some other) :=
        mem_positionsOf hnodup hids hother
      obtain ⟨hfirstMem, hleast⟩ := List.min?_eq_some_iff.mp hfirst
      have hlastMem := List.max?_mem hlast
      have hbefore : first < position := Nat.lt_of_le_of_ne hge fun heq => hout (heq ▸ hfirstMem)
      have hafter : position < last := Nat.lt_of_le_of_ne hle fun heq => hout (heq ▸ hlastMem)
      obtain ⟨hlength, hget⟩ := List.getElem?_eq_some_iff.mp hrun
      have hstart : first + (position - first) = position := by omega
      have hruns := stretch_between store.runs first (position - first)
      rw [hstart, List.drop_eq_getElem_cons hlength, hget] at hruns
      refine (skipped?_eq_some hruns.symm (fun other hother => ?_) ?_ (fun other hother => ?_)
        ?_ ?_).symm
      · -- the runs before the first position
        rw [← List.drop_zero (l := store.runs)] at hother
        obtain ⟨index, -, hlt, hindex⟩ := mem_stretch.mp hother
        rw [← hnamed hindex]
        exact fun hmem => Nat.not_le_of_lt (by omega) (hleast index hmem)
      · rw [← List.length_pos_iff, List.length_take, List.length_drop]
        omega
      · -- the runs from the first position to the gap
        obtain ⟨index, hge, hlt, hindex⟩ := mem_stretch.mp hother
        exact (hnamed hindex).mp (hbetween index hge (by omega))
      · rwa [← hnamed hrun]
      · obtain ⟨id, hid, hfound⟩ := List.mem_map.mp hlastMem
        obtain ⟨other, hother, rfl⟩ := hids id hid
        obtain ⟨index, hindex⟩ := List.getElem?_of_mem hother
        rw [findIdx_of_getElem? hnodup hindex] at hfound
        refine ⟨other, List.mem_of_getElem? (i := last - (position + 1)) ?_, hid⟩
        have hstart : position + 1 + (last - (position + 1)) = index := by omega
        rw [List.getElem?_drop, hstart, hindex]

/-! ## What a compaction does -/

/-- A window has as many runs as ids that are different name it. -/
theorem Window.length_eq (hwindow : Window store ids newer window older)
    (hnodup : (store.runs.map SortedRun.id).Nodup) : window.length = ids.dedup.length := by
  have hsub : window.Sublist store.runs := by
    rw [hwindow.runs, List.append_assoc]
    exact (List.sublist_append_left window older).trans (List.sublist_append_right newer _)
  have hperm : (window.map SortedRun.id).Perm ids.dedup :=
    (List.perm_ext_iff_of_nodup (hnodup.sublist (hsub.map _)) ids.nodup_dedup).mpr fun id => by
      rw [List.mem_dedup, hwindow.names, List.mem_map]
  rw [← hperm.length_eq, List.length_map]

/-- A window has fewer runs than the store if and only if a run is left out. -/
theorem Window.length_ne_iff (hwindow : Window store ids newer window older)
    (hnodup : (store.runs.map SortedRun.id).Nodup) :
    window.length ≠ store.runs.length ↔ ∃ run ∈ store.runs, run.id ∉ ids := by
  obtain ⟨hnewer, hchosen, holder⟩ := hwindow.mem_ids hnodup
  constructor
  · intro hlength
    rw [hwindow.runs, List.length_append, List.length_append] at hlength
    cases newer with
    | cons run _ =>
        exact ⟨run, hwindow.mem_runs (by simp), hnewer run List.mem_cons_self⟩
    | nil =>
        cases older with
        | cons run _ =>
            exact ⟨run, hwindow.mem_runs (by simp), holder run List.mem_cons_self⟩
        | nil => simp at hlength
  · rintro ⟨run, hrun, hout⟩ hlength
    have hall : window = store.runs := by
      refine List.Sublist.eq_of_length ?_ hlength
      rw [hwindow.runs, List.append_assoc]
      exact (List.sublist_append_left window older).trans (List.sublist_append_right newer _)
    exact hout (hchosen run (hall ▸ hrun))

/-- A selection is refused for the reason that there is, and only then. -/
theorem selectRuns_eq_error_iff (hnodup : (store.runs.map SortedRun.id).Nodup)
    {failure : StoreError} :
    store.selectRuns ids major = .error failure ↔ store.refusal? ids major = some failure := by
  have hpositions := store.mapM_position ids
  unfold refusal?
  cases hunknown : ids.find? fun id => store.runs.all (·.id ≠ id) with
  | some id =>
      rw [hunknown] at hpositions
      simp [selectRuns, hpositions, bind, Except.bind]
  | none =>
      rw [hunknown] at hpositions
      have hids : ∀ id ∈ ids, ∃ run ∈ store.runs, run.id = id := by simpa using hunknown
      have hgap := firstGap?_positionsOf hnodup hids
      cases hskipped : store.skipped? ids with
      | some run =>
          rw [hskipped] at hgap
          simp [selectRuns, hpositions, hgap, bind, Except.bind, throw, throwThe, MonadExceptOf.throw]
      | none =>
          obtain ⟨newer, window, older, hwindow⟩ := Window.of_positions hpositions
            (hgap.trans hskipped)
          have hpartial : decide (window.length ≠ store.runs.length) =
              store.runs.any (·.id ∉ ids) := by
            rw [Bool.eq_iff_iff, decide_eq_true_eq, hwindow.length_ne_iff hnodup]
            simp
          rw [hwindow.selectRuns_eq hnodup, hpartial, hwindow.length_eq hnodup]
          dsimp only
          split <;> simp

/-- After any history of writes and compactions, a compaction is refused for the reason that
there is, if there is one, and then it has opened nothing and changed nothing. Otherwise it
succeeds: one run at most, with the rank of the freshest of the window, stands where the window
stood, and all runs are in the order of ranks that were given away.

The number of writes needs no bound here. Only ranks of runs are compared, which are natural
numbers that are counted up; 64 bits of them are used up only after 2^64 writes. Where reads
are concerned, the ranks also have to stay below that of the buffer. -/
theorem compact_validated {family : Family} (horder : family.order = .keys)
    (hversions : family.WellFormed) {actions : List StoreAction}
    (hreal : ∀ action ∈ actions, ∀ cell ∈ action.cells, cell.IsReal)
    (ids : List RunId) (major : Bool) :
    let store := performAll { family } actions
    match store.refusal? ids major with
    | some failure =>
      store.compact ids major = ⟨.error failure, []⟩ ∧
        store.perform (.compact ids major) = store ∧
        ∀ session : StoreSession, session.store = store →
          session.compact ids major = (.error failure, session)
    | none => ∃ newer window older output next, Window store ids newer window older ∧
        (store.compact ids major).value = .ok (output, next) ∧
        next.runs = newer ++ output.run.toList ++ older ∧
        (∀ run, output.run = some run →
          (window.map SortedRun.sequenceId).max? = some run.sequenceId) ∧
        next.runs.Pairwise (fun left right => right.sequenceId < left.sequenceId) ∧
        (∀ run ∈ next.runs, run.sequenceId < next.nextSequence) ∧
        next.buffer = store.buffer ∧ next.nextSequence = store.nextSequence := by
  intro store
  have hstore : Arranged store := (fresh_arranged horder hversions).performAll hreal
  have hrefused (failure : StoreError) : store.selectRuns ids major = .error failure ↔
      store.refusal? ids major = some failure := selectRuns_eq_error_iff hstore.distinct
  rcases hstore.compact_cases ids major with ⟨failure, hselect, hcompact⟩ |
      ⟨newer, window, older, run, hwindow, hselect, hmerged, hcompact⟩
  · rw [(hrefused failure).mp hselect]
    refine ⟨hcompact, ?_, fun session hsession => ?_⟩
    · rw [perform, hcompact]
      rfl
    · rw [StoreSession.compact, hsession, hcompact]
      exact congrArg _ (session.absorb_nil)
  · have hnone : store.refusal? ids major = none := by
      cases hfailure : store.refusal? ids major with
      | none => rfl
      | some failure =>
          rw [(hrefused failure).mpr hfailure] at hselect
          cases hselect
    have hnext := hstore.withWindow hwindow hmerged
    rw [hnone]
    exact ⟨newer, window, older, _, _, hwindow, hcompact, rfl, hmerged.rank, hnext.sound.ranked,
      hnext.sound.recent, rfl, rfl⟩

/-- Of three runs that were loaded one after the other, the older two can be merged. Ids that
are unknown, that skip the run in the middle, or that leave out one run of a complete merge
are refused. -/
theorem compact_validated_of_loads :
    let family : Family := { name := [102], clock := .manual .oldest }
    let value (time : UInt64) := Cell.put [114] [102] [99] ⟨time⟩ [1]
    let actions : List StoreAction :=
      [.bulkLoad [value 1], .bulkLoad [value 2], .bulkLoad [value 3]]
    let store := performAll { family } actions
    (family.order = .keys ∧ family.WellFormed ∧
        ∀ action ∈ actions, ∀ cell ∈ action.cells, cell.IsReal) ∧
      store.compact [⟨0⟩, ⟨7⟩, ⟨2⟩, ⟨8⟩] true = ⟨.error (.unknownRun ⟨7⟩), []⟩ ∧
      store.compact [⟨0⟩, ⟨2⟩] true = ⟨.error (.skippedRun ⟨1⟩), []⟩ ∧
      store.compact [⟨1⟩, ⟨0⟩, ⟨1⟩] true = ⟨.error (.partialSelection 2 3), []⟩ ∧
      ∃ newer window older output next, Window store [⟨1⟩, ⟨0⟩, ⟨1⟩] newer window older ∧
        (store.compact [⟨1⟩, ⟨0⟩, ⟨1⟩] false).value = .ok (output, next) ∧
        next.runs = newer ++ output.run.toList ++ older := by
  intro family value actions store
  have hversions : family.WellFormed := Nat.le_refl 1
  have hreal : ∀ action ∈ actions, ∀ cell ∈ action.cells, cell.IsReal := by decide
  have hunknown : store.refusal? [⟨0⟩, ⟨7⟩, ⟨2⟩, ⟨8⟩] true = some (.unknownRun ⟨7⟩) := rfl
  have hskipped : store.refusal? [⟨0⟩, ⟨2⟩] true = some (.skippedRun ⟨1⟩) := rfl
  have hpartial : store.refusal? [⟨1⟩, ⟨0⟩, ⟨1⟩] true = some (.partialSelection 2 3) := rfl
  have hrefused {ids : List RunId} {major : Bool} {failure : StoreError}
      (hrefusal : (performAll { family } actions).refusal? ids major = some failure) :
      store.compact ids major = ⟨.error failure, []⟩ := by
    have hcompact := compact_validated rfl hversions hreal ids major
    simp only [hrefusal] at hcompact
    exact hcompact.1
  obtain ⟨newer, window, older, output, next, hwindow, hvalue, hruns, -⟩ :=
    compact_validated rfl hversions hreal [⟨1⟩, ⟨0⟩, ⟨1⟩] false
  exact ⟨⟨rfl, hversions, hreal⟩, hrefused hunknown, hrefused hskipped, hrefused hpartial,
    newer, window, older, output, next, hwindow, hvalue, hruns⟩

end Store

end MergeScan
