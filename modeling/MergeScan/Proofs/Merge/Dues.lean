import MergeScan.Proofs.Journal.Dues
import MergeScan.Proofs.Merge.Entries
import MergeScan.Source.Any

/-! # What a merge still has to do

A merge has to close the sources it holds, and to report the failures to close others. Every
operation does its part of that or leaves it to be done, also where a source fails at it: no
source is lost from a merge, and none is used after it was closed.
-/

namespace MergeScan

/-- Sources of which one can tell at any time which they are. -/
class TraceableSource (σ : Type) [Source σ] : Prop where
  origin_advance (source : σ) : Source.origin (Source.advance source).2 = Source.origin source
  origin_seek (source : σ) (key : Cell) :
    Source.origin (Source.seek source key).2 = Source.origin source
  origin_reseek (source : σ) (key : Cell) :
    Source.origin (Source.reseek source key).2 = Source.origin source
  origin_seekExactly (source : σ) (key : Cell) (forward : Bool) :
    Source.origin (Source.seekExactly source key forward).2 = Source.origin source

theorem ScriptedSource.serial_moveTo (source : ScriptedSource) (start : Nat) (key : Cell)
    (found : Option Cell → Bool) : (source.moveTo start key found).2.serial = source.serial := by
  unfold moveTo
  split
  · rfl
  · split <;> rfl

instance : TraceableSource ScriptedSource where
  origin_advance source := by
    simp only [Source.advance]
    split
    · rfl
    · split
      · rfl
      · split <;> rfl
  origin_seek source key := congrArg Origin.scripted (source.serial_moveTo 0 key _)
  origin_reseek source key := congrArg Origin.scripted (source.serial_moveTo source.position key _)
  origin_seekExactly source key forward := by
    simp only [Source.seekExactly]
    split
    · exact congrArg Origin.scripted (source.serial_moveTo _ key _)
    · rfl

instance : TraceableSource RunReader where
  origin_advance reader := by
    simp only [Source.advance]
    split
    · rfl
    · split <;> rfl
  origin_seek reader key := by
    simp only [Source.seek]
    split <;> rfl
  origin_reseek reader key := by
    simp only [Source.reseek]
    split <;> rfl
  origin_seekExactly reader key forward := by
    simp only [Source.seekExactly]
    split <;> rfl

instance : TraceableSource BufferCursor where
  origin_advance cursor := by
    simp only [Source.advance]
    split
    · rfl
    · split <;> rfl
  origin_seek cursor key := by
    simp only [Source.seek]
    split <;> rfl
  origin_reseek cursor key := by
    simp only [Source.reseek]
    split
    · rfl
    · split
      · split <;> rfl
      · rfl
  origin_seekExactly cursor key forward := rfl

instance : TraceableSource AnySource where
  origin_advance
    | .run reader => TraceableSource.origin_advance reader
    | .buffer cursor => TraceableSource.origin_advance cursor
    | .scripted source => TraceableSource.origin_advance source
  origin_seek
    | .run reader, key => TraceableSource.origin_seek reader key
    | .buffer cursor, key => TraceableSource.origin_seek cursor key
    | .scripted source, key => TraceableSource.origin_seek source key
  origin_reseek
    | .run reader, key => TraceableSource.origin_reseek reader key
    | .buffer cursor, key => TraceableSource.origin_reseek cursor key
    | .scripted source, key => TraceableSource.origin_reseek source key
  origin_seekExactly
    | .run reader, key, forward => TraceableSource.origin_seekExactly reader key forward
    | .buffer cursor, key, forward => TraceableSource.origin_seekExactly cursor key forward
    | .scripted source, key, forward => TraceableSource.origin_seekExactly source key forward

variable {σ : Type} [Source σ]

/-! ## Sources -/

/-- A source is to be closed. -/
def Source.due (source : σ) : Due :=
  .source (Source.origin source)

/-- Sources are to be closed, each of them. -/
def Source.dues (sources : List σ) : Multiset Due :=
  sources.map Source.due

@[simp] theorem Source.dues_nil : Source.dues ([] : List σ) = 0 := rfl

@[simp] theorem Source.dues_cons (source : σ) (rest : List σ) :
    Source.dues (source :: rest) = {Source.due source} + Source.dues rest := rfl

namespace Noted

/-- A source that was closed is due no more, but the failure to close it is. -/
theorem settles_close (source : σ) : (use .close source Source.close).Settles {Source.due source}
    fun outcome => Due.closeFailures (failureOf outcome.1).toList :=
  Settles.single (.called (Source.origin source) .close (failureOf (Source.close source).1))

/-- A source is moved, and due as before. If that failed, it is to be reported. -/
def Moves {α : Type} (noted : Noted (Except SourceError α × σ)) (source : σ) : Prop :=
  noted.Settles {Source.due source}
    fun outcome => {Source.due outcome.2} + Due.causeOf (failureOf outcome.1)

theorem use_moves {α : Type} {call : SourceCall} (hcall : call ≠ .close) (source : σ)
    {operation : σ → Except SourceError α × σ}
    (horigin : Source.origin (operation source).2 = Source.origin source) :
    (use call source operation).Moves source := by
  have hnote := Settles.single (.called (Source.origin source) call
    (failureOf (operation source).1))
  rw [Note.owed, if_neg hcall, ← horigin] at hnote
  rw [Moves, Noted.Settles, use, Source.due, ← horigin]
  exact hnote

/-- What is done after a source was moved, by whether the movement failed. -/
theorem Settles.bind_moved {α β : Type} {source : σ} {others : Multiset Due}
    {after : β → Multiset Due} {first : Noted (Except SourceError α × σ)}
    {next : Except SourceError α × σ → Noted β} (hfirst : first.Moves source)
    (hok : ∀ answer moved,
      (next (.ok answer, moved)).Settles ({Source.due moved} + others) after)
    (herror : ∀ failure moved, (next (.error failure, moved)).Settles
      ({Source.due moved} + others + {.cause failure}) after) :
    (first >>= next).Settles ({Source.due source} + others) after := by
  refine (hfirst.frame others).bind ?_
  rintro ⟨failure | answer, moved⟩
  · exact (herror failure moved).of_eq (add_right_comm _ _ _)
  · exact (hok answer moved).of_eq (congrArg (· + others) (add_zero _))

end Noted

/-- A way to position sources that can be accounted for. -/
def Positioning.Traceable (positioning : Positioning σ) : Prop :=
  ∀ source key, (positioning source key).Moves source

namespace Positioning

variable [TraceableSource σ]

theorem seek_traceable : (seek : Positioning σ).Traceable := fun source key =>
  Noted.use_moves (by decide) source (TraceableSource.origin_seek source key)

theorem reseek_traceable : (reseek : Positioning σ).Traceable := fun source key =>
  Noted.use_moves (by decide) source (TraceableSource.origin_reseek source key)

theorem exactly_traceable (forward : Bool) : (exactly forward : Positioning σ).Traceable := by
  intro source key
  unfold exactly
  split
  · exact Noted.use_moves (by decide) source (TraceableSource.origin_seekExactly source key forward)
  · split
    · exact reseek_traceable source key
    · exact seek_traceable source key

end Positioning

/-! ## Merges -/

namespace Merge

/-- A merge is to close its sources and to report its failures. -/
def dues (merge : Merge σ) : Multiset Due :=
  Source.dues (merge.entries.map MergeEntry.source) + Due.closeFailures merge.failures

variable {merge : Merge σ} {entry : MergeEntry σ}

theorem dues_of_perm {other : Merge σ} (hfailures : other.failures = merge.failures)
    (hentries : other.entries.Perm merge.entries) : other.dues = merge.dues := by
  have hsources : Source.dues (other.entries.map MergeEntry.source) =
      Source.dues (merge.entries.map MergeEntry.source) :=
    Multiset.coe_eq_coe.mpr ((hentries.map _).map _)
  rw [dues, dues, hsources, hfailures]

theorem dues_of_cons {other : Merge σ} (hfailures : other.failures = merge.failures)
    (hentries : other.entries.Perm (entry :: merge.entries)) :
    other.dues = {Source.due entry.source} + merge.dues := by
  have hsources : Source.dues (other.entries.map MergeEntry.source) =
      Source.dues ((entry :: merge.entries).map MergeEntry.source) :=
    Multiset.coe_eq_coe.mpr ((hentries.map _).map _)
  rw [dues, dues, hsources, hfailures, List.map_cons, Source.dues_cons, add_assoc]

theorem dues_enqueue (merge : Merge σ) (entry : MergeEntry σ) :
    (merge.enqueue entry).dues = {Source.due entry.source} + merge.dues :=
  dues_of_cons rfl (entries_enqueue merge entry)

theorem failures_promote (merge : Merge σ) : merge.promote.failures = merge.failures := by
  unfold promote
  split <;> rfl

theorem dues_promote (hidle : merge.current = none) : merge.promote.dues = merge.dues :=
  dues_of_perm (failures_promote merge) (entries_promote hidle)

theorem dues_promote_enqueue (merge : Merge σ) (hidle : merge.current = none)
    (entry : MergeEntry σ) :
    (merge.enqueue entry).promote.dues = {Source.due entry.source} + merge.dues :=
  (@dues_promote _ _ (merge.enqueue entry) hidle).trans (dues_enqueue merge entry)

theorem dues_of_current (hcurrent : merge.current = some entry) :
    merge.dues = {Source.due entry.source} + Merge.dues { merge with current := none } := by
  refine dues_of_cons rfl ?_
  rw [entries_of_current hcurrent]
  exact .refl _

theorem dues_of_pop {waiting : PriorityQueue (MergeEntry σ)}
    (hpop : merge.waiting.pop? (MergeEntry.le merge.order) = some (entry, waiting)) :
    merge.dues = {Source.due entry.source} + Merge.dues { merge with waiting } := by
  refine dues_of_cons rfl ?_
  have hwaiting := (PriorityQueue.pop?_perm hpop).append_left merge.current.toList
  exact hwaiting.trans List.perm_middle

/-! ### Taking sources in and letting them go -/

theorem release_settles (merge : Merge σ) (source : σ) :
    (merge.release source).Settles ({Source.due source} + merge.dues) dues := by
  refine ((Noted.settles_close source).frame _).bind ?_
  rintro ⟨failure | _, closed⟩
  · refine (Noted.settles_raise _ _).bind fun _ => Noted.settles_pure ?_
    show Due.closeFailures [failure] + merge.dues =
      Source.dues (merge.entries.map MergeEntry.source) +
        Due.closeFailures (merge.failures ++ [failure])
    rw [dues, Due.closeFailures_append]
    abel
  · exact Noted.settles_pure (zero_add _)

theorem takeIn_settles (merge : Merge σ) (source : σ) :
    (merge.takeIn source).Settles ({Source.due source} + merge.dues) dues := by
  unfold takeIn
  split
  · exact Noted.settles_pure (dues_enqueue merge ⟨_, source⟩).symm
  · exact merge.release_settles source

theorem takeInAll_settles (merge : Merge σ) (sources : List σ) :
    (merge.takeInAll sources).Settles (Source.dues sources + merge.dues) dues := by
  induction sources generalizing merge with
  | nil => exact Noted.settles_pure (zero_add _)
  | cons source rest ih =>
      refine (((merge.takeIn_settles source).frame (Source.dues rest)).bind fun taken =>
        (ih taken).of_eq (add_comm _ _)).of_eq ?_
      rw [Source.dues_cons]
      abel

theorem ofSources_settles (order : CellOrder) (sources : List σ) :
    (ofSources order sources).Settles (Source.dues sources) dues := by
  have hidle := current_takeInAll (⟨order, none, .empty, []⟩ : Merge σ) sources
  refine (takeInAll_settles ⟨order, none, .empty, []⟩ sources).bind_value ?_ |>.of_eq ?_
  · exact Noted.settles_pure (dues_promote hidle).symm
  · exact (add_zero _).symm

theorem dues_withCurrent (hidle : merge.current = none) (entry : MergeEntry σ) :
    (merge.withCurrent entry).dues = {Source.due entry.source} + merge.dues := by
  refine dues_of_cons rfl ?_
  rw [entries_withCurrent hidle]

theorem settle_settles (hidle : merge.current = none) (source : σ) :
    (merge.settle source).Settles ({Source.due source} + merge.dues) dues := by
  unfold settle
  split
  · refine (merge.release_settles source).bind_value (Noted.settles_pure ?_)
    exact (dues_promote ((current_release merge source).trans hidle)).symm
  next top _ =>
    dsimp only
    split
    · split
      · exact Noted.settles_pure (dues_withCurrent hidle ⟨top, source⟩).symm
      · exact Noted.settles_pure (dues_promote_enqueue merge hidle ⟨top, source⟩).symm
    · exact Noted.settles_pure (dues_withCurrent hidle ⟨top, source⟩).symm

/-! ### Moving -/

/-- What is due after a merge was moved. -/
def movedDues {α : Type} (moved : Except SourceError α × Merge σ) : Multiset Due :=
  moved.2.dues + Due.causeOf (failureOf moved.1)

variable [TraceableSource σ]

theorem advance_settles (merge : Merge σ) : merge.advance.Settles merge.dues movedDues := by
  unfold advance
  split
  · exact Noted.settles_pure (add_zero _).symm
  next entry hcurrent =>
    have hsettle (source : σ) := @settle_settles _ _ { merge with current := none } rfl source
    rw [dues_of_current hcurrent]
    refine .bind_moved (Noted.use_moves (by decide) entry.source
      (TraceableSource.origin_advance entry.source)) (fun cell source => ?_)
      fun failure source => ?_
    · exact (hsettle source).bind fun _ => Noted.settles_pure (add_zero _).symm
    · refine Noted.settles_pure ?_
      show _ = (Merge.withCurrent { merge with current := none } { entry with source }).dues + _
      rw [dues_withCurrent rfl]
      rfl

omit [TraceableSource σ] in
theorem dues_enqueueAll (entries : List (MergeEntry σ)) (merge : Merge σ) :
    (entries.foldl enqueue merge).dues =
      Source.dues (entries.map MergeEntry.source) + merge.dues := by
  induction entries generalizing merge with
  | nil => exact (zero_add _).symm
  | cons entry rest ih =>
      rw [List.foldl_cons, ih, dues_enqueue, List.map_cons, Source.dues_cons]
      abel

theorem seekEach_settles (key : Cell) (entries : List (MergeEntry σ)) (merge : Merge σ) :
    (merge.seekEach key entries).Settles
      (Source.dues (entries.map MergeEntry.source) + merge.dues)
      fun outcome => outcome.2.dues + Due.causeOf outcome.1 := by
  induction entries generalizing merge with
  | nil => exact Noted.settles_pure ((zero_add _).trans (add_zero _).symm)
  | cons entry rest ih =>
      rw [List.map_cons, Source.dues_cons, add_assoc]
      refine .bind_moved (Positioning.seek_traceable entry.source key) (fun found source => ?_)
        fun failure source => ?_
      · have htaken := merge.takeIn_settles source
        refine ((htaken.frame (Source.dues (rest.map MergeEntry.source))).bind
          fun taken => (ih taken).of_eq (add_comm _ _)).of_eq ?_
        abel
      · refine Noted.settles_pure ?_
        rw [dues_enqueueAll, List.map_cons, Source.dues_cons]
        simp only [Due.causeOf]
        abel

omit [TraceableSource σ] in
theorem current_seekEach (key : Cell) (entries : List (MergeEntry σ)) (merge : Merge σ) :
    (merge.seekEach key entries).value.2.current = merge.current := by
  induction entries generalizing merge with
  | nil => rfl
  | cons entry rest ih =>
      have hrest (entries : List (MergeEntry σ)) (merge : Merge σ) :
          (entries.foldl enqueue merge).current = merge.current := by
        induction entries generalizing merge with
        | nil => rfl
        | cons entry rest ih => exact ih (merge.enqueue entry)
      rw [seekEach, Noted.value_bind]
      generalize (Positioning.seek entry.source key).value = moved
      obtain ⟨failure | found, source⟩ := moved
      · exact hrest _ merge
      · exact (ih _).trans (current_takeIn merge source)

theorem seek_settles (merge : Merge σ) (key : Cell) :
    (merge.seek key).Settles merge.dues movedDues := by
  let emptied : Merge σ := { merge with current := none, waiting := .empty }
  have hidle := current_seekEach key merge.entries emptied
  have hsought := seekEach_settles key merge.entries emptied
  refine (hsought.bind_value ?_).of_eq ?_
  · generalize (seekEach _ key merge.entries).value = sought at hidle ⊢
    obtain ⟨failure | _, reached⟩ := sought
    · exact Noted.settles_pure (congrArg (· + 0) (dues_promote hidle).symm)
    · exact Noted.settles_pure (congrArg (· + _) (dues_promote hidle).symm)
  · exact congrArg (_ + ·) (zero_add _).symm

omit [TraceableSource σ] in
theorem skipTo_settles {positioning : Positioning σ} (hpositioning : positioning.Traceable)
    (key : Cell) (turns : Nat) (hidle : merge.current = none) :
    (skipTo positioning key turns merge).Settles merge.dues movedDues := by
  induction turns generalizing merge with
  | zero => exact Noted.settles_pure ((dues_promote hidle).symm.trans (add_zero _).symm)
  | succ turns ih =>
      unfold skipTo
      split
      · exact Noted.settles_pure (add_zero _).symm
      next entry waiting hpop =>
        have hback (entry : MergeEntry σ) :
            (enqueue { merge with waiting } entry).promote.dues =
              {Source.due entry.source} + Merge.dues { merge with waiting } :=
          dues_promote_enqueue { merge with waiting } hidle entry
        rw [dues_of_pop hpop]
        dsimp only
        split
        · exact Noted.settles_pure ((hback entry).symm.trans (add_zero _).symm)
        · refine .bind_moved (hpositioning entry.source key) (fun found source => ?_)
            fun failure source => ?_
          · have htaken := takeIn_settles { merge with waiting } source
            exact htaken.bind_value (ih ((current_takeIn _ source).trans hidle))
          · exact Noted.settles_pure (congrArg (· + _) (hback { entry with source }).symm)

omit [TraceableSource σ] in
theorem moveForward_settles {positioning : Positioning σ} (hpositioning : positioning.Traceable)
    (merge : Merge σ) (key : Cell) :
    (merge.moveForward positioning key).Settles merge.dues movedDues := by
  unfold moveForward
  split
  · exact Noted.settles_pure (add_zero _).symm
  next entry hcurrent =>
    refine (skipTo_settles hpositioning key _ rfl).of_eq ?_
    rw [dues_enqueue, dues_of_current hcurrent]

theorem reseek_settles (merge : Merge σ) (key : Cell) :
    (merge.reseek key).Settles merge.dues movedDues :=
  merge.moveForward_settles Positioning.reseek_traceable key

theorem seekExactly_settles (merge : Merge σ) (key : Cell) (forward : Bool) :
    (merge.seekExactly key forward).Settles merge.dues movedDues :=
  merge.moveForward_settles (Positioning.exactly_traceable forward) key

/-! ### Closing -/

omit [TraceableSource σ]

theorem releaseWaiting_settles (turns : Nat) (hidle : merge.current = none)
    (hturns : merge.waiting.toList.length ≤ turns) :
    (releaseWaiting turns merge).Settles merge.dues
      fun released => Due.closeFailures released.failures := by
  have hempty (merge : Merge σ) (hidle : merge.current = none) (hnone : merge.waiting.toList = []) :
      merge.dues = Due.closeFailures merge.failures := by
    rw [dues, entries_of_idle hidle, hnone]
    exact zero_add _
  induction turns generalizing merge with
  | zero =>
      have hnone := List.length_eq_zero_iff.mp (Nat.le_zero.mp hturns)
      exact Noted.settles_pure (hempty merge hidle hnone)
  | succ turns ih =>
      unfold releaseWaiting
      split
      next hnone => exact Noted.settles_pure (hempty merge hidle (PriorityQueue.pop?_eq_none hnone))
      next entry waiting hpop =>
        rw [dues_of_pop hpop]
        have hlength := (PriorityQueue.pop?_perm hpop).length_eq
        rw [List.length_cons] at hlength
        refine (release_settles { merge with waiting } entry.source).bind_value (ih ?_ ?_)
        · exact (current_release _ _).trans hidle
        · rw [waiting_release]
          show waiting.toList.length ≤ turns
          omega

/-- To close a merge closes all its sources, and what is left is to report the answer. -/
theorem close_settles (merge : Merge σ) :
    merge.close.Settles merge.dues fun closed => Due.closeFailures closed.1 := by
  have hcurrent : merge.releaseCurrent.Settles merge.dues dues := by
    unfold releaseCurrent
    split
    next entry hcurrent =>
      rw [dues_of_current hcurrent]
      exact release_settles _ entry.source
    next => exact Noted.settles_pure rfl
  have hidle : merge.releaseCurrent.value.current = none := by
    unfold releaseCurrent
    split
    next => exact current_release _ _
    next hnone => exact hnone
  exact hcurrent.bind_value <|
    (releaseWaiting_settles _ hidle le_rfl).bind fun _ => Noted.settles_pure rfl

end Merge

end MergeScan
