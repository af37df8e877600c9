import MergeScan.Proofs.Merge.Stream
import MergeScan.Source.Any

/-! # Sources that can be closed

A source is closed once: by the merge as soon as it has no cell left, or when the merge is
closed. A merge of sources that can be closed meets no failure to close one.
-/

namespace MergeScan

variable {σ : Type} [Source σ]

/-- A property of sources that they keep when they are moved, and with which they can be
closed. -/
structure Closable (Held : σ → Prop) : Prop where
  advance source : Held source → Held (Source.advance source).2
  seek source key : Held source → Held (Source.seek source key).2
  reseek source key : Held source → Held (Source.reseek source key).2
  seekExactly source key forward : Held source → Held (Source.seekExactly source key forward).2
  close source : Held source → (Source.close source).1 = .ok ()

/-- Whether a source is an open reader of a run, or an open cursor on a buffer. -/
def AnySource.IsOpen : AnySource → Prop
  | run reader => reader.closed = false
  | buffer cursor => cursor.closed = false
  | scripted _ => False

theorem RunReader.closable : Closable fun reader : RunReader => reader.closed = false where
  advance reader hopen := by
    simp only [Source.advance, hopen, Bool.false_eq_true, if_false]
    cases reader.current with
    | some cell => rfl
    | none => exact hopen
  seek reader key hopen := by
    simp only [Source.seek, hopen]
    exact hopen
  reseek reader key hopen := by
    simp only [Source.reseek, hopen]
    exact hopen
  seekExactly reader key forward hopen := by
    simp only [Source.seekExactly, hopen]
    exact hopen
  close reader hopen := by
    simp only [Source.close, hopen]
    rfl

theorem BufferCursor.closable : Closable fun cursor : BufferCursor => cursor.closed = false where
  advance cursor hopen := by
    simp only [Source.advance, hopen, Bool.false_eq_true, if_false]
    cases cursor.current with
    | some cell => rfl
    | none => exact hopen
  seek cursor key hopen := by
    simp only [Source.seek, hopen]
    exact hopen
  reseek cursor key hopen := by
    simp only [Source.reseek, hopen, Bool.false_eq_true, if_false]
    cases cursor.current with
    | some cell =>
        dsimp only
        split <;> exact hopen
    | none => exact hopen
  seekExactly cursor key forward hopen := hopen
  close cursor hopen := by
    simp only [Source.close, hopen]
    rfl

theorem AnySource.open_closable : Closable AnySource.IsOpen where
  advance
    | .run reader, hopen => RunReader.closable.advance reader hopen
    | .buffer cursor, hopen => BufferCursor.closable.advance cursor hopen
  seek
    | .run reader, key, hopen => RunReader.closable.seek reader key hopen
    | .buffer cursor, key, hopen => BufferCursor.closable.seek cursor key hopen
  reseek
    | .run reader, key, hopen => RunReader.closable.reseek reader key hopen
    | .buffer cursor, key, hopen => BufferCursor.closable.reseek cursor key hopen
  seekExactly
    | .run reader, key, forward, hopen => RunReader.closable.seekExactly reader key forward hopen
    | .buffer cursor, key, forward, hopen =>
      BufferCursor.closable.seekExactly cursor key forward hopen
  close
    | .run reader, hopen => RunReader.closable.close reader hopen
    | .buffer cursor, hopen => BufferCursor.closable.close cursor hopen

variable {Held : σ → Prop}

/-- A way to position sources with which they stay as they have to be. -/
def Positioning.Keeps (Held : σ → Prop) (positioning : Positioning σ) : Prop :=
  ∀ source key, Held source → Held (positioning source key).value.2

namespace Closable

variable (hclosable : Closable Held)

include hclosable in
theorem seek_keeps : (Positioning.seek : Positioning σ).Keeps Held :=
  fun source key hheld => hclosable.seek source key hheld

include hclosable in
theorem reseek_keeps : (Positioning.reseek : Positioning σ).Keeps Held :=
  fun source key hheld => hclosable.reseek source key hheld

include hclosable in
theorem exactly_keeps (forward : Bool) :
    (Positioning.exactly forward : Positioning σ).Keeps Held := by
  intro source key hheld
  unfold Positioning.exactly
  split
  · exact hclosable.seekExactly source key forward hheld
  · split
    · exact hclosable.reseek source key hheld
    · exact hclosable.seek source key hheld

end Closable

namespace Merge

/-- A merge whose sources can be closed, and that has met no failure to close one. -/
structure Unhurt (Held : σ → Prop) (merge : Merge σ) : Prop where
  failures : merge.failures = []
  held entry : entry ∈ merge.entries → Held entry.source

/-- Such a merge that has a cell on top as long as a source is left. -/
structure Calm (Held : σ → Prop) (merge : Merge σ) : Prop extends merge.Unhurt Held where
  idle : merge.current = none → merge.waiting.toList = []

variable {merge : Merge σ} {source : σ}

theorem release_of_held (hclosable : Closable Held) (hheld : Held source) (merge : Merge σ) :
    (merge.release source).value = merge := by
  simp only [release, Noted.value_bind, Noted.value_use, hclosable.close source hheld]
  rfl

omit [Source σ] in
theorem Unhurt.of_entries {other : Merge σ} (hunhurt : Unhurt Held merge)
    (hfailures : other.failures = merge.failures)
    (hentries : ∀ entry ∈ other.entries, entry ∈ merge.entries) : Unhurt Held other :=
  ⟨hfailures.trans hunhurt.failures, fun entry hentry => hunhurt.held entry (hentries entry hentry)⟩

theorem Unhurt.enqueue (hunhurt : Unhurt Held merge) {entry : MergeEntry σ}
    (hheld : Held entry.source) : Unhurt Held (merge.enqueue entry) := by
  refine ⟨hunhurt.failures, fun other hother => ?_⟩
  rcases List.mem_cons.mp ((entries_enqueue merge entry).mem_iff.mp hother) with rfl | hmem
  · exact hheld
  · exact hunhurt.held other hmem

omit [Source σ] in
theorem Unhurt.withCurrent (hunhurt : Unhurt Held merge) {entry : MergeEntry σ}
    (hheld : Held entry.source) : Calm Held (merge.withCurrent entry) := by
  refine ⟨⟨hunhurt.failures, fun other hother => ?_⟩, nofun⟩
  rw [entries_of_current rfl] at hother
  rcases List.mem_cons.mp hother with rfl | hmem
  · exact hheld
  · exact hunhurt.held other (List.mem_append_right _ hmem)

theorem Unhurt.takeIn (hclosable : Closable Held) (hunhurt : Unhurt Held merge)
    (hheld : Held source) : Unhurt Held (merge.takeIn source).value := by
  unfold Merge.takeIn
  split
  · exact hunhurt.enqueue hheld
  · rw [release_of_held hclosable hheld]
    exact hunhurt

theorem Unhurt.promote (hunhurt : Unhurt Held merge) : Calm Held merge.promote := by
  unfold Merge.promote
  split
  next entry waiting hpop =>
    refine ⟨hunhurt.of_entries rfl fun other hother => List.mem_append_right _ ?_, nofun⟩
    exact (PriorityQueue.pop?_perm hpop).mem_iff.mpr hother
  next hpop =>
    exact ⟨hunhurt.of_entries rfl fun other hother => List.mem_append_right _ hother,
      fun _ => PriorityQueue.pop?_eq_none hpop⟩

theorem Unhurt.takeInAll (hclosable : Closable Held) (hunhurt : Unhurt Held merge)
    {sources : List σ} (hheld : ∀ source ∈ sources, Held source) :
    Unhurt Held (merge.takeInAll sources).value := by
  induction sources generalizing merge with
  | nil => exact hunhurt
  | cons source rest ih =>
      obtain ⟨hsource, hrest⟩ := List.forall_mem_cons.mp hheld
      exact ih (hunhurt.takeIn hclosable hsource) hrest

theorem ofSources_calm (hclosable : Closable Held) (order : CellOrder) {sources : List σ}
    (hheld : ∀ source ∈ sources, Held source) : Calm Held (ofSources order sources).value :=
  have hempty : Unhurt Held (⟨order, none, .empty, []⟩ : Merge σ) :=
    ⟨rfl, fun _ hentry => nomatch (hentry : _ ∈ [])⟩
  (hempty.takeInAll hclosable hheld).promote

theorem Unhurt.settle (hclosable : Closable Held) (hunhurt : Unhurt Held merge)
    (hheld : Held source) : Calm Held (merge.settle source).value := by
  unfold Merge.settle
  split
  · rw [Noted.value_bind, release_of_held hclosable hheld]
    exact hunhurt.promote
  next top _ =>
    have hcurrent : Calm Held (merge.withCurrent ⟨top, source⟩) :=
      hunhurt.withCurrent hheld
    dsimp only
    split
    · split
      · exact hcurrent
      · exact (hunhurt.enqueue hheld).promote
    · exact hcurrent

omit [Source σ] in
/-- Without its current entry a merge has no other sources than before. -/
theorem Unhurt.withoutCurrent (hunhurt : Unhurt Held merge) :
    Unhurt Held { merge with current := none } :=
  hunhurt.of_entries rfl fun _ hentry => List.mem_append_right _ hentry

theorem Calm.advance (hclosable : Closable Held) (hcalm : Calm Held merge) :
    Calm Held merge.advance.value.2 := by
  unfold Merge.advance
  split
  · exact hcalm
  next entry hcurrent =>
    have hmoved := hclosable.advance _ (hcalm.held entry (mem_entries_of_current hcurrent))
    simp only [Noted.value_bind, Noted.value_use]
    split
    · exact hcalm.withCurrent (show Held (MergeEntry.source { entry with source := _ }) from hmoved)
    · exact hcalm.withoutCurrent.settle hclosable hmoved

theorem Unhurt.of_pop (hunhurt : Unhurt Held merge) {entry : MergeEntry σ}
    {waiting : PriorityQueue (MergeEntry σ)}
    (hpop : merge.waiting.pop? (MergeEntry.le merge.order) = some (entry, waiting)) :
    Held entry.source ∧ Unhurt Held { merge with waiting } := by
  have hmem (other : MergeEntry σ) (hother : other ∈ entry :: waiting.toList) :
      other ∈ merge.entries :=
    List.mem_append_right _ ((PriorityQueue.pop?_perm hpop).mem_iff.mpr hother)
  refine ⟨hunhurt.held entry (hmem entry List.mem_cons_self), ?_⟩
  refine hunhurt.of_entries rfl fun other hother => ?_
  rcases List.mem_append.mp hother with hcurrent | hwaiting
  · exact List.mem_append_left _ hcurrent
  · exact hmem other (List.mem_cons_of_mem _ hwaiting)

theorem Unhurt.skipTo (hclosable : Closable Held) {positioning : Positioning σ}
    (hkeeps : positioning.Keeps Held) (hunhurt : Unhurt Held merge) (key : Cell) (turns : Nat) :
    Calm Held (Merge.skipTo positioning key turns merge).value.2 := by
  induction turns generalizing merge with
  | zero => exact hunhurt.promote
  | succ turns ih =>
      unfold Merge.skipTo
      split
      next hpop => exact ⟨hunhurt, fun _ => PriorityQueue.pop?_eq_none hpop⟩
      next entry waiting hpop =>
        obtain ⟨hentry, hothers⟩ := hunhurt.of_pop hpop
        have hmoved := hkeeps entry.source key hentry
        dsimp only
        split
        · exact (hothers.enqueue hentry).promote
        · rw [Noted.value_bind]
          generalize (positioning entry.source key).value = moved at hmoved ⊢
          obtain ⟨_ | _, source⟩ := moved
          · have hheld : Held (MergeEntry.source { entry with source }) := hmoved
            exact (hothers.enqueue hheld).promote
          · exact ih (hothers.takeIn hclosable hmoved)

theorem Calm.moveForward (hclosable : Closable Held) {positioning : Positioning σ}
    (hkeeps : positioning.Keeps Held) (hcalm : Calm Held merge) (key : Cell) :
    Calm Held (merge.moveForward positioning key).value.2 := by
  unfold Merge.moveForward
  split
  · exact hcalm
  next entry hcurrent =>
    have hheld := hcalm.held entry (mem_entries_of_current hcurrent)
    exact (hcalm.withoutCurrent.enqueue hheld).skipTo hclosable hkeeps key _

theorem Unhurt.seekEach (hclosable : Closable Held) (hunhurt : Unhurt Held merge) (key : Cell)
    {entries : List (MergeEntry σ)} (hentries : ∀ entry ∈ entries, Held entry.source) :
    Unhurt Held (merge.seekEach key entries).value.2 := by
  induction entries generalizing merge with
  | nil => exact hunhurt
  | cons entry rest ih =>
      obtain ⟨hentry, hrest⟩ := List.forall_mem_cons.mp hentries
      have hmoved := hclosable.seek_keeps entry.source key hentry
      have henqueue (entries : List (MergeEntry σ)) {merge : Merge σ} (hunhurt : Unhurt Held merge)
          (hentries : ∀ entry ∈ entries, Held entry.source) :
          Unhurt Held (entries.foldl Merge.enqueue merge) := by
        induction entries generalizing merge with
        | nil => exact hunhurt
        | cons entry rest ih =>
            obtain ⟨hentry, hrest⟩ := List.forall_mem_cons.mp hentries
            exact ih (Unhurt.enqueue hunhurt hentry) hrest
      rw [Merge.seekEach, Noted.value_bind]
      generalize (Positioning.seek entry.source key).value = moved at hmoved ⊢
      obtain ⟨_ | _, source⟩ := moved
      · have hheld : Held (MergeEntry.source { entry with source }) := hmoved
        exact henqueue _ hunhurt (List.forall_mem_cons.mpr ⟨hheld, hrest⟩)
      · exact ih (hunhurt.takeIn hclosable hmoved) hrest

theorem Unhurt.seek (hclosable : Closable Held) (hunhurt : Unhurt Held merge) (key : Cell) :
    Calm Held (merge.seek key).value.2 := by
  have hempty : Unhurt Held { merge with current := none, waiting := .empty } :=
    ⟨hunhurt.failures, fun _ hentry => nomatch (hentry : _ ∈ [])⟩
  have hsought := hempty.seekEach hclosable key hunhurt.held
  rw [Merge.seek, Noted.value_bind]
  generalize (Merge.seekEach _ key merge.entries).value = sought at hsought ⊢
  obtain ⟨_ | _, reached⟩ := sought <;> exact hsought.promote

theorem Unhurt.releaseWaiting (hclosable : Closable Held) (hunhurt : Unhurt Held merge)
    (turns : Nat) :
    (Merge.releaseWaiting turns merge).value.failures = [] := by
  induction turns generalizing merge with
  | zero => exact hunhurt.failures
  | succ turns ih =>
      unfold Merge.releaseWaiting
      split
      · exact hunhurt.failures
      next entry waiting hpop =>
        obtain ⟨hentry, hothers⟩ := hunhurt.of_pop hpop
        rw [Noted.value_bind, release_of_held hclosable hentry]
        exact ih hothers

/-- To close a merge whose sources can be closed reports no failure. -/
theorem Unhurt.close (hclosable : Closable Held) (hunhurt : Unhurt Held merge) :
    merge.close.value.1 = [] := by
  have hcurrent : Unhurt Held merge.releaseCurrent.value := by
    unfold releaseCurrent
    split
    next entry hcurrent =>
      rw [release_of_held hclosable (hunhurt.held entry (mem_entries_of_current hcurrent))]
      exact hunhurt.withoutCurrent
    next => exact hunhurt
  exact hcurrent.releaseWaiting hclosable _

end Merge

end MergeScan
