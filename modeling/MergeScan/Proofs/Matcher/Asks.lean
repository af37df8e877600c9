import MergeScan.Matcher.Basic

/-! # What a matcher asks

A matcher asks its filter and does nothing else that is noted. It fails on columns that are
not in order and on nothing else.
-/

namespace MergeScan

/-- Whether all that is noted is questions to a filter. -/
def Noted.Asks {α : Type} (noted : Noted α) : Prop :=
  ∀ note ∈ noted.notes, ∃ call, note = .consulted call

namespace Noted

variable {α β : Type}

@[simp] theorem asks_pure (value : α) : (pure value : Noted α).Asks := nofun

@[simp] theorem asks_note (call : FilterCall) : (note (.consulted call)).Asks := by
  intro entry hentry
  exact ⟨call, List.mem_singleton.mp hentry⟩

@[simp] theorem asks_bind (first : Noted α) (next : α → Noted β) :
    (first >>= next).Asks ↔ first.Asks ∧ (next first.value).Asks :=
  List.forall_mem_append

end Noted

namespace Matcher

variable {φ : Type} [CellFilter φ]

@[simp] theorem enterRow_asks (matcher : Matcher φ) (row : Bytes) :
    (matcher.enterRow row).Asks := by
  unfold enterRow
  split
  · exact Noted.asks_pure _
  · rw [Noted.asks_bind]
    refine ⟨fun entry hentry => ?_, Noted.asks_pure _⟩
    rcases List.mem_cons.mp hentry with rfl | hlast
    · exact ⟨.reset, rfl⟩
    · exact ⟨.judgeRow, List.mem_singleton.mp hlast⟩

theorem applyVerdict_asks (matcher : Matcher φ) (filter : φ) (cell : Cell) (verdict : Verdict) :
    (matcher.applyVerdict filter cell verdict).Asks := by
  cases verdict with
  | seekHint =>
      rw [applyVerdict, Noted.asks_bind]
      refine ⟨Noted.asks_note _, ?_⟩
      split <;> exact Noted.asks_pure _
  | _ => exact Noted.asks_pure _

theorem decideValue_asks (matcher : Matcher φ) (cell : Cell) :
    (matcher.decideValue cell).Asks := by
  unfold decideValue
  split
  · exact Noted.asks_pure _
  · rw [Noted.asks_bind]
    exact ⟨Noted.asks_note _, applyVerdict_asks _ _ _ _⟩

@[simp] theorem decide_asks (matcher : Matcher φ) (cell : Cell) : (matcher.decide cell).Asks := by
  unfold decide
  split
  · exact Noted.asks_pure _
  · unfold decideCell
    split
    · exact Noted.asks_pure _
    · split
      · exact Noted.asks_pure _
      · split
        · exact Noted.asks_pure _
        · exact Noted.asks_pure _
        · split
          · exact Noted.asks_pure _
          · exact Noted.asks_pure _
          · exact decideValue_asks _ _

@[simp] theorem reshape_asks (matcher : Matcher φ) (cell : Cell) :
    (matcher.reshape cell).Asks := by
  unfold reshape
  split
  · exact Noted.asks_pure _
  · rw [Noted.asks_bind]
    exact ⟨Noted.asks_note _, Noted.asks_pure _⟩

@[simp] theorem completeRow_asks (matcher : Matcher φ) (cells : List Cell) :
    (matcher.completeRow cells).Asks := by
  unfold completeRow
  split
  · split
    · rw [Noted.asks_bind]
      exact ⟨Noted.asks_note _, Noted.asks_pure _⟩
    · exact Noted.asks_pure _
  · exact Noted.asks_pure _

end Matcher

/-! ## Failures -/

/-- Whether a result is no failure but one about the order of columns. -/
def ScanError.OnColumns {α : Type} (result : Except ScanError α) : Prop :=
  ∀ failure, result = .error failure → ∃ previous next, failure = .columnOrder previous next

open ScanError

namespace ColumnProgress

theorem checkEvery_onColumns (rule : VersionRule) (seen : VersionCount) (current : Option Bytes)
    (qualifier : Bytes) (timestamp : Timestamp) :
    OnColumns (checkEvery rule seen current qualifier timestamp) := by
  intro failure hfailure
  unfold checkEvery at hfailure
  cases current with
  | none => cases hfailure
  | some column =>
      dsimp only at hfailure
      split at hfailure
      · cases hfailure
      · cases hfailure
        exact ⟨_, _, rfl⟩
      · split at hfailure <;> cases hfailure

theorem check_onColumns (progress : ColumnProgress) (qualifier : Bytes) (timestamp : Timestamp) :
    OnColumns (progress.check qualifier timestamp) := by
  intro failure hfailure
  unfold check at hfailure
  split at hfailure
  next current _ =>
    cases hevery : checkEvery progress.rule progress.seen current qualifier timestamp with
    | ok checked =>
        rw [hevery] at hfailure
        cases hfailure
    | error met =>
        rw [hevery] at hfailure
        cases hfailure
        exact checkEvery_onColumns _ _ _ _ _ failure hevery
  next => cases hfailure

end ColumnProgress

theorem RowMarkers.masks_onColumns (markers : RowMarkers) (qualifier : Bytes)
    (timestamp : Timestamp) : OnColumns (markers.masks qualifier timestamp) := by
  intro failure hfailure
  unfold masks at hfailure
  split at hfailure
  · cases hfailure
  · split at hfailure
    · cases hfailure
    · split at hfailure
      · cases hfailure
        exact ⟨_, _, rfl⟩
      · cases hfailure
      · split at hfailure <;> cases hfailure

namespace Matcher

variable {φ : Type}

theorem isMasked_onColumns (matcher : Matcher φ) (cell : Cell) :
    OnColumns (matcher.isMasked cell) := by
  intro failure hfailure
  unfold isMasked at hfailure
  split at hfailure
  · cases hfailure
  · cases hmasks : matcher.markers.masks cell.qualifier cell.timestamp with
    | ok masked =>
        rw [hmasks] at hfailure
        cases hfailure
    | error met =>
        rw [hmasks] at hfailure
        cases hfailure
        exact RowMarkers.masks_onColumns _ _ _ failure hmasks

theorem decideVersion_onColumns (matcher : Matcher φ) (cell : Cell) :
    OnColumns (matcher.decideVersion cell).1 := by
  have hcheck := matcher.columns.check_onColumns cell.qualifier cell.timestamp
  intro failure hfailure
  unfold decideVersion at hfailure
  cases hchecked : matcher.columns.check cell.qualifier cell.timestamp with
  | ok checked =>
      rw [hchecked] at hfailure
      cases hfailure
  | error met =>
      rw [hchecked] at hfailure
      cases hfailure
      exact hcheck failure hchecked

variable [CellFilter φ]

theorem decideValue_onColumns (matcher : Matcher φ) (cell : Cell) :
    OnColumns (matcher.decideValue cell).value.1 := by
  unfold decideValue
  split
  · exact decideVersion_onColumns _ _
  · rw [Noted.value_bind]
    dsimp only
    unfold applyVerdict
    split
    · exact decideVersion_onColumns _ _
    · nofun
    · nofun
    · nofun
    · rw [Noted.value_bind]
      split <;> nofun

/-- A matcher fails only where a column comes after a larger one. -/
theorem decide_onColumns (matcher : Matcher φ) (cell : Cell) :
    OnColumns (matcher.decide cell).value.1 := by
  have hmasked := matcher.isMasked_onColumns cell
  unfold decide
  split
  · nofun
  · unfold decideCell
    split
    · nofun
    · split
      · nofun
      · split
        next failure hfailure =>
          rintro _ ⟨⟩
          exact hmasked failure hfailure
        next => nofun
        next =>
          split
          · nofun
          · nofun
          · exact decideValue_onColumns _ cell

end Matcher

end MergeScan
