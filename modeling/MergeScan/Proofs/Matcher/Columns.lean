import MergeScan.Matcher.Progress
import MergeScan.Proofs.Cell.Order

/-! # What the progress through the columns of a row decides

The decision on a value by its column is listed here case by case, with what is
remembered afterwards. The columns of a list that a row has passed are dropped at
once, which the definitions do one after the other.
-/

namespace MergeScan

/-- Whether a decision hands the cell out. -/
def Decision.emits : Decision → Bool
  | .emit | .emitThenNextColumn | .emitThenNextRow => true
  | .skip | .nextColumn | .nextRow | .seekTo _ | .rowDone | .scanDone => false

/-- What a decision about a cell hands out. -/
def Decision.emitted (decision : Decision) (cell : Cell) : Option Cell :=
  if decision.emits then some cell else none

namespace VersionRule

variable {rule : VersionRule} {newer older : Timestamp}

/-- What is older than a version that has expired has expired as well. -/
theorem isExpired_mono (hle : older ≤ newer) (hexpired : rule.isExpired newer = true) :
    rule.isExpired older = true := by
  unfold isExpired at *
  cases hage : rule.oldestUnexpired with
  | none => simp [hage] at hexpired
  | some oldest =>
      simp only [hage, decide_eq_true_eq] at hexpired ⊢
      exact Std.lt_of_le_of_lt hle hexpired

theorem rulesOut_mono (hle : older ≤ newer) (hout : rule.rulesOut newer = true) :
    rule.rulesOut older = true := by
  rw [rulesOut, Bool.and_eq_true] at hout ⊢
  exact ⟨hout.1, isExpired_mono hle hout.2⟩

end VersionRule

namespace ColumnProgress

/-- The columns of a list that a row has not passed at a column, and the versions
counted of the first of them. -/
def upTo (qualifier : Bytes) (seen : VersionCount) (columns : List Bytes) :
    VersionCount × List Bytes :=
  let ahead := columns.dropWhile (· < qualifier)
  (if ahead = columns then seen else .start, ahead)

theorem upTo_cons_of_lt {qualifier column : Bytes} (hlt : column < qualifier)
    (seen : VersionCount) (rest : List Bytes) :
    upTo qualifier .start rest = upTo qualifier seen (column :: rest) := by
  have hdrop : (column :: rest).dropWhile (· < qualifier) = rest.dropWhile (· < qualifier) :=
    List.dropWhile_cons_of_pos (decide_eq_true hlt)
  have hne : rest.dropWhile (· < qualifier) ≠ column :: rest := by
    intro heq
    have hlength := (List.dropWhile_sublist (· < qualifier) (l := rest)).length_le
    rw [heq, List.length_cons] at hlength
    omega
  rw [upTo, upTo, hdrop, if_neg hne]
  split <;> rfl

theorem upTo_cons_of_not_lt {qualifier column : Bytes} (hge : ¬column < qualifier)
    (seen : VersionCount) (rest : List Bytes) :
    upTo qualifier seen (column :: rest) = (seen, column :: rest) := by
  have hdrop : (column :: rest).dropWhile (· < qualifier) = column :: rest :=
    List.dropWhile_cons_of_neg (by simpa using hge)
  rw [upTo, hdrop, if_pos rfl]

/-- Decide on a version of the first column of a list. -/
def checkFirst (rule : VersionRule) (timestamp : Timestamp) (seen : VersionCount)
    (column : Bytes) (rest : List Bytes) : Decision × VersionCount × List Bytes :=
  if seen.repeats timestamp then (.skip, seen, column :: rest)
  else if rule.max ≤ seen.count + 1 || rule.min ≤ seen.count + 1 && rule.isExpired timestamp then
    (if rest.isEmpty then .emitThenNextRow else .emitThenNextColumn, .start, rest)
  else (.emit, ⟨seen.count + 1, some timestamp⟩, column :: rest)

theorem checkListed_eq (rule : VersionRule) (qualifier : Bytes) (timestamp : Timestamp)
    (seen : VersionCount) (columns : List Bytes) :
    checkListed rule qualifier timestamp seen columns =
      match upTo qualifier seen columns with
      | (seen, []) => (.nextRow, seen, [])
      | (seen, column :: rest) =>
        if column = qualifier then checkFirst rule timestamp seen column rest
        else (.nextColumn, { seen with previous := none }, column :: rest) := by
  induction columns generalizing seen with
  | nil => rfl
  | cons column rest ih =>
      rw [checkListed]
      split
      next hcompare =>
        rw [Std.compare_eq_lt] at hcompare
        rw [ih, upTo_cons_of_lt hcompare]
      next hcompare =>
        rw [Std.compare_eq_gt] at hcompare
        rw [upTo_cons_of_not_lt (by grind)]
        simp only [if_neg (by grind : column ≠ qualifier)]
      next hcompare =>
        have heq := Std.LawfulEqCmp.eq_of_compare hcompare
        rw [upTo_cons_of_not_lt (by grind)]
        simp only [heq, if_true, checkFirst]

theorem leave_eq (qualifier : Bytes) (seen : VersionCount) (columns : List Bytes) :
    leave qualifier seen columns =
      match upTo qualifier seen columns with
      | (seen, []) => (seen, [])
      | (seen, column :: rest) =>
        if column = qualifier then (.start, rest) else (seen, column :: rest) := by
  induction columns generalizing seen with
  | nil => rfl
  | cons column rest ih =>
      rw [leave]
      split
      next hcompare =>
        rw [Std.compare_eq_lt] at hcompare
        rw [ih, upTo_cons_of_lt hcompare]
      next hcompare =>
        have heq := Std.LawfulEqCmp.eq_of_compare hcompare
        rw [upTo_cons_of_not_lt (by grind)]
        simp only [heq, if_true]
      next hcompare =>
        rw [Std.compare_eq_gt] at hcompare
        rw [upTo_cons_of_not_lt (by grind)]
        simp only [if_neg (by grind : column ≠ qualifier)]

/-- The grounds to decide on a value of the row, and what is remembered then. -/
inductive Checked (progress : ColumnProgress) (qualifier : Bytes) (timestamp : Timestamp) :
    Decision → ColumnProgress → Prop
  /-- Every column is wanted, and this is another one than before. -/
  | entered (current : Option Bytes) : progress.choice = .every current →
      (∀ column, current = some column → column < qualifier) →
      Checked progress qualifier timestamp (countVersion progress.rule .start timestamp).1
        { progress with
          seen := (countVersion progress.rule .start timestamp).2
          choice := .every (some qualifier) }
  /-- The version is one that was just handed out. -/
  | repeated : progress.choice = .every (some qualifier) →
      progress.seen.repeats timestamp = true →
      Checked progress qualifier timestamp .skip progress
  | counted : progress.choice = .every (some qualifier) →
      progress.seen.repeats timestamp = false →
      Checked progress qualifier timestamp (countVersion progress.rule progress.seen timestamp).1
        { progress with seen := (countVersion progress.rule progress.seen timestamp).2 }
  /-- No column of the list is left. -/
  | finished (wanted ahead : List Bytes) (seen : VersionCount) :
      progress.choice = .listed wanted ahead →
      upTo qualifier progress.seen ahead = (seen, []) →
      Checked progress qualifier timestamp .nextRow
        { progress with seen, choice := .listed wanted [] }
  /-- The next column of the list is a later one. -/
  | unwanted (wanted ahead : List Bytes) (seen : VersionCount) (column : Bytes)
      (rest : List Bytes) : progress.choice = .listed wanted ahead →
      upTo qualifier progress.seen ahead = (seen, column :: rest) → qualifier < column →
      Checked progress qualifier timestamp .nextColumn
        { progress with
          seen := { seen with previous := none }
          choice := .listed wanted (column :: rest) }
  /-- The column is the next one of the list. -/
  | wanted (wanted ahead : List Bytes) (seen : VersionCount) (rest : List Bytes) :
      progress.choice = .listed wanted ahead →
      upTo qualifier progress.seen ahead = (seen, qualifier :: rest) →
      Checked progress qualifier timestamp
        (checkFirst progress.rule timestamp seen qualifier rest).1
        { progress with
          seen := (checkFirst progress.rule timestamp seen qualifier rest).2.1
          choice := .listed wanted (checkFirst progress.rule timestamp seen qualifier rest).2.2 }

theorem head_upTo {qualifier column : Bytes} {seen passed : VersionCount}
    {columns rest : List Bytes} (hupTo : upTo qualifier seen columns = (passed, column :: rest)) :
    ¬column < qualifier := by
  have hdrop : columns.dropWhile (· < qualifier) = column :: rest := congrArg Prod.snd hupTo
  have hnot := List.head?_dropWhile_not (fun other => decide (other < qualifier)) columns
  rw [hdrop] at hnot
  simpa using hnot

theorem check_repeats {progress : ColumnProgress} {qualifier : Bytes} {timestamp : Timestamp}
    (hchoice : progress.choice = .every (some qualifier))
    (hrepeats : progress.seen.repeats timestamp = true) :
    progress.check qualifier timestamp = .ok (.skip, progress) := by
  obtain ⟨rule, seen, choice⟩ := progress
  obtain rfl : choice = .every (some qualifier) := hchoice
  simp only [check, checkEvery, Std.ReflCmp.compare_self, if_pos hrepeats]
  rfl

theorem check_counts {progress : ColumnProgress} {qualifier : Bytes} {timestamp : Timestamp}
    (hchoice : progress.choice = .every (some qualifier))
    (hrepeats : progress.seen.repeats timestamp = false) :
    progress.check qualifier timestamp =
      .ok ((countVersion progress.rule progress.seen timestamp).1,
        { progress with seen := (countVersion progress.rule progress.seen timestamp).2 }) := by
  obtain ⟨rule, seen, choice⟩ := progress
  obtain rfl : choice = .every (some qualifier) := hchoice
  simp only [check, checkEvery, Std.ReflCmp.compare_self, hrepeats, Bool.false_eq_true, if_false]
  rfl

theorem check_listed {progress : ColumnProgress} {wanted ahead : List Bytes}
    (hchoice : progress.choice = .listed wanted ahead) (qualifier : Bytes)
    (timestamp : Timestamp) :
    let outcome := checkListed progress.rule qualifier timestamp progress.seen ahead
    progress.check qualifier timestamp =
      .ok (outcome.1, { progress with
        seen := outcome.2.1, choice := .listed wanted outcome.2.2 }) := by
  obtain ⟨rule, seen, choice⟩ := progress
  obtain rfl : choice = .listed wanted ahead := hchoice
  rfl

/-- A value that does not come before the current column can be decided on. -/
theorem exists_checked {progress : ColumnProgress} {qualifier : Bytes} {timestamp : Timestamp}
    (hcolumn : ∀ column, progress.choice = .every (some column) → column ≤ qualifier) :
    ∃ decision next, progress.check qualifier timestamp = .ok (decision, next) ∧
      Checked progress qualifier timestamp decision next := by
  cases hchoice : progress.choice with
  | every current =>
      by_cases hsame : current = some qualifier
      · subst hsame
        cases hrepeats : progress.seen.repeats timestamp with
        | true => exact ⟨_, _, check_repeats hchoice hrepeats, .repeated hchoice hrepeats⟩
        | false => exact ⟨_, _, check_counts hchoice hrepeats, .counted hchoice hrepeats⟩
      · have hlt : ∀ column, current = some column → column < qualifier := by
          rintro column rfl
          have := hcolumn column hchoice
          grind
        refine ⟨_, _, ?_, .entered current hchoice hlt⟩
        unfold check
        rw [hchoice]
        cases current with
        | none => rfl
        | some column =>
            simp only [checkEvery, Std.compare_eq_lt.mpr (hlt column rfl)]
            rfl
  | listed wanted ahead =>
      have hcheck := check_listed hchoice qualifier timestamp
      rw [checkListed_eq] at hcheck
      cases hupTo : upTo qualifier progress.seen ahead with
      | mk seen columns =>
          rw [hupTo] at hcheck
          cases columns with
          | nil => exact ⟨_, _, hcheck, .finished wanted ahead seen hchoice hupTo⟩
          | cons column rest =>
              by_cases heq : column = qualifier
              · subst heq
                simp only [if_true] at hcheck
                exact ⟨_, _, hcheck, .wanted wanted ahead seen rest hchoice hupTo⟩
              · simp only [if_neg heq] at hcheck
                have hlt : qualifier < column := by
                  have := head_upTo hupTo
                  grind
                exact ⟨_, _, hcheck, .unwanted wanted ahead seen column rest hchoice hupTo hlt⟩

/-- A value that was decided on did not come before the current column. -/
theorem checked_of_check {progress next : ColumnProgress} {qualifier : Bytes}
    {timestamp : Timestamp} {decision : Decision}
    (hcheck : progress.check qualifier timestamp = .ok (decision, next)) :
    Checked progress qualifier timestamp decision next := by
  have hcolumn : ∀ column, progress.choice = .every (some column) → column ≤ qualifier := by
    intro column hchoice
    rcases hcompare : compare column qualifier with _ | _ | _
    · exact Std.le_of_lt (Std.compare_eq_lt.mp hcompare)
    · exact Std.LawfulEqCmp.eq_of_compare hcompare ▸ Std.le_refl _
    · simp only [check, hchoice, checkEvery, hcompare] at hcheck
      cases hcheck
  obtain ⟨decision', next', hcheck', hchecked⟩ := @exists_checked _ _ timestamp hcolumn
  rw [hcheck] at hcheck'
  cases hcheck'
  exact hchecked

theorem countVersion_emit {rule : VersionRule} {seen : VersionCount} {timestamp : Timestamp}
    (hemit : (countVersion rule seen timestamp).1 = .emit) :
    (countVersion rule seen timestamp).2 = ⟨seen.count + 1, some timestamp⟩ := by
  simp only [countVersion] at hemit ⊢
  split at hemit
  · cases hemit
  next hkept => rw [if_neg hkept]

theorem countVersion_decision (rule : VersionRule) (seen : VersionCount) (timestamp : Timestamp) :
    (countVersion rule seen timestamp).1 ∈
      [Decision.emit, .emitThenNextColumn, .nextColumn] := by
  simp only [countVersion]
  split
  · simp
  · simp only
    split <;> simp

theorem checkFirst_decision (rule : VersionRule) (timestamp : Timestamp) (seen : VersionCount)
    (column : Bytes) (rest : List Bytes) :
    (checkFirst rule timestamp seen column rest).1 ∈
      [Decision.emit, .emitThenNextColumn, .emitThenNextRow, .skip] := by
  simp only [checkFirst]
  split
  · simp
  · split
    · simp only
      split <;> simp
    · simp

theorem Checked.decision_mem {progress next : ColumnProgress} {qualifier : Bytes}
    {timestamp : Timestamp} {decision : Decision}
    (hchecked : Checked progress qualifier timestamp decision next) :
    decision ∈ [Decision.emit, .emitThenNextColumn, .emitThenNextRow, .skip, .nextColumn,
      .nextRow] := by
  have hcounted : ∀ seen, (countVersion progress.rule seen timestamp).1 ∈ [Decision.emit,
      .emitThenNextColumn, .emitThenNextRow, .skip, .nextColumn, .nextRow] := by
    intro seen
    have := countVersion_decision progress.rule seen timestamp
    grind
  cases hchecked with
  | entered current hchoice hlt => exact hcounted _
  | repeated hchoice hrepeats => simp
  | counted hchoice hrepeats => exact hcounted _
  | finished wanted ahead seen hchoice hupTo => simp
  | unwanted wanted ahead seen column rest hchoice hupTo hlt => simp
  | wanted wanted ahead seen rest hchoice hupTo =>
      have := checkFirst_decision progress.rule timestamp seen qualifier rest
      grind

theorem checkListed_repeats {rule : VersionRule} {qualifier : Bytes} {timestamp : Timestamp}
    {seen : VersionCount} (hrepeats : seen.repeats timestamp = true) (rest : List Bytes) :
    checkListed rule qualifier timestamp seen (qualifier :: rest) =
      (.skip, seen, qualifier :: rest) := by
  rw [checkListed_eq, upTo_cons_of_not_lt (Std.lt_irrefl)]
  simp only [if_true, checkFirst, hrepeats]

/-- Where the first column of a list is not left, the version is the last that was counted. -/
theorem checkFirst_stays {rule : VersionRule} {timestamp : Timestamp} {seen : VersionCount}
    {column : Bytes} {rest : List Bytes}
    (hstays : (checkFirst rule timestamp seen column rest).1 = .emit ∨
      (checkFirst rule timestamp seen column rest).1 = .skip) :
    (checkFirst rule timestamp seen column rest).2.2 = column :: rest ∧
      (checkFirst rule timestamp seen column rest).2.1.repeats timestamp = true := by
  unfold checkFirst at hstays ⊢
  split
  next hrepeats => exact ⟨rfl, hrepeats⟩
  next hnew =>
    rw [if_neg hnew] at hstays
    split
    next hfull =>
      rw [if_pos hfull] at hstays
      simp only at hstays
      split at hstays <;> simp at hstays
    next => exact ⟨rfl, by simp [VersionCount.repeats]⟩

/-- A version that was handed out or passed over is passed over when it comes again,
and nothing changes. -/
theorem Checked.check_again {progress next : ColumnProgress} {qualifier : Bytes}
    {timestamp : Timestamp} {decision : Decision}
    (hchecked : Checked progress qualifier timestamp decision next)
    (hstays : decision = .emit ∨ decision = .skip) :
    next.check qualifier timestamp = .ok (.skip, next) := by
  have hcounted : ∀ {seen : VersionCount}, (countVersion progress.rule seen timestamp).1 = .emit ∨
      (countVersion progress.rule seen timestamp).1 = .skip →
      (countVersion progress.rule seen timestamp).2.repeats timestamp = true := by
    intro seen hstays
    have hnot : (countVersion progress.rule seen timestamp).1 ≠ .skip := by
      intro hskip
      have := countVersion_decision progress.rule seen timestamp
      rw [hskip] at this
      simp at this
    rw [countVersion_emit (hstays.resolve_right hnot)]
    simp [VersionCount.repeats]
  cases hchecked with
  | entered current hchoice hlt => exact check_repeats rfl (hcounted hstays)
  | repeated hchoice hrepeats => exact check_repeats hchoice hrepeats
  | counted hchoice hrepeats => exact check_repeats hchoice (hcounted hstays)
  | finished => simp at hstays
  | unwanted => simp at hstays
  | wanted wanted ahead seen rest hchoice hupTo =>
      obtain ⟨hsame, hrepeats⟩ := checkFirst_stays hstays
      refine (check_listed rfl qualifier timestamp).trans ?_
      simp only [hsame, checkListed_repeats hrepeats]

/-- As long as its column is not left, the row is not over either. -/
theorem Checked.isFinished_eq {progress next : ColumnProgress} {qualifier : Bytes}
    {timestamp : Timestamp} {decision : Decision}
    (hchecked : Checked progress qualifier timestamp decision next)
    (hstays : decision = .emit ∨ decision = .skip) : next.isFinished = false := by
  cases hchecked with
  | entered current hchoice hlt => rfl
  | repeated hchoice hrepeats => simp only [isFinished, hchoice]
  | counted hchoice hrepeats => simp only [isFinished, hchoice]
  | finished => simp at hstays
  | unwanted => simp at hstays
  | wanted wanted ahead seen rest hchoice hupTo =>
      simp only [isFinished, (checkFirst_stays hstays).1, List.isEmpty_cons]

/-! ## What is kept -/

/-- The columns of a list ascend, and those that are left are the last ones of it. -/
def Ascending (progress : ColumnProgress) : Prop :=
  ∀ wanted ahead, progress.choice = .listed wanted ahead →
    wanted.Pairwise (· < ·) ∧ ahead <:+ wanted

@[simp] theorem reset_reset (progress : ColumnProgress) :
    progress.reset.reset = progress.reset := by
  unfold reset
  cases progress.choice <;> rfl

theorem Ascending.reset {progress : ColumnProgress} (hprogress : progress.Ascending) :
    progress.reset.Ascending := by
  rintro wanted ahead hchoice
  simp only [ColumnProgress.reset] at hchoice
  split at hchoice
  next => cases hchoice
  next columns left hlisted =>
    cases hchoice
    exact ⟨(hprogress _ _ hlisted).1, List.suffix_refl _⟩

theorem upTo_suffix {qualifier : Bytes} {seen passed : VersionCount} {columns ahead : List Bytes}
    (hupTo : upTo qualifier seen columns = (passed, ahead)) : ahead <:+ columns := by
  have hdrop : columns.dropWhile (· < qualifier) = ahead := congrArg Prod.snd hupTo
  rw [← hdrop]
  exact List.dropWhile_suffix _

theorem checkFirst_suffix (rule : VersionRule) (timestamp : Timestamp) (seen : VersionCount)
    (column : Bytes) (rest : List Bytes) :
    (checkFirst rule timestamp seen column rest).2.2 <:+ column :: rest := by
  unfold checkFirst
  split
  · exact List.suffix_refl _
  · split
    · exact List.suffix_cons column rest
    · exact List.suffix_refl _

variable {progress next : ColumnProgress} {qualifier : Bytes} {timestamp : Timestamp}
variable {decision : Decision}

/-- Only what belongs to the current row changes. -/
theorem Checked.reset_eq (hchecked : Checked progress qualifier timestamp decision next) :
    next.reset = progress.reset := by
  cases hchecked with
  | entered current hchoice hlt => simp only [reset, hchoice]
  | repeated hchoice hrepeats => rfl
  | counted hchoice hrepeats => rfl
  | finished wanted ahead seen hchoice hupTo => simp only [reset, hchoice]
  | unwanted wanted ahead seen column rest hchoice hupTo hlt => simp only [reset, hchoice]
  | wanted wanted ahead seen rest hchoice hupTo => simp only [reset, hchoice]

theorem Checked.ascending (hchecked : Checked progress qualifier timestamp decision next)
    (hprogress : progress.Ascending) : next.Ascending := by
  cases hchecked with
  | entered current hchoice hlt => exact nofun
  | repeated hchoice hrepeats => exact hprogress
  | counted hchoice hrepeats => exact hprogress
  | finished wanted ahead seen hchoice hupTo =>
      rintro _ _ ⟨⟩
      exact ⟨(hprogress _ _ hchoice).1, List.nil_suffix⟩
  | unwanted wanted ahead seen column rest hchoice hupTo hlt =>
      rintro _ _ ⟨⟩
      obtain ⟨hascending, hsuffix⟩ := hprogress _ _ hchoice
      exact ⟨hascending, (upTo_suffix hupTo).trans hsuffix⟩
  | wanted wanted ahead seen rest hchoice hupTo =>
      rintro _ _ ⟨⟩
      obtain ⟨hascending, hsuffix⟩ := hprogress _ _ hchoice
      exact ⟨hascending, (checkFirst_suffix _ _ _ _ _).trans ((upTo_suffix hupTo).trans hsuffix)⟩

/-- Of a list, only columns that are on it are handed out. -/
theorem Checked.mem_wanted (hchecked : Checked progress qualifier timestamp decision next)
    (hprogress : progress.Ascending) (hemits : decision.emits = true) {wanted ahead : List Bytes}
    (hchoice : progress.choice = .listed wanted ahead) : qualifier ∈ wanted := by
  cases hchecked with
  | entered current hevery hlt => rw [hevery] at hchoice; cases hchoice
  | repeated hevery hrepeats => cases hemits
  | counted hevery hrepeats => rw [hevery] at hchoice; cases hchoice
  | finished => cases hemits
  | unwanted => cases hemits
  | wanted columns left seen rest hlisted hupTo =>
      rw [hlisted] at hchoice
      cases hchoice
      exact (hprogress _ _ hlisted).2.subset ((upTo_suffix hupTo).subset List.mem_cons_self)

/-- The column that is remembered is the one of the value. -/
theorem Checked.column_le (hchecked : Checked progress qualifier timestamp decision next)
    {column : Bytes} (hcolumn : next.choice = .every (some column)) : column = qualifier := by
  cases hchecked with
  | entered current hchoice hlt => exact (Option.some.inj (ColumnChoice.every.inj hcolumn)).symm
  | repeated hchoice hrepeats =>
      rw [hchoice] at hcolumn
      exact (Option.some.inj (ColumnChoice.every.inj hcolumn)).symm
  | counted hchoice hrepeats =>
      have hcolumn : progress.choice = .every (some column) := hcolumn
      rw [hchoice] at hcolumn
      exact (Option.some.inj (ColumnChoice.every.inj hcolumn)).symm
  | finished => cases hcolumn
  | unwanted => cases hcolumn
  | wanted => cases hcolumn

/-- If the column of a value is left, the next one of the list is a later one. -/
theorem Checked.lt_next (hchecked : Checked progress qualifier timestamp decision next)
    (hprogress : progress.Ascending)
    (hleaves : decision = .nextColumn ∨ decision = .emitThenNextColumn) {column : Bytes}
    (hnext : next.next? = some column) : qualifier < column := by
  cases hchecked with
  | entered current hchoice hlt => cases hnext
  | repeated hchoice hrepeats => rw [next?, hchoice] at hnext; cases hnext
  | counted hchoice hrepeats => simp only [next?, hchoice] at hnext; cases hnext
  | finished => cases hnext
  | unwanted wanted ahead seen first rest hchoice hupTo hlt =>
      obtain rfl := Option.some.inj hnext
      exact hlt
  | wanted wanted ahead seen rest hchoice hupTo =>
      obtain ⟨hascending, hsuffix⟩ := hprogress _ _ hchoice
      have hrest := hascending.sublist ((upTo_suffix hupTo).trans hsuffix).sublist
      have hlater := (List.pairwise_cons.mp hrest).1
      simp only [next?, checkFirst] at hnext hleaves
      split at hnext
      next hrepeats =>
        rw [if_pos hrepeats] at hleaves
        simp at hleaves
      next hnew =>
        rw [if_neg hnew] at hleaves
        split at hnext
        next => exact hlater column (List.mem_of_head? hnext)
        next hcount =>
          rw [if_neg hcount] at hleaves
          simp at hleaves

/-! ## Giving a column up -/

theorem giveUp_every {current : Option Bytes} (hchoice : progress.choice = .every current)
    (qualifier : Bytes) : progress.giveUp qualifier = (.nextColumn, progress) := by
  rw [giveUp, hchoice]

theorem giveUp_listed {wanted ahead : List Bytes} (hchoice : progress.choice = .listed wanted ahead)
    (qualifier : Bytes) :
    progress.giveUp qualifier =
      (if (leave qualifier progress.seen ahead).2.isEmpty then .nextRow else .nextColumn,
        { progress with
          seen := (leave qualifier progress.seen ahead).1
          choice := .listed wanted (leave qualifier progress.seen ahead).2 }) := by
  rw [giveUp, hchoice]

theorem leave_suffix (qualifier : Bytes) (seen : VersionCount) (columns : List Bytes) :
    (leave qualifier seen columns).2 <:+ columns := by
  rw [leave_eq]
  cases hupTo : upTo qualifier seen columns with
  | mk passed ahead =>
      have hsuffix := upTo_suffix hupTo
      cases ahead with
      | nil => exact hsuffix
      | cons column rest =>
          simp only
          split
          · exact (List.suffix_cons column rest).trans hsuffix
          · exact hsuffix

/-- Of an ascending list, only later columns are left. -/
theorem lt_of_mem_leave {columns : List Bytes} (hcolumns : columns.Pairwise (· < ·))
    (seen : VersionCount) {column : Bytes}
    (hcolumn : column ∈ (leave qualifier seen columns).2) : qualifier < column := by
  rw [leave_eq] at hcolumn
  cases hupTo : upTo qualifier seen columns with
  | mk passed ahead =>
      rw [hupTo] at hcolumn
      cases ahead with
      | nil => cases hcolumn
      | cons first rest =>
          have hfirst := head_upTo hupTo
          have hrest := List.pairwise_cons.mp (hcolumns.sublist (upTo_suffix hupTo).sublist)
          simp only at hcolumn
          split at hcolumn
          next heq => exact heq ▸ hrest.1 column hcolumn
          next hne =>
            rcases List.mem_cons.mp hcolumn with rfl | hmem
            · grind
            · have := hrest.1 column hmem
              grind

theorem giveUp_reset (progress : ColumnProgress) (qualifier : Bytes) :
    (progress.giveUp qualifier).2.reset = progress.reset := by
  cases hchoice : progress.choice with
  | every current => rw [giveUp_every hchoice]
  | listed wanted ahead =>
      rw [giveUp_listed hchoice]
      simp only [reset, hchoice]

theorem giveUp_decision (progress : ColumnProgress) (qualifier : Bytes) :
    (progress.giveUp qualifier).1 = .nextColumn ∨ (progress.giveUp qualifier).1 = .nextRow := by
  cases hchoice : progress.choice with
  | every current => exact .inl (congrArg Prod.fst (giveUp_every hchoice qualifier))
  | listed wanted ahead =>
      rw [giveUp_listed hchoice]
      simp only
      split
      · exact .inr rfl
      · exact .inl rfl

/-- If the row is left with a column that is given up, no column of the list is left. -/
theorem isFinished_giveUp (hrow : (progress.giveUp qualifier).1 = .nextRow) :
    (progress.giveUp qualifier).2.isFinished = true := by
  cases hchoice : progress.choice with
  | every current =>
      rw [giveUp_every hchoice] at hrow
      cases hrow
  | listed wanted ahead =>
      rw [giveUp_listed hchoice] at hrow ⊢
      simp only at hrow
      split at hrow
      next hempty => exact hempty
      next => cases hrow

/-- If the row is left with a version, no column of the list is left. -/
theorem Checked.isFinished_of_row (hchecked : Checked progress qualifier timestamp decision next)
    (hrow : decision = .nextRow ∨ decision = .emitThenNextRow) : next.isFinished = true := by
  have hcounted (seen : VersionCount) :
      ¬((countVersion progress.rule seen timestamp).1 = .nextRow ∨
        (countVersion progress.rule seen timestamp).1 = .emitThenNextRow) := by
    have hmem := countVersion_decision progress.rule seen timestamp
    rintro (heq | heq) <;> simp [heq] at hmem
  cases hchecked with
  | entered current hchoice hlater => exact absurd hrow (hcounted _)
  | repeated hchoice hrepeats => simp at hrow
  | counted hchoice hrepeats => exact absurd hrow (hcounted _)
  | finished wanted ahead seen hchoice hupTo => rfl
  | unwanted wanted ahead seen column rest hchoice hupTo hlater => simp at hrow
  | wanted wanted ahead seen rest hchoice hupTo =>
      unfold checkFirst at hrow ⊢
      split at hrow
      · simp at hrow
      next hnew =>
        split at hrow
        next hleaves =>
          rw [if_neg hnew, if_pos hleaves]
          simp only at hrow
          split at hrow
          next hempty => exact hempty
          next => simp at hrow
        next => simp at hrow

theorem Ascending.giveUp (hprogress : progress.Ascending) (qualifier : Bytes) :
    (progress.giveUp qualifier).2.Ascending := by
  cases hchoice : progress.choice with
  | every current => rwa [giveUp_every hchoice]
  | listed wanted ahead =>
      rw [giveUp_listed hchoice]
      rintro _ _ ⟨⟩
      obtain ⟨hascending, hsuffix⟩ := hprogress _ _ hchoice
      exact ⟨hascending, (leave_suffix _ _ _).trans hsuffix⟩

theorem giveUp_column {column : Bytes}
    (hcolumn : (progress.giveUp qualifier).2.choice = .every (some column)) :
    progress.choice = .every (some column) := by
  cases hchoice : progress.choice with
  | every current =>
      rw [giveUp_every hchoice, hchoice] at hcolumn
      exact hcolumn
  | listed wanted ahead =>
      rw [giveUp_listed hchoice] at hcolumn
      cases hcolumn

theorem Ascending.lt_next_giveUp (hprogress : progress.Ascending) {column : Bytes}
    (hnext : (progress.giveUp qualifier).2.next? = some column) : qualifier < column := by
  cases hchoice : progress.choice with
  | every current =>
      rw [giveUp_every hchoice, next?, hchoice] at hnext
      cases hnext
  | listed wanted ahead =>
      obtain ⟨hascending, hsuffix⟩ := hprogress _ _ hchoice
      rw [giveUp_listed hchoice] at hnext
      exact lt_of_mem_leave (hascending.sublist hsuffix.sublist) progress.seen
        (List.mem_of_head? hnext)

end ColumnProgress

end MergeScan
