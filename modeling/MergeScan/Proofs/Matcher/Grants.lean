import MergeScan.Proofs.Matcher.Counts

/-! # Which versions are still granted

For a version of a column that a row has not passed, what a matcher remembers of the
columns tells how many versions of the column were handed out. So whether the version
will be handed out can be told from that and from the number of newer ones that are
still ahead.
-/

namespace MergeScan

namespace ColumnProgress

variable {progress next : ColumnProgress} {qualifier column : Bytes} {timestamp : Timestamp}
variable {decision : Decision}

/-- Whether the columns of a list are wanted. -/
def isListed (progress : ColumnProgress) : Bool :=
  match progress.choice with
  | .every _ => false
  | .listed _ _ => true

/-- Whether a version will be handed out that `newer` versions of its column come before. Of a
column of a list, a version that has expired is handed out all the same, if the column is not
left before it. -/
def grants (progress : ColumnProgress) (qualifier : Bytes) (timestamp : Timestamp)
    (newer : Nat) : Bool :=
  progress.taken qualifier + newer < progress.rule.max &&
    (progress.isListed || progress.taken qualifier + newer < progress.rule.min ||
      !progress.rule.isExpired timestamp)

/-- Whether a column is read on after a version that `newer` versions of it come before. -/
def holds (progress : ColumnProgress) (qualifier : Bytes) (timestamp : Timestamp)
    (newer : Nat) : Bool :=
  progress.taken qualifier + newer + 1 < progress.rule.max &&
    (progress.taken qualifier + newer + progress.isListed.toNat < progress.rule.min ||
      !progress.rule.isExpired timestamp)

@[simp] theorem isListed_reset (progress : ColumnProgress) :
    progress.reset.isListed = progress.isListed := by
  unfold isListed reset
  cases progress.choice <;> rfl

/-- The column that the versions counted are of. -/
def current? (progress : ColumnProgress) : Option Bytes :=
  match progress.choice with
  | .every current => current
  | .listed _ ahead => ahead.head?

theorem grants_of_full (hfull : progress.taken qualifier = progress.rule.max) (newer : Nat) :
    progress.grants qualifier timestamp newer = false := by
  have hnot : ¬progress.rule.max + newer < progress.rule.max := by omega
  simp only [grants, hfull, hnot, decide_false, Bool.false_and]

theorem holds_of_full (hfull : progress.taken qualifier = progress.rule.max) (newer : Nat) :
    progress.holds qualifier timestamp newer = false := by
  have hnot : ¬progress.rule.max + newer + 1 < progress.rule.max := by omega
  simp only [holds, hfull, hnot, decide_false, Bool.false_and]

/-! ## Columns that are passed -/

theorem takenListed_start (rule : VersionRule) (qualifier : Bytes) (columns : List Bytes) :
    takenListed rule .start qualifier columns = if qualifier ∈ columns then 0 else rule.max := by
  cases columns with
  | nil => simp [takenListed]
  | cons first rest =>
      rw [takenListed]
      by_cases hfirst : qualifier = first
      · simp [hfirst, VersionCount.start]
      · simp [hfirst]

/-- To pass columns takes nothing from the ones that come after them. -/
theorem takenListed_upTo {seen passed : VersionCount} {columns ahead : List Bytes}
    (hle : column ≤ qualifier) (hupTo : upTo column seen columns = (passed, ahead))
    (rule : VersionRule) :
    takenListed rule passed qualifier ahead = takenListed rule seen qualifier columns := by
  induction columns generalizing seen with
  | nil =>
      cases hupTo
      rfl
  | cons first rest ih =>
      by_cases hlt : first < column
      · rw [← upTo_cons_of_lt hlt] at hupTo
        have hne : qualifier ≠ first := by grind
        rw [ih hupTo, takenListed_start, takenListed, if_neg hne]
      · rw [upTo_cons_of_not_lt hlt] at hupTo
        cases hupTo
        rfl

/-- What is left of an ascending list holds the same of the columns behind the first. -/
theorem takenListed_tail {first : Bytes} {rest : List Bytes} (hne : qualifier ≠ first)
    (rule : VersionRule) (seen : VersionCount) :
    takenListed rule .start qualifier rest = takenListed rule seen qualifier (first :: rest) := by
  rw [takenListed_start, takenListed, if_neg hne]

theorem taken_giveUp (hlt : column < qualifier) :
    (progress.giveUp column).2.taken qualifier = progress.taken qualifier := by
  cases hchoice : progress.choice with
  | every current => rw [giveUp_every hchoice]
  | listed wanted ahead =>
      rw [giveUp_listed hchoice, leave_eq]
      simp only [taken, hchoice]
      cases hupTo : upTo column progress.seen ahead with
      | mk passed left =>
          rw [← takenListed_upTo (Std.le_of_lt hlt) hupTo]
          cases left with
          | nil => rfl
          | cons first rest =>
              simp only
              split
              next heq =>
                subst heq
                exact takenListed_tail (by grind) _ _
              next => rfl

theorem taken_every_of_lt (hchoice : progress.choice = .every (some column))
    (hlt : column < qualifier) : progress.taken qualifier = 0 := by
  simp only [taken, hchoice, Std.compare_eq_lt.mpr hlt]

/-- A decision on a version takes nothing from later columns. -/
theorem Checked.taken_of_lt (hchecked : Checked progress column timestamp decision next)
    (hlt : column < qualifier) : next.taken qualifier = progress.taken qualifier := by
  have hne : qualifier ≠ column := by grind
  cases hchecked with
  | entered current hchoice hlater =>
      rw [taken_every_of_lt rfl hlt]
      cases current with
      | none => simp only [taken, hchoice]
      | some current =>
          rw [taken_every_of_lt hchoice (Std.lt_trans (hlater current rfl) hlt)]
  | repeated hchoice hrepeats => rfl
  | counted hchoice hrepeats =>
      rw [taken_every_of_lt hchoice hlt]
      exact taken_every_of_lt hchoice hlt
  | finished wanted ahead seen hchoice hupTo =>
      simp only [taken, hchoice]
      exact takenListed_upTo (Std.le_of_lt hlt) hupTo _
  | unwanted wanted ahead seen first rest hchoice hupTo hlater =>
      simp only [taken, hchoice]
      exact takenListed_upTo (Std.le_of_lt hlt) hupTo _
  | wanted wanted ahead seen rest hchoice hupTo =>
      simp only [taken, hchoice]
      rw [← takenListed_upTo (Std.le_of_lt hlt) hupTo]
      unfold checkFirst
      split
      · rfl
      · split
        · exact takenListed_tail hne _ _
        · simp only [takenListed, if_neg hne]

theorem takenListed_of_lt {first : Bytes} {rest : List Bytes}
    (hascending : (first :: rest).Pairwise (· < ·)) (hlt : qualifier < first) (rule : VersionRule)
    (seen : VersionCount) : takenListed rule seen qualifier (first :: rest) = rule.max := by
  apply takenListed_of_not_mem
  intro hmem
  rcases List.mem_cons.mp hmem with rfl | hmem
  · exact Std.lt_irrefl hlt
  · exact Std.lt_irrefl (Std.lt_trans hlt ((List.pairwise_cons.mp hascending).1 qualifier hmem))

/-- Of a list, columns before the next one are over. -/
theorem taken_of_lt_next (hascending : progress.Ascending) (hnext : progress.next? = some column)
    (hlt : qualifier < column) : progress.taken qualifier = progress.rule.max := by
  unfold next? at hnext
  split at hnext
  · cases hnext
  next wanted ahead hchoice =>
    have hahead := (hascending _ _ hchoice).1.sublist (hascending _ _ hchoice).2.sublist
    simp only [taken, hchoice]
    cases ahead with
    | nil => cases hnext
    | cons first rest =>
        cases hnext
        exact takenListed_of_lt hahead hlt _ _

/-- Once a list is finished, every column is over. -/
theorem taken_of_isFinished (hfinished : progress.isFinished = true) (qualifier : Bytes) :
    progress.taken qualifier = progress.rule.max := by
  unfold isFinished at hfinished
  split at hfinished
  · cases hfinished
  next wanted ahead hchoice =>
    rw [List.isEmpty_iff.mp hfinished] at hchoice
    simp only [taken, hchoice, takenListed]

/-! ## Versions of the column that is being read -/

/-- What a version ahead must be like so that it was not handed out before. -/
def Fresh (progress : ColumnProgress) (qualifier : Bytes) (timestamp : Timestamp) : Prop :=
  progress.current? = some qualifier → ∀ previous, progress.seen.previous = some previous →
    timestamp < previous

/-- Where a version is the one just handed out, it is not fresh. -/
theorem Fresh.repeats_eq (hfresh : progress.Fresh qualifier timestamp)
    (hcurrent : progress.current? = some qualifier) : progress.seen.repeats timestamp = false := by
  cases hrepeats : progress.seen.repeats timestamp with
  | false => rfl
  | true => exact absurd (hfresh hcurrent timestamp (of_decide_eq_true hrepeats)) Std.lt_irrefl

/-- Where columns of a list are passed, nothing is known of the versions of the next one. -/
theorem upTo_cases {seen passed : VersionCount} {columns ahead : List Bytes}
    (hupTo : upTo column seen columns = (passed, ahead)) :
    passed = seen ∧ ahead = columns ∨ passed = .start := by
  have hdrop : columns.dropWhile (· < column) = ahead := congrArg Prod.snd hupTo
  have hpassed : (if columns.dropWhile (· < column) = columns then seen else .start) = passed :=
    congrArg Prod.fst hupTo
  rw [← hpassed, hdrop]
  split
  next hsame => exact .inl ⟨rfl, hsame⟩
  next => exact .inr rfl

theorem Fresh.upTo {wanted ahead rest : List Bytes} {passed : VersionCount}
    (hfresh : progress.Fresh qualifier timestamp) (hchoice : progress.choice = .listed wanted ahead)
    (hupTo : upTo column progress.seen ahead = (passed, qualifier :: rest)) {previous : Timestamp}
    (hprevious : passed.previous = some previous) : timestamp < previous := by
  rcases upTo_cases hupTo with ⟨rfl, hahead⟩ | rfl
  · refine hfresh ?_ previous hprevious
    rw [current?, hchoice, ← hahead]
    rfl
  · cases hprevious

/-- The versions counted of the next column of a list. -/
theorem taken_upTo {wanted ahead rest : List Bytes} {passed : VersionCount}
    (hchoice : progress.choice = .listed wanted ahead)
    (hupTo : upTo qualifier progress.seen ahead = (passed, qualifier :: rest)) :
    progress.taken qualifier = min passed.count progress.rule.max := by
  simp only [taken, hchoice]
  rw [← takenListed_upTo (Std.le_refl qualifier) hupTo, takenListed, if_pos rfl]

theorem taken_every (hchoice : progress.choice = .every (some qualifier)) :
    progress.taken qualifier = min progress.seen.count progress.rule.max := by
  simp only [taken, hchoice, Std.ReflCmp.compare_self]

theorem taken_entered {current : Option Bytes} (hchoice : progress.choice = .every current)
    (hlater : ∀ column, current = some column → column < qualifier) :
    progress.taken qualifier = 0 := by
  cases current with
  | none => simp only [taken, hchoice]
  | some current => exact taken_every_of_lt hchoice (hlater current rfl)

/-- A new version of a column is counted, and handed out if it is granted. -/
theorem countVersion_emits {seen : VersionCount} (hevery : progress.isListed = false)
    (htaken : progress.taken qualifier = min seen.count progress.rule.max) :
    (countVersion progress.rule seen timestamp).1.emits =
      progress.grants qualifier timestamp 0 := by
  unfold countVersion grants
  simp only [hevery, htaken, Nat.add_zero, Bool.false_or]
  by_cases hfull : progress.rule.max ≤ seen.count
  · have hnot : ¬min seen.count progress.rule.max < progress.rule.max := by omega
    simp [hnot, Decision.emits, Nat.lt_succ_of_le hfull]
  · have hmin : min seen.count progress.rule.max = seen.count := by omega
    have hlt : seen.count < progress.rule.max := by omega
    have hnot : ¬progress.rule.max < seen.count + 1 := by omega
    simp only [hmin, hlt, hnot, decide_true, decide_false, Bool.true_and, Bool.false_or]
    by_cases hkept : seen.count < progress.rule.min
    · have hnot : ¬progress.rule.min < seen.count + 1 := by omega
      simp only [hkept, hnot, decide_true, decide_false, Bool.false_and, Bool.true_or,
        Bool.false_eq_true, if_false]
      split <;> rfl
    · have hpast : progress.rule.min < seen.count + 1 := by omega
      simp only [hkept, hpast, decide_true, decide_false, Bool.true_and, Bool.false_or]
      cases progress.rule.isExpired timestamp with
      | true => rfl
      | false =>
          simp only [Bool.false_eq_true, if_false]
          split <;> rfl

/-- Its column is read on if it holds. -/
theorem countVersion_emit_iff {seen : VersionCount} (hevery : progress.isListed = false)
    (htaken : progress.taken qualifier = min seen.count progress.rule.max) :
    (countVersion progress.rule seen timestamp).1 = .emit ↔
      progress.holds qualifier timestamp 0 = true := by
  unfold countVersion holds
  simp only [hevery, htaken, Nat.add_zero, Bool.toNat_false]
  cases hexpired : progress.rule.isExpired timestamp <;>
    simp only [Bool.and_true, Bool.and_false, Bool.or_false, Bool.or_true, Bool.not_true,
      Bool.not_false, Bool.or_eq_true, Bool.and_eq_true, decide_eq_true_eq] <;>
    split <;> (try split) <;> simp <;> omega

theorem Fresh.checkFirst_cases {wanted ahead rest : List Bytes} {passed : VersionCount}
    (hfresh : progress.Fresh qualifier timestamp) (hchoice : progress.choice = .listed wanted ahead)
    (hupTo : ColumnProgress.upTo qualifier progress.seen ahead = (passed, qualifier :: rest)) :
    checkFirst progress.rule timestamp passed qualifier rest =
      if progress.rule.max ≤ passed.count + 1 ||
          progress.rule.min ≤ passed.count + 1 && progress.rule.isExpired timestamp then
        (if rest.isEmpty then .emitThenNextRow else .emitThenNextColumn, .start, rest)
      else (.emit, ⟨passed.count + 1, some timestamp⟩, qualifier :: rest) := by
  have hnew : ¬passed.repeats timestamp = true := by
    intro hrepeats
    exact Std.lt_irrefl (hfresh.upTo hchoice hupTo (of_decide_eq_true hrepeats))
  rw [checkFirst, if_neg hnew]

/-- A version that was not handed out before is not passed over. -/
theorem Checked.ne_skip (hchecked : Checked progress qualifier timestamp decision next)
    (hfresh : progress.Fresh qualifier timestamp) : decision ≠ .skip := by
  have hcounted : ∀ seen, (countVersion progress.rule seen timestamp).1 ≠ .skip := by
    intro seen hskip
    have := countVersion_decision progress.rule seen timestamp
    rw [hskip] at this
    simp at this
  cases hchecked with
  | entered current hchoice hlater => exact hcounted _
  | repeated hchoice hrepeats =>
      rw [hfresh.repeats_eq (by rw [current?, hchoice])] at hrepeats
      cases hrepeats
  | counted hchoice hrepeats => exact hcounted _
  | finished => nofun
  | unwanted => nofun
  | wanted wanted ahead passed rest hchoice hupTo =>
      rw [hfresh.checkFirst_cases hchoice hupTo]
      split
      · split <;> nofun
      · nofun

/-- Of a column that is not the next one of the list, no version is granted. -/
theorem taken_unwanted {wanted ahead left : List Bytes} {passed : VersionCount}
    (hascending : progress.Ascending) (hchoice : progress.choice = .listed wanted ahead)
    (hupTo : ColumnProgress.upTo qualifier progress.seen ahead = (passed, left))
    (hlater : ∀ first ∈ left.head?, qualifier < first) :
    progress.taken qualifier = progress.rule.max := by
  obtain ⟨hwanted, hsuffix⟩ := hascending _ _ hchoice
  simp only [taken, hchoice]
  rw [← takenListed_upTo (Std.le_refl qualifier) hupTo]
  cases left with
  | nil => rfl
  | cons first rest =>
      exact takenListed_of_lt (hwanted.sublist ((upTo_suffix hupTo).trans hsuffix).sublist)
        (hlater first rfl) _ _

theorem isListed_every {current : Option Bytes} (hchoice : progress.choice = .every current) :
    progress.isListed = false := by
  rw [isListed, hchoice]

theorem isListed_listed {wanted ahead : List Bytes}
    (hchoice : progress.choice = .listed wanted ahead) :
    progress.isListed = true := by
  rw [isListed, hchoice]

/-- A version is handed out if it is granted, and its column is read on if it holds. -/
theorem Checked.emits_eq (hchecked : Checked progress qualifier timestamp decision next)
    (hfresh : progress.Fresh qualifier timestamp) (hascending : progress.Ascending)
    (hroom : progress.HasRoom) :
    decision.emits = progress.grants qualifier timestamp 0 ∧
      (decision = .emit ↔ progress.holds qualifier timestamp 0 = true) := by
  cases hchecked with
  | entered current hchoice hlater =>
      have htaken : progress.taken qualifier = min VersionCount.start.count progress.rule.max := by
        rw [taken_entered hchoice hlater]
        exact (Nat.zero_min _).symm
      exact ⟨countVersion_emits (isListed_every hchoice) htaken,
        countVersion_emit_iff (isListed_every hchoice) htaken⟩
  | repeated hchoice hrepeats =>
      rw [hfresh.repeats_eq (by rw [current?, hchoice])] at hrepeats
      cases hrepeats
  | counted hchoice hrepeats =>
      exact ⟨countVersion_emits (isListed_every hchoice) (taken_every hchoice),
        countVersion_emit_iff (isListed_every hchoice) (taken_every hchoice)⟩
  | finished wanted ahead passed hchoice hupTo =>
      -- the column is not listed, or was left: it has no room for a version
      have hfull := taken_unwanted hascending hchoice hupTo nofun
      rw [grants_of_full hfull, holds_of_full hfull]
      exact ⟨rfl, nofun, nofun⟩
  | unwanted wanted ahead passed first rest hchoice hupTo hlater =>
      have hfull := taken_unwanted hascending hchoice hupTo (by rintro _ ⟨⟩; exact hlater)
      rw [grants_of_full hfull, holds_of_full hfull]
      exact ⟨rfl, nofun, nofun⟩
  | wanted wanted ahead passed rest hchoice hupTo =>
      have hcount := Nat.lt_of_le_of_lt (count_upTo_le hupTo) (hroom _ _ hchoice)
      have hmin : min passed.count progress.rule.max = passed.count := by omega
      have hgranted : progress.grants qualifier timestamp 0 = true := by
        simp [grants, taken_upTo hchoice hupTo, hmin, hcount, isListed_listed hchoice]
      have hholds : progress.holds qualifier timestamp 0 = !(progress.rule.max ≤ passed.count + 1 ||
          progress.rule.min ≤ passed.count + 1 && progress.rule.isExpired timestamp) := by
        simp only [holds, taken_upTo hchoice hupTo, hmin, isListed_listed hchoice, Nat.add_zero,
          Bool.toNat_true, Bool.not_or, Bool.not_and, ← Nat.not_le, decide_not]
      rw [hgranted, hholds, hfresh.checkFirst_cases hchoice hupTo]
      split
      next hfull =>
        rw [hfull]
        simp only
        split <;> exact ⟨rfl, nofun, nofun⟩
      next hkept =>
        rw [Bool.eq_false_iff.mpr hkept]
        exact ⟨rfl, fun _ => rfl, fun _ => rfl⟩

theorem countVersion_room {rule : VersionRule} {seen : VersionCount}
    (hemit : (countVersion rule seen timestamp).1 = .emit) : seen.count + 1 < rule.max := by
  unfold countVersion at hemit
  simp only at hemit
  split at hemit
  · cases hemit
  next hkept =>
    simp only [Bool.or_eq_true, not_or, decide_eq_true_eq] at hkept
    split at hemit
    · cases hemit
    · omega

/-- If a version is handed out and its column not left, it counts for the older ones. -/
theorem Checked.taken_emit (hchecked : Checked progress qualifier timestamp decision next)
    (hfresh : progress.Fresh qualifier timestamp) (hemit : decision = .emit) :
    next.taken qualifier = progress.taken qualifier + 1 := by
  cases hchecked with
  | entered current hchoice hlater =>
      have hroom := countVersion_room hemit
      rw [taken_entered hchoice hlater, taken_every rfl, countVersion_emit hemit]
      simp only [VersionCount.start] at hroom ⊢
      omega
  | repeated hchoice hrepeats => cases hemit
  | counted hchoice hrepeats =>
      have hroom := countVersion_room hemit
      rw [taken_every hchoice]
      refine (@taken_every { progress with
        seen := (countVersion progress.rule progress.seen timestamp).2 } _ hchoice).trans ?_
      rw [countVersion_emit hemit]
      simp only
      omega
  | finished => cases hemit
  | unwanted => cases hemit
  | wanted wanted ahead passed rest hchoice hupTo =>
      rw [hfresh.checkFirst_cases hchoice hupTo] at hemit ⊢
      split at hemit
      · simp only at hemit
        split at hemit <;> cases hemit
      next hnot =>
        rw [if_neg hnot, taken_upTo hchoice hupTo]
        simp only [Bool.or_eq_true, not_or, decide_eq_true_eq] at hnot
        simp only [taken, takenListed, if_true]
        omega

/-! ## Versions stay fresh -/

theorem countVersion_previous {rule : VersionRule} {seen : VersionCount} {previous : Timestamp}
    (hprevious : (countVersion rule seen timestamp).2.previous = some previous) :
    seen.previous = some previous ∨ previous = timestamp := by
  unfold countVersion at hprevious
  simp only at hprevious
  split at hprevious
  · exact .inl hprevious
  · exact .inr (Option.some.inj hprevious).symm

/-- What comes after a version is fresh after it was decided on as well. -/
theorem Checked.fresh (hchecked : Checked progress qualifier timestamp decision next)
    {other : Bytes} {older : Timestamp} (hfresh : progress.Fresh other older)
    (holder : other = qualifier → older < timestamp) : next.Fresh other older := by
  cases hchecked with
  | entered current hchoice hlater =>
      rintro ⟨⟩ previous hprevious
      rcases countVersion_previous hprevious with hnone | rfl
      · cases hnone
      · exact holder rfl
  | repeated hchoice hrepeats => exact hfresh
  | counted hchoice hrepeats =>
      intro hcurrent previous hprevious
      have hcurrent : progress.current? = some other := hcurrent
      rcases countVersion_previous hprevious with hsame | rfl
      · exact hfresh hcurrent previous hsame
      · rw [current?, hchoice] at hcurrent
        exact holder (Option.some.inj hcurrent).symm
  | finished => nofun
  | unwanted => nofun
  | wanted wanted ahead passed rest hchoice hupTo =>
      have hsame : other = qualifier → ∀ previous, passed.previous = some previous →
          older < previous := by
        rintro rfl previous hprevious
        exact hfresh.upTo hchoice hupTo hprevious
      unfold checkFirst
      split
      · rintro ⟨⟩
        exact hsame rfl
      · split
        · nofun
        · rintro ⟨⟩ previous ⟨⟩
          exact holder rfl

theorem Fresh.giveUp (hfresh : progress.Fresh qualifier timestamp) (column : Bytes) :
    (progress.giveUp column).2.Fresh qualifier timestamp := by
  cases hchoice : progress.choice with
  | every current => rwa [giveUp_every hchoice]
  | listed wanted ahead =>
      rw [giveUp_listed hchoice, leave_eq]
      cases hupTo : ColumnProgress.upTo column progress.seen ahead with
      | mk passed left =>
          cases left with
          | nil => nofun
          | cons first rest =>
              simp only
              split
              · nofun
              · rintro ⟨⟩ previous hprevious
                exact hfresh.upTo hchoice hupTo hprevious

end ColumnProgress

end MergeScan
