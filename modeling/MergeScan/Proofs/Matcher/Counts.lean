import MergeScan.Proofs.Matcher.Steps

/-! # How many versions are handed out

What a matcher remembers of the columns of a row bounds the versions that it has handed
out of each of them. The bound never exceeds the number of versions wanted, and grows
with every version that is handed out.
-/

namespace MergeScan

namespace ColumnProgress

/-- A bound on the versions handed out of a column, where the columns of a list are wanted. -/
def takenListed (rule : VersionRule) (seen : VersionCount) (qualifier : Bytes) :
    List Bytes → Nat
  | [] => rule.max
  | first :: rest =>
    if qualifier = first then min seen.count rule.max
    else if qualifier ∈ rest then 0
    else rule.max

/-- A bound on the versions of a column of the row that were handed out. For columns that the
row has passed it is as large as it can get. -/
def taken (progress : ColumnProgress) (qualifier : Bytes) : Nat :=
  match progress.choice with
  | .every none => 0
  | .every (some current) =>
    match compare current qualifier with
    | .lt => 0
    | .eq => min progress.seen.count progress.rule.max
    | .gt => progress.rule.max
  | .listed _ ahead => takenListed progress.rule progress.seen qualifier ahead

/-- The first column of a list lacks a version at least. -/
def HasRoom (progress : ColumnProgress) : Prop :=
  ∀ wanted ahead, progress.choice = .listed wanted ahead → progress.seen.count < progress.rule.max

variable {progress next : ColumnProgress} {qualifier : Bytes} {timestamp : Timestamp}
variable {decision : Decision}

theorem takenListed_le_max (rule : VersionRule) (seen : VersionCount) (qualifier : Bytes)
    (ahead : List Bytes) : takenListed rule seen qualifier ahead ≤ rule.max := by
  unfold takenListed
  split
  · exact Nat.le_refl _
  · split
    · exact Nat.min_le_right _ _
    · split
      · exact Nat.zero_le _
      · exact Nat.le_refl _

theorem taken_le_max (progress : ColumnProgress) (qualifier : Bytes) :
    progress.taken qualifier ≤ progress.rule.max := by
  unfold taken
  split
  · exact Nat.zero_le _
  · split
    · exact Nat.zero_le _
    · exact Nat.min_le_right _ _
    · exact Nat.le_refl _
  · exact takenListed_le_max _ _ _ _

theorem takenListed_of_not_mem {ahead : List Bytes} (hnot : qualifier ∉ ahead)
    (rule : VersionRule) (seen : VersionCount) :
    takenListed rule seen qualifier ahead = rule.max := by
  cases ahead with
  | nil => rfl
  | cons first rest =>
      rw [List.mem_cons, not_or] at hnot
      rw [takenListed, if_neg hnot.1, if_neg hnot.2]

/-- Where columns of an ascending list are passed, the bounds can only grow. -/
theorem takenListed_cons_le {first : Bytes} {rest left : List Bytes}
    (hascending : (first :: rest).Pairwise (· < ·)) (hsuffix : left <:+ rest)
    (rule : VersionRule) (seen passed : VersionCount) :
    takenListed rule seen qualifier (first :: rest) ≤ takenListed rule passed qualifier left := by
  by_cases hmem : qualifier ∈ left
  · have hrest := hsuffix.subset hmem
    have hlt := (List.pairwise_cons.mp hascending).1 qualifier hrest
    rw [takenListed, if_neg (by grind), if_pos hrest]
    exact Nat.zero_le _
  · rw [takenListed_of_not_mem hmem]
    exact takenListed_le_max _ _ _ _

theorem takenListed_upTo_le {seen passed : VersionCount} {columns ahead : List Bytes}
    {column : Bytes} (hascending : columns.Pairwise (· < ·))
    (hupTo : upTo column seen columns = (passed, ahead)) (rule : VersionRule) :
    takenListed rule seen qualifier columns ≤ takenListed rule passed qualifier ahead := by
  have hahead : columns.dropWhile (· < column) = ahead := congrArg Prod.snd hupTo
  have hpassed : (if columns.dropWhile (· < column) = columns then seen else .start) = passed :=
    congrArg Prod.fst hupTo
  by_cases hsame : columns.dropWhile (· < column) = columns
  · rw [if_pos hsame] at hpassed
    rewrite [← hpassed, ← hahead, hsame]
    exact Nat.le_refl _
  · cases columns with
    | nil => exact absurd rfl hsame
    | cons first rest =>
        have hlt : first < column := by
          by_cases hlt : first < column
          · exact hlt
          · exact absurd (List.dropWhile_cons_of_neg (by simpa using hlt)) hsame
        have hdrop : (first :: rest).dropWhile (· < column) = rest.dropWhile (· < column) :=
          List.dropWhile_cons_of_pos (decide_eq_true hlt)
        rw [hdrop] at hahead
        exact takenListed_cons_le hascending (hahead ▸ List.dropWhile_suffix _) rule seen passed

theorem ite_one_le (condition : Prop) [Decidable condition] :
    (if condition then 1 else 0) ≤ 1 := by
  split <;> omega

/-- A version that is handed out of the first column of a list is counted. -/
theorem takenListed_checkFirst_le {rule : VersionRule} {seen : VersionCount} {column : Bytes}
    {rest : List Bytes} (hascending : (column :: rest).Pairwise (· < ·))
    (hroom : seen.count < rule.max) :
    takenListed rule seen qualifier (column :: rest) +
        (if (checkFirst rule timestamp seen column rest).1.emits = true ∧ qualifier = column
          then 1 else 0) ≤
      takenListed rule (checkFirst rule timestamp seen column rest).2.1 qualifier
        (checkFirst rule timestamp seen column rest).2.2 := by
  have hnot : column ∉ rest := by
    intro hmem
    exact Std.lt_irrefl ((List.pairwise_cons.mp hascending).1 column hmem)
  unfold checkFirst
  split
  · simp [Decision.emits]
  · split
    -- a column that is left counts as full
    next hfull =>
      by_cases hsame : qualifier = column
      · subst hsame
        rw [takenListed_of_not_mem hnot, takenListed, if_pos rfl]
        refine Nat.le_trans (Nat.add_le_add_left (ite_one_le _) _) ?_
        omega
      · simp only [hsame, and_false, if_false, Nat.add_zero]
        exact takenListed_cons_le hascending (List.suffix_refl _) rule seen _
    next hnotFull =>
      simp only [takenListed]
      by_cases hsame : qualifier = column
      · simp only [hsame, if_true, Decision.emits]
        simp only [Bool.or_eq_true, not_or, decide_eq_true_eq] at hnotFull
        simp only [and_self, if_true]
        omega
      · simp [hsame]

theorem count_upTo_le {seen passed : VersionCount} {columns ahead : List Bytes}
    (hupTo : upTo qualifier seen columns = (passed, ahead)) : passed.count ≤ seen.count := by
  have hpassed : (if columns.dropWhile (· < qualifier) = columns then seen else .start) = passed :=
    congrArg Prod.fst hupTo
  rw [← hpassed]
  split
  · exact Nat.le_refl _
  · exact Nat.zero_le _

theorem count_leave_le (seen : VersionCount) (columns : List Bytes) :
    (leave qualifier seen columns).1.count ≤ seen.count := by
  rw [leave_eq]
  cases hupTo : upTo qualifier seen columns with
  | mk passed ahead =>
      have hle := count_upTo_le hupTo
      cases ahead with
      | nil => exact hle
      | cons column rest =>
          simp only
          split
          · exact Nat.zero_le _
          · exact hle

theorem checkFirst_count_lt {rule : VersionRule} {seen : VersionCount} {column : Bytes}
    {rest : List Bytes} (hseen : seen.count < rule.max) :
    (checkFirst rule timestamp seen column rest).2.1.count < rule.max := by
  unfold checkFirst
  split
  · exact hseen
  · split
    · exact Nat.lt_of_le_of_lt (Nat.zero_le _) hseen
    next hnot =>
      simp only [Bool.or_eq_true, not_or, decide_eq_true_eq] at hnot
      exact Nat.not_le.mp hnot.1

theorem Checked.hasRoom (hchecked : Checked progress qualifier timestamp decision next)
    (hroom : progress.HasRoom) : next.HasRoom := by
  cases hchecked with
  | entered current hchoice hlt => exact nofun
  | repeated hchoice hrepeats => exact hroom
  | counted hchoice hrepeats =>
      intro wanted ahead hlisted
      have hlisted : progress.choice = .listed wanted ahead := hlisted
      rw [hchoice] at hlisted
      cases hlisted
  | finished wanted ahead seen hchoice hupTo =>
      intro _ _ _
      exact Nat.lt_of_le_of_lt (count_upTo_le hupTo) (hroom _ _ hchoice)
  | unwanted wanted ahead seen column rest hchoice hupTo hlt =>
      intro _ _ _
      have hle := count_upTo_le hupTo
      exact Nat.lt_of_le_of_lt hle (hroom _ _ hchoice)
  | wanted wanted ahead seen rest hchoice hupTo =>
      intro _ _ _
      exact checkFirst_count_lt (Nat.lt_of_le_of_lt (count_upTo_le hupTo) (hroom _ _ hchoice))

theorem HasRoom.giveUp (hroom : progress.HasRoom) (qualifier : Bytes) :
    (progress.giveUp qualifier).2.HasRoom := by
  cases hchoice : progress.choice with
  | every current => rwa [giveUp_every hchoice]
  | listed wanted ahead =>
      rw [giveUp_listed hchoice]
      intro _ _ _
      exact Nat.lt_of_le_of_lt (count_leave_le _ _) (hroom _ _ hchoice)

theorem countVersion_taken_le (rule : VersionRule) (seen : VersionCount) (timestamp : Timestamp) :
    min seen.count rule.max +
        (if (countVersion rule seen timestamp).1.emits = true then 1 else 0) ≤
      min (countVersion rule seen timestamp).2.count rule.max := by
  unfold countVersion
  simp only
  split
  · simp only [Decision.emits, Bool.false_eq_true, if_false]
    omega
  next hkept =>
    simp only [Bool.or_eq_true, not_or, decide_eq_true_eq] at hkept
    refine Nat.le_trans (Nat.add_le_add_left (ite_one_le _) _) ?_
    simp only
    omega

/-- Nothing was taken yet of a column that is entered, nor of those behind it. -/
theorem taken_of_not_entered {current : Option Bytes} {qualifier other : Bytes}
    (hchoice : progress.choice = .every current)
    (hlater : ∀ column, current = some column → column < qualifier) (hle : qualifier ≤ other) :
    progress.taken other = 0 := by
  cases current with
  | none => simp only [taken, hchoice]
  | some column =>
      have hlt : column < other := Std.lt_of_lt_of_le (hlater column rfl) hle
      simp only [taken, hchoice, Std.compare_eq_lt.mpr hlt]

/-- A version is counted in a column. Those before it count as full, and of those behind it
nothing was taken, so no count shrinks. -/
theorem taken_counted_le {seen : VersionCount}
    (hhere : progress.taken qualifier = min seen.count progress.rule.max)
    (hbehind : ∀ column, qualifier < column → progress.taken column = 0) (other : Bytes) :
    progress.taken other + (if (countVersion progress.rule seen timestamp).1.emits = true ∧
        other = qualifier then 1 else 0) ≤
      taken { progress with
        seen := (countVersion progress.rule seen timestamp).2
        choice := .every (some qualifier) } other := by
  cases hcompare : compare qualifier other with
  | lt =>
      have hlt := Std.compare_eq_lt.mp hcompare
      have hne : other ≠ qualifier := fun heq => Std.lt_irrefl (heq ▸ hlt)
      simp [hbehind other hlt, hne]
  | eq =>
      obtain rfl := Std.LawfulEqCmp.eq_of_compare hcompare
      have hle := countVersion_taken_le progress.rule seen timestamp
      rw [hhere]
      simpa only [taken, Std.ReflCmp.compare_self, and_true] using hle
  | gt =>
      have hlt := Std.compare_eq_gt.mp hcompare
      have hne : other ≠ qualifier := fun heq => Std.lt_irrefl (heq ▸ hlt)
      simp only [hne, and_false, if_false, Nat.add_zero]
      simpa only [taken, hcompare] using taken_le_max progress other

/-- A version that is handed out is counted, and no count shrinks. -/
theorem Checked.taken_le (hchecked : Checked progress qualifier timestamp decision next)
    (hascending : progress.Ascending) (hroom : progress.HasRoom) (other : Bytes) :
    progress.taken other + (if decision.emits = true ∧ other = qualifier then 1 else 0) ≤
      next.taken other := by
  have hahead : ∀ {wanted ahead}, progress.choice = .listed wanted ahead →
      ahead.Pairwise (· < ·) := fun hchoice =>
    (hascending _ _ hchoice).1.sublist (hascending _ _ hchoice).2.sublist
  cases hchecked with
  | entered current hchoice hlater =>
      refine taken_counted_le ?_ (fun column hlt => ?_) other
      · rw [taken_of_not_entered hchoice hlater (Std.le_refl qualifier)]
        exact (Nat.zero_min _).symm
      · exact taken_of_not_entered hchoice hlater (Std.le_of_lt hlt)
  | repeated hchoice hrepeats => simp [Decision.emits]
  | counted hchoice hrepeats =>
      have hcounted := @taken_counted_le progress qualifier timestamp progress.seen
        (by simp only [taken, hchoice, Std.ReflCmp.compare_self])
        (fun column hlt => by simp only [taken, hchoice, Std.compare_eq_lt.mpr hlt]) other
      rwa [← hchoice] at hcounted
  | finished wanted ahead seen hchoice hupTo =>
      simp only [taken, hchoice, Decision.emits, Bool.false_eq_true, false_and, if_false]
      exact takenListed_upTo_le (hahead hchoice) hupTo _
  | unwanted wanted ahead seen column rest hchoice hupTo hlt =>
      simp only [taken, hchoice, Decision.emits, Bool.false_eq_true, false_and, if_false]
      exact takenListed_upTo_le (hahead hchoice) hupTo _
  | wanted wanted ahead seen rest hchoice hupTo =>
      simp only [taken, hchoice]
      have hroom := Nat.lt_of_le_of_lt (count_upTo_le hupTo) (hroom _ _ hchoice)
      have hcolumns := (hahead hchoice).sublist (upTo_suffix hupTo).sublist
      exact Nat.le_trans (Nat.add_le_add_right (takenListed_upTo_le (hahead hchoice) hupTo _) _)
        (takenListed_checkFirst_le hcolumns hroom)

theorem hasRoom_reset (hmax : 1 ≤ progress.rule.max) : progress.reset.HasRoom :=
  fun _ _ _ => hmax

theorem taken_giveUp_le (hascending : progress.Ascending) (column qualifier : Bytes) :
    progress.taken qualifier ≤ (progress.giveUp column).2.taken qualifier := by
  cases hchoice : progress.choice with
  | every current =>
      rewrite [giveUp_every hchoice]
      exact Nat.le_refl _
  | listed wanted ahead =>
      have hahead : ahead.Pairwise (· < ·) :=
        (hascending _ _ hchoice).1.sublist (hascending _ _ hchoice).2.sublist
      rw [giveUp_listed hchoice, leave_eq]
      simp only [taken, hchoice]
      cases hupTo : upTo column progress.seen ahead with
      | mk passed left =>
          refine Nat.le_trans (takenListed_upTo_le hahead hupTo _) ?_
          cases left with
          | nil => exact Nat.le_refl _
          | cons first rest =>
              simp only
              split
              · exact takenListed_cons_le (hahead.sublist (upTo_suffix hupTo).sublist)
                  (List.suffix_refl _) _ _ _
              · exact Nat.le_refl _

end ColumnProgress

namespace Matcher

variable {φ : Type} [CellFilter φ] {matcher next : Matcher φ} {cell : Cell} {decision : Decision}

theorem Judged.hasRoom (hjudged : Judged matcher cell decision next)
    (hroom : matcher.columns.HasRoom) : next.columns.HasRoom := by
  cases hjudged with
  | row decision hrow => exact hroom
  | expired hrow hage => exact hroom.giveUp _
  | marker hconsiders hdelete =>
      simp only [decideMarker]
      split <;> exact hroom
  | masked hconsiders hvalue hhides => exact hroom
  | tooNew hlive hposition => exact hroom
  | tooOld hlive hposition => exact ColumnProgress.HasRoom.giveUp hroom _
  | version decision columns hlive hposition hchecked => exact hchecked.hasRoom hroom

/-- Values are handed out for their versions only. -/
theorem Judged.of_emits (hjudged : Judged matcher cell decision next)
    (hvalue : cell.isDelete = false ∨ matcher.retainDeletes = false)
    (hemits : decision.emits = true) :
    Considers.Live matcher cell ∧ matcher.timeRange.position cell.timestamp = .eq ∧
      ∃ columns, matcher.columns.Checked cell.qualifier cell.timestamp decision columns ∧
        next = (matcher.afterMarkers cell).withProgress decision columns := by
  have hgiveUp : ∀ qualifier, (matcher.columns.giveUp qualifier).1.emits = false := by
    intro qualifier
    rcases matcher.columns.giveUp_decision qualifier with heq | heq <;> rw [heq] <;> rfl
  cases hjudged with
  | row decision hrow =>
      have := decideRow_mem hrow
      simp only [List.mem_cons, List.not_mem_nil, or_false] at this
      rcases this with rfl | rfl | rfl <;> cases hemits
  | expired hrow hage =>
      simp only [giveUpColumn, hgiveUp] at hemits
      cases hemits
  | marker hconsiders hdelete =>
      have hvalues := hvalue.resolve_left (by simp [hdelete])
      rw [markerDecision_of_valuesOnly hvalues] at hemits
      cases hemits
  | masked hconsiders hvalue hhides => cases hemits
  | tooNew hlive hposition => cases hemits
  | tooOld hlive hposition =>
      simp only [giveUpColumn, afterMarkers, hgiveUp] at hemits
      cases hemits
  | version decision columns hlive hposition hchecked =>
      exact ⟨hlive, hposition, columns, hchecked, rfl⟩

/-- What a decision hands out is counted, and no count shrinks. -/
theorem Judged.taken_le (hjudged : Judged matcher cell decision next)
    (hascending : matcher.columns.Ascending) (hvalues : matcher.retainDeletes = false)
    (hroom : matcher.columns.HasRoom) (qualifier : Bytes) :
    matcher.columns.taken qualifier +
        (if decision.emits = true ∧ qualifier = cell.qualifier then 1 else 0) ≤
      next.columns.taken qualifier := by
  by_cases hemits : decision.emits = true
  · obtain ⟨-, -, columns, hchecked, rfl⟩ := hjudged.of_emits (.inr hvalues) hemits
    exact hchecked.taken_le hascending hroom qualifier
  · rw [if_neg fun hboth => hemits hboth.1, Nat.add_zero]
    cases hjudged with
    | row decision hrow => exact Nat.le_refl _
    | expired hrow hage => exact ColumnProgress.taken_giveUp_le hascending _ _
    | marker hconsiders hdelete =>
        simp only [decideMarker]
        split <;> exact Nat.le_refl _
    | masked hconsiders hvalue hhides => exact Nat.le_refl _
    | tooNew hlive hposition => exact Nat.le_refl _
    | tooOld hlive hposition => exact ColumnProgress.taken_giveUp_le hascending _ _
    | version decision columns hlive hposition hchecked =>
        exact Nat.le_trans (Nat.le_add_right _ _) (hchecked.taken_le hascending hroom qualifier)

end Matcher

end MergeScan
