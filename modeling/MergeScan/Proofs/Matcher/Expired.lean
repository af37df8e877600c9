import MergeScan.Proofs.Matcher.Counts

/-! # Versions that are handed out although they have expired

A family keeps a number of versions of each column whatever their age. Where every column
is wanted, a version that has expired is handed out only if fewer were before. Where the
columns of a list are wanted, a version is counted before it is held against its age, and is
handed out even if its column is left because of it. So one expired version more can come
out, but then it is the first of its column: once one came out while the column was not left,
there were fewer versions than are kept, and the count tells.
-/

namespace MergeScan

namespace ColumnProgress

/-- What progress through the columns of a row tells of the versions that were handed out of a
column: there are no more than were counted, and if one of them had expired and the column is
the next one of a list, fewer were counted than are kept whatever their age. -/
structure Accounts (progress : ColumnProgress) (qualifier : Bytes) (versions : List Timestamp) :
    Prop where
  counted : versions.length ≤ progress.taken qualifier
  kept wanted rest version : progress.choice = .listed wanted (qualifier :: rest) →
    version ∈ versions → progress.rule.isExpired version = true →
    progress.seen.count < progress.rule.min

variable {progress next : ColumnProgress} {qualifier : Bytes} {timestamp : Timestamp}
variable {decision : Decision}

theorem accounts_nil (progress : ColumnProgress) (qualifier : Bytes) :
    progress.Accounts qualifier [] :=
  ⟨Nat.zero_le _, nofun⟩

/-- Nothing was taken yet of a column that is further down a list. -/
theorem takenListed_of_later {first later : Bytes} {rest : List Bytes}
    (hascending : (first :: rest).Pairwise (· < ·)) (hlater : later ∈ rest) (rule : VersionRule)
    (seen : VersionCount) : takenListed rule seen later (first :: rest) = 0 := by
  have hlt := (List.pairwise_cons.mp hascending).1 later hlater
  rw [takenListed, if_neg (by grind), if_pos hlater]

/-- Columns that come first on what is left of a list came first before, or nothing was taken of
them yet. -/
theorem taken_of_suffix {seen : VersionCount} {columns rest : List Bytes} {first : Bytes}
    (hascending : columns.Pairwise (· < ·)) (hsuffix : first :: rest <:+ columns)
    (rule : VersionRule) : columns = first :: rest ∨ takenListed rule seen first columns = 0 := by
  cases columns with
  | nil => exact nomatch List.suffix_nil.mp hsuffix
  | cons column others =>
      rcases List.suffix_cons_iff.mp hsuffix with hsame | hlater
      · exact .inl hsame.symm
      · exact .inr (takenListed_of_later hascending (hlater.subset List.mem_cons_self) rule seen)

theorem passed_of_upTo {seen passed : VersionCount} {columns : List Bytes}
    (hupTo : upTo qualifier seen columns = (passed, columns)) : passed = seen := by
  have hahead : columns.dropWhile (· < qualifier) = columns := congrArg Prod.snd hupTo
  have hpassed : (if columns.dropWhile (· < qualifier) = columns then seen else .start) = passed :=
    congrArg Prod.fst hupTo
  rw [if_pos hahead] at hpassed
  exact hpassed.symm

theorem count_leave_of_eq {seen : VersionCount} {columns : List Bytes}
    (hsame : (leave qualifier seen columns).2 = columns) :
    (leave qualifier seen columns).1.count = seen.count := by
  rw [leave_eq] at hsame ⊢
  cases hupTo : upTo qualifier seen columns with
  | mk passed ahead =>
      rw [hupTo] at hsame
      cases ahead with
      | nil =>
          obtain rfl : [] = columns := hsame
          exact congrArg VersionCount.count (passed_of_upTo hupTo)
      | cons column rest =>
          simp only at hsame ⊢
          split at hsame
          next heq =>
            have hlength := (upTo_suffix hupTo).length_le
            obtain rfl : rest = columns := hsame
            exact absurd hlength (by simp)
          next hne =>
            subst hsame
            rw [if_neg hne]
            exact congrArg VersionCount.count (passed_of_upTo hupTo)

/-- How the next column of a list came to be the next one: by a version that was handed out of
it, by nothing that concerns it, or by leaving the columns before it. -/
def FirstFrom (progress : ColumnProgress) (qualifier : Bytes) (timestamp : Timestamp)
    (decision : Decision) (next : ColumnProgress) : Prop :=
  ∀ wanted first rest, next.choice = .listed wanted (first :: rest) →
    (decision.emits = true ∧ first = qualifier ∧
      (progress.rule.isExpired timestamp = true → next.seen.count < progress.rule.min)) ∨
    ¬(decision.emits = true ∧ first = qualifier) ∧
      (progress.taken first = 0 ∨ progress.choice = .listed wanted (first :: rest) ∧
        next.seen.count = progress.seen.count)

/-- What is left of a list without anything being handed out. -/
theorem firstFrom_of_suffix {wanted ahead left : List Bytes} {passed : VersionCount}
    (hascending : progress.Ascending) (hchoice : progress.choice = .listed wanted ahead)
    (hsuffix : left <:+ ahead) (hcount : left = ahead → passed.count = progress.seen.count)
    (hnot : decision.emits = false) :
    FirstFrom progress qualifier timestamp decision
      { progress with seen := passed, choice := .listed wanted left } := by
  rintro _ first rest ⟨⟩
  refine .inr ⟨by simp [hnot], ?_⟩
  have hahead : ahead.Pairwise (· < ·) :=
    (hascending _ _ hchoice).1.sublist (hascending _ _ hchoice).2.sublist
  rcases @taken_of_suffix progress.seen _ _ _ hahead hsuffix progress.rule with rfl | hzero
  · exact .inr ⟨hchoice, hcount rfl⟩
  · refine .inl ?_
    simpa only [taken, hchoice] using hzero

theorem firstFrom_giveUp (hascending : progress.Ascending) (column : Bytes)
    (hnot : decision.emits = false) :
    FirstFrom progress qualifier timestamp decision (progress.giveUp column).2 := by
  cases hchoice : progress.choice with
  | every current =>
      rw [giveUp_every hchoice]
      rintro wanted first rest hlisted
      exact nomatch hchoice.symm.trans hlisted
  | listed wanted ahead =>
      rw [giveUp_listed hchoice]
      exact firstFrom_of_suffix hascending hchoice (leave_suffix _ _ _) count_leave_of_eq hnot

/-- Where the first column of a list is not left, it is still the first one. If a version of it was
handed out that had expired, fewer were counted than are kept. -/
theorem checkFirst_cases {rule : VersionRule} {seen : VersionCount} {column first : Bytes}
    {rest left : List Bytes}
    (hleft : (checkFirst rule timestamp seen column rest).2.2 = first :: left) :
    (checkFirst rule timestamp seen column rest = (.skip, seen, column :: rest)) ∨
    (first :: left = rest ∧
      (checkFirst rule timestamp seen column rest).1.emits = true) ∨
    ((first = column ∧ (checkFirst rule timestamp seen column rest).1.emits = true) ∧
      (rule.isExpired timestamp = true →
        (checkFirst rule timestamp seen column rest).2.1.count < rule.min)) := by
  unfold checkFirst at hleft ⊢
  split
  next => exact .inl rfl
  next hnew =>
    rw [if_neg hnew] at hleft
    split
    next hfull =>
      rw [if_pos hfull] at hleft
      refine .inr (.inl ⟨hleft.symm, ?_⟩)
      simp only
      split <;> rfl
    next hkept =>
      rw [if_neg hkept] at hleft
      refine .inr (.inr ⟨⟨(List.cons.inj hleft).1.symm, rfl⟩, fun hexpired => ?_⟩)
      simp only [hexpired, Bool.and_true, Bool.or_eq_true, not_or, decide_eq_true_eq] at hkept
      exact Nat.not_le.mp hkept.2

theorem Checked.firstFrom (hchecked : Checked progress qualifier timestamp decision next)
    (hascending : progress.Ascending) :
    FirstFrom progress qualifier timestamp decision next := by
  cases hchecked with
  | entered current hchoice hlt => exact nofun
  | repeated hchoice hrepeats => exact fun _ _ _ hlisted => nomatch hchoice.symm.trans hlisted
  | counted hchoice hrepeats =>
      intro wanted first rest hlisted
      have hlisted : progress.choice = .listed wanted (first :: rest) := hlisted
      exact nomatch hchoice.symm.trans hlisted
  | finished wanted ahead seen hchoice hupTo => exact nofun
  | unwanted wanted ahead seen column rest hchoice hupTo hlt =>
      refine firstFrom_of_suffix hascending hchoice (upTo_suffix hupTo) (fun hsame => ?_) rfl
      subst hsame
      have hseen : seen = progress.seen := passed_of_upTo hupTo
      rw [hseen]
  | wanted wanted ahead seen rest hchoice hupTo =>
      have hsuffix : qualifier :: rest <:+ ahead := upTo_suffix hupTo
      intro _ first left hlisted
      obtain ⟨rfl, hleft⟩ := ColumnChoice.listed.inj hlisted
      -- the version is passed over, or its column is left, or it is handed out and the column stays
      rcases checkFirst_cases hleft with hskip | ⟨hleaves, -⟩ | ⟨⟨hfirst, hemits⟩, hkept⟩
      · rw [hskip] at hleft ⊢
        have hfrom := @firstFrom_of_suffix progress qualifier timestamp .skip wanted ahead _ seen
          hascending hchoice hsuffix (fun hsame => by subst hsame; rw [passed_of_upTo hupTo]) rfl
        exact hfrom _ first left (congrArg _ hleft)
      · have hahead : ahead.Pairwise (· < ·) :=
          (hascending _ _ hchoice).1.sublist (hascending _ _ hchoice).2.sublist
        obtain ⟨hlt, -⟩ := List.pairwise_cons.mp (hahead.sublist hsuffix.sublist)
        have hmem : first ∈ rest := hleaves ▸ List.mem_cons_self
        have hne : first ≠ qualifier := fun heq => Std.lt_irrefl (heq ▸ hlt first hmem)
        refine .inr ⟨fun hboth => hne hboth.2, .inl ?_⟩
        have hfirst : first :: left <:+ ahead :=
          hleaves ▸ (List.suffix_cons qualifier rest).trans hsuffix
        rcases @taken_of_suffix progress.seen _ _ _ hahead hfirst progress.rule with
          hsame | hzero
        · have hlength := hsuffix.length_le
          rw [hsame, ← hleaves] at hlength
          exact absurd hlength (by simp)
        · simpa only [taken, hchoice] using hzero
      · exact .inl ⟨hemits, hfirst, hkept⟩

/-! ## Accounts -/

/-- A version that is handed out of a column is accounted for, if it is not newer than those
before it. -/
theorem Accounts.emit {versions : List Timestamp} (haccounts : progress.Accounts qualifier versions)
    (hfrom : FirstFrom progress qualifier timestamp decision next)
    (hrule : next.rule = progress.rule) (hemits : decision.emits = true)
    (htaken : progress.taken qualifier + 1 ≤ next.taken qualifier)
    (holder : ∀ version ∈ versions, timestamp ≤ version) :
    next.Accounts qualifier (versions ++ [timestamp]) where
  counted := by
    have := haccounts.counted
    rw [List.length_append, List.length_singleton]
    omega
  kept wanted rest version hchoice hversion hexpired := by
    rw [hrule] at hexpired ⊢
    rcases hfrom wanted qualifier rest hchoice with ⟨-, -, hkept⟩ | ⟨hnot, -⟩
    · refine hkept ?_
      rcases List.mem_append.mp hversion with hmem | hmem
      · exact VersionRule.isExpired_mono (holder version hmem) hexpired
      · exact List.mem_singleton.mp hmem ▸ hexpired
    · exact absurd ⟨hemits, rfl⟩ hnot

/-- Where nothing is handed out of a column, its versions stay accounted for. -/
theorem Accounts.pass {other : Bytes} {versions : List Timestamp}
    (haccounts : progress.Accounts other versions)
    (hfrom : FirstFrom progress qualifier timestamp decision next)
    (hrule : next.rule = progress.rule) (hnot : ¬(decision.emits = true ∧ other = qualifier))
    (htaken : progress.taken other ≤ next.taken other) : next.Accounts other versions where
  counted := Nat.le_trans haccounts.counted htaken
  kept wanted rest version hchoice hversion hexpired := by
    rw [hrule] at hexpired ⊢
    rcases hfrom wanted other rest hchoice with ⟨hemits, hsame, -⟩ | ⟨-, hzero | ⟨hfirst, hcount⟩⟩
    · exact absurd ⟨hemits, hsame⟩ hnot
    · have hcounted := haccounts.counted
      rw [hzero, Nat.le_zero, List.length_eq_zero_iff] at hcounted
      rw [hcounted] at hversion
      cases hversion
    · rw [hcount]
      exact haccounts.kept wanted rest version hfirst hversion hexpired

/-- A version that is handed out although it has expired: fewer were handed out of its column
than are kept, or its column is one of a list, and none of them had expired. -/
theorem Checked.of_expired (hchecked : Checked progress qualifier timestamp decision next)
    (hascending : progress.Ascending) (hemits : decision.emits = true)
    (hexpired : progress.rule.isExpired timestamp = true) (hmin : 0 < progress.rule.min)
    {versions : List Timestamp} (haccounts : progress.Accounts qualifier versions) :
    versions.length < progress.rule.min ∨
      (∃ wanted ahead, progress.choice = .listed wanted ahead) ∧
        ∀ version ∈ versions, progress.rule.isExpired version = false := by
  have hcounted := haccounts.counted
  have hcount (seen : VersionCount)
      (hemits : (countVersion progress.rule seen timestamp).1.emits = true) :
      seen.count < progress.rule.min := by
    simp only [countVersion, hexpired, Bool.and_true] at hemits
    split at hemits
    · cases hemits
    next hkept =>
      simp only [Bool.or_eq_true, not_or, decide_eq_true_eq] at hkept
      omega
  cases hchecked with
  | entered current hchoice hlt =>
      rw [taken_of_not_entered hchoice hlt (Std.le_refl qualifier)] at hcounted
      exact .inl (by omega)
  | repeated hchoice hrepeats => cases hemits
  | counted hchoice hrepeats =>
      have hlt := hcount progress.seen hemits
      simp only [taken, hchoice, Std.ReflCmp.compare_self] at hcounted
      exact .inl (by omega)
  | finished wanted ahead seen hchoice hupTo => cases hemits
  | unwanted wanted ahead seen column rest hchoice hupTo hlt => cases hemits
  | wanted wanted ahead seen rest hchoice hupTo =>
      have hahead : ahead.Pairwise (· < ·) :=
        (hascending _ _ hchoice).1.sublist (hascending _ _ hchoice).2.sublist
      rcases @taken_of_suffix progress.seen _ _ _ hahead (upTo_suffix hupTo) progress.rule with
        rfl | hzero
      · by_cases hfew : versions.length < progress.rule.min
        · exact .inl hfew
        · refine .inr ⟨⟨_, _, hchoice⟩, fun version hversion => ?_⟩
          rw [← Bool.not_eq_true]
          intro hversionExpired
          -- one that had expired would have been among the versions that are kept
          have hkept := haccounts.kept _ _ version hchoice hversion hversionExpired
          simp only [taken, hchoice, takenListed, if_true] at hcounted
          omega
      · simp only [taken, hchoice, hzero] at hcounted
        exact .inl (by omega)

end ColumnProgress

namespace Matcher

variable {φ : Type} [CellFilter φ] {matcher next : Matcher φ} {cell : Cell} {decision : Decision}

theorem Judged.firstFrom (hjudged : Judged matcher cell decision next)
    (hvalues : matcher.retainDeletes = false) (hascending : matcher.columns.Ascending) :
    ColumnProgress.FirstFrom matcher.columns cell.qualifier cell.timestamp decision
      next.columns := by
  have hkept (hnot : decision.emits = false) : ColumnProgress.FirstFrom matcher.columns
      cell.qualifier cell.timestamp decision matcher.columns :=
    fun _ _ _ hlisted => .inr ⟨by simp [hnot], .inr ⟨hlisted, rfl⟩⟩
  by_cases hemits : decision.emits = true
  · obtain ⟨-, -, columns, hchecked, rfl⟩ := hjudged.of_emits (.inr hvalues) hemits
    exact hchecked.firstFrom hascending
  · have hnot : decision.emits = false := by simpa using hemits
    cases hjudged with
    | row decision hrow => exact hkept hnot
    | expired hrow hage => exact ColumnProgress.firstFrom_giveUp hascending _ hnot
    | marker hconsiders hdelete =>
        simp only [decideMarker]
        split <;> exact hkept hnot
    | masked hconsiders hvalue hhides => exact hkept hnot
    | tooNew hlive hposition => exact hkept hnot
    | tooOld hlive hposition => exact ColumnProgress.firstFrom_giveUp hascending _ hnot
    | version decision columns hlive hposition hchecked => exact hchecked.firstFrom hascending

/-- What a decision hands out is accounted for, if it is not newer than what was handed out of its
column before. -/
theorem Judged.accounts (hjudged : Judged matcher cell decision next)
    (hvalues : matcher.retainDeletes = false) (hascending : matcher.columns.Ascending)
    (hroom : matcher.columns.HasRoom) {qualifier : Bytes} {versions : List Timestamp}
    (haccounts : matcher.columns.Accounts qualifier versions)
    (holder : decision.emits = true → cell.qualifier = qualifier →
      ∀ version ∈ versions, cell.timestamp ≤ version) :
    next.columns.Accounts qualifier (versions ++
      if decision.emits = true ∧ cell.qualifier = qualifier then [cell.timestamp] else []) := by
  have hfrom := hjudged.firstFrom hvalues hascending
  have hrule := rule_of_reset hjudged.reset_eq
  have htaken := hjudged.taken_le hascending hvalues hroom qualifier
  split
  next hboth =>
    obtain ⟨hemits, rfl⟩ := hboth
    rw [if_pos ⟨hemits, rfl⟩] at htaken
    exact haccounts.emit hfrom hrule hemits htaken (holder hemits rfl)
  next hnot =>
    have hnot : ¬(decision.emits = true ∧ qualifier = cell.qualifier) :=
      fun hboth => hnot ⟨hboth.1, hboth.2.symm⟩
    rw [if_neg hnot] at htaken
    rw [List.append_nil]
    exact haccounts.pass hfrom hrule hnot htaken

end Matcher

end MergeScan
