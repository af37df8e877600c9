import MergeScan.Proofs.Merge.Entries

/-! # Steps of a merge

What the operations of a merge do to the cells that its sources have left. To advance
takes one cell from the current source, to move forward drops in every source what lies
below the key, and sources without cells are gone. Where a source fails, some sources
were moved and the others stand where they stood. Nothing here needs the cells of a
source to be in order, or the sources to have ranks of their own.
-/

namespace MergeScan.Merge

variable {σ : Type} [Source σ] {order : CellOrder} [LawfulSource σ order]
variable {admits : Nat → List Cell → Prop} {merge : Merge σ} {key : Cell}

/-! ## Taking cells -/

omit [LawfulSource σ order] in
/-- What the sources contribute once the current one has gone on by a cell. -/
def advanced (merge : Merge σ) : List Part :=
  match merge.current with
  | none => []
  | some entry =>
    ⟨Source.sequenceId entry.source, (Source.remaining entry.source).tail⟩ ::
      merge.waiting.toList.map fun other => Source.part other.source

/-- A merge whose sources stand where they stood. -/
structure Unmoved (merge after : Merge σ) : Prop where
  parts : after.parts = merge.parts
  tops : after.entries.map MergeEntry.top = merge.entries.map MergeEntry.top
  peek : after.peek = merge.peek
  failures : after.failures = merge.failures

/-- An advance has taken the cell on top, or it has failed and nothing has moved. It does not
fail if no source does. -/
structure Advances (order : CellOrder) [LawfulSource σ order] (admits : Nat → List Cell → Prop)
    (merge : Merge σ) (outcome : Except SourceError (Option Cell) × Merge σ) : Prop where
  led : Led order admits outcome.2
  taken answer : outcome.1 = .ok answer →
    answer = merge.peek ∧ outcome.2.parts.Perm (Part.stocked merge.advanced)
  failed failure : outcome.1 = .error failure → Unmoved merge outcome.2
  reliable : Reliable order merge → outcome.1.isOk = true ∧ Reliable order outcome.2

variable [Std.TransCmp order.compare]

omit [Std.TransCmp order.compare] in
/-- A source with the cells of an entry has the top of the entry. -/
theorem Tidy.peek_of_part (hmerge : Tidy order admits merge) {entry : MergeEntry σ}
    (hentry : entry ∈ merge.entries) {source : σ} (hheld : LawfulSource.Held order admits source)
    (hpart : Source.part source = Source.part entry.source) :
    Source.peek source = some entry.top := by
  rw [hheld.peek_eq, show Source.remaining source = _ from congrArg Part.cells hpart,
    ← hmerge.top entry hentry]
  exact (hmerge.held entry hentry).peek_eq.symm

/-- A source that failed to move takes its place in the merge again. -/
theorem Led.withSource (hmerge : Led order admits merge) {entry : MergeEntry σ}
    (hcurrent : merge.current = some entry) {source : σ}
    (hheld : LawfulSource.Held order admits source)
    (hpart : Source.part source = Source.part entry.source) :
    Led order admits (merge.withCurrent { entry with source }) ∧
      Unmoved merge (merge.withCurrent { entry with source }) := by
  have hrank : Source.sequenceId source = Source.sequenceId entry.source :=
    congrArg Part.rank hpart
  have hentries : (merge.withCurrent { entry with source }).entries =
      { entry with source } :: merge.waiting.toList := entries_of_current rfl
  have hothers : ∀ other ∈ merge.waiting.toList, other ∈ merge.entries := by
    intro other hother
    rw [entries_of_current hcurrent]
    exact List.mem_cons_of_mem _ hother
  have htop := hmerge.peek_of_part (mem_entries_of_current hcurrent) hheld hpart
  refine ⟨⟨⟨hmerge.sameOrder, ?_, ?_, hmerge.heap⟩, ?_, by rintro ⟨⟩⟩, ?_, ?_, ?_, rfl⟩
  · intro other hother
    rw [hentries] at hother
    rcases List.mem_cons.mp hother with rfl | hmem
    · exact hheld
    · exact hmerge.held other (hothers other hmem)
  · intro other hother
    rw [hentries] at hother
    rcases List.mem_cons.mp hother with rfl | hmem
    · exact htop
    · exact hmerge.top other (hothers other hmem)
  · rintro _ ⟨⟩ other hother
    have hle := hmerge.first entry hcurrent other hother
    rw [MergeEntry.le_iff] at hle ⊢
    rw [hrank]
    exact hle
  · rw [parts, parts, hentries, entries_of_current hcurrent, List.map_cons, List.map_cons, hpart]
  · rw [hentries, entries_of_current hcurrent]
    rfl
  · rw [Merge.peek, Merge.peek, hcurrent]
    rfl

/-- To advance is to take the cell on top from its source. -/
theorem Led.advance (hmerge : Led order admits merge) :
    Advances order admits merge merge.advance.value := by
  unfold Merge.advance
  split
  next hidle =>
    refine ⟨hmerge, ?_, ?_, fun hreliable => ⟨rfl, hreliable⟩⟩
    · rintro _ ⟨⟩
      refine ⟨by rw [Merge.peek, hidle]; rfl, ?_⟩
      rw [Noted.value_pure, parts, entries_of_idle hidle, hmerge.idle hidle, advanced, hidle]
      exact .refl _
    · rintro _ ⟨⟩
  next entry hcurrent =>
    have hentry := mem_entries_of_current hcurrent
    obtain ⟨cells, hholds, hadmits⟩ := hmerge.held entry hentry
    have hmoved := LawfulSource.advance hholds
    have hheld := LawfulSource.Held.of_moved hmoved hadmits
    simp only [Noted.value_bind, Noted.value_use]
    cases hresult : (Source.advance entry.source).1 with
    | error failure =>
        obtain ⟨hled, hunmoved⟩ :=
          hmerge.withSource hcurrent hheld (hmoved.part_of_error hresult)
        refine ⟨hled, ?_, fun _ _ => hunmoved, fun hreliable => ?_⟩
        · rintro _ ⟨⟩
        · exact absurd (hreliable entry hentry) (hmoved.not_reliable_of_error hresult)
    | ok cell =>
        obtain ⟨hled, hparts⟩ := (hmerge.withoutCurrent hcurrent).settle rfl hheld
        refine ⟨hled, ?_, ?_, fun hreliable => ⟨rfl, ?_⟩⟩
        · rintro _ ⟨⟩
          refine ⟨?_, ?_⟩
          · rw [LawfulSource.answer hholds hresult, ← LawfulSource.peek_eq hholds,
              hmerge.top entry hentry, Merge.peek, hcurrent]
            rfl
          · rw [hmoved.part_of_ok hresult] at hparts
            rw [advanced, hcurrent]
            exact hparts
        · rintro _ ⟨⟩
        · exact (hreliable.withoutCurrent hcurrent).settle rfl
            (hmoved.reliable (hreliable entry hentry)).2

/-! ## Moving sources -/

/-- The number of entries that a movement to a key still has to position. -/
def below (order : CellOrder) (key : Cell) (merge : Merge σ) : Nat :=
  merge.entries.countP fun entry => order.compare entry.top key = .lt

omit [LawfulSource σ order] [Std.TransCmp order.compare] in
theorem below_enqueue_of_ge {entry : MergeEntry σ} (hge : order.compare entry.top key ≠ .lt) :
    below order key (merge.enqueue entry) = below order key merge := by
  rw [below, (entries_enqueue merge entry).countP_eq, List.countP_cons_of_neg (by simpa using hge),
    below]

omit [Std.TransCmp order.compare] in
/-- A source that is in position when it is taken in need not be positioned again. -/
theorem below_takeIn_of_ge {source : σ} (hheld : LawfulSource.Held order admits source)
    (hge : ∀ cell ∈ (Source.remaining source).head?, order.compare cell key ≠ .lt) :
    below order key (merge.takeIn source).value = below order key merge := by
  rw [← hheld.peek_eq] at hge
  unfold Merge.takeIn
  split
  next top htop => exact below_enqueue_of_ge (hge top htop)
  next => rw [below, entries_release, below]

/-- Some sources of a merge were moved, all of them if nothing has failed. -/
structure Shifts (order : CellOrder) [LawfulSource σ order] (admits : Nat → List Cell → Prop)
    (move : Part → Part) (merge : Merge σ) (outcome : Except SourceError Bool × Merge σ) :
    Prop where
  led : Led order admits outcome.2
  shifted : Part.Shifted move merge.parts outcome.2.parts
  complete : outcome.1.isOk = true →
    outcome.2.parts.Perm (Part.stocked (merge.parts.map move))
  reliable : Reliable order merge → outcome.1.isOk = true ∧ Reliable order outcome.2

omit [Std.TransCmp order.compare] in
/-- The same movement of a merge with the same entries. -/
theorem Shifts.perm {move : Part → Part} {other : Merge σ}
    {outcome : Except SourceError Bool × Merge σ}
    (hshifts : Shifts order admits move merge outcome)
    (hentries : other.entries.Perm merge.entries) :
    Shifts order admits move other outcome where
  led := hshifts.led
  shifted := hshifts.shifted.perm (hentries.map _)
  complete hok := (hshifts.complete hok).trans (Part.stocked_perm ((hentries.map _).map move).symm)
  reliable hreliable := hshifts.reliable (hreliable.perm hentries.symm)

/-- What a waiting queue leaves when its first entry is taken out. -/
theorem Tidy.withoutFirst (hmerge : Tidy order admits merge) {entry : MergeEntry σ}
    {waiting : PriorityQueue (MergeEntry σ)} (hidle : merge.current = none)
    (hpop : merge.waiting.pop? (MergeEntry.le merge.order) = some (entry, waiting)) :
    merge.entries.Perm (entry :: ({ merge with waiting } : Merge σ).entries) ∧
      Tidy order admits { merge with waiting } := by
  have hentries : merge.entries.Perm (entry :: ({ merge with waiting } : Merge σ).entries) := by
    rw [entries_of_idle hidle, @entries_of_idle _ { merge with waiting } hidle]
    exact PriorityQueue.pop?_perm hpop
  have hsub : ∀ other ∈ ({ merge with waiting } : Merge σ).entries, other ∈ merge.entries :=
    fun other hother => hentries.mem_iff.mpr (List.mem_cons_of_mem _ hother)
  rw [hmerge.sameOrder] at hpop
  exact ⟨hentries, hmerge.sameOrder, fun other hother => hmerge.held other (hsub other hother),
    fun other hother => hmerge.top other (hsub other hother),
    PriorityQueue.pop?_isHeap MergeEntry.le_isRanking hmerge.heap hpop⟩

omit [Std.TransCmp order.compare] in
theorem Reliable.withoutFirst (hreliable : Reliable order merge) {entry : MergeEntry σ}
    {waiting : PriorityQueue (MergeEntry σ)}
    (hentries : merge.entries.Perm (entry :: ({ merge with waiting } : Merge σ).entries)) :
    Reliable order { merge with waiting } :=
  fun other hother => hreliable other (hentries.mem_iff.mpr (List.mem_cons_of_mem _ hother))

/-- If the first of the entries is in position, all of them are. -/
theorem Tidy.skipTo_parts_of_first (hmerge : Tidy order admits merge)
    (hidle : merge.current = none) {entry : MergeEntry σ}
    (hfirst : merge.waiting.peek? = some entry)
    (hkey : (order.compare key entry.top).isLE = true) :
    merge.parts.map (Part.skipTo order key) = merge.parts := by
  have hstays : ∀ part ∈ merge.parts, Part.skipTo order key part = part := by
    intro part hpart
    obtain ⟨other, hother, rfl⟩ := List.mem_map.mp hpart
    have hle := PriorityQueue.peek?_greatest MergeEntry.le_isRanking hmerge.heap hfirst
      (entries_of_idle hidle ▸ hother)
    have hge : order.compare other.top key ≠ .lt := by
      intro hlt
      have hkept := Std.TransCmp.lt_of_lt_of_isLE hlt
        (Std.TransCmp.isLE_trans hkey (MergeEntry.isLE_of_le hle))
      exact nomatch hkept.symm.trans Std.ReflCmp.compare_self
    rw [Part.skipTo, Source.part, hmerge.remaining_eq hother, CellOrder.skipTo_cons_of_not_lt hge]
  exact (List.map_congr_left hstays).trans (List.map_id' _)

/-- If the first of the entries is in position, it is put back and becomes current. -/
theorem Tidy.putBack (hmerge : Tidy order admits merge) (hidle : merge.current = none)
    {entry : MergeEntry σ} {waiting : PriorityQueue (MergeEntry σ)}
    (hpop : merge.waiting.pop? (MergeEntry.le merge.order) = some (entry, waiting))
    (hkey : (order.compare key entry.top).isLE = true) :
    Shifts order admits (Part.skipTo order key) merge
      (.ok (({ merge with waiting } : Merge σ).enqueue entry).promote.current.isSome,
        (({ merge with waiting } : Merge σ).enqueue entry).promote) := by
  obtain ⟨hentries, hothers⟩ := hmerge.withoutFirst hidle hpop
  have hmem : entry ∈ merge.entries := hentries.mem_iff.mpr List.mem_cons_self
  have hback : (({ merge with waiting } : Merge σ).enqueue entry).current = none := hidle
  have hkept : (({ merge with waiting } : Merge σ).enqueue entry).promote.entries.Perm
      merge.entries :=
    (entries_promote hback).trans
      ((entries_enqueue { merge with waiting } entry).trans hentries.symm)
  have hparts : (({ merge with waiting } : Merge σ).enqueue entry).promote.parts.Perm
      (Part.stocked merge.parts) := by
    rw [hmerge.stocked_parts]
    exact hkept.map _
  refine ⟨(hothers.enqueue (hmerge.held entry hmem) (hmerge.top entry hmem)).promote hidle,
    .of_perm hparts, fun _ => ?_, fun hreliable => ⟨rfl, hreliable.perm hkept⟩⟩
  rw [hmerge.skipTo_parts_of_first hidle (PriorityQueue.pop?_peek? hpop) hkey]
  exact hparts

/-- An entry whose source failed to move is put back. -/
theorem Tidy.putBack_failed (hmerge : Tidy order admits merge) (hidle : merge.current = none)
    {entry : MergeEntry σ} {waiting : PriorityQueue (MergeEntry σ)}
    (hpop : merge.waiting.pop? (MergeEntry.le merge.order) = some (entry, waiting))
    {source : σ} (hheld : LawfulSource.Held order admits source)
    (hpart : Source.part source = Source.part entry.source) {move : Part → Part}
    {failure : SourceError} (hreliable : ¬Reliable order merge) :
    Shifts order admits move merge
      (.error failure, (({ merge with waiting } : Merge σ).enqueue { entry with source }).promote)
    := by
  obtain ⟨hentries, hothers⟩ := hmerge.withoutFirst hidle hpop
  have hmem : entry ∈ merge.entries := hentries.mem_iff.mpr List.mem_cons_self
  have htop := hmerge.peek_of_part hmem hheld hpart
  refine ⟨(hothers.enqueue hheld htop).promote hidle, .of_perm ?_, nofun,
    fun hnot => absurd hnot hreliable⟩
  rw [hmerge.stocked_parts]
  have hback : (({ merge with waiting } : Merge σ).enqueue { entry with source }).current = none :=
    hidle
  refine (parts_promote hback).trans ((parts_enqueue _ _).trans ?_)
  rw [hpart]
  exact (hentries.map fun entry : MergeEntry σ => Source.part entry.source).symm

/-- After the first of the entries was positioned, the others still have to be. -/
theorem Tidy.positioned (hmerge : Tidy order admits merge) (hidle : merge.current = none)
    {entry : MergeEntry σ} {waiting : PriorityQueue (MergeEntry σ)}
    (hpop : merge.waiting.pop? (MergeEntry.le merge.order) = some (entry, waiting)) {source : σ}
    (hheld : LawfulSource.Held order admits source)
    (hpart : Source.part source = Part.skipTo order key (Source.part entry.source))
    (hreliable : Reliable order merge → LawfulSource.Reliable order source)
    {outcome : Except SourceError Bool × Merge σ}
    (hshifts : Shifts order admits (Part.skipTo order key)
      (({ merge with waiting } : Merge σ).takeIn source).value outcome) :
    Shifts order admits (Part.skipTo order key) merge outcome := by
  obtain ⟨hentries, hothers⟩ := hmerge.withoutFirst hidle hpop
  obtain ⟨-, hparts⟩ := hothers.takeIn hheld
  have hbefore : merge.parts.Perm
      (Source.part entry.source :: ({ merge with waiting } : Merge σ).parts) :=
    hentries.map fun entry : MergeEntry σ => Source.part entry.source
  rw [hpart] at hparts
  refine ⟨hshifts.led, ?_, fun hok => ?_, fun hall => ?_⟩
  · exact (Part.Shifted.of_moved (Part.skipTo_idem order key) hshifts.shifted hparts
      hothers.stocked_parts).perm hbefore
  -- to position the first source twice is to position it once
  · have hmoved : (Part.stocked ((Part.skipTo order key (Source.part entry.source) ::
        ({ merge with waiting } : Merge σ).parts).map (Part.skipTo order key))).Perm
        (Part.stocked (merge.parts.map (Part.skipTo order key))) := by
      rw [List.map_cons, Part.skipTo_idem]
      exact Part.stocked_perm (hbefore.map _).symm
    refine (hshifts.complete hok).trans ((Part.stocked_perm (hparts.map _)).trans ?_)
    rw [Part.stocked_map_stocked]
    · exact hmoved
    · intro part hempty
      rw [Part.skipTo, hempty]
      rfl
  · exact hshifts.reliable ((hall.withoutFirst hentries).takeIn (hreliable hall))

omit [Std.TransCmp order.compare] in
/-- Once the first of the entries was positioned, there is one less below the key. -/
theorem below_positioned {entry : MergeEntry σ} {waiting : PriorityQueue (MergeEntry σ)}
    (hentries : merge.entries.Perm (entry :: ({ merge with waiting } : Merge σ).entries))
    (hlt : order.compare entry.top key = .lt) {source : σ}
    (hheld : LawfulSource.Held order admits source)
    (hpart : Source.part source = Part.skipTo order key (Source.part entry.source)) :
    below order key (({ merge with waiting } : Merge σ).takeIn source).value <
      below order key merge := by
  have hge : ∀ cell ∈ (Source.remaining source).head?, order.compare cell key ≠ .lt := by
    rw [show Source.remaining source = _ from congrArg Part.cells hpart]
    exact CellOrder.head?_skipTo
  rw [below_takeIn_of_ge hheld hge, below, below, hentries.countP_eq,
    List.countP_cons_of_pos (by simpa using hlt)]
  exact Nat.lt_succ_self _

omit [Std.TransCmp order.compare] in
/-- Where there are no entries, there is nothing to move. -/
theorem Led.shifts_idle (hmerge : Led order admits merge) (hidle : merge.current = none) :
    Shifts order admits (Part.skipTo order key) merge (.ok false, merge) := by
  have hparts : merge.parts = [] := by
    rw [parts, entries_of_idle hidle, hmerge.idle hidle]
    rfl
  refine ⟨hmerge, .of_perm ?_, fun _ => ?_, fun hreliable => ⟨rfl, hreliable⟩⟩
  · rw [hmerge.stocked_parts]
  · rw [hparts]
    exact .refl _

/-- Entries are positioned until the first of them is in position. -/
theorem Tidy.skipTo {positioning : Positioning σ} (hpositioning : positioning.Forward order admits)
    {turns : Nat} (hmerge : Tidy order admits merge) (hidle : merge.current = none)
    (hturns : below order key merge < turns) :
    Shifts order admits (Part.skipTo order key) merge
      (skipTo positioning key turns merge).value := by
  -- each turn leaves one entry less that is below the key
  induction turns generalizing merge with
  | zero => omega
  | succ turns ih =>
      unfold Merge.skipTo
      cases hpop : merge.waiting.pop? (MergeEntry.le merge.order) with
      | none =>
          have hled : Led order admits merge :=
            ⟨hmerge, fun entry hcurrent => (nomatch hidle.symm.trans hcurrent),
              fun _ => PriorityQueue.pop?_eq_none hpop⟩
          exact hled.shifts_idle hidle
      | some popped =>
          obtain ⟨entry, waiting⟩ := popped
          obtain ⟨hentries, hothers⟩ := hmerge.withoutFirst hidle hpop
          have hmem : entry ∈ merge.entries := hentries.mem_iff.mpr List.mem_cons_self
          simp only
          split
          next hkey => exact hmerge.putBack hidle hpop (hmerge.sameOrder ▸ hkey)
          next hkey =>
            rw [hmerge.sameOrder] at hkey
            have hlt : order.compare entry.top key = .lt := by
              apply Std.OrientedCmp.gt_iff_lt.mp
              cases hcompare : order.compare key entry.top <;> simp_all
            obtain ⟨cells, hholds, hadmits⟩ := hmerge.held entry hmem
            have hmoved := hpositioning _ _ _ key hholds hadmits (hmerge.top entry hmem) hlt
            have hheld := LawfulSource.Held.of_moved hmoved hadmits
            simp only [Noted.value_bind]
            cases hresult : (positioning entry.source key).value.1 with
            | error failure =>
                apply hmerge.putBack_failed hidle hpop hheld (hmoved.part_of_error hresult)
                exact fun hall => hmoved.not_reliable_of_error hresult (hall entry hmem)
            | ok found =>
                have hpart := hmoved.part_of_ok hresult
                have hfewer := below_positioned hentries hlt hheld hpart
                exact hmerge.positioned hidle hpop hheld hpart
                  (fun hall => (hmoved.reliable (hall entry hmem)).2)
                  (ih (hothers.takeIn hheld).1 ((current_takeIn _ _).trans hidle) (by omega))

/-- To move forward to a key is to drop in every source what lies below it. -/
theorem Led.moveForward {positioning : Positioning σ}
    (hpositioning : positioning.Forward order admits) (hmerge : Led order admits merge)
    (key : Cell) :
    Shifts order admits (Part.skipTo order key) merge
      (merge.moveForward positioning key).value := by
  unfold Merge.moveForward
  split
  next hidle => exact hmerge.shifts_idle hidle
  next entry hcurrent =>
    have hentry := mem_entries_of_current hcurrent
    have hback := (hmerge.withoutCurrent hcurrent).enqueue (hmerge.held entry hentry)
      (hmerge.top entry hentry)
    have hkept : (enqueue { merge with current := none } entry).entries.Perm merge.entries := by
      rw [entries_of_current hcurrent]
      exact entries_enqueue _ entry
    have hturns : below order key (enqueue { merge with current := none } entry) <
        merge.size + 1 := by
      have hle : below order key (enqueue { merge with current := none } entry) ≤
          merge.entries.length := hkept.length_eq ▸ List.countP_le_length
      have hsize : merge.entries.length = merge.size := by
        rw [entries_of_current hcurrent, List.length_cons, size, hcurrent]
        rfl
      omega
    exact (hback.skipTo hpositioning rfl hturns).perm hkept.symm

/-! ## Positioning from anywhere -/

/-- Where a source stands that was positioned on a key from anywhere, if `held` are the cells of
the source of each rank. -/
def seekPart (order : CellOrder) (held : Nat → List Cell) (key : Cell) (part : Part) : Part :=
  ⟨part.rank, order.skipTo key (held part.rank)⟩

/-- Some of several entries were positioned and added to a merge, all of them if nothing has
failed. -/
structure Sought (order : CellOrder) [LawfulSource σ order] (admits : Nat → List Cell → Prop)
    (move : Part → Part) (entries : List (MergeEntry σ)) (merge : Merge σ)
    (outcome : Option SourceError × Merge σ) : Prop where
  tidy : Tidy order admits outcome.2
  idle : outcome.2.current = none
  shifted : ∃ after, Part.Shifted move (entries.map fun entry => Source.part entry.source) after ∧
    outcome.2.parts.Perm (after ++ merge.parts)
  complete : outcome.1 = none → outcome.2.parts.Perm
    (Part.stocked ((entries.map fun entry => Source.part entry.source).map move) ++ merge.parts)
  reliable : (∀ entry ∈ entries, LawfulSource.Reliable order entry.source) →
    Reliable order merge → outcome.1 = none ∧ Reliable order outcome.2

/-- Entries that are put into a merge as they are. -/
theorem Tidy.enqueueAll {entries : List (MergeEntry σ)} (hmerge : Tidy order admits merge)
    (hheld : ∀ entry ∈ entries, LawfulSource.Held order admits entry.source)
    (htop : ∀ entry ∈ entries, Source.peek entry.source = some entry.top) :
    Tidy order admits (entries.foldl Merge.enqueue merge) ∧
      (entries.foldl Merge.enqueue merge).current = merge.current ∧
      (entries.foldl Merge.enqueue merge).parts.Perm
        (Part.stocked (entries.map fun entry => Source.part entry.source) ++ merge.parts) := by
  induction entries generalizing merge with
  | nil => exact ⟨hmerge, rfl, .refl _⟩
  | cons entry rest ih =>
      obtain ⟨hentry, hrest⟩ := List.forall_mem_cons.mp hheld
      obtain ⟨hentryTop, hrestTop⟩ := List.forall_mem_cons.mp htop
      obtain ⟨htidy, hcurrent, hparts⟩ := ih (hmerge.enqueue hentry hentryTop) hrest hrestTop
      refine ⟨htidy, hcurrent, hparts.trans ?_⟩
      rw [List.map_cons, Part.stocked_cons_of_ne_nil (hentry.ne_nil hentryTop)]
      exact ((parts_enqueue merge entry).append_left _).trans List.perm_middle

/-- A source that was positioned before the others is taken in. -/
theorem Sought.cons {move : Part → Part} {entries : List (MergeEntry σ)} {entry : MergeEntry σ}
    {source : σ} {outcome : Option SourceError × Merge σ} (hmerge : Tidy order admits merge)
    (hheld : LawfulSource.Held order admits source)
    (hpart : Source.part source = move (Source.part entry.source))
    (hreliable : LawfulSource.Reliable order entry.source → LawfulSource.Reliable order source)
    (hsought : Sought order admits move entries (merge.takeIn source).value outcome) :
    Sought order admits move (entry :: entries) merge outcome := by
  have hparts := (hmerge.takeIn hheld).2
  rw [hpart, Part.stocked_cons, hmerge.stocked_parts] at hparts
  obtain ⟨after, hshifted, hafter⟩ := hsought.shifted
  refine ⟨hsought.tidy, hsought.idle, ⟨_, hshifted.cons (Source.part entry.source), ?_⟩,
    fun hnone => ?_, fun hentries hothers => ?_⟩
  · rw [List.append_assoc]
    exact (hafter.trans (hparts.append_left _)).trans (List.perm_append_comm_assoc _ _ _)
  · rw [List.map_cons, List.map_cons, Part.stocked_cons, List.append_assoc]
    exact ((hsought.complete hnone).trans (hparts.append_left _)).trans
      (List.perm_append_comm_assoc _ _ _)
  · obtain ⟨hentry, hrest⟩ := List.forall_mem_cons.mp hentries
    exact hsought.reliable hrest (hothers.takeIn (hreliable hentry))

/-- Entries are positioned one after the other until one fails. -/
theorem Tidy.seekEach {held : Nat → List Cell}
    (hadmits : ∀ rank cells, admits rank cells → cells = held rank)
    {entries : List (MergeEntry σ)} (hmerge : Tidy order admits merge)
    (hidle : merge.current = none)
    (hheld : ∀ entry ∈ entries, LawfulSource.Held order admits entry.source)
    (htop : ∀ entry ∈ entries, Source.peek entry.source = some entry.top) (key : Cell) :
    Sought order admits (seekPart order held key) entries merge
      (merge.seekEach key entries).value := by
  induction entries generalizing merge with
  | nil =>
      exact ⟨hmerge, hidle, ⟨[], .of_perm (.refl _), .refl _⟩, fun _ => .refl _,
        fun _ hreliable => ⟨rfl, hreliable⟩⟩
  | cons entry rest ih =>
      obtain ⟨hentry, hrest⟩ := List.forall_mem_cons.mp hheld
      obtain ⟨hentryTop, hrestTop⟩ := List.forall_mem_cons.mp htop
      obtain ⟨cells, hholds, hcells⟩ := hentry
      have hmoved : Moved _ _ _ _ _ (Positioning.seek entry.source key).value :=
        Positioning.seek_lawful key hholds
      have hafter := LawfulSource.Held.of_moved hmoved hcells
      simp only [Merge.seekEach, Noted.value_bind]
      cases hresult : (Positioning.seek entry.source key).value.1 with
      | error failure =>
          -- the source that fails keeps its cells, and waits again with those not yet positioned
          have hpart := hmoved.part_of_error hresult
          have hafterTop : Source.peek (Positioning.seek entry.source key).value.2 =
              some entry.top := by
            rw [hafter.peek_eq, show Source.remaining _ = _ from congrArg Part.cells hpart,
              ← hentryTop]
            exact (LawfulSource.peek_eq hholds).symm
          let kept : MergeEntry σ :=
            { entry with source := (Positioning.seek entry.source key).value.2 }
          have htops : ∀ other ∈ kept :: rest, Source.peek other.source = some other.top :=
            List.forall_mem_cons.mpr ⟨hafterTop, hrestTop⟩
          obtain ⟨htidy, hcurrent, hparts⟩ := hmerge.enqueueAll
            (List.forall_mem_cons.mpr ⟨hafter, hrest⟩) htops
          refine ⟨htidy, hcurrent.trans hidle, ⟨_, .of_perm ?_, hparts⟩, nofun, ?_⟩
          · rw [List.map_cons, List.map_cons, hpart]
          · intro hreliable
            exact absurd (hreliable entry List.mem_cons_self) (hmoved.not_reliable_of_error hresult)
      | ok found =>
          have hpart := hmoved.part_of_ok hresult
          rw [hadmits _ _ hcells] at hpart
          exact .cons hmerge hafter hpart (fun hreliable => (hmoved.reliable hreliable).2)
            (ih (hmerge.takeIn hafter).1 ((current_takeIn _ _).trans hidle) hrest hrestTop)

/-- To seek is to position all sources that still have cells anew. -/
theorem Led.seek {held : Nat → List Cell}
    (hadmits : ∀ rank cells, admits rank cells → cells = held rank)
    (hmerge : Led order admits merge) (key : Cell) :
    Shifts order admits (seekPart order held key) merge (merge.seek key).value := by
  let start : Merge σ := { merge with current := none, waiting := .empty }
  have hstart : Tidy order admits start :=
    ⟨hmerge.sameOrder, nofun, nofun, PriorityQueue.empty_isHeap⟩
  have hnone : start.parts = [] := rfl
  have hsought := hstart.seekEach hadmits rfl hmerge.held hmerge.top key
  have hpromoted := parts_promote hsought.idle
  obtain ⟨after, hshifted, hafter⟩ := hsought.shifted
  have hcomplete := hsought.complete
  rw [hnone, List.append_nil] at hafter hcomplete
  have hreliable : Reliable order merge → _ := fun hall => hsought.reliable hall nofun
  simp only [Merge.seek, Noted.value_bind]
  cases hresult : (start.seekEach key merge.entries).value.1 with
  | some failure =>
      refine ⟨hsought.tidy.promote hsought.idle, ?_, nofun, fun hall => ?_⟩
      · exact hshifted.of_perm_after (hpromoted.trans hafter)
      · have hfailed := (hreliable hall).1
        rw [hresult] at hfailed
        cases hfailed
  | none =>
      exact ⟨hsought.tidy.promote hsought.idle,
        hshifted.of_perm_after (hpromoted.trans hafter),
        fun _ => hpromoted.trans (hcomplete hresult),
        fun hall => ⟨rfl, (hreliable hall).2.promote hsought.idle⟩⟩

/-! ## Opening -/

/-- Sources that are taken in one after the other contribute what they have left. -/
theorem Tidy.takeInAll {sources : List σ} (hmerge : Tidy order admits merge)
    (hheld : ∀ source ∈ sources, LawfulSource.Held order admits source) :
    Tidy order admits (merge.takeInAll sources).value ∧
      (merge.takeInAll sources).value.parts.Perm
        (Part.stocked (sources.map Source.part) ++ merge.parts) := by
  induction sources generalizing merge with
  | nil => exact ⟨hmerge, .refl _⟩
  | cons source rest ih =>
      obtain ⟨hsource, hrest⟩ := List.forall_mem_cons.mp hheld
      obtain ⟨htaken, hparts⟩ := hmerge.takeIn hsource
      obtain ⟨hall, hrestParts⟩ := ih htaken hrest
      rw [Part.stocked_cons, hmerge.stocked_parts] at hparts
      refine ⟨hall, (hrestParts.trans (hparts.append_left _)).trans ?_⟩
      rw [List.map_cons, Part.stocked_cons _ (rest.map Source.part), List.append_assoc]
      exact List.perm_append_comm_assoc _ _ _

/-- A merge of sources has what they have left. -/
theorem ofSources_led {sources : List σ}
    (hheld : ∀ source ∈ sources, LawfulSource.Held order admits source) :
    Led order admits (ofSources order sources).value ∧
      (ofSources order sources).value.parts.Perm (Part.stocked (sources.map Source.part)) := by
  let start : Merge σ := ⟨order, none, .empty, []⟩
  have hstart : Tidy order admits start := ⟨rfl, nofun, nofun, PriorityQueue.empty_isHeap⟩
  have hnone : start.parts = [] := rfl
  obtain ⟨htaken, hparts⟩ := hstart.takeInAll hheld
  rw [hnone, List.append_nil] at hparts
  have hidle := current_takeInAll start sources
  exact ⟨htaken.promote hidle, (parts_promote hidle).trans hparts⟩

end MergeScan.Merge
