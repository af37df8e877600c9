import MergeScan.Merge.Basic
import MergeScan.Proofs.Merge.Parts
import MergeScan.Proofs.Merge.Queue
import MergeScan.Proofs.Source.Lawful

/-! # The entries of a merge

Every entry of a merge shows the cell under the cursor of its source, the waiting
entries are a heap, and no entry comes before the current one. The operations of a
merge keep it so, whatever cells the sources hold and also where one of them fails,
and what each operation does is said of the cells that the sources have left.
-/

namespace MergeScan

variable {σ : Type} [Source σ] {order : CellOrder}

/-- What a source contributes to a merge. -/
def Source.part (source : σ) : Part :=
  ⟨Source.sequenceId source, Source.remaining source⟩

namespace MergeEntry

theorem rank_eq_compareLex [Std.OrientedCmp order.compare] :
    (rank order : MergeEntry σ → MergeEntry σ → Ordering) =
      compareLex (fun left right => order.compare right.top left.top)
        (compareOn fun entry => Source.sequenceId entry.source) := by
  funext left right
  rw [rank, ← Std.OrientedCmp.eq_swap]
  rfl

instance [Std.TransCmp order.compare] :
    Std.TransCmp (rank order : MergeEntry σ → MergeEntry σ → Ordering) := by
  rw [rank_eq_compareLex]
  have htops : Std.TransCmp fun left right : MergeEntry σ => order.compare right.top left.top :=
    { eq_swap := Std.OrientedCmp.eq_swap
      isLE_trans := fun hfirst hsecond => Std.TransCmp.isLE_trans hsecond hfirst }
  infer_instance

theorem le_isRanking [Std.TransCmp order.compare] :
    PriorityQueue.IsRanking (le order : MergeEntry σ → MergeEntry σ → Bool) where
  trans := Std.TransCmp.isLE_trans
  total {first second} hfalse := by
    have hswap : rank order second first = (rank order first second).swap :=
      Std.OrientedCmp.eq_swap
    unfold le at hfalse ⊢
    rw [hswap]
    cases hrank : rank order first second <;> simp_all

/-- An entry that comes first has the smaller cell, or an equal one of a fresher source. -/
theorem le_iff [Std.OrientedCmp order.compare] {left right : MergeEntry σ} :
    le order left right = true ↔ order.compare right.top left.top = .lt ∨
      order.compare right.top left.top = .eq ∧
        Source.sequenceId left.source ≤ Source.sequenceId right.source := by
  rw [le, rank_eq_compareLex, compareLex, compareOn]
  cases order.compare right.top left.top <;> simp [Nat.isLE_compare]

/-- The cell of an entry that comes first is the smaller one. -/
theorem isLE_of_le [Std.OrientedCmp order.compare] {left right : MergeEntry σ}
    (hle : le order left right = true) : (order.compare right.top left.top).isLE = true := by
  rcases le_iff.mp hle with hlt | ⟨heq, -⟩
  · rw [hlt]
    rfl
  · rw [heq]
    rfl

end MergeEntry

namespace LawfulSource

variable [LawfulSource σ order] {admits : Nat → List Cell → Prop} {source : σ}
  {cells rest : List Cell}

/-- A source that keeps its promises, with cells that are admitted at its rank. -/
def Held (order : CellOrder) [LawfulSource σ order] (admits : Nat → List Cell → Prop)
    (source : σ) : Prop :=
  ∃ cells, Holds order source cells ∧ admits (Source.sequenceId source) cells

theorem Held.peek_eq (hheld : Held order admits source) :
    Source.peek source = (Source.remaining source).head? := by
  obtain ⟨cells, hholds, -⟩ := hheld
  exact LawfulSource.peek_eq hholds

/-- A source with a cell under its cursor has cells left. -/
theorem Held.ne_nil (hheld : Held order admits source) {top : Cell}
    (htop : Source.peek source = some top) : (Source.part source).cells ≠ [] := by
  intro hempty
  have hempty : Source.remaining source = [] := hempty
  rw [hheld.peek_eq, hempty] at htop
  cases htop

variable {α : Type} {outcome : Except SourceError α × σ}

/-- A source that was moved holds the same cells. -/
theorem Held.of_moved (hmoved : Moved (Holds order) (Reliable order) source cells rest outcome)
    (hadmits : admits (Source.sequenceId source) cells) : Held order admits outcome.2 :=
  ⟨cells, hmoved.holds, hmoved.sequenceId ▸ hadmits⟩

end LawfulSource

/-- A source that was moved contributes what is left of its cells. -/
theorem Moved.part_of_ok {α : Type} {Holds : σ → List Cell → Prop} {Reliable : σ → Prop}
    {source : σ} {cells rest : List Cell} {outcome : Except SourceError α × σ}
    (hmoved : Moved Holds Reliable source cells rest outcome) {answer : α}
    (hok : outcome.1 = .ok answer) :
    Source.part outcome.2 = ⟨Source.sequenceId source, rest⟩ := by
  have hremaining := hmoved.remaining
  rw [hok] at hremaining
  rw [Source.part, hmoved.sequenceId, hremaining]
  rfl

/-- A source that failed to move contributes what it did before. -/
theorem Moved.part_of_error {α : Type} {Holds : σ → List Cell → Prop} {Reliable : σ → Prop}
    {source : σ} {cells rest : List Cell} {outcome : Except SourceError α × σ}
    (hmoved : Moved Holds Reliable source cells rest outcome) {failure : SourceError}
    (herror : outcome.1 = .error failure) : Source.part outcome.2 = Source.part source := by
  have hremaining := hmoved.remaining
  rw [herror] at hremaining
  rw [Source.part, hmoved.sequenceId, hremaining]
  rfl

/-- A source that failed to move was not reliable. -/
theorem Moved.not_reliable_of_error {α : Type} {Holds : σ → List Cell → Prop} {Reliable : σ → Prop}
    {source : σ} {cells rest : List Cell} {outcome : Except SourceError α × σ}
    (hmoved : Moved Holds Reliable source cells rest outcome) {failure : SourceError}
    (herror : outcome.1 = .error failure) : ¬Reliable source := by
  intro hreliable
  have hok := (hmoved.reliable hreliable).1
  rw [herror] at hok
  cases hok

/-- What a forward way of positioning does to a source with admitted cells, if its cell is
below the key. -/
def Positioning.Forward (order : CellOrder) [LawfulSource σ order]
    (admits : Nat → List Cell → Prop) (positioning : Positioning σ) : Prop :=
  ∀ (source : σ) (cells : List Cell) (top key : Cell), LawfulSource.Holds order source cells →
    admits (Source.sequenceId source) cells → Source.peek source = some top →
    order.compare top key = .lt →
    Moved (LawfulSource.Holds order) (LawfulSource.Reliable order) source cells
      (order.skipTo key (Source.remaining source)) (positioning source key).value

theorem Positioning.LawfulForward.forward [LawfulSource σ order] {positioning : Positioning σ}
    (hpositioning : positioning.LawfulForward order) (admits : Nat → List Cell → Prop) :
    positioning.Forward order admits :=
  fun _ _ _ _ hholds _ htop hlt => hpositioning hholds htop hlt

namespace Merge

section Entries

omit [Source σ]
variable {merge : Merge σ}

theorem entries_of_idle (hidle : merge.current = none) : merge.entries = merge.waiting.toList := by
  rw [entries, hidle]
  rfl

theorem entries_of_current {entry : MergeEntry σ} (hcurrent : merge.current = some entry) :
    merge.entries = entry :: merge.waiting.toList := by
  rw [entries, hcurrent]
  rfl

theorem mem_entries_of_current {entry : MergeEntry σ} (hcurrent : merge.current = some entry) :
    entry ∈ merge.entries := by
  rw [entries_of_current hcurrent]
  exact List.mem_cons_self

/-- Make an entry current that was taken out before. -/
def withCurrent (merge : Merge σ) (entry : MergeEntry σ) : Merge σ :=
  { merge with current := some entry }

theorem entries_withCurrent (hidle : merge.current = none) (entry : MergeEntry σ) :
    (merge.withCurrent entry).entries = entry :: merge.entries := by
  rw [entries_of_idle hidle, entries_of_current rfl]
  rfl

end Entries

/-- What the sources of a merge contribute to it. -/
def parts (merge : Merge σ) : List Part :=
  merge.entries.map fun entry => Source.part entry.source

variable {merge : Merge σ} {source : σ}

/-! ## Taking sources in -/

theorem entries_enqueue (merge : Merge σ) (entry : MergeEntry σ) :
    (merge.enqueue entry).entries.Perm (entry :: merge.entries) := by
  simp only [entries, enqueue]
  exact ((PriorityQueue.push_perm merge.waiting entry).append_left _).trans List.perm_middle

theorem parts_enqueue (merge : Merge σ) (entry : MergeEntry σ) :
    (merge.enqueue entry).parts.Perm (Source.part entry.source :: merge.parts) :=
  (entries_enqueue merge entry).map _

@[simp] theorem current_release (merge : Merge σ) (source : σ) :
    (merge.release source).value.current = merge.current := by
  simp only [release, Noted.value_bind]
  split <;> rfl

@[simp] theorem waiting_release (merge : Merge σ) (source : σ) :
    (merge.release source).value.waiting = merge.waiting := by
  simp only [release, Noted.value_bind]
  split <;> rfl

@[simp] theorem order_release (merge : Merge σ) (source : σ) :
    (merge.release source).value.order = merge.order := by
  simp only [release, Noted.value_bind]
  split <;> rfl

@[simp] theorem entries_release (merge : Merge σ) (source : σ) :
    (merge.release source).value.entries = merge.entries := by
  rw [entries, current_release, waiting_release, entries]

@[simp] theorem parts_release (merge : Merge σ) (source : σ) :
    (merge.release source).value.parts = merge.parts := by
  rw [parts, entries_release, parts]

theorem entries_promote (hidle : merge.current = none) :
    merge.promote.entries.Perm merge.entries := by
  unfold promote
  split
  next entry waiting hpop =>
    rw [entries_of_idle hidle]
    exact (PriorityQueue.pop?_perm hpop).symm
  next hnone =>
    rw [entries_of_idle hidle, PriorityQueue.pop?_eq_none hnone]
    simp [entries, PriorityQueue.pop?_eq_none hnone]

theorem order_promote (merge : Merge σ) : merge.promote.order = merge.order := by
  unfold promote
  split <;> rfl

theorem current_takeIn (merge : Merge σ) (source : σ) :
    (merge.takeIn source).value.current = merge.current := by
  unfold takeIn
  split
  · rfl
  · exact current_release merge source

theorem current_takeInAll (merge : Merge σ) (sources : List σ) :
    (merge.takeInAll sources).value.current = merge.current := by
  induction sources generalizing merge with
  | nil => rfl
  | cons source rest ih => exact (ih _).trans (current_takeIn merge source)

variable [LawfulSource σ order] {admits : Nat → List Cell → Prop}

/-- What holds of the entries of a merge, whichever of them is current, where `admits` says
what cells a source of some rank may hold. -/
structure Tidy (order : CellOrder) [LawfulSource σ order] (admits : Nat → List Cell → Prop)
    (merge : Merge σ) : Prop where
  sameOrder : merge.order = order
  held entry : entry ∈ merge.entries → LawfulSource.Held order admits entry.source
  top entry : entry ∈ merge.entries → Source.peek entry.source = some entry.top
  heap : PriorityQueue.IsHeap (MergeEntry.le order) merge.waiting.slots

/-- A tidy merge whose current entry comes first, and that has one if it has any entries. -/
structure Led (order : CellOrder) [LawfulSource σ order] (admits : Nat → List Cell → Prop)
    (merge : Merge σ) : Prop extends Tidy order admits merge where
  first entry : merge.current = some entry →
    ∀ other ∈ merge.waiting.toList, MergeEntry.le order other entry = true
  idle : merge.current = none → merge.waiting.toList = []

/-! ## Sources that do not fail -/

/-- A merge of sources that do not fail. -/
def Reliable (order : CellOrder) [LawfulSource σ order] (merge : Merge σ) : Prop :=
  ∀ entry ∈ merge.entries, LawfulSource.Reliable order entry.source

theorem Reliable.perm {other : Merge σ} (hreliable : Reliable order merge)
    (hentries : other.entries.Perm merge.entries) : Reliable order other :=
  fun entry hentry => hreliable entry (hentries.mem_iff.mp hentry)

theorem Reliable.enqueue (hreliable : Reliable order merge) {entry : MergeEntry σ}
    (hentry : LawfulSource.Reliable order entry.source) : Reliable order (merge.enqueue entry) := by
  intro other hother
  rcases List.mem_cons.mp ((entries_enqueue merge entry).mem_iff.mp hother) with rfl | hmem
  · exact hentry
  · exact hreliable other hmem

theorem Reliable.release (hreliable : Reliable order merge) (source : σ) :
    Reliable order (merge.release source).value := by
  intro entry hentry
  rw [entries_release] at hentry
  exact hreliable entry hentry

theorem Reliable.takeIn (hreliable : Reliable order merge)
    (hsource : LawfulSource.Reliable order source) :
    Reliable order (merge.takeIn source).value := by
  unfold Merge.takeIn
  split
  · exact hreliable.enqueue hsource
  · exact hreliable.release source

theorem Reliable.promote (hreliable : Reliable order merge) (hidle : merge.current = none) :
    Reliable order merge.promote :=
  hreliable.perm (entries_promote hidle)

theorem Reliable.withoutCurrent (hreliable : Reliable order merge) {entry : MergeEntry σ}
    (hcurrent : merge.current = some entry) : Reliable order { merge with current := none } := by
  intro other hother
  apply hreliable
  rw [entries_of_current hcurrent]
  exact List.mem_cons_of_mem _ hother

theorem Reliable.settle (hreliable : Reliable order merge) (hidle : merge.current = none)
    (hsource : LawfulSource.Reliable order source) :
    Reliable order (merge.settle source).value := by
  unfold Merge.settle
  cases Source.peek source with
  | none => exact (hreliable.release source).promote ((current_release merge source).trans hidle)
  | some top =>
      have hcurrent : Reliable order (merge.withCurrent ⟨top, source⟩) := by
        intro entry hentry
        rw [entries_withCurrent hidle] at hentry
        rcases List.mem_cons.mp hentry with rfl | hmem
        · exact hsource
        · exact hreliable entry hmem
      cases merge.waiting.peek? with
      | none => exact hcurrent
      | some first =>
          simp only
          split
          · exact hcurrent
          · exact (hreliable.enqueue hsource).promote hidle

/-! ## Tidy merges -/

theorem Tidy.remaining_eq (hmerge : Tidy order admits merge) {entry : MergeEntry σ}
    (hentry : entry ∈ merge.entries) :
    Source.remaining entry.source = entry.top :: (Source.remaining entry.source).tail := by
  have htop := hmerge.top entry hentry
  rw [(hmerge.held entry hentry).peek_eq] at htop
  obtain ⟨rest, hrest⟩ := List.head?_eq_some_iff.mp htop
  rw [hrest, List.tail_cons]

/-- Every source in a merge has cells left. -/
theorem Tidy.ne_nil (hmerge : Tidy order admits merge) {part : Part} (hpart : part ∈ merge.parts) :
    part.cells ≠ [] := by
  obtain ⟨entry, hentry, rfl⟩ := List.mem_map.mp hpart
  exact (hmerge.held entry hentry).ne_nil (hmerge.top entry hentry)

theorem Tidy.stocked_parts (hmerge : Tidy order admits merge) :
    Part.stocked merge.parts = merge.parts :=
  Part.stocked_eq_self fun _ => hmerge.ne_nil

theorem Tidy.perm (hmerge : Tidy order admits merge) {other : Merge σ}
    (horder : other.order = order) (hentries : other.entries.Perm merge.entries)
    (hheap : PriorityQueue.IsHeap (MergeEntry.le order) other.waiting.slots) :
    Tidy order admits other where
  sameOrder := horder
  held entry hentry := hmerge.held entry (hentries.mem_iff.mp hentry)
  top entry hentry := hmerge.top entry (hentries.mem_iff.mp hentry)
  heap := hheap

theorem Tidy.release (hmerge : Tidy order admits merge) (source : σ) :
    Tidy order admits (merge.release source).value where
  sameOrder := (order_release merge source).trans hmerge.sameOrder
  held := by simpa using hmerge.held
  top := by simpa using hmerge.top
  heap := by simpa using hmerge.heap

/-- What is left of a merge without its current entry. -/
theorem Tidy.withoutCurrent (hmerge : Tidy order admits merge) {entry : MergeEntry σ}
    (hcurrent : merge.current = some entry) :
    Tidy order admits { merge with current := none } := by
  have hentries : ∀ other ∈ ({ merge with current := none } : Merge σ).entries,
      other ∈ merge.entries := by
    intro other hother
    rw [entries_of_current hcurrent]
    exact List.mem_cons_of_mem _ hother
  exact ⟨hmerge.sameOrder, fun other hother => hmerge.held other (hentries other hother),
    fun other hother => hmerge.top other (hentries other hother), hmerge.heap⟩

variable [Std.TransCmp order.compare]

theorem Tidy.enqueue (hmerge : Tidy order admits merge) {entry : MergeEntry σ}
    (hheld : LawfulSource.Held order admits entry.source)
    (htop : Source.peek entry.source = some entry.top) :
    Tidy order admits (merge.enqueue entry) where
  sameOrder := hmerge.sameOrder
  held other hother := by
    rcases List.mem_cons.mp ((entries_enqueue merge entry).mem_iff.mp hother) with rfl | hmem
    · exact hheld
    · exact hmerge.held other hmem
  top other hother := by
    rcases List.mem_cons.mp ((entries_enqueue merge entry).mem_iff.mp hother) with rfl | hmem
    · exact htop
    · exact hmerge.top other hmem
  heap := by
    have hpushed := PriorityQueue.push_isHeap MergeEntry.le_isRanking hmerge.heap entry
    rw [← hmerge.sameOrder] at hpushed ⊢
    exact hpushed

/-- A source is taken in if it has cells left. -/
theorem Tidy.takeIn (hmerge : Tidy order admits merge)
    (hheld : LawfulSource.Held order admits source) :
    Tidy order admits (merge.takeIn source).value ∧
      (merge.takeIn source).value.parts.Perm
        (Part.stocked (Source.part source :: merge.parts)) := by
  unfold Merge.takeIn
  split
  next top htop =>
    rw [Part.stocked_cons_of_ne_nil (hheld.ne_nil htop), hmerge.stocked_parts]
    exact ⟨hmerge.enqueue hheld htop, parts_enqueue merge ⟨top, source⟩⟩
  next hnone =>
    rw [hheld.peek_eq, List.head?_eq_none_iff] at hnone
    rw [Part.stocked_cons_of_nil hnone, hmerge.stocked_parts, parts_release]
    exact ⟨hmerge.release source, .refl _⟩

/-! ## Finding the first entry -/

/-- Once an entry is current that comes first, the merge is in order. -/
theorem Tidy.promote (hmerge : Tidy order admits merge) (hidle : merge.current = none) :
    Led order admits merge.promote := by
  have hentries := entries_promote hidle
  have horder : merge.promote.order = order := (order_promote merge).trans hmerge.sameOrder
  cases hpop : merge.waiting.pop? (MergeEntry.le merge.order) with
  | some popped =>
      obtain ⟨entry, waiting⟩ := popped
      simp only [Merge.promote, hpop] at horder hentries ⊢
      rw [hmerge.sameOrder] at hpop
      have hheap := PriorityQueue.pop?_isHeap MergeEntry.le_isRanking hmerge.heap hpop
      refine ⟨hmerge.perm horder hentries hheap, ?_, nofun⟩
      rintro first ⟨⟩ other hother
      apply PriorityQueue.peek?_greatest MergeEntry.le_isRanking hmerge.heap
        (PriorityQueue.pop?_peek? hpop)
      exact (PriorityQueue.pop?_perm hpop).mem_iff.mpr (List.mem_cons_of_mem _ hother)
  | none =>
      simp only [Merge.promote, hpop] at horder hentries ⊢
      refine ⟨hmerge.perm horder hentries hmerge.heap, nofun, ?_⟩
      intro _
      exact PriorityQueue.pop?_eq_none hpop

theorem parts_promote (hidle : merge.current = none) : merge.promote.parts.Perm merge.parts :=
  (entries_promote hidle).map _

/-- The current entry has the smallest cell, and of equal cells the one of the freshest source. -/
theorem Led.le_of_mem (hmerge : Led order admits merge) {entry other : MergeEntry σ}
    (hcurrent : merge.current = some entry) (hother : other ∈ merge.entries) :
    MergeEntry.le order other entry = true := by
  rw [entries_of_current hcurrent] at hother
  rcases List.mem_cons.mp hother with rfl | hmem
  · exact MergeEntry.le_iff.mpr (.inr ⟨Std.ReflCmp.compare_self, Nat.le_refl _⟩)
  · exact hmerge.first entry hcurrent other hmem

/-- The source that was current is put where it belongs. -/
theorem Tidy.settle (hmerge : Tidy order admits merge) (hidle : merge.current = none)
    (hheld : LawfulSource.Held order admits source) :
    Led order admits (merge.settle source).value ∧
      (merge.settle source).value.parts.Perm
        (Part.stocked (Source.part source :: merge.parts)) := by
  obtain ⟨htaken, hparts⟩ := hmerge.takeIn hheld
  have hcurrent := (current_takeIn merge source).trans hidle
  have hled := htaken.promote hcurrent
  have hpromoted := (parts_promote hcurrent).trans hparts
  unfold Merge.settle
  unfold Merge.takeIn at hled hpromoted
  cases htop : Source.peek source with
  | none =>
      simp only [htop] at hled hpromoted ⊢
      exact ⟨hled, hpromoted⟩
  | some top =>
      simp only [htop] at hled hpromoted ⊢
      have hentries := entries_withCurrent hidle ⟨top, source⟩
      have hperm := (entries_enqueue merge ⟨top, source⟩).symm
      rw [← hentries] at hperm
      have hstays : Tidy order admits (merge.withCurrent ⟨top, source⟩) :=
        (hmerge.enqueue hheld htop).perm hmerge.sameOrder hperm hmerge.heap
      have hsame : (merge.withCurrent ⟨top, source⟩).parts.Perm
          (Part.stocked (Source.part source :: merge.parts)) := by
        have hall : (merge.withCurrent ⟨top, source⟩).parts =
            Source.part source :: merge.parts := by
          rw [parts, hentries]
          rfl
        rw [← hall, hstays.stocked_parts]
      -- it stays current unless the first of those that wait comes before it
      split
      next first hfirst =>
        split
        next hle =>
          refine ⟨⟨hstays, ?_, nofun⟩, hsame⟩
          rintro _ ⟨⟩ other hother
          rw [hmerge.sameOrder] at hle
          exact MergeEntry.le_isRanking.trans
            (PriorityQueue.peek?_greatest MergeEntry.le_isRanking hmerge.heap hfirst hother) hle
        next => exact ⟨hled, hpromoted⟩
      next hnone =>
        refine ⟨⟨hstays, ?_, nofun⟩, hsame⟩
        intro _ _ other hother
        have hempty : other ∈ merge.waiting.toList := hother
        rw [PriorityQueue.peek?_eq_none hnone] at hempty
        cases hempty

end Merge

end MergeScan
