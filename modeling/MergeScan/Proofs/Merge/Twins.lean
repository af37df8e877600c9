import MergeScan.Merge.Basic
import MergeScan.Proofs.Journal.Twins
import MergeScan.Proofs.Merge.Queue

/-! # Merges in step

Two merges over different sources are twins if their sources stand in pairs at the same places,
each showing the same cell as the other. A merge compares nothing but the cells on top and the
ranks of sources. So what is done to one merge goes the same way with the other, as long as the
sources of a pair answer alike.
-/

namespace MergeScan

/-! ## Queues -/

namespace PriorityQueue

variable {α β : Type} {related : α → β → Prop} {le : α → α → Bool} {other : β → β → Bool}

/-- Arrays with related items at the same places. -/
def TwinSlots (related : α → β → Prop) (left : Array α) (right : Array β) : Prop :=
  ∀ position : Nat, Option.Rel related left[position]? right[position]?

/-- Comparisons that order related items alike. -/
def TwinOrders (related : α → β → Prop) (le : α → α → Bool) (other : β → β → Bool) : Prop :=
  ∀ low high another greater, related low another → related high greater →
    le low high = other another greater

section Slots

variable {left : Array α} {right : Array β} {position : Nat}

theorem TwinSlots.size_eq (hslots : TwinSlots related left right) : left.size = right.size := by
  refine Nat.le_antisymm (Nat.not_lt.mp fun hlt => ?_) (Nat.not_lt.mp fun hlt => ?_)
  · have hrel := hslots right.size
    rw [Array.getElem?_eq_getElem hlt, Array.getElem?_size] at hrel
    cases hrel
  · have hrel := hslots left.size
    rw [Array.getElem?_eq_getElem hlt, Array.getElem?_size] at hrel
    cases hrel

theorem TwinSlots.exchange (hslots : TwinSlots related left right) (first second : Nat) :
    TwinSlots related (left.swapIfInBounds first second) (right.swapIfInBounds first second) := by
  have hsize := hslots.size_eq
  by_cases hfirst : first < left.size
  · by_cases hsecond : second < left.size
    · intro position
      rw [getElem?_exchange hfirst hsecond, getElem?_exchange (hsize ▸ hfirst) (hsize ▸ hsecond)]
      exact hslots _
    · rw [Array.swapIfInBounds_def, Array.swapIfInBounds_def, dif_pos hfirst, dif_neg hsecond,
        dif_pos (hsize ▸ hfirst), dif_neg (hsize ▸ hsecond)]
      exact hslots
  · rw [Array.swapIfInBounds_def, Array.swapIfInBounds_def, dif_neg hfirst,
      dif_neg (hsize ▸ hfirst)]
    exact hslots

theorem TwinSlots.rise (hslots : TwinSlots related left right)
    (horders : TwinOrders related le other)
    (fuel position : Nat) :
    TwinSlots related (rise le fuel left position)
      (PriorityQueue.rise other fuel right position) := by
  induction fuel generalizing left right position with
  | zero => exact hslots
  | succ fuel ih =>
      have hitem := hslots position
      have habove := hslots ((position - 1) / 2)
      unfold PriorityQueue.rise
      dsimp only
      revert hitem habove
      generalize left[position]? = item, right[position]? = another
      generalize left[(position - 1) / 2]? = above, right[(position - 1) / 2]? = higher
      rintro (⟨hitem⟩ | _) (⟨habove⟩ | _)
      · dsimp only
        rw [horders _ _ _ _ hitem habove]
        split
        · exact hslots
        · exact ih (hslots.exchange _ _) _
      all_goals exact hslots

theorem TwinSlots.sink (hslots : TwinSlots related left right)
    (horders : TwinOrders related le other)
    (fuel position : Nat) :
    TwinSlots related (sink le fuel left position).1
        (PriorityQueue.sink other fuel right position).1 ∧
      (PriorityQueue.sink le fuel left position).2 =
        (PriorityQueue.sink other fuel right position).2 := by
  induction fuel generalizing left right position with
  | zero => exact ⟨hslots, rfl⟩
  | succ fuel ih =>
      have hfirst := hslots (2 * position + 1)
      have hsecond := hslots (2 * position + 2)
      unfold PriorityQueue.sink
      dsimp only
      revert hfirst hsecond
      generalize left[2 * position + 1]? = first, right[2 * position + 1]? = another
      generalize left[2 * position + 2]? = second, right[2 * position + 2]? = last
      rintro (⟨hfirst⟩ | _) (⟨hsecond⟩ | _)
      · dsimp only
        rw [horders _ _ _ _ hfirst hsecond]
        exact ih (hslots.exchange _ _) _
      · exact ⟨hslots.exchange _ _, rfl⟩
      all_goals exact ⟨hslots, rfl⟩

theorem TwinSlots.toList (hslots : TwinSlots related left right) :
    List.Forall₂ related left.toList right.toList := by
  refine List.forall₂_iff_get.mpr ⟨by simpa using hslots.size_eq, fun position hleft hright => ?_⟩
  have hrel := hslots position
  rw [Array.length_toList] at hleft hright
  rw [Array.getElem?_eq_getElem hleft, Array.getElem?_eq_getElem hright] at hrel
  cases hrel with
  | some hrelated => exact hrelated

end Slots

/-- Queues with related items at the same places. -/
def Twins (related : α → β → Prop) (left : PriorityQueue α) (right : PriorityQueue β) : Prop :=
  TwinSlots related left.slots right.slots

variable {left : PriorityQueue α} {right : PriorityQueue β}

theorem twins_empty : Twins related empty empty := fun _ => .none

theorem Twins.size_eq (htwins : Twins related left right) : left.size = right.size :=
  TwinSlots.size_eq htwins

theorem Twins.peek? (htwins : Twins related left right) :
    Option.Rel related left.peek? right.peek? :=
  htwins 0

theorem Twins.push (htwins : Twins related left right) (horders : TwinOrders related le other)
    {item : α} {another : β} (hitem : related item another) :
    Twins related (left.push le item) (right.push other another) := by
  unfold PriorityQueue.push
  rw [htwins.size_eq]
  refine TwinSlots.rise (fun position => ?_) horders _ _
  have hsize : left.slots.size = right.slots.size := htwins.size_eq
  rw [Array.getElem?_push, Array.getElem?_push, hsize]
  split
  · exact .some hitem
  · exact htwins position

theorem Twins.pop? (htwins : Twins related left right) (horders : TwinOrders related le other) :
    Option.Rel (fun taken given => related taken.1 given.1 ∧ Twins related taken.2 given.2)
      (left.pop? le) (right.pop? other) := by
  have htop := htwins 0
  have hrest : TwinSlots related (left.slots.swapIfInBounds 0 (left.size - 1)).pop
      (right.slots.swapIfInBounds 0 (right.size - 1)).pop := by
    rw [htwins.size_eq]
    have hexchanged := TwinSlots.exchange htwins 0 (right.size - 1)
    intro position
    rw [Array.getElem?_pop, Array.getElem?_pop, hexchanged.size_eq]
    split
    · exact hexchanged position
    · exact .none
  unfold PriorityQueue.pop?
  revert htop
  generalize left.slots[0]? = top, right.slots[0]? = first
  rintro (⟨htop⟩ | _)
  · dsimp only
    rw [hrest.size_eq]
    obtain ⟨hsunk, hbottom⟩ := hrest.sink horders
      (right.slots.swapIfInBounds 0 (right.size - 1)).pop.size 0
    refine .some ⟨htop, ?_⟩
    dsimp only
    rw [hbottom]
    exact hsunk.rise horders _ _
  · exact .none

end PriorityQueue

variable {σ τ : Type} [Source σ] [Source τ] {similar : Note → Note → Prop}
variable {related : σ → τ → Prop}

/-! ## Sources -/

/-- Movements of two sources that succeed or fail alike, and lead to related sources. -/
def MovedAlike {α β : Type} (related : σ → τ → Prop) (left : Except SourceError α × σ)
    (right : Except SourceError β × τ) : Prop :=
  Agree (fun _ _ => True) left.1 right.1 ∧ related left.2 right.2

omit [Source σ] [Source τ] in
theorem MovedAlike.failureOf_eq {α β : Type} {left : Except SourceError α × σ}
    {right : Except SourceError β × τ} (hmoved : MovedAlike related left right) :
    failureOf left.1 = failureOf right.1 := by
  have hagree := hmoved.1
  revert hagree
  generalize left.1 = first, right.1 = second
  rintro (_ | _) <;> rfl

/-- Ways to position sources that move related sources alike. -/
def Positioning.Twins (similar : Note → Note → Prop) (related : σ → τ → Prop)
    (left : Positioning σ) (right : Positioning τ) : Prop :=
  ∀ source other key, related source other →
    (left source key).Twins similar (MovedAlike related) (right other key)

/-- Related sources show the same cells, and whatever is done to both of them has like results. -/
structure Source.Twins (similar : Note → Note → Prop) (related : σ → τ → Prop) : Prop where
  aside note : (∀ origin call failure, note ≠ .called origin call failure) → similar note note
  peek source other : related source other → Source.peek source = Source.peek other
  remaining source other : related source other →
    Source.remaining source = Source.remaining other
  sequenceId source other : related source other →
    Source.sequenceId source = Source.sequenceId other
  origin source other : related source other → Source.origin source = Source.origin other
  advance source other : related source other →
    (Noted.use .advance source Source.advance).Twins similar
      (fun left right => left.1 = right.1 ∧ related left.2 right.2)
      (Noted.use .advance other Source.advance)
  seek : Positioning.Twins similar related .seek .seek
  reseek : Positioning.Twins similar related .reseek .reseek
  exactly forward : Positioning.Twins similar related (.exactly forward) (.exactly forward)
  close source other : related source other →
    (Noted.use .close source Source.close).Twins similar
      (fun left right => left.1 = right.1 ∧ Source.kind left.2 = Source.kind right.2 ∧
        Source.sequenceId left.2 = Source.sequenceId right.2)
      (Noted.use .close other Source.close)

theorem Source.Twins.raise (hsources : Source.Twins similar related) (event : Event) :
    (Noted.raise event).Twins similar (fun _ _ => True) (Noted.raise event) :=
  .note (hsources.aside _ nofun)

/-! ## Merges -/

/-- Entries of related sources, with the same cell on top. -/
structure MergeEntry.Twins (related : σ → τ → Prop) (left : MergeEntry σ) (right : MergeEntry τ) :
    Prop where
  top : left.top = right.top
  source : related left.source right.source

/-- Merges of related sources, which stand at the same places. -/
structure Merge.Twins (related : σ → τ → Prop) (left : Merge σ) (right : Merge τ) : Prop where
  order : left.order = right.order
  current : Option.Rel (MergeEntry.Twins related) left.current right.current
  waiting : PriorityQueue.Twins (MergeEntry.Twins related) left.waiting right.waiting
  failures : left.failures = right.failures

namespace Merge

/-- Outcomes of movements of two merges. -/
def Stepped (related : σ → τ → Prop) {α : Type} (left : Except SourceError α × Merge σ)
    (right : Except SourceError α × Merge τ) : Prop :=
  left.1 = right.1 ∧ Twins related left.2 right.2

variable {left : Merge σ} {right : Merge τ} {source : σ} {other : τ}

theorem Twins.orders (htwins : Twins related left right) (hsources : Source.Twins similar related) :
    PriorityQueue.TwinOrders (MergeEntry.Twins related) (MergeEntry.le left.order)
      (MergeEntry.le right.order) := by
  intro low high another greater hlow hhigh
  rw [MergeEntry.le, MergeEntry.le, MergeEntry.rank, MergeEntry.rank, htwins.order, hlow.top,
    hhigh.top, hsources.sequenceId _ _ hlow.source, hsources.sequenceId _ _ hhigh.source]

omit [Source σ] [Source τ] in
theorem Twins.peek_eq (htwins : Twins related left right) : left.peek = right.peek := by
  have hcurrent := htwins.current
  unfold peek
  revert hcurrent
  generalize left.current = entry, right.current = another
  rintro (⟨hentry⟩ | _)
  · exact congrArg some hentry.top
  · rfl

omit [Source σ] [Source τ] in
theorem Twins.entries (htwins : Twins related left right) :
    List.Forall₂ (MergeEntry.Twins related) left.entries right.entries := by
  have hcurrent := htwins.current
  refine List.rel_append ?_ htwins.waiting.toList
  revert hcurrent
  generalize left.current = entry, right.current = another
  rintro (⟨hentry⟩ | _)
  · exact .cons hentry .nil
  · exact .nil

omit [Source σ] [Source τ] in
theorem Twins.isSome_current (htwins : Twins related left right) :
    left.current.isSome = right.current.isSome := by
  have hcurrent := htwins.current
  revert hcurrent
  generalize left.current = entry, right.current = another
  rintro (_ | _) <;> rfl

omit [Source σ] [Source τ] in
theorem Twins.size_eq (htwins : Twins related left right) : left.size = right.size := by
  rw [size, size, htwins.waiting.size_eq, htwins.isSome_current]

theorem Twins.cellCount_eq (htwins : Twins related left right)
    (hsources : Source.Twins similar related) : left.cellCount = right.cellCount := by
  unfold cellCount
  have hentries := htwins.entries
  revert hentries
  generalize left.entries = entries, right.entries = others
  intro hentries
  induction hentries with
  | nil => rfl
  | cons hentry _ ih =>
      rw [List.flatMap_cons, List.flatMap_cons, List.length_append, List.length_append, ih,
        hsources.remaining _ _ hentry.source]

omit [Source σ] [Source τ] in
theorem Twins.idle (htwins : Twins related left right) :
    Twins related { left with current := none } { right with current := none } :=
  { htwins with current := .none }

theorem Twins.enqueue (htwins : Twins related left right)
    (hsources : Source.Twins similar related) {entry : MergeEntry σ} {another : MergeEntry τ}
    (hentry : MergeEntry.Twins related entry another) :
    Twins related (left.enqueue entry) (right.enqueue another) :=
  { htwins with waiting := htwins.waiting.push (htwins.orders hsources) hentry }

theorem Twins.pop? (htwins : Twins related left right) (hsources : Source.Twins similar related) :
    Option.Rel
      (fun taken given => MergeEntry.Twins related taken.1 given.1 ∧
        Twins related { left with waiting := taken.2 } { right with waiting := given.2 })
      (left.waiting.pop? (MergeEntry.le left.order))
      (right.waiting.pop? (MergeEntry.le right.order)) := by
  have hpop := htwins.waiting.pop? (htwins.orders hsources)
  revert hpop
  generalize left.waiting.pop? _ = taken, right.waiting.pop? _ = given
  rintro (⟨hentry, hrest⟩ | _)
  · exact .some ⟨hentry, { htwins with waiting := hrest }⟩
  · exact .none

theorem Twins.promote (htwins : Twins related left right)
    (hsources : Source.Twins similar related) : Twins related left.promote right.promote := by
  have hpop := htwins.pop? hsources
  unfold Merge.promote
  revert hpop
  generalize left.waiting.pop? _ = taken, right.waiting.pop? _ = given
  rintro (⟨hentry, hrest⟩ | _)
  · exact { hrest with current := .some hentry }
  · exact htwins.idle

theorem Twins.release (htwins : Twins related left right) (hsources : Source.Twins similar related)
    (hrelated : related source other) :
    (left.release source).Twins similar (Twins related) (right.release other) := by
  refine (hsources.close source other hrelated).bind ?_
  rintro ⟨result, closed⟩ ⟨_, gone⟩ ⟨rfl, hkind, hrank⟩
  cases result with
  | ok => exact .pure htwins
  | error failure =>
      dsimp only at hkind hrank ⊢
      rw [hkind, hrank]
      exact (hsources.raise _).bind fun _ _ _ =>
        .pure { htwins with failures := congrArg (· ++ [failure]) htwins.failures }

theorem Twins.takeIn (htwins : Twins related left right) (hsources : Source.Twins similar related)
    (hrelated : related source other) :
    (left.takeIn source).Twins similar (Twins related) (right.takeIn other) := by
  unfold Merge.takeIn
  rw [hsources.peek _ _ hrelated]
  split
  · exact .pure (htwins.enqueue hsources ⟨rfl, hrelated⟩)
  · exact htwins.release hsources hrelated

theorem Twins.takeInAll (htwins : Twins related left right)
    (hsources : Source.Twins similar related) {sources : List σ} {others : List τ}
    (hrelated : List.Forall₂ related sources others) :
    (left.takeInAll sources).Twins similar (Twins related) (right.takeInAll others) := by
  induction hrelated generalizing left right with
  | nil => exact .pure htwins
  | cons hfirst _ ih => exact (htwins.takeIn hsources hfirst).bind fun _ _ htaken => ih htaken

theorem ofSources_twins (hsources : Source.Twins similar related) (order : CellOrder)
    {sources : List σ} {others : List τ} (hrelated : List.Forall₂ related sources others) :
    (ofSources order sources).Twins similar (Twins related) (ofSources order others) := by
  have hempty : Twins related (⟨order, none, .empty, []⟩ : Merge σ) ⟨order, none, .empty, []⟩ :=
    ⟨rfl, .none, PriorityQueue.twins_empty, rfl⟩
  exact (hempty.takeInAll hsources hrelated).bind fun _ _ htaken => .pure (htaken.promote hsources)

theorem Twins.settle (htwins : Twins related left right) (hsources : Source.Twins similar related)
    (hrelated : related source other) :
    (left.settle source).Twins similar (Twins related) (right.settle other) := by
  unfold Merge.settle
  rw [hsources.peek _ _ hrelated]
  split
  next =>
    exact (htwins.release hsources hrelated).bind fun _ _ hreleased =>
      .pure (hreleased.promote hsources)
  next top _ =>
    have hentry : MergeEntry.Twins related ⟨top, source⟩ ⟨top, other⟩ := ⟨rfl, hrelated⟩
    have hbefore := htwins.orders hsources
    have hpeek := htwins.waiting.peek?
    dsimp only
    revert hpeek
    generalize left.waiting.peek? = first, right.waiting.peek? = second
    rintro (⟨hfirst⟩ | _)
    · dsimp only
      rw [hbefore _ _ _ _ hfirst hentry]
      split
      · exact .pure { htwins with current := .some hentry }
      · exact .pure ((htwins.enqueue hsources hentry).promote hsources)
    · exact .pure { htwins with current := .some hentry }

theorem Twins.advance (htwins : Twins related left right)
    (hsources : Source.Twins similar related) :
    left.advance.Twins similar (Stepped related) right.advance := by
  have hcurrent := htwins.current
  unfold Merge.advance
  revert hcurrent
  generalize left.current = first, right.current = second
  rintro (⟨hentry⟩ | _)
  · refine (hsources.advance _ _ hentry.source).bind ?_
    rintro ⟨result, moved⟩ ⟨_, gone⟩ ⟨rfl, hmoved⟩
    cases result with
    | ok cell =>
        exact (htwins.idle.settle hsources hmoved).bind fun _ _ hsettled => .pure ⟨rfl, hsettled⟩
    | error failure =>
        exact .pure ⟨rfl, { htwins with current := .some ⟨hentry.top, hmoved⟩ }⟩
  · exact .pure ⟨rfl, htwins⟩

theorem Twins.enqueueAll (htwins : Twins related left right)
    (hsources : Source.Twins similar related) {entries : List (MergeEntry σ)}
    {others : List (MergeEntry τ)}
    (hentries : List.Forall₂ (MergeEntry.Twins related) entries others) :
    Twins related (entries.foldl Merge.enqueue left) (others.foldl Merge.enqueue right) := by
  induction hentries generalizing left right with
  | nil => exact htwins
  | cons hentry _ ih => exact ih (htwins.enqueue hsources hentry)

theorem Twins.seekEach (htwins : Twins related left right)
    (hsources : Source.Twins similar related) (key : Cell) {entries : List (MergeEntry σ)}
    {others : List (MergeEntry τ)}
    (hentries : List.Forall₂ (MergeEntry.Twins related) entries others) :
    (left.seekEach key entries).Twins similar
      (fun first second => first.1 = second.1 ∧ Twins related first.2 second.2)
      (right.seekEach key others) := by
  induction hentries generalizing left right with
  | nil => exact .pure ⟨rfl, htwins⟩
  | cons hentry hrest ih =>
      refine (hsources.seek _ _ key hentry.source).bind ?_
      rintro ⟨result, moved⟩ ⟨answer, gone⟩ ⟨hagree, hmoved⟩
      cases hagree with
      | ok => exact (htwins.takeIn hsources hmoved).bind fun _ _ htaken => ih htaken
      | error failure =>
          exact .pure ⟨rfl, htwins.enqueueAll hsources (.cons ⟨hentry.top, hmoved⟩ hrest)⟩

theorem Twins.seek (htwins : Twins related left right) (hsources : Source.Twins similar related)
    (key : Cell) : (left.seek key).Twins similar (Stepped related) (right.seek key) := by
  have hempty : Twins related { left with current := none, waiting := .empty }
      { right with current := none, waiting := .empty } :=
    { htwins with current := .none, waiting := PriorityQueue.twins_empty }
  refine (hempty.seekEach hsources key htwins.entries).bind ?_
  rintro ⟨failure, reached⟩ ⟨_, gone⟩ ⟨rfl, hreached⟩
  have hpromoted := hreached.promote hsources
  cases failure with
  | some failure => exact .pure ⟨rfl, hpromoted⟩
  | none => exact .pure ⟨congrArg Except.ok hpromoted.isSome_current, hpromoted⟩

theorem Twins.skipTo (htwins : Twins related left right) (hsources : Source.Twins similar related)
    {first : Positioning σ} {second : Positioning τ}
    (hpositioning : Positioning.Twins similar related first second) (key : Cell) (turns : Nat) :
    (skipTo first key turns left).Twins similar (Stepped related)
      (skipTo second key turns right) := by
  induction turns generalizing left right with
  | zero =>
      have hpromoted := htwins.promote hsources
      exact .pure ⟨congrArg Except.ok hpromoted.isSome_current, hpromoted⟩
  | succ turns ih =>
      have hpop := htwins.pop? hsources
      unfold Merge.skipTo
      revert hpop
      generalize left.waiting.pop? _ = taken, right.waiting.pop? _ = given
      rintro (@⟨⟨entry, waiting⟩, ⟨another, rest⟩, hentry, hrest⟩ | _)
      · have hahead : (left.order.compare key entry.top).isLE =
            (right.order.compare key another.top).isLE := by
          rw [htwins.order, hentry.top]
        dsimp only
        rw [hahead]
        split
        · have hpromoted := (hrest.enqueue hsources hentry).promote hsources
          exact .pure ⟨congrArg Except.ok hpromoted.isSome_current, hpromoted⟩
        · refine (hpositioning _ _ key hentry.source).bind ?_
          rintro ⟨result, moved⟩ ⟨answer, gone⟩ ⟨hagree, hmoved⟩
          cases hagree with
          | ok => exact (hrest.takeIn hsources hmoved).bind fun _ _ htaken => ih htaken
          | error failure =>
              have hback : MergeEntry.Twins related { entry with source := moved }
                  { another with source := gone } := ⟨hentry.top, hmoved⟩
              exact .pure ⟨rfl, (hrest.enqueue hsources hback).promote hsources⟩
      · exact .pure ⟨rfl, htwins⟩

theorem Twins.moveForward (htwins : Twins related left right)
    (hsources : Source.Twins similar related) {first : Positioning σ} {second : Positioning τ}
    (hpositioning : Positioning.Twins similar related first second) (key : Cell) :
    (left.moveForward first key).Twins similar (Stepped related)
      (right.moveForward second key) := by
  have hcurrent := htwins.current
  have hsize := htwins.size_eq
  unfold Merge.moveForward
  revert hcurrent
  generalize left.current = entry, right.current = another
  rintro (⟨hentry⟩ | _)
  · dsimp only
    rw [hsize]
    exact (htwins.idle.enqueue hsources hentry).skipTo hsources hpositioning key _
  · exact .pure ⟨rfl, htwins⟩

theorem Twins.releaseCurrent (htwins : Twins related left right)
    (hsources : Source.Twins similar related) :
    left.releaseCurrent.Twins similar (Twins related) right.releaseCurrent := by
  have hcurrent := htwins.current
  unfold Merge.releaseCurrent
  revert hcurrent
  generalize left.current = entry, right.current = another
  rintro (⟨hentry⟩ | _)
  · exact htwins.idle.release hsources hentry.source
  · exact .pure htwins

theorem Twins.releaseWaiting (htwins : Twins related left right)
    (hsources : Source.Twins similar related) (turns : Nat) :
    (releaseWaiting turns left).Twins similar (Twins related) (releaseWaiting turns right) := by
  induction turns generalizing left right with
  | zero => exact .pure htwins
  | succ turns ih =>
      have hpop := htwins.pop? hsources
      unfold Merge.releaseWaiting
      revert hpop
      generalize left.waiting.pop? _ = taken, right.waiting.pop? _ = given
      rintro (⟨hentry, hrest⟩ | _)
      · exact (hrest.release hsources hentry.source).bind fun _ _ hleft => ih hleft
      · exact .pure htwins

theorem Twins.close (htwins : Twins related left right) (hsources : Source.Twins similar related) :
    left.close.Twins similar
      (fun first second => first.1 = second.1 ∧ Twins related first.2 second.2) right.close := by
  refine (htwins.releaseCurrent hsources).bind fun first second hcurrent => ?_
  rw [hcurrent.waiting.size_eq]
  refine (hcurrent.releaseWaiting hsources _).bind fun reached gone hreached => ?_
  exact .pure ⟨hreached.failures, { hreached with failures := rfl }⟩

end Merge

end MergeScan
