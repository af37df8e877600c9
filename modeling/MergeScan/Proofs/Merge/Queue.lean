import MergeScan.Merge.Queue

/-! # Priority queues give out a greatest item

The array of a queue is a heap: no item is greater than its parent. An item that
rises or sinks leaves a place where this may fail, and the two sections below
say how much of it holds meanwhile.
-/

namespace MergeScan.PriorityQueue

variable {α : Type} {le : α → α → Bool}

/-- Whether a position is a child of another one. -/
def IsChild (child parent : Nat) : Prop :=
  0 < child ∧ (child - 1) / 2 = parent

theorem IsChild.lt {child parent : Nat} (hchild : IsChild child parent) : parent < child := by
  obtain ⟨hpos, rfl⟩ := hchild
  omega

theorem isChild_iff {child parent : Nat} :
    IsChild child parent ↔ child = 2 * parent + 1 ∨ child = 2 * parent + 2 := by
  unfold IsChild
  omega

/-- The item at one position, if both have one, is not greater than the item at another. -/
def Below (le : α → α → Bool) (slots : Array α) (lower upper : Nat) : Prop :=
  ∀ low high, slots[lower]? = some low → slots[upper]? = some high → le low high = true

theorem below_of_items {slots : Array α} {lower upper : Nat} {low high : α}
    (hlow : slots[lower]? = some low) (hhigh : slots[upper]? = some high)
    (hle : le low high = true) : Below le slots lower upper := by
  intro bottom top hbottom htop
  rw [hlow] at hbottom
  rw [hhigh] at htop
  cases hbottom
  cases htop
  exact hle

theorem below_of_none {slots : Array α} {lower upper : Nat} (hlow : slots[lower]? = none) :
    Below le slots lower upper := by
  intro bottom top hbottom
  rw [hlow] at hbottom
  cases hbottom

/-- Two arrays with the same items at two positions. -/
theorem Below.of_getElem?_eq {slots others : Array α} {lower upper : Nat}
    (hbelow : Below le slots lower upper) (hlower : others[lower]? = slots[lower]?)
    (hupper : others[upper]? = slots[upper]?) : Below le others lower upper := by
  intro low high hlow hhigh
  exact hbelow low high (hlower ▸ hlow) (hupper ▸ hhigh)

/-- A place without children is above all of them. -/
theorem below_of_size_le {slots : Array α} {hole : Nat} (hsize : slots.size ≤ 2 * hole + 1)
    (child : Nat) (hchild : IsChild child hole) : Below le slots child hole := by
  apply below_of_none
  rcases isChild_iff.mp hchild with rfl | rfl <;> exact Array.getElem?_eq_none (by omega)

/-- No item is greater than its parent. -/
def IsHeap (le : α → α → Bool) (slots : Array α) : Prop :=
  ∀ child parent, IsChild child parent → Below le slots child parent

/-- The heap holds but for a place, whose children are in order with its parent. -/
structure HeapBut (le : α → α → Bool) (slots : Array α) (hole : Nat) : Prop where
  apart child parent : IsChild child parent → child ≠ hole → parent ≠ hole →
    Below le slots child parent
  across child parent : IsChild child hole → IsChild hole parent → Below le slots child parent

/-- The heap holds but for a place, whose item may be greater than its parent. -/
structure HeapBelow (le : α → α → Bool) (slots : Array α) (hole : Nat) : Prop
    extends HeapBut le slots hole where
  below child : IsChild child hole → Below le slots child hole

theorem HeapBelow.isHeap {slots : Array α} {hole : Nat} (hrises : HeapBelow le slots hole)
    (hparent : ∀ parent, IsChild hole parent → Below le slots hole parent) :
    IsHeap le slots := by
  intro child parent hchild
  by_cases hhole : child = hole
  · exact hhole ▸ hparent parent (hhole ▸ hchild)
  · by_cases hupper : parent = hole
    · exact hupper ▸ hrises.below child (hupper ▸ hchild)
    · exact hrises.apart child parent hchild hhole hupper

/-- The position that an item comes from when two others are exchanged. -/
def exchanged (first second position : Nat) : Nat :=
  if position = first then second else if position = second then first else position

section Exchange

variable {slots : Array α} {first second : Nat}

theorem getElem?_exchange (hfirst : first < slots.size) (hsecond : second < slots.size)
    (position : Nat) :
    (slots.swapIfInBounds first second)[position]? =
      slots[exchanged first second position]? := by
  rw [Array.swapIfInBounds_def, dif_pos hfirst, dif_pos hsecond, Array.getElem?_swap,
    ← Array.getElem?_eq_getElem, ← Array.getElem?_eq_getElem, exchanged]
  by_cases hatFirst : position = first
  · rw [if_pos hatFirst, if_pos hatFirst.symm]
    split
    next hsame => rw [hsame, hatFirst]
    next => rfl
  · rw [if_neg hatFirst, if_neg (Ne.symm hatFirst)]
    by_cases hatSecond : position = second
    · rw [if_pos hatSecond, if_pos hatSecond.symm]
    · rw [if_neg hatSecond, if_neg (Ne.symm hatSecond)]

theorem below_exchange (hfirst : first < slots.size) (hsecond : second < slots.size)
    {lower upper : Nat} :
    Below le (slots.swapIfInBounds first second) lower upper ↔
      Below le slots (exchanged first second lower) (exchanged first second upper) := by
  simp only [Below, getElem?_exchange hfirst hsecond]

theorem exchange_perm : (slots.swapIfInBounds first second).toList.Perm slots.toList := by
  rw [Array.swapIfInBounds_def]
  split
  · split
    · exact (Array.swap_perm _ _).toList
    · exact .refl _
  · exact .refl _

/-- After the greater child took the place of an item, the item is one level down. -/
theorem HeapBut.exchange {hole child : Nat} (hsinks : HeapBut le slots hole)
    (hsize : child < slots.size) (hchild : IsChild child hole)
    (hgreater : ∀ sibling, IsChild sibling hole → Below le slots sibling child) :
    HeapBut le (slots.swapIfInBounds hole child) child := by
  have hlt := hchild.lt
  have hhole : hole < slots.size := Nat.lt_trans hlt hsize
  constructor
  · intro lower upper hother hlower hupper
    rw [below_exchange hhole hsize, exchanged, exchanged]
    by_cases hplace : lower = hole
    · have hparent := hplace ▸ hother
      have := hparent.lt
      rw [if_pos hplace, if_neg (by omega), if_neg (by omega)]
      exact hsinks.across child upper hchild hparent
    · rw [if_neg hplace, if_neg hlower]
      by_cases hsibling : upper = hole
      · rw [if_pos hsibling]
        exact hgreater lower (hsibling ▸ hother)
      · rw [if_neg hsibling, if_neg hupper]
        exact hsinks.apart lower upper hother hplace hsibling
  · intro lower upper hother hupper
    have heq : upper = hole := hupper.2.symm.trans hchild.2
    have := hother.lt
    rw [below_exchange hhole hsize, exchanged, exchanged, if_pos heq, if_neg (by omega),
      if_neg (by omega)]
    exact hsinks.apart lower child hother (by omega) (by omega)

theorem rise_perm (fuel : Nat) (slots : Array α) (position : Nat) :
    (rise le fuel slots position).toList.Perm slots.toList := by
  induction fuel generalizing slots position with
  | zero => exact .refl _
  | succ fuel ih =>
      rw [rise]
      split
      · split
        · exact .refl _
        · exact (ih _ _).trans exchange_perm
      · exact .refl _

theorem sink_perm (fuel : Nat) (slots : Array α) (position : Nat) :
    (sink le fuel slots position).1.toList.Perm slots.toList := by
  induction fuel generalizing slots position with
  | zero => exact .refl _
  | succ fuel ih =>
      rw [sink]
      split
      · exact (ih _ _).trans exchange_perm
      · exact exchange_perm
      · exact .refl _

end Exchange

section Items

theorem empty_isHeap : IsHeap le (empty : PriorityQueue α).slots :=
  fun _ _ _ => below_of_none rfl

/-- The first item, exchanged with the last one, can be taken away there. -/
theorem exchange_last_perm {slots : Array α} {top : α} (htop : slots[0]? = some top) :
    slots.toList.Perm (top :: (slots.swapIfInBounds 0 (slots.size - 1)).pop.toList) := by
  obtain ⟨hsize, -⟩ := Array.getElem?_eq_some_iff.mp htop
  have hlast : (slots.swapIfInBounds 0 (slots.size - 1)).toList.getLast? = some top := by
    rw [List.getLast?_eq_getElem?, Array.getElem?_toList, Array.length_toList,
      Array.size_swapIfInBounds, getElem?_exchange hsize (by omega), ← htop, exchanged]
    split
    next honly => rw [honly]
    next => rw [if_pos rfl]
  obtain ⟨front, hfront⟩ := List.getLast?_eq_some_iff.mp hlast
  have hperm : (slots.swapIfInBounds 0 (slots.size - 1)).toList.Perm slots.toList :=
    exchange_perm
  refine hperm.symm.trans ?_
  rw [Array.toList_pop, hfront, List.dropLast_concat]
  exact List.perm_append_singleton top front

/-- The last item, brought to the front, is the only one that may be out of place there. -/
theorem pop_heapBut {queue : PriorityQueue α} (hheap : IsHeap le queue.slots) :
    HeapBut le (queue.slots.swapIfInBounds 0 (queue.size - 1)).pop 0 := by
  constructor
  · intro child parent hchild hne hroot
    have hlt := hchild.lt
    by_cases hbound : child < queue.slots.size - 1
    · have hkept : ∀ position, position ≠ 0 → position < queue.slots.size - 1 →
          (queue.slots.swapIfInBounds 0 (queue.size - 1)).pop[position]? =
            queue.slots[position]? := by
        intro position hzero hposition
        rw [Array.getElem?_pop, Array.size_swapIfInBounds, if_pos hposition, size,
          getElem?_exchange (by omega) (by omega), exchanged, if_neg hzero, if_neg (by omega)]
      exact (hheap child parent hchild).of_getElem?_eq (hkept _ hne hbound)
        (hkept _ hroot (by omega))
    · apply below_of_none
      apply Array.getElem?_eq_none
      rw [Array.size_pop, Array.size_swapIfInBounds]
      omega
  · intro _ parent _ hparent
    exact absurd hparent.lt (Nat.not_lt_zero parent)

theorem push_perm (queue : PriorityQueue α) (item : α) :
    (queue.push le item).toList.Perm (item :: queue.toList) := by
  have hperm : (queue.push le item).toList.Perm (queue.slots.push item).toList :=
    rise_perm _ _ _
  rw [Array.toList_push] at hperm
  exact hperm.trans (List.perm_append_singleton item queue.toList)

theorem peek?_eq_none {queue : PriorityQueue α} (hnone : queue.peek? = none) :
    queue.toList = [] := by
  rw [peek?, Array.getElem?_eq_none_iff] at hnone
  exact List.length_eq_zero_iff.mp (Nat.le_zero.mp hnone)

theorem pop?_eq_none {queue : PriorityQueue α} (hnone : queue.pop? le = none) :
    queue.toList = [] := by
  unfold pop? at hnone
  split at hnone
  next hempty => exact peek?_eq_none hempty
  next => cases hnone

theorem pop?_peek? {queue rest : PriorityQueue α} {item : α}
    (hpop : queue.pop? le = some (item, rest)) : queue.peek? = some item := by
  unfold pop? at hpop
  split at hpop
  next => cases hpop
  next top htop =>
    simp only [Option.some.injEq, Prod.mk.injEq] at hpop
    rw [peek?, htop, hpop.1]

theorem pop?_perm {queue rest : PriorityQueue α} {item : α}
    (hpop : queue.pop? le = some (item, rest)) : queue.toList.Perm (item :: rest.toList) := by
  unfold pop? at hpop
  split at hpop
  next => cases hpop
  next top htop =>
    simp only [Option.some.injEq, Prod.mk.injEq] at hpop
    obtain ⟨rfl, rfl⟩ := hpop
    apply List.Perm.trans (exchange_last_perm htop)
    exact .cons _ ((rise_perm _ _ _).trans (sink_perm _ _ _)).symm

end Items

/-- A comparison that any two items satisfy in one direction. -/
structure IsRanking (le : α → α → Bool) : Prop where
  trans {first second third : α} : le first second = true → le second third = true →
    le first third = true
  total {first second : α} : le first second = false → le second first = true

section Order

variable {slots : Array α} (hle : IsRanking le)
include hle

theorem Below.trans {low middle high : Nat} (hmiddle : middle < slots.size)
    (hlow : Below le slots low middle) (hhigh : Below le slots middle high) :
    Below le slots low high := by
  intro bottom top hbottom htop
  have hsome : slots[middle]? = some slots[middle] := Array.getElem?_eq_getElem hmiddle
  exact hle.trans (hlow _ _ hbottom hsome) (hhigh _ _ hsome htop)

theorem below_refl (position : Nat) : Below le slots position position := by
  intro low high hlow hhigh
  obtain rfl : low = high := Option.some.inj (hlow.symm.trans hhigh)
  cases hrefl : le low low with
  | true => rfl
  | false => exact hrefl ▸ hle.total hrefl

/-- The first item of a heap is a greatest one. -/
theorem IsHeap.below_first (hheap : IsHeap le slots) (position : Nat) :
    Below le slots position 0 := by
  induction position using Nat.strongRecOn with
  | ind position ih =>
      by_cases hzero : position = 0
      · rw [hzero]
        exact below_refl hle 0
      · have hchild : IsChild position ((position - 1) / 2) := ⟨by omega, rfl⟩
        by_cases hsize : position < slots.size
        · exact .trans hle (Nat.lt_trans hchild.lt hsize) (hheap _ _ hchild) (ih _ hchild.lt)
        · exact below_of_none (Array.getElem?_eq_none (by omega))

/-! ## Rising -/

/-- After an item was exchanged with its smaller parent, it may be too great one level up. -/
theorem HeapBelow.exchange {hole parent : Nat} (hrises : HeapBelow le slots hole)
    (hsize : hole < slots.size) (hchild : IsChild hole parent)
    (habove : Below le slots parent hole) :
    HeapBelow le (slots.swapIfInBounds hole parent) parent := by
  have hlt := hchild.lt
  have hparent : parent < slots.size := Nat.lt_trans hlt hsize
  have hsibling : ∀ child, IsChild child parent → child ≠ hole → Below le slots child parent :=
    fun child hother hne => hrises.apart child parent hother hne (Nat.ne_of_lt hlt)
  constructor
  · constructor
    · intro child upper hother hne hupper
      have hlower : child ≠ hole := fun heq => hupper (by rw [← hother.2, ← hchild.2, heq])
      rw [below_exchange hsize hparent, exchanged, if_neg hlower, if_neg hne, exchanged]
      by_cases hhole : upper = hole
      · rw [if_pos hhole]
        exact hrises.across child parent (hhole ▸ hother) hchild
      · rw [if_neg hhole, if_neg hupper]
        exact hrises.apart child upper hother hlower hhole
    · intro child upper hother hupper
      have hne := hupper.lt
      rw [below_exchange hsize hparent, exchanged, exchanged, if_neg (by omega : upper ≠ hole),
        if_neg (by omega : upper ≠ parent)]
      have hedge := hrises.apart parent upper hupper (by omega) (by omega)
      by_cases hhole : child = hole
      · rwa [if_pos hhole]
      · have := hother.lt
        rw [if_neg hhole, if_neg (by omega : child ≠ parent)]
        exact .trans hle hparent (hsibling child hother hhole) hedge
  · intro child hother
    have := hother.lt
    rw [below_exchange hsize hparent, exchanged, exchanged, if_neg (by omega : parent ≠ hole),
      if_pos rfl]
    by_cases hhole : child = hole
    · rwa [if_pos hhole]
    · rw [if_neg hhole, if_neg (by omega : child ≠ parent)]
      exact .trans hle hparent (hsibling child hother hhole) habove

/-- An item that rises far enough leaves a heap. -/
theorem rise_isHeap {fuel position : Nat} (hfuel : position < fuel)
    (hsize : position < slots.size) (hrises : HeapBelow le slots position) :
    IsHeap le (rise le fuel slots position) := by
  induction fuel generalizing slots position with
  | zero => omega
  | succ fuel ih =>
      have hitem : slots[position]? = some slots[position] := Array.getElem?_eq_getElem hsize
      have hparent : (position - 1) / 2 < slots.size := by omega
      have habove : slots[(position - 1) / 2]? = some slots[(position - 1) / 2] :=
        Array.getElem?_eq_getElem hparent
      simp only [rise, hitem, habove]
      split
      next hstop =>
        apply hrises.isHeap
        rintro parent ⟨hpos, rfl⟩
        apply below_of_items hitem habove
        simpa [Nat.ne_of_gt hpos] using hstop
      next hgo =>
        simp only [Bool.or_eq_true, decide_eq_true_eq, not_or, Bool.not_eq_true] at hgo
        have hchild : IsChild position ((position - 1) / 2) := ⟨by omega, rfl⟩
        apply ih (by omega) (by rwa [Array.size_swapIfInBounds])
        apply hrises.exchange hle hsize hchild
        exact below_of_items habove hitem (hle.total hgo.2)

/-! ## Sinking -/

/-- An item that sinks far enough ends where it has no children. -/
theorem sink_heapBelow {fuel position : Nat} (hfuel : slots.size ≤ position + fuel)
    (hsize : position < slots.size) (hsinks : HeapBut le slots position) :
    (sink le fuel slots position).2 < (sink le fuel slots position).1.size ∧
      HeapBelow le (sink le fuel slots position).1 (sink le fuel slots position).2 := by
  induction fuel generalizing slots position with
  | zero => omega
  | succ fuel ih =>
      have hleft : IsChild (2 * position + 1) position := isChild_iff.mpr (.inl rfl)
      have hright : IsChild (2 * position + 2) position := isChild_iff.mpr (.inr rfl)
      rw [sink]
      split
      next leftItem rightItem hleftItem hrightItem =>
        obtain ⟨hbound, -⟩ := Array.getElem?_eq_some_iff.mp hrightItem
        -- the greater of the two children rises
        by_cases hcompare : le leftItem rightItem = true
        · simp only [hcompare, if_true]
          apply ih (by rw [Array.size_swapIfInBounds]; omega) (by rwa [Array.size_swapIfInBounds])
          apply hsinks.exchange hbound hright
          intro sibling hsibling
          rcases isChild_iff.mp hsibling with rfl | rfl
          · exact below_of_items hleftItem hrightItem hcompare
          · exact below_refl hle _
        · simp only [hcompare, Bool.false_eq_true, if_false]
          apply ih (by rw [Array.size_swapIfInBounds]; omega)
            (by rw [Array.size_swapIfInBounds]; omega)
          apply hsinks.exchange (by omega) hleft
          intro sibling hsibling
          rcases isChild_iff.mp hsibling with rfl | rfl
          · exact below_refl hle _
          · exact below_of_items hrightItem hleftItem (hle.total (eq_false_of_ne_true hcompare))
      next leftItem hleftItem hrightNone =>
        obtain ⟨hbound, -⟩ := Array.getElem?_eq_some_iff.mp hleftItem
        have hend := Array.getElem?_eq_none_iff.mp hrightNone
        refine ⟨by rwa [Array.size_swapIfInBounds], ?_, ?_⟩
        · apply hsinks.exchange hbound hleft
          intro sibling hsibling
          rcases isChild_iff.mp hsibling with rfl | rfl
          · exact below_refl hle _
          · exact below_of_none hrightNone
        · exact below_of_size_le (by rw [Array.size_swapIfInBounds]; omega)
      next hleftNone =>
        have hend := Array.getElem?_eq_none_iff.mp hleftNone
        exact ⟨hsize, hsinks, below_of_size_le (by omega)⟩

/-! ## The operations of a queue -/

theorem push_isHeap {queue : PriorityQueue α} (hheap : IsHeap le queue.slots) (item : α) :
    IsHeap le (queue.push le item).slots := by
  have hkept : ∀ position, position < queue.slots.size →
      (queue.slots.push item)[position]? = queue.slots[position]? := by
    intro position hposition
    rw [Array.getElem?_push, if_neg (Nat.ne_of_lt hposition)]
  apply rise_isHeap hle (Nat.lt_succ_self _)
  · rw [Array.size_push]
    exact Nat.lt_succ_self _
  · refine ⟨⟨?_, ?_⟩, ?_⟩
    · intro child parent hchild hne _
      by_cases hsize : child < queue.slots.size
      · exact (hheap child parent hchild).of_getElem?_eq (hkept _ hsize)
          (hkept _ (Nat.lt_trans hchild.lt hsize))
      · apply below_of_none
        apply Array.getElem?_eq_none
        simp only [Array.size_push, size] at hne ⊢
        omega
    · intro child parent hchild _
      apply below_of_none
      apply Array.getElem?_eq_none
      have := hchild.lt
      simp only [Array.size_push, size] at this ⊢
      omega
    · apply below_of_size_le
      simp only [Array.size_push, size]
      omega

theorem pop?_isHeap {queue rest : PriorityQueue α} {item : α} (hheap : IsHeap le queue.slots)
    (hpop : queue.pop? le = some (item, rest)) : IsHeap le rest.slots := by
  unfold pop? at hpop
  split at hpop
  next => cases hpop
  next top htop =>
    simp only [Option.some.injEq, Prod.mk.injEq] at hpop
    obtain ⟨-, rfl⟩ := hpop
    obtain ⟨hsize, -⟩ := Array.getElem?_eq_some_iff.mp htop
    have hsinks := pop_heapBut hheap
    by_cases hlone : (queue.slots.swapIfInBounds 0 (queue.size - 1)).pop.size = 0
    · rw [Array.size_eq_zero_iff] at hlone
      rw [hlone]
      exact fun _ _ _ => below_of_none rfl
    · obtain ⟨hbottom, hrises⟩ :=
        sink_heapBelow hle (Nat.le_add_left _ _) (Nat.pos_of_ne_zero hlone) hsinks
      exact rise_isHeap hle (Nat.lt_succ_self _) hbottom hrises

/-- A heap gives out a greatest item. -/
theorem peek?_greatest {queue : PriorityQueue α} (hheap : IsHeap le queue.slots) {top : α}
    (htop : queue.peek? = some top) {item : α} (hitem : item ∈ queue.toList) :
    le item top = true := by
  obtain ⟨position, hposition⟩ := List.mem_iff_getElem?.mp hitem
  rw [toList, Array.getElem?_toList] at hposition
  exact hheap.below_first hle position item top hposition htop

end Order

end MergeScan.PriorityQueue
