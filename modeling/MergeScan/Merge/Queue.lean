/-! # Priority queues

A priority queue keeps its items in an array that is read as a binary tree: the
children of position `i` stand at `2 * i + 1` and `2 * i + 2`. No item is greater
than its parent, so that a greatest one stands at the front. The order of the
others in the array is visible, because a seek visits the items in that order.
-/

namespace MergeScan

/-- A collection that gives out a greatest item. The comparison is not kept
with it and has to be the same for all operations. -/
structure PriorityQueue (α : Type) where
  slots : Array α

namespace PriorityQueue

variable {α : Type}

/-- The queue without items. -/
def empty : PriorityQueue α := ⟨#[]⟩

/-- The items in the order of the array. -/
def toList (queue : PriorityQueue α) : List α :=
  queue.slots.toList

/-- The number of items. -/
def size (queue : PriorityQueue α) : Nat :=
  queue.slots.size

/-- A greatest item. -/
def peek? (queue : PriorityQueue α) : Option α :=
  queue.slots[0]?

/-- Exchange an item with its ancestors until its parent is no smaller. -/
def rise (le : α → α → Bool) : (fuel : Nat) → Array α → (position : Nat) → Array α
  | 0, slots, _ => slots
  | fuel + 1, slots, position =>
    let parent := (position - 1) / 2
    match slots[position]?, slots[parent]? with
    | some item, some above =>
      if position = 0 || le item above then slots
      else rise le fuel (slots.swapIfInBounds position parent) parent
    | _, _ => slots

/-- Exchange an item with the greater of its children until it has none, and
tell where it ends. Of equal children the right one moves up. -/
def sink (le : α → α → Bool) : (fuel : Nat) → Array α → (position : Nat) → Array α × Nat
  | 0, slots, position => (slots, position)
  | fuel + 1, slots, position =>
    let left := 2 * position + 1
    let right := 2 * position + 2
    match slots[left]?, slots[right]? with
    | some leftItem, some rightItem =>
      let child := if le leftItem rightItem then right else left
      sink le fuel (slots.swapIfInBounds position child) child
    | some _, none => (slots.swapIfInBounds position left, left)
    | none, _ => (slots, position)

/-- Add an item: it starts as the last one and rises to its place. -/
def push (le : α → α → Bool) (queue : PriorityQueue α) (item : α) : PriorityQueue α :=
  ⟨rise le (queue.size + 1) (queue.slots.push item) queue.size⟩

/-- Take out a greatest item. The last item takes its place, sinks to the
bottom along the greater children, and rises from there. -/
def pop? (le : α → α → Bool) (queue : PriorityQueue α) : Option (α × PriorityQueue α) :=
  match queue.slots[0]? with
  | none => none
  | some top =>
    let slots := (queue.slots.swapIfInBounds 0 (queue.size - 1)).pop
    let (slots, bottom) := sink le slots.size slots 0
    some (top, ⟨rise le (bottom + 1) slots bottom⟩)

end PriorityQueue

end MergeScan
