/-! # Named things

A session keeps its scanners and cursors under names. Their order is that in
which the names were first used.
-/

namespace MergeScan

/-- Things under names, without two of one name. -/
abbrev Named (α : Type) : Type :=
  List (String × α)

namespace Named

variable {α : Type}

/-- What stands under a name. -/
def get? (named : Named α) (name : String) : Option α :=
  named.lookup name

/-- Put something under a name, in place of what stands there. -/
def put (name : String) (value : α) : Named α → Named α
  | [] => [(name, value)]
  | (other, old) :: rest =>
    if other = name then (name, value) :: rest else (other, old) :: put name value rest

/-- Take a name out. -/
def erase (named : Named α) (name : String) : Named α :=
  named.filter fun entry => entry.1 ≠ name

theorem get?_put (name : String) (value : α) (named : Named α) (other : String) :
    (put name value named).get? other = if other = name then some value else named.get? other := by
  induction named with
  | nil =>
      by_cases hname : other = name <;> simp [put, get?, hname]
  | cons entry rest ih =>
      obtain ⟨first, old⟩ := entry
      unfold get? at ih ⊢
      rw [put]
      split
      next hfirst =>
        subst hfirst
        by_cases hother : other = first
        · simp [hother]
        · simp [List.lookup_cons, beq_eq_false_iff_ne.mpr hother, hother]
      next hfirst =>
        rw [List.lookup_cons, List.lookup_cons, ih]
        by_cases hother : other = first
        · simp [hother, hfirst]
        · rw [beq_eq_false_iff_ne.mpr hother]

end Named

end MergeScan
