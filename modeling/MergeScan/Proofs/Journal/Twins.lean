import Mathlib.Data.List.Forall2
import MergeScan.Source.Positioning

/-! # Computations in step

Two computations are twins if their values correspond and their journals do so note by note.
What is built up in the same way from twins are twins, so a law about single uses of sources
carries over to all that is done with them.
-/

namespace MergeScan

/-- Two outcomes that agree: both are answers, which correspond, or both are the same failure. -/
inductive Agree {ε α β : Type} (related : α → β → Prop) : Except ε α → Except ε β → Prop
  | ok {left : α} {right : β} : related left right → Agree related (.ok left) (.ok right)
  | error (failure : ε) : Agree related (.error failure) (.error failure)

namespace Agree

variable {ε α β : Type}

/-- Whatever the answers are, the failures are the same. -/
theorem of_failureOf {left : Except ε α} {right : Except ε β}
    (hfailure : failureOf left = failureOf right) : Agree (fun _ _ => True) left right := by
  cases left <;> cases right <;> cases hfailure
  · exact .error _
  · exact .ok trivial

end Agree

namespace Noted

/-- Two computations whose values are related, and so is each note of the one to a note of the
other. -/
structure Twins {α β : Type} (similar : Note → Note → Prop) (related : α → β → Prop)
    (left : Noted α) (right : Noted β) : Prop where
  value : related left.value right.value
  notes : List.Forall₂ similar left.notes right.notes

namespace Twins

variable {α β γ δ : Type} {similar : Note → Note → Prop} {related : α → β → Prop}
variable {following : γ → δ → Prop} {left : Noted α} {right : Noted β}

theorem pure {first : α} {second : β} (hrelated : related first second) :
    Twins similar related (Pure.pure first) (Pure.pure second) :=
  ⟨hrelated, .nil⟩

theorem bind {next : α → Noted γ} {other : β → Noted δ} (htwins : Twins similar related left right)
    (hnext : ∀ first second, related first second →
      Twins similar following (next first) (other second)) :
    Twins similar following (left >>= next) (right >>= other) :=
  have hfollowing := hnext _ _ htwins.value
  ⟨hfollowing.value, List.rel_append htwins.notes hfollowing.notes⟩

theorem map {next : α → γ} {other : β → δ} (htwins : Twins similar related left right)
    (hnext : ∀ first second, related first second → following (next first) (other second)) :
    Twins similar following (next <$> left) (other <$> right) :=
  htwins.bind fun first second hrelated => pure (hnext first second hrelated)

theorem note {first second : Note} (hsimilar : similar first second) :
    Twins similar (fun _ _ => True) (note first) (note second) :=
  ⟨trivial, .cons hsimilar .nil⟩

end Twins

end Noted

end MergeScan
