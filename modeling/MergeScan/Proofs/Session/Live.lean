import MergeScan.Proofs.Scanner.Ending
import MergeScan.Proofs.Session.Dues

/-! # The live scanners of a desk

A scanner of a desk is live until it ends or is given up. What it answers tells when it ends,
and what is asked under one name concerns no scanner of another name.
-/

namespace MergeScan

open ScanError (endsWith)

/-- Whether a scanner ends, or is given up, with what it answers to a command. -/
def ScannerCommand.ends : ScannerCommand → ScannerAnswer → Bool
  | next _, .page result => endsWith Page.isLast result
  | drain _, .pages results => results.any (endsWith Page.isLast)
  | seek _, .found result | reseek _, .found result => endsWith (fun _ => false) result
  | close, _ | drop, _ => true
  | _, _ => false

namespace Desk

/-- Whether there is a scanner of a name that has not ended. -/
def isLive (desk : Desk) (name : String) : Bool :=
  ((desk.get? name).bind Slot.scanner).any fun scanner => !scanner.isClosed

variable {supply : Option (Supply AnySource)}

/-- A scanner has ended after a command just if it had before, or if the answer says so. -/
theorem isClosed_use (scanner : DeskScanner) {command : ScannerCommand}
    (hkept : command ≠ .drop) : (use supply scanner command).value.2.isClosed =
      (scanner.isClosed || command.ends (use supply scanner command).value.1) := by
  have hfound {result : Except ScanError Bool} (answer : Bool → Bool × Option Cell) :
      endsWith (fun _ => false) (result.map answer) = endsWith (fun _ => false) result := by
    cases result <;> rfl
  cases command with
  | next limit => exact scanner.isClosed_next supply limit
  | drain limit => exact Scanner.isClosed_pages supply limit drainBound scanner
  | seek key => exact (scanner.isClosed_seek supply key).trans (congrArg _ (hfound _).symm)
  | reseek key => exact (scanner.isClosed_reseek supply key).trans (congrArg _ (hfound _).symm)
  | close => exact scanner.isClosed_release.trans (Bool.or_true _).symm
  | sourcesChanged => exact scanner.isClosed_sourcesChanged.trans (Bool.or_false _).symm
  | drop => exact absurd rfl hkept
  | _ => exact (Bool.or_false _).symm

theorem isLive_put (desk : Desk) (name : String) (slot : Slot) (other : String) :
    isLive (desk.put name slot) other =
      if other = name then slot.scanner.any fun scanner => !scanner.isClosed
      else desk.isLive other := by
  rw [isLive, Named.get?_put]
  split <;> rfl

/-- What is asked under a name ends no scanner but the one of that name, and that one just if the
answer says so. -/
theorem isLive_perform (desk : Desk) (name : String) (command : ScannerCommand) (other : String) :
    (desk.perform supply name command).value.2.isLive other =
      (desk.isLive other &&
        !(other = name && command.ends (desk.perform supply name command).value.1)) := by
  rcases desk.perform_cases supply name command with
    ⟨answer, hperform, hidle⟩ | ⟨slot, scanner, hslot, hscanner, hperform⟩
  · -- there is no scanner of that name, or only the use of its filter is asked for
    rw [hperform]
    show desk.isLive other = (desk.isLive other && !(other = name && command.ends answer))
    by_cases hother : other = name
    · subst hother
      rcases hidle with rfl | hnone
      · simp [ScannerCommand.ends]
      · rw [isLive, hnone]
        rfl
    · simp [hother]
  · have hlive : desk.isLive name = !scanner.isClosed := by
      rw [isLive, hslot, Option.bind_some, hscanner]
      rfl
    rcases hperform with ⟨rfl, hperform⟩ | ⟨hkept, hperform⟩
    · rw [hperform, Noted.value_bind, Noted.value_pure, isLive_put]
      by_cases hother : other = name
      · simp [hother, ScannerCommand.ends]
      · simp [hother]
    · have hclosed := @isClosed_use supply scanner command hkept
      rw [hperform]
      dsimp only
      rw [isLive_put]
      by_cases hother : other = name
      · subst hother
        simp [hlive, hclosed]
      · simp [hother]

end Desk

end MergeScan
