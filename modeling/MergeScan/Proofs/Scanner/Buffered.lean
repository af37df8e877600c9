import MergeScan.Scanner.Read

/-! # Reading into a list

A read puts what it hands out behind the cells that its caller has, and a read that fails puts
nothing there. To read again and again into one list gathers there what the pages hold.
-/

namespace MergeScan

/-- What a read puts behind the cells that its caller has. -/
def Page.putBehind : Except ScanError Page → List Cell
  | .ok page => page.cells
  | .error _ => []

namespace Scanner

variable {σ φ : Type} [Source σ] [CellFilter φ] {scanner : Scanner σ φ}
variable {supply : Option (Supply σ)} {limit : ReadLimit}

theorem nextInto_eq (out : List Cell) : scanner.nextInto supply limit out =
    (fun read => (read.1.map Page.more, out ++ Page.putBehind read.1, read.2)) <$>
      scanner.next supply limit := by
  rw [nextInto, map_eq_pure_bind]
  congr 1
  funext ⟨result, reached⟩
  cases result with
  | ok page => rfl
  | error failure => simp [Page.putBehind, Except.map]

/-- A read that fails leaves what its caller has as it was. -/
theorem nextInto_of_error {out : List Cell} {failure : ScanError}
    (hfailed : (scanner.nextInto supply limit out).value.1 = .error failure) :
    (scanner.nextInto supply limit out).value.2.1 = out := by
  rw [nextInto_eq, Noted.value_map] at hfailed ⊢
  generalize (scanner.next supply limit).value = read at hfailed ⊢
  obtain ⟨_ | page, reached⟩ := read
  · exact List.append_nil out
  · cases hfailed

/-- What a read hands out comes to stand behind what its caller has. -/
theorem nextInto_of_ok {page : Page} (hread : (scanner.next supply limit).value.1 = .ok page)
    (out : List Cell) :
    (scanner.nextInto supply limit out).value.2.1 = out ++ page.cells := by
  rw [nextInto_eq, Noted.value_map, hread]
  rfl

/-- Reading into a list leaves there what the pages hold, one after the other, up to a failure. -/
theorem drainInto_eq (count : Nat) (out : List Cell) :
    drainInto supply limit count out scanner =
      (fun read => ((read.1.findSome? failureOf).elim (.ok ()) .error,
        out ++ read.1.flatMap Page.putBehind, read.2)) <$> pages supply limit count scanner := by
  induction count generalizing out scanner with
  | zero =>
      rw [drainInto, pages, map_pure, List.flatMap_nil, List.append_nil]
      rfl
  | succ count ih =>
      rw [drainInto, pages, nextInto_eq, bind_map_left, map_bind]
      congr 1
      funext ⟨result, reached⟩
      obtain failure | ⟨cells, more⟩ := result
      · simp [Except.map, failureOf]
      · cases more with
        | true =>
            -- the cells of this page are in the list when the rest is read
            show drainInto supply limit count (out ++ cells) reached = _
            simp [ih, failureOf, Page.putBehind, List.findSome?_cons]
        | false => simp [Except.map, failureOf, Page.putBehind]

/-- If no read fails, all the cells of the scan come to stand in the list. -/
theorem drainInto_of_pages {count : Nat} {read : List Page}
    (hread : (pages supply limit count scanner).value.1 = read.map .ok) (out : List Cell) :
    (drainInto supply limit count out scanner).value =
      (.ok (), out ++ read.flatMap Page.cells, (pages supply limit count scanner).value.2) := by
  have hnone : (read.map Except.ok).findSome? (@failureOf ScanError Page) = none := by
    rw [List.findSome?_map]
    exact List.findSome?_eq_none_iff.mpr fun _ _ => rfl
  rw [drainInto_eq, Noted.value_map, hread, hnone, List.flatMap_map]
  rfl

end Scanner

end MergeScan
