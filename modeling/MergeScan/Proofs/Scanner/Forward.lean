import MergeScan.Proofs.Scanner.Repositioned

/-! # Going forward to a later row

A scan that was never taken back has ahead of it all that its provider has from the cell on top
on, and the row that it is in does not lie behind that cell. Both are kept by everything but a
seek, a change of the sources and its consequences included. So the scan can go forward to any
later row, and hand out from there on what a scan does that begins at the row.
-/

namespace MergeScan

open CellOrder

variable {σ φ : Type} [Source σ] [LawfulSource σ keys] [CellFilter φ]

/-! ## Passes -/

namespace ReadState

variable {state next final : ReadState σ φ} {merge : Merge σ}
variable {cells : List Cell} {cell : Cell} {row : Bytes}

/-- A state that has the end of a list of cells ahead of it, none of them of a row before the one
that the matcher is in. -/
structure Forward (cells : List Cell) (state : ReadState σ φ) : Prop where
  sound : Merge.Sound keys state.merge
  suffix : state.merge.stream <:+ cells
  rows : ∀ row ∈ state.matcher.row, ∀ cell ∈ state.merge.stream, row ≤ cell.row

omit [CellFilter φ] in
theorem Forward.onward (hstate : Forward cells state) (hsound : Merge.Sound keys next.merge)
    (hsuffix : next.merge.stream <:+ state.merge.stream)
    (hrow : next.matcher.row = state.matcher.row) : Forward cells next where
  sound := hsound
  suffix := hsuffix.trans hstate.suffix
  rows row hin cell hcell := hstate.rows row (hrow ▸ hin) cell (hsuffix.subset hcell)

omit [CellFilter φ] in
/-- The row of the first cell can be entered. -/
theorem forward_inRow (matcher : Matcher φ) (hsound : Merge.Sound keys merge)
    (hsuffix : merge.stream <:+ cells) (hfirst : ∀ first ∈ merge.peek, first.row = row) :
    Forward cells ⟨merge, matcher.inRow row⟩ := by
  refine ⟨hsound, hsuffix, fun entered hentered cell hcell => ?_⟩
  obtain rfl : row = entered := Option.some.inj ((matcher.row_inRow row).symm.trans hentered)
  obtain ⟨first, rest, hstream⟩ := List.exists_cons_of_ne_nil (List.ne_nil_of_mem hcell)
  have hpeek : merge.peek = some first := by
    rw [hsound.peek_eq, hstream]
    rfl
  have hsorted := hsound.sorted_stream
  simp only [hstream] at hcell hsorted
  rw [← hfirst first hpeek]
  rcases List.mem_cons.mp hcell with rfl | hrest
  · exact Std.le_refl _
  · exact Cell.row_le_of_isLE ((List.pairwise_cons.mp hsorted).1 cell hrest)

section

variable {admits : Nat → List Cell → Prop}
variable (hadmits : ∀ rank cells, admits rank cells → keys.Sorted cells)
include hadmits

/-- A turn goes forward in the row that the matcher is in, unless it ends the scan. -/
theorem Turned.forward {previous : Option Cell} {outcome : Turn}
    (hturned : Turned keys admits state previous cell outcome next)
    (hstate : Forward cells state) (hgoes : ∀ emitted, outcome ≠ .stop emitted .scanDone) :
    Forward cells next := by
  obtain ⟨decision, hjudged, hcourse⟩ := hturned.decided
  have hled := hturned.unfiltered.led.mono hadmits
  have hrow : next.matcher.row = state.matcher.row :=
    (congrArg Matcher.row hjudged.reset_eq :)
  cases hcourse with
  | cell _ _ hparts =>
      obtain ⟨hsound, hstream⟩ := hstate.sound.of_advanced hled hparts
      exact hstate.onward hsound (hstream ▸ List.tail_suffix _) hrow
  | column _ _ hparts =>
      obtain ⟨hsound, hstream⟩ := hstate.sound.of_skipTo hled hparts
      exact hstate.onward hsound (hstream ▸ List.dropWhile_suffix _) hrow
  | row _ _ hparts =>
      obtain ⟨hsound, hstream⟩ := hstate.sound.of_skipTo hled hparts
      exact hstate.onward hsound (hstream ▸ List.dropWhile_suffix _) hrow
  | rowDone hsame =>
      refine hstate.onward ?_ ?_ hrow
      · exact hsame ▸ hstate.sound
      · exact hsame ▸ List.suffix_refl _
  | scanDone => exact absurd rfl (hgoes _)

theorem Turns.forward {previous : Option Cell} {limit : Option Nat} {emitted : List Cell}
    {ending : PassEnd} (hturns : Turns keys admits previous limit state emitted ending final)
    (hstate : Forward cells state) (hgoes : ending ≠ .scanDone) : Forward cells final := by
  induction hturns with
  | exhausted hpeek => exact hstate
  | stopped hpeek hturned =>
      refine hturned.forward hadmits hstate ?_
      rintro _ ⟨⟩
      exact hgoes rfl
  | filled hpeek hturned hlimit => exact hturned.forward hadmits hstate (by rintro _ ⟨⟩)
  | goOn hpeek hturned hturns ih =>
      exact ih (hturned.forward hadmits hstate (by rintro _ ⟨⟩)) hgoes

end

end ReadState

/-! ## Scanners -/

namespace Scanner

variable {family : Family} {scan : Scan φ} {scanner reached after : Scanner σ φ}
variable {supply : Supply σ} {merge : Merge σ} {cells : List Cell} {top key : Cell} {row : Bytes}

/-- A scanner that has the end of a list of cells ahead of it, none of them of a row before the
one that it is in. -/
def Forward (cells : List Cell) (scanner : Scanner σ φ) : Prop :=
  match scanner.phase with
  | .active merge => ReadState.Forward cells ⟨merge, scanner.matcher⟩
  | .resync resumeAt => ∀ row ∈ scanner.matcher.row, row ≤ resumeAt.row
  | .closed => True

omit [CellFilter φ] in
theorem forward_of_closed (hclosed : scanner.phase = .closed) (cells : List Cell) :
    scanner.Forward cells := by
  rw [Forward, hclosed]
  trivial

omit [CellFilter φ] in
theorem forward_active (hactive : scanner.phase = .active merge) :
    scanner.Forward cells ↔ ReadState.Forward cells ⟨merge, scanner.matcher⟩ := by
  rw [Forward, hactive]

omit [CellFilter φ] in
/-- A scanner that has failed has nothing ahead of it. -/
theorem forward_concluding {α : Type} {outcome : Except ScanError α × Scanner σ φ}
    (hanswered : ∀ answer, outcome.1 = .ok answer → outcome.2.Forward cells) :
    (concluding outcome).value.2.Forward cells := by
  obtain ⟨failure | answer, reached⟩ := outcome
  · exact forward_of_closed (release_closed reached).1.1 cells
  · exact hanswered answer rfl

omit [CellFilter φ] in
/-- A change of the sources leaves the cell to go on at, which is not of an earlier row. -/
theorem Forward.sourcesChanged (hscanner : scanner.Forward cells) (others : List Cell) :
    scanner.sourcesChanged.value.Forward others := by
  unfold Scanner.sourcesChanged
  cases hphase : scanner.phase with
  | active merge =>
      have hmerge := (forward_active hphase).mp hscanner
      have hpeek := hmerge.sound.peek_eq
      cases hfirst : merge.peek with
      | none =>
          have hnone : merge.stream = [] := List.head?_eq_none_iff.mp (hpeek.symm.trans hfirst)
          simp only [hfirst]
          refine (forward_active hphase).mpr ⟨hmerge.sound, ?_, hmerge.rows⟩
          exact hnone ▸ List.nil_suffix
      | some first =>
          simp only [hfirst]
          intro row hrow
          exact hmerge.rows row hrow first (List.mem_of_mem_head? (hpeek.symm.trans hfirst))
  | resync resumeAt =>
      rw [Forward, hphase] at hscanner
      simp only [Noted.value_pure, Forward, hphase]
      exact hscanner
  | closed => exact forward_of_closed hphase others

/-- A read goes forward in its row, or ends the scan. -/
theorem Paged.forward {admits : Nat → List Cell → Prop}
    (hadmits : ∀ rank cells, admits rank cells → keys.Sorted cells) {limit : Option Nat}
    {page : Page} (hpaged : Paged keys admits scanner limit page reached)
    (hscanner : scanner.Forward cells) : reached.Forward cells := by
  cases hpaged with
  | nothing hclosed => exact forward_of_closed hclosed cells
  | read hactive hpeek hturns hmatcher hphase =>
      rcases hphase with hclosed | ⟨hgoes, hphase⟩
      · exact forward_of_closed hclosed cells
      · have hmerge := (forward_active hactive).mp hscanner
        have hentered := ReadState.forward_inRow scanner.matcher hmerge.sound hmerge.suffix
          fun first hfirst => congrArg Cell.row (Option.some.inj (hfirst.symm.trans hpeek))
        rw [forward_active hphase, hmatcher]
        exact hturns.forward hadmits hentered hgoes

section

variable {moved : Noted (Except SourceError Bool × Merge σ)}
variable (hmoved : Merge.Moved keys merge (keys.skipTo key merge.stream) moved.value)
include hmoved

omit [CellFilter φ] in
/-- To move the merge to a key goes forward, or ends the scan. -/
theorem moved_forward (hmerge : ReadState.Forward cells ⟨merge, scanner.matcher⟩) :
    (moved >>= fun outcome => concluding (scanner.ofMerge outcome)).value.2.Forward cells := by
  rw [Noted.value_bind]
  refine forward_concluding fun answer hanswer => ?_
  have hok : moved.value.1.isOk = true := by
    cases hresult : moved.value.1 with
    | error failure =>
        rw [ofMerge, hresult] at hanswer
        cases hanswer
    | ok found => rfl
  refine hmerge.onward hmoved.sound ?_ rfl
  exact hmoved.stream hok ▸ List.dropWhile_suffix _

omit [CellFilter φ] in
theorem moved_reaches {found : Bool}
    (hanswer : (moved >>= fun outcome => concluding (scanner.ofMerge outcome)).value =
      (.ok found, after)) :
    ∃ sought, after = { scanner with phase := .active sought } ∧
      sought.stream = keys.skipTo key merge.stream := by
  rw [Noted.value_bind] at hanswer
  have hstream := hmoved.stream
  generalize moved.value = outcome at hstream hanswer
  obtain ⟨failure | _, sought⟩ := outcome
  · cases hanswer
  · cases hanswer
    exact ⟨sought, rfl, hstream rfl⟩

end

/-- Opening positions the sources on the first key of the scan, and enters no row. -/
theorem forward_of_open (horder : family.order = keys)
    (hsupply : supply.Orderly family.name scan.request) {subscription : Nat}
    (hopen : (Scanner.open family supply subscription scan).value = .ok scanner) :
    scanner.Forward (supply.cells scan.request) := by
  obtain ⟨merge, hactive, hsound, -, hstream, hmatcher, -⟩ :=
    exists_merge_of_open horder hsupply hopen
  refine (forward_active hactive).mpr ⟨hsound, hstream ▸ List.dropWhile_suffix _, ?_⟩
  simp only [hmatcher]
  nofun

/-! ## With new sources -/

section

variable (hscanner : scanner.DrawsOn family scan supply)
variable (hsupply : supply.Orderly family.name scan.request)
include hscanner hsupply

variable (hfilter : scan.filter = none)
include hfilter

variable (hforward : scanner.Forward (supply.cells scan.request))
include hforward

theorem resync_forward (hresync : (scanner.resync (some supply)).value = (.ok (), reached)) :
    reached.Forward (supply.cells scan.request) := by
  rcases resync_cases hscanner hfilter hresync with
    ⟨-, rfl⟩ | ⟨resumeAt, placed, -, hplace, hactive, hmatcher⟩
  · exact hforward
  · obtain ⟨hsound, hstream⟩ := hsupply.placed Positioning.seek_lawful hplace
    rw [forward_active hactive, hmatcher]
    refine ReadState.forward_inRow scanner.matcher hsound (hstream ▸ List.dropWhile_suffix _) ?_
    intro first hfirst
    rw [hfirst]
    rfl

theorem next_forward (limit : ReadLimit) :
    (scanner.next (some supply) limit).value.2.Forward (supply.cells scan.request) := by
  have hnone : scanner.matcher.filter = none := hscanner.filter.trans hfilter
  have hresync := hscanner.resync hfilter hsupply
  -- new sources are taken from where reading had come to on, so nothing is gone back to
  have hresynced (reached : Scanner σ φ)
      (hreached : (scanner.resync (some supply)).value = (.ok (), reached)) :=
    resync_forward hscanner hsupply hfilter hforward hreached
  simp only [Scanner.next, Matcher.refuses_unfiltered hnone, Noted.value_bind]
  refine forward_concluding fun page hpage => ?_
  unfold fill at hpage ⊢
  rw [Noted.value_bind] at hpage ⊢
  generalize (scanner.resync (some supply)).value = resynced at hresync hresynced hpage ⊢
  obtain ⟨failure | _, reached⟩ := resynced
  · cases hpage
  · have hreached := hresynced reached rfl
    cases hphase : reached.phase with
    | active merge =>
        simp only [hphase] at hpage ⊢
        cases hpeek : merge.peek with
        | none => exact forward_of_closed (release_closed reached).1.1 _
        | some first =>
            simp only [hpeek] at hpage
            have hunfiltered := DrawsOn.unfiltered hresync hfilter hphase
            have hpaged := (hunfiltered.read (kind_ne_minimum hsupply) hphase hpeek _).2 page hpage
            exact hpaged.forward (fun _ _ hadmitted => hadmitted.2) hreached
    | resync resumeAt =>
        simp only [hphase]
        exact hreached
    | closed =>
        simp only [hphase]
        exact hreached

/-- Taking new sources misses nothing of what comes after the cell to go on at, and no row after
the one of that cell has been read. -/
theorem resync_reaches (hscan : scan.WellFormed) (hpeek : scanner.peek = some top)
    (hresync : (scanner.resync (some supply)).value = (.ok (), reached)) :
    ∃ merge, reached.phase = .active merge ∧ Merge.Sound keys merge ∧
      (∀ key, keys.compare top key = .lt →
        keys.skipTo key merge.stream = keys.skipTo key (supply.cells scan.request)) ∧
      ∀ row, top.row < row → reached.IsNewIn family scan row := by
  have hsorted := supply.cells_sorted scan.request
  rcases resync_cases hscanner hfilter hresync with
    ⟨hnot, rfl⟩ | ⟨resumeAt, placed, hphase, hplace, hactive, hmatcher⟩
  · cases hphase : reached.phase with
    | resync resumeAt => exact absurd hphase (hnot resumeAt)
    | closed => simp [peek, hphase] at hpeek
    | active merge =>
        have hmerge := (forward_active hphase).mp hforward
        rw [peek, hphase] at hpeek
        have htop := List.mem_of_mem_head? (hmerge.sound.peek_eq.symm.trans hpeek)
        refine ⟨merge, rfl, hmerge.sound, fun key hlt => ?_, fun row hlt => .inl fun hrow => ?_⟩
        · exact skipTo_of_suffix hsorted hmerge.suffix htop hlt
        · exact Std.not_le.mpr hlt (hmerge.rows row hrow top htop)
  · obtain ⟨hsound, hstream⟩ := hsupply.placed Positioning.seek_lawful hplace
    rw [peek, hphase] at hpeek
    cases hpeek
    rw [Forward, hphase] at hforward
    refine ⟨_, hactive, hsound, fun key hlt => ?_, fun row hlt => ?_⟩
    · rw [hstream]
      exact skipTo_skipTo hsorted fun cell _ hbefore => Std.TransCmp.lt_trans hbefore hlt
    · refine IsNewIn.of_inRow (.inl fun hrow => ?_) hscanner.matcher hscan hmatcher
      exact Std.not_le.mpr hlt (hforward row hrow)

theorem reseek_forward (key : Cell) :
    (scanner.reseek (some supply) key).value.2.Forward (supply.cells scan.request) := by
  have hresynced (reached : Scanner σ φ)
      (hreached : (scanner.resync (some supply)).value = (.ok (), reached)) :=
    resync_forward hscanner hsupply hfilter hforward hreached
  unfold Scanner.reseek
  rw [Noted.value_bind]
  generalize (scanner.resync (some supply)).value = resynced at hresynced ⊢
  obtain ⟨failure | _, reached⟩ := resynced
  · exact forward_of_closed (release_closed reached).1.1 _
  · have hreached := hresynced reached rfl
    cases hphase : reached.phase with
    | active merge =>
        have hmerge := (forward_active hphase).mp hreached
        simp only [hphase]
        split
        · exact moved_forward (hmerge.sound.seekExactly_moved key) hmerge
        · exact moved_forward (hmerge.sound.reseek_moved key) hmerge
    | resync resumeAt =>
        simp only [hphase]
        exact hreached
    | closed =>
        simp only [hphase]
        exact hreached

/-- A scanner that has a cell to go on at goes forward, and then has ahead of it what its provider
has from a later key on. It has not read of any later row. -/
theorem reseek_reaches (hscan : scan.WellFormed) (hpeek : scanner.peek = some top)
    (hlt : keys.compare top key = .lt) {found : Bool}
    (hreseek : (scanner.reseek (some supply) key).value = (.ok found, after)) :
    ∃ merge, after.phase = .active merge ∧
      merge.stream = keys.skipTo key (supply.cells scan.request) ∧
      ∀ row, top.row < row → after.IsNewIn family scan row := by
  have hreaches (reached : Scanner σ φ)
      (hreached : (scanner.resync (some supply)).value = (.ok (), reached)) :=
    resync_reaches hscanner hsupply hfilter hforward hscan hpeek hreached
  unfold Scanner.reseek at hreseek
  rw [Noted.value_bind] at hreseek
  generalize (scanner.resync (some supply)).value = resynced at hreaches hreseek
  obtain ⟨failure | _, reached⟩ := resynced
  · cases hreseek
  · obtain ⟨merge, hactive, hsound, hahead, hnew⟩ := hreaches reached rfl
    obtain ⟨moved, hmoved, hanswer⟩ : ∃ moved : Noted (Except SourceError Bool × Merge σ),
        Merge.Moved keys merge (keys.skipTo key merge.stream) moved.value ∧
          (moved >>= fun outcome => concluding (reached.ofMerge outcome)).value =
            (.ok found, after) := by
      simp only [hactive] at hreseek
      split at hreseek
      · exact ⟨_, hsound.seekExactly_moved key, hreseek⟩
      · exact ⟨_, hsound.reseek_moved key, hreseek⟩
    obtain ⟨sought, rfl, hstream⟩ := moved_reaches hmoved hanswer
    exact ⟨sought, rfl, hstream.trans (hahead key hlt), hnew⟩

end

omit [CellFilter φ] [LawfulSource σ keys] in
theorem moved_isOk {moved : Noted (Except SourceError Bool × Merge σ)}
    (hok : moved.value.1.isOk = true) :
    (moved >>= fun outcome => concluding (scanner.ofMerge outcome)).value.1.isOk = true := by
  rw [Noted.value_bind]
  generalize moved.value = outcome at hok
  obtain ⟨failure | _, sought⟩ := outcome
  · cases hok
  · rfl

/-- Where no source fails, neither does going forward. -/
theorem reseek_isOk (hscanner : scanner.DrawsOn family scan supply) (hfilter : scan.filter = none)
    (hsupply : supply.Sound family.name scan.request) (key : Cell) :
    (scanner.reseek (some supply) key).value.1.isOk = true := by
  have hresynced := hscanner.resync hfilter hsupply.orderly
  have hisOk : (scanner.resync (some supply)).value.1.isOk = true := by
    unfold Scanner.resync
    split
    next resumeAt _ =>
      have hrequest := hscanner.request ▸ hsupply
      obtain ⟨merge, hrebuild, -⟩ := rebuild_eq hrequest hscanner.order resumeAt
      rw [Noted.value_bind, hrebuild]
      rfl
    next => rfl
  unfold Scanner.reseek
  rw [Noted.value_bind]
  generalize (scanner.resync (some supply)).value = resynced at hresynced hisOk ⊢
  obtain ⟨failure | _, reached⟩ := resynced
  · cases hisOk
  · dsimp only
    split
    next merge hactive =>
      have hmerge := hresynced.merge merge hactive
      have hsound := hmerge.carries.sound
      have hreliable := hmerge.reliable hsupply
      split
      · exact moved_isOk ((hsound.seekExactly_moved key).reliable hreliable).1
      · exact moved_isOk ((hsound.reseek_moved key).reliable hreliable).1
    next => rfl

end Scanner

/-! ## A scan under way -/

namespace Scanning

variable {family : Family} {scan : Scan φ} {scanning : Scanning σ φ}

/-- A scan that has ahead of it what its provider has, from where it has come to. -/
structure Forward (family : Family) (scan : Scan φ) (scanning : Scanning σ φ) : Prop where
  draws : scanning.Draws family scan
  forward : scanning.scanner.Forward (scanning.supply.cells scan.request)

/-- Everything but a seek leads forward. -/
theorem Forward.step (hscanning : scanning.Forward family scan) (hfilter : scan.filter = none)
    {step : ScanStep σ}
    (hstep : ∀ supply, step = .change supply → supply.Orderly family.name scan.request)
    (honward : ∀ key, step ≠ .seek key) : (scanning.step step).Forward family scan := by
  obtain ⟨hdraws, hforward⟩ := hscanning
  refine ⟨hdraws.step hfilter hstep, ?_⟩
  obtain ⟨hsupply, hscanner⟩ := hdraws
  cases step with
  | read limit => exact Scanner.next_forward hscanner hsupply hfilter hforward limit
  | seek key => exact absurd rfl (honward key)
  | reseek key => exact Scanner.reseek_forward hscanner hsupply hfilter hforward key
  | change supply => exact hforward.sourcesChanged _

theorem Forward.after (hscanning : scanning.Forward family scan) (hfilter : scan.filter = none)
    {steps : List (ScanStep σ)}
    (hsteps : ∀ supply, .change supply ∈ steps → supply.Orderly family.name scan.request)
    (honward : ∀ key, .seek key ∉ steps) : (scanning.after steps).Forward family scan := by
  induction steps generalizing scanning with
  | nil => exact hscanning
  | cons step rest ih =>
      refine ih (hscanning.step hfilter ?_ ?_) (fun supply hsupply => ?_) fun key hkey => ?_
      · rintro supply rfl
        exact hsteps supply List.mem_cons_self
      · rintro key rfl
        exact honward key List.mem_cons_self
      · exact hsteps supply (List.mem_cons_of_mem _ hsupply)
      · exact honward key (List.mem_cons_of_mem _ hkey)

end Scanning

namespace Scanner

variable {family : Family} {scan : Scan φ} {scanner : Scanner σ φ} {row : Bytes}

/-- Wherever a scan without a filter has been read and taken forward to, and whatever changes of
its sources it has been told of, to go forward to the beginning of a row behind the cell that is
next loses nothing: the scan comes to the first cell from there on that its provider has now, and
hands out what one does that begins at the row. The provider has to have the same cells from the
row on for both, source by source. -/
theorem reseek_loses_nothing (hscan : scan.Unfiltered family) (hbatch : scan.batch ≠ some 0)
    {start : Supply σ} (hstart : start.Orderly family.name scan.request) {subscription : Nat}
    (hopen : (Scanner.open family start subscription scan).value = .ok scanner)
    {steps : List (ScanStep σ)}
    (hsteps : ∀ other, .change other ∈ steps → other.Orderly family.name scan.request)
    (honward : ∀ key, .seek key ∉ steps)
    {reached : Scanning σ φ} (hreached : (Scanning.mk scanner start).after steps = reached)
    {top : Cell} (hpeek : reached.scanner.peek = some top)
    (hrow : scan.rows.startsAfter row = false)
    (hbehind : keys.compare top (Cell.firstOnRow row) = .lt) :
    let key := Cell.firstOnRow row
    let later := scan.startingAt row
    (reached.supply.Sound family.name scan.request →
      (reached.scanner.reseek (some reached.supply) key).value.1.isOk = true) ∧
    ∀ found after,
      (reached.scanner.reseek (some reached.supply) key).value = (.ok found, after) →
      after.peek = (keys.skipTo key (reached.supply.cells scan.request)).head? ∧
      (reached.supply.Orderly family.name later.request →
        reached.supply.AgreesFrom key scan.request later.request →
        ∃ total,
          after.ReadsTo (reached.supply.Sound family.name scan.request) reached.supply total ∧
          later.Yields family reached.supply total) := by
  intro key later
  have hbegins : (Scanning.mk scanner start).Forward family scan :=
    ⟨⟨hstart, drawsOn_of_open hscan.wellFormed hscan.order hstart hopen⟩,
      forward_of_open hscan.order hstart hopen⟩
  obtain ⟨⟨hsupply, hscanner⟩, hforward⟩ := hreached ▸ hbegins.after hscan.filter hsteps honward
  refine ⟨fun hsure => reseek_isOk hscanner hscan.filter hsure key, fun found after hreseek => ?_⟩
  have hafter : after.DrawsOn family scan reached.supply := by
    have hmoved := hscanner.reseek hscan.filter hsupply key
    rw [hreseek] at hmoved
    exact hmoved
  obtain ⟨merge, hactive, hstream, hnew⟩ :=
    reseek_reaches hscanner hsupply hscan.filter hforward hscan.wellFormed hpeek hbehind hreseek
  refine ⟨?_, fun hlater hagrees => ?_⟩
  · rw [peek, hactive, ← hstream]
    exact (hafter.merge merge hactive).carries.sound.peek_eq
  have hsorted := reached.supply.cells_sorted scan.request
  have hlaterScan := hscan.startingAt row
  have hgathered := hscan.gather_from (reached.supply.cells_sorted later.request)
    hlater.stored_cells hrow
  have hprimed := hscan.primed_from hsorted hsupply.stored_cells hrow
  refine ⟨(Matcher.ofScan family scan).gather
    (keys.skipTo key (reached.supply.cells scan.request)), ?_, ?_⟩
  · refine hafter.readsTo hscan hbatch hactive hstream hprimed fun first hfirst => hnew first.row ?_
    -- the row is behind the cell that was next, and the first cell is of the row or a later one
    have hle := row_le_of_mem_skipTo hsorted (List.mem_of_mem_head? hfirst)
    exact Std.lt_of_lt_of_le ((Cell.lt_firstOnRow_iff top row).mp hbehind) hle
  · rw [hagrees.skipTo_cells hsupply hlater, ← hgathered]
    exact hlaterScan.wellFormed.yields_gather hlaterScan.order hlaterScan.steady hbatch hlater

/-- The sources change when a row is next that the new ones do not have any more. They begin with
the row to go to, which is entered when they are taken, before the scan goes forward to it. -/
theorem reseek_loses_nothing_of_scripts :
    let family : Family := { name := [102], clock := .manual .oldest }
    let scan : Scan AnyFilter := {}
    let cell (row : UInt8) : Cell := .put [row] [102] [99] ⟨1⟩ [1]
    let former : SourceScript := { sequenceId := 1, cells := [cell 112, cell 113] }
    let current : SourceScript := { sequenceId := 2, cells := [cell 114, cell 115] }
    let start : Supply ScriptedSource := fun _ => .ok [former.open .keys 0]
    let supply : Supply ScriptedSource := fun _ => .ok [current.open .keys 0]
    ∃ scanner, (Scanner.open family start 0 scan).value = .ok scanner ∧
      let reached := (Scanning.mk scanner start).after [.read .ofScan, .change supply]
      let outcome := (reached.scanner.reseek (some supply) (Cell.firstOnRow [114])).value
      reached.scanner.peek = some (cell 113) ∧ outcome.1.isOk = true ∧
        outcome.2.matcher.row = some [114] ∧ outcome.2.peek = some (cell 114) ∧
        ∃ total, outcome.2.ReadsTo True supply total ∧
          (scan.startingAt [114]).Yields family supply total := by
  intro family scan cell former current start supply
  have hscan : scan.Unfiltered family :=
    ⟨⟨List.Pairwise.nil, Nat.le_refl 1⟩, Nat.le_refl 1, rfl, rfl⟩
  have hstart (request : SourceRequest) : start.Sound family.name request :=
    former.sound ⟨rfl, rfl⟩ (by decide) (by decide) _
  have hsupply (request : SourceRequest) : supply.Sound family.name request :=
    current.sound ⟨rfl, rfl⟩ (by decide) (by decide) _
  have hsteps : ∀ other : Supply ScriptedSource,
      .change other ∈ [ScanStep.read ReadLimit.ofScan, .change supply] →
        other.Orderly family.name scan.request := by
    intro other hother
    obtain rfl : other = supply := by simpa using hother
    exact (hsupply _).orderly
  have honward (key : Cell) :
      ScanStep.seek key ∉ [ScanStep.read ReadLimit.ofScan, .change supply] := by
    simp
  refine ⟨_, rfl, ?_⟩
  intro reached outcome
  have hpeek : reached.scanner.peek = some (cell 113) := by decide
  obtain ⟨hisOk, hsought⟩ := reseek_loses_nothing hscan nofun (hstart _).orderly rfl hsteps honward
    rfl hpeek (by decide : scan.rows.startsAfter [114] = false) (by decide)
  have hisOk : outcome.1.isOk = true := hisOk (hsupply _)
  refine ⟨hpeek, hisOk, by decide, by decide, ?_⟩
  cases houtcome : outcome with
  | mk result after =>
      rw [houtcome] at hisOk
      cases result with
      | error failure => cases hisOk
      | ok found =>
          obtain ⟨total, hreads, hyields⟩ :=
            (hsought found after houtcome).2 (hsupply _).orderly (.refl _)
          exact ⟨total, hreads.of_sure (hsupply _) True, hyields⟩

end Scanner

end MergeScan
