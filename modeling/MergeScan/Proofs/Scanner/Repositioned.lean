import MergeScan.Filter.Any
import MergeScan.Proofs.Scanner.Anew
import MergeScan.Proofs.Scanner.Begins
import MergeScan.Proofs.Scanner.RanDry

/-! # Starting over at a row

A seek takes a scan to any row of it. From there on the scan hands out what one does that begins
at the row, over the sources that the scanner still has: a source that ran dry is gone until
the provider tells of a change. The row that is being read is not begun anew.
-/

namespace MergeScan

open CellOrder

variable {σ φ : Type} [Source σ] [LawfulSource σ keys] [CellFilter φ]

/-! ## The cells of a scan from a row on -/

/-- The same scan from a row on. -/
def Scan.startingAt (scan : Scan φ) (row : Bytes) : Scan φ :=
  { scan with rows := { scan.rows with start := row } }

variable {family : Family} {scan : Scan φ} {row : Bytes} {cells : List Cell}

omit [CellFilter φ] in
theorem Scan.Unfiltered.startingAt (hscan : scan.Unfiltered family) (row : Bytes) :
    (scan.startingAt row).Unfiltered family :=
  ⟨⟨hscan.wellFormed.columns, hscan.wellFormed.versions⟩, hscan.familyWellFormed, hscan.order,
    hscan.filter⟩

/-- The first key of a row in a family is where the cells of the row begin. -/
theorem skipTo_firstOnColumn {name : Bytes} (hsorted : keys.Sorted cells)
    (hstored : Cell.StoredIn name cells) (row : Bytes) :
    keys.skipTo (Cell.firstOnColumn row name []) cells =
      keys.skipTo (Cell.firstOnRow row) cells := by
  rw [skipTo_eq_filter hsorted, skipTo_eq_filter hsorted]
  apply List.filter_congr
  intro cell hcell
  obtain ⟨hreal, hfamily⟩ := hstored cell hcell
  have hrow : Cell.firstOnRow row = Cell.firstOnColumn row [] [] := rfl
  have hnot (bytes : Bytes) : ¬bytes < [] := Std.not_lt.mpr (List.nil_le bytes)
  have hsame : Cell.compareKeys cell (Cell.firstOnColumn row name []) = .lt ↔
      Cell.compareKeys cell (Cell.firstOnRow row) = .lt := by
    rw [hrow, Cell.lt_firstOnColumn_iff hreal.1, Cell.lt_firstOnColumn_iff hreal.1]
    simp [hfamily, hnot, Std.lt_irrefl]
  exact decide_eq_decide.mpr (not_congr hsame)

/-- From a row of the scan on, its first matcher can look at all cells. -/
theorem Scan.Unfiltered.primed_from (hscan : scan.Unfiltered family) (hsorted : keys.Sorted cells)
    (hstored : Cell.StoredIn family.name cells) (hrow : scan.rows.startsAfter row = false) :
    (Matcher.ofScan family scan).Primed family.name
      (keys.skipTo (Cell.firstOnRow row) cells) := by
  have hahead : Cell.StoredIn family.name (keys.skipTo (Cell.firstOnRow row) cells) :=
    fun cell hcell => hstored cell ((mem_skipTo hsorted).mp hcell).1
  have hprimed := Scanner.primed_ofScan hscan.wellFormed hscan.order hscan.steady
    (hsorted.skipTo (Cell.firstOnRow row)) hahead
  rw [skipTo_eq_self] at hprimed
  · exact hprimed
  · intro cell hfirst
    have hcell := List.mem_of_mem_head? hfirst
    have hle := row_le_of_mem_skipTo hsorted hcell
    rw [Bool.eq_false_iff, ne_eq, RowRange.startsAfter_iff, Std.not_lt] at hrow
    refine mt (Scan.lt_startKey_iff (hahead cell hcell)).mp ?_
    rw [RowRange.startsAfter_iff, Std.not_lt]
    exact Std.le_trans hrow hle

/-- A scan that begins at a row hands out of cells what the whole scan does from the row on. -/
theorem Scan.Unfiltered.gather_from (hscan : scan.Unfiltered family) (hsorted : keys.Sorted cells)
    (hstored : Cell.StoredIn family.name cells) (hrow : scan.rows.startsAfter row = false) :
    (Matcher.ofScan family (scan.startingAt row)).gather
        (keys.skipTo (Matcher.ofScan family (scan.startingAt row)).startKey cells) =
      (Matcher.ofScan family scan).gather (keys.skipTo (Cell.firstOnRow row) cells) := by
  have hkey : (Matcher.ofScan family (scan.startingAt row)).startKey =
    Cell.firstOnColumn row family.name [] := rfl
  have hmatcher : Matcher.ofScan family (scan.startingAt row) =
    (Matcher.ofScan family scan).startingAt row (Cell.firstOnColumn row family.name []) := rfl
  rw [hkey, skipTo_firstOnColumn hsorted hstored, hmatcher]
  exact (hscan.primed_from hsorted hstored hrow).gather_startingAt row _
    fun cell hcell => row_le_of_mem_skipTo hsorted hcell

/-! ## Where a seek leads -/

namespace Scanner

variable {scanner after : Scanner σ φ} {supply : Supply σ} {key : Cell}

omit [CellFilter φ] in
/-- A seek takes a scanner to the first of the cells from a key on, and the matcher knows nothing
of it. -/
theorem seek_reaches (hscanner : scanner.DrawsOn family scan supply)
    (hopen : scanner.isClosed = false) (hsupply : supply.Orderly family.name scan.request)
    {found : Bool} (hseek : (scanner.seek (some supply) key).value = (.ok found, after)) :
    ∃ merge, after.phase = .active merge ∧ after.matcher = scanner.matcher ∧
      merge.stream = keys.skipTo key ((supply.only scanner.goesOnWith).cells scan.request) := by
  have hrefreshed := hscanner.refreshSources hsupply
  have htakes (reached : Scanner σ φ)
      (hreached : (scanner.refreshSources (some supply)).value = (.ok (), reached)) :=
    refreshSources_takes hsupply hscanner hopen hreached
  unfold Scanner.seek at hseek
  rw [Noted.value_bind] at hseek
  generalize (scanner.refreshSources (some supply)).value = refreshed at hrefreshed htakes hseek
  obtain ⟨failure | _, reached⟩ := refreshed
  · cases hseek
  · obtain ⟨merge, hactive, hmatcher, hkept⟩ := htakes reached rfl
    have hmerge := hrefreshed.merge merge hactive
    simp only [hactive, Noted.value_bind] at hseek
    have hstream (hok : (merge.seek key).value.1.isOk = true) :=
      hmerge.seek_stream hsupply.distinct hsupply.sorted_parts hkept hok
    generalize (merge.seek key).value = moved at hstream hseek
    obtain ⟨failure | _, sought⟩ := moved
    · cases hseek
    · cases hseek
      refine ⟨sought, rfl, hmatcher, ?_⟩
      rw [Supply.cells_only]
      exact hstream rfl

omit [CellFilter φ] in
/-- Where no source fails, neither does a seek. -/
theorem seek_isOk (hscanner : scanner.DrawsOn family scan supply)
    (hsupply : supply.Sound family.name scan.request) (key : Cell) :
    (scanner.seek (some supply) key).value.1.isOk = true := by
  have hrefreshed := hscanner.refreshSources hsupply.orderly
  have hisOk : (scanner.refreshSources (some supply)).value.1.isOk = true := by
    unfold Scanner.refreshSources
    split
    next =>
      rw [← hscanner.request] at hsupply
      simp only [rebuild, Noted.value_bind, hsupply.askFor, Noted.value_pure, Noted.value_map]
      rfl
    next => rfl
  unfold Scanner.seek
  rw [Noted.value_bind]
  generalize (scanner.refreshSources (some supply)).value = refreshed at hrefreshed hisOk ⊢
  obtain ⟨failure | _, reached⟩ := refreshed
  · cases hisOk
  · dsimp only
    split
    next merge hactive =>
      have hmoved := (hrefreshed.merge merge hactive).seek_isOk hsupply key
      rw [Noted.value_bind]
      generalize (merge.seek key).value = moved at hmoved ⊢
      obtain ⟨failure | _, sought⟩ := moved
      · cases hmoved
      · rfl
    next => rfl

/-- Wherever a scan without a filter has been read and positioned to, and whatever changes of its
sources it has been told of, a seek to the beginning of a row takes it to the first cell from
there on, among the cells of the sources that it goes on with. It was past all cells of the
others at some time since the sources last changed. If nothing of the row of the first cell has
been read, the scan then hands out what one does that begins at the row and is opened over the
same sources. -/
theorem seek_starts_over (hscan : scan.Unfiltered family) (hbatch : scan.batch ≠ some 0)
    {start : Supply σ} (hstart : start.Orderly family.name scan.request) {subscription : Nat}
    (hopen : (Scanner.open family start subscription scan).value = .ok scanner)
    {steps : List (ScanStep σ)}
    (hsteps : ∀ other, .change other ∈ steps → other.Orderly family.name scan.request)
    {reached : Scanning σ φ} (hreached : (Scanning.mk scanner start).after steps = reached)
    (hunclosed : reached.scanner.isClosed = false) {row : Bytes}
    (hrow : scan.rows.startsAfter row = false) :
    let key := Cell.firstOnRow row
    let later := scan.startingAt row
    let sources := reached.supply.only reached.scanner.goesOnWith
    (∀ part ∈ reached.supply.stock scan.request, reached.scanner.goesOnWith part.rank = true ∨
      (Scanning.mk scanner start).WasPast steps part.cells) ∧
    (reached.supply.Sound family.name scan.request →
      (reached.scanner.seek (some reached.supply) key).value.1.isOk = true) ∧
    ∀ found after,
      (reached.scanner.seek (some reached.supply) key).value = (.ok found, after) →
      after.peek = (keys.skipTo key (sources.cells scan.request)).head? ∧
      (reached.supply.Orderly family.name later.request →
        reached.supply.AgreesFrom key scan.request later.request →
        (∀ first ∈ after.peek, reached.scanner.IsNewIn family scan first.row) →
        ∃ total,
          after.ReadsTo (reached.supply.Sound family.name scan.request) reached.supply total ∧
          (∀ number fresh, (Scanner.open family sources number later).value = .ok fresh →
            fresh.ReadsTo (sources.Sound family.name later.request) sources total) ∧
          (sources.Sound family.name later.request → ∀ number,
            ∃ fresh, (Scanner.open family sources number later).value = .ok fresh)) := by
  intro key later sources
  have hbegins : (Scanning.mk scanner start).Draws family scan :=
    ⟨hstart, drawsOn_of_open hscan.wellFormed hscan.order hstart hopen⟩
  obtain ⟨hsupply, hscanner⟩ := hreached ▸ hbegins.after hscan.filter hsteps
  have hpast := hreached ▸ hbegins.goesOn_or_wasPast hscan.filter hsteps fun _ hpart =>
    accountsFor_of_open hstart hscan.order hopen hpart
  refine ⟨hpast, fun hsure => seek_isOk hscanner hsure key, fun found after hseek => ?_⟩
  obtain ⟨merge, hactive, hmatcher, hstream⟩ := seek_reaches hscanner hunclosed hsupply hseek
  have hafter : after.DrawsOn family scan reached.supply := by
    have hsought := hscanner.seek hsupply key
    rw [hseek] at hsought
    exact hsought
  have hpeek : after.peek = (keys.skipTo key (sources.cells scan.request)).head? := by
    rw [peek, hactive, ← hstream]
    exact (hafter.merge merge hactive).carries.sound.peek_eq
  refine ⟨hpeek, fun hlater hagrees hnew => ?_⟩
  -- both scans gather the same cells: the first matcher of the later one differs from the first
  -- matcher of this one in where its rows begin only, and nothing ahead lies before that
  have hlaterScan := hscan.startingAt row
  have hsteady := hlaterScan.steady
  have hsources := hsupply.only reached.scanner.goesOnWith
  have hlaterSources := hlater.only reached.scanner.goesOnWith
  have hprimed := hscan.primed_from (sources.cells_sorted scan.request) hsources.stored_cells hrow
  have hsame : keys.skipTo key (sources.cells scan.request) =
      keys.skipTo key (sources.cells later.request) :=
    hagrees.skipTo_cells_only hsupply hlater reached.scanner.goesOnWith
  have hgathered := hscan.gather_from (sources.cells_sorted later.request)
    hlaterSources.stored_cells hrow
  refine ⟨(Matcher.ofScan family scan).gather (keys.skipTo key (sources.cells scan.request)), ?_,
    fun number fresh hfresh => ?_, fun hsure => open_succeeds hsteady hsure⟩
  · apply hafter.readsTo hscan hbatch hactive hstream hprimed
    rw [← hpeek]
    intro first hfirst
    rw [IsNewIn, hmatcher]
    exact hnew first hfirst
  · obtain ⟨hsize, howes⟩ := open_owes hlaterScan.wellFormed hlaterScan.order hsteady hlaterSources
      hfresh
    rw [hsame, ← hgathered]
    exact howes.readsTo hsteady (hsize ▸ hbatch)

/-- Two rows were read when the scan is taken back to the first one, and hands it out again. -/
theorem seek_starts_over_of_script :
    let family : Family := { name := [102], clock := .manual .oldest }
    let scan : Scan AnyFilter := {}
    let first := Cell.put [113] [102] [99] ⟨1⟩ [1]
    let second := Cell.put [114] [102] [99] ⟨1⟩ [1]
    let third := Cell.put [115] [102] [99] ⟨1⟩ [1]
    let script : SourceScript := { sequenceId := 1, cells := [first, second, third] }
    let supply : Supply ScriptedSource := fun _ => .ok [script.open .keys 0]
    ∃ scanner, (Scanner.open family supply 0 scan).value = .ok scanner ∧
      let reached := (Scanning.mk scanner supply).after [.read .ofScan, .read .ofScan]
      let sources := supply.only reached.scanner.goesOnWith
      let outcome := (reached.scanner.seek (some supply) (Cell.firstOnRow [113])).value
      reached.scanner.peek = some third ∧ outcome.1.isOk = true ∧ outcome.2.peek = some first ∧
        ∃ total, outcome.2.ReadsTo True supply total ∧
          ∃ fresh, (Scanner.open family sources 1 (scan.startingAt [113])).value = .ok fresh ∧
            fresh.ReadsTo True sources total := by
  intro family scan first second third script supply
  have hscan : scan.Unfiltered family :=
    ⟨⟨List.Pairwise.nil, Nat.le_refl 1⟩, Nat.le_refl 1, rfl, rfl⟩
  have hsupply (request : SourceRequest) : supply.Sound family.name request :=
    script.sound ⟨rfl, rfl⟩ (by decide) (by decide) _
  have hsteps : ∀ other : Supply ScriptedSource,
      .change other ∈ [ScanStep.read ReadLimit.ofScan, .read .ofScan] →
        other.Orderly family.name scan.request := by
    intro other hother
    simp at hother
  refine ⟨_, rfl, ?_⟩
  intro reached sources outcome
  have hnew : reached.scanner.IsNewIn family scan first.row := .inl (by decide)
  have hpeek : outcome.2.peek = some first := by decide
  obtain ⟨-, hisOk, hsought⟩ := seek_starts_over hscan nofun (hsupply _).orderly rfl hsteps rfl
    (by decide : reached.scanner.isClosed = false) (by decide : scan.rows.startsAfter [113] = false)
  have hisOk : outcome.1.isOk = true := hisOk (hsupply _)
  refine ⟨by decide, hisOk, hpeek, ?_⟩
  cases houtcome : outcome with
  | mk result after =>
      rw [houtcome] at hisOk hpeek
      cases result with
      | error failure => cases hisOk
      | ok found =>
          obtain ⟨total, hreads, hfresh, hopens⟩ :=
            (hsought found after houtcome).2 (hsupply _).orderly (.refl _) (by
              rw [hpeek]
              rintro _ ⟨⟩
              exact hnew)
          obtain ⟨fresh, hopen⟩ := hopens ((hsupply _).only _) 1
          exact ⟨total, hreads.of_sure (hsupply _) True, fresh, hopen,
            (hfresh 1 fresh hopen).of_sure ((hsupply _).only _) True⟩

/-- A source that has run dry is not taken up again by a seek, and the row that is being read is
not handed out again. -/
theorem seek_does_not_start_over :
    let family : Family := { name := [102], clock := .manual .oldest }
    let scan : Scan AnyFilter := {}
    let first := Cell.put [114] [102] [99] ⟨1⟩ [1]
    let second := Cell.put [115] [102] [99] ⟨1⟩ [1]
    let fresher : SourceScript := { sequenceId := 2, cells := [first] }
    let staler : SourceScript := { sequenceId := 1, cells := [second] }
    let both : SourceScript := { sequenceId := 1, cells := [first, second] }
    let apart : Supply ScriptedSource := fun _ => .ok [fresher.open .keys 0, staler.open .keys 1]
    let together : Supply ScriptedSource := fun _ => .ok [both.open .keys 0]
    let key := Cell.firstOnRow [114]
    (∃ scanner, (Scanner.open family apart 0 scan).value = .ok scanner ∧
      let reached := (Scanning.mk scanner apart).after [.read .ofScan]
      let outcome := (reached.scanner.seek (some apart) key).value
      outcome.1.isOk = true ∧ first ∈ apart.cells scan.request ∧
        Cell.compareKeys key first = .lt ∧ Cell.compareKeys first second = .lt ∧
        outcome.2.peek = some second) ∧
    ∃ scanner, (Scanner.open family together 0 scan).value = .ok scanner ∧
      let reached := (Scanning.mk scanner together).after [.read .ofScan]
      let outcome := (reached.scanner.seek (some together) key).value
      let reads := List.replicate 3 (ScanEvent.read .ofScan)
      outcome.1.isOk = true ∧ outcome.2.peek = some first ∧
        (outcome.2.run reads together).map Except.toOption =
          [some ⟨[], true⟩, some ⟨[second], true⟩, some ⟨[], false⟩] ∧
        ∃ fresh, (Scanner.open family together 1 (scan.startingAt [114])).value = .ok fresh ∧
          (fresh.run reads together).map Except.toOption =
            [some ⟨[first], true⟩, some ⟨[second], true⟩, some ⟨[], false⟩] := by
  intro family scan first second fresher staler both apart together key
  have hfirst : first ∈ apart.cells scan.request :=
    mem_merged.mpr ⟨⟨2, [first]⟩, List.mem_cons_self, List.mem_cons_self⟩
  exact ⟨⟨_, rfl, by decide, hfirst, by decide, by decide, by decide⟩,
    _, rfl, by decide, by decide, by decide, _, rfl, by decide⟩

end Scanner

end MergeScan
